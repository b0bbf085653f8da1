import Malloy.Core.Html.Populate

/-!
# `malloy::html::form_data` (`core/html/form_data.cpp`): a submission, read by name

An application reads a submission by the names of the fields of its form, and may show the form
again with what was entered (`populate`). The two go different ways over the parsed fields:
`content` takes the first one of a name, `populate` the last one.

* `FormData.content`, and the other functions that look a field up.
* `Form.submitted`: what a browser sends of a form. `parsedField` keeps the encoding of a name, so
  the value of a field may even arrive under the name of another field of the form.
* `unencoded_of_delivered`: if every value arrives under the name of its field, it does not come
  from another field.
* `read_by_name_iff`: when an URL-encoded submission is read as it was entered, and shown as it was.
-/

namespace Malloy
namespace Html

open Http Lib

def FormFieldData.hasData (ffd : FormFieldData) : Bool := !ffd.content.isEmpty

namespace FormData

def fieldByName (data : FormData) (fieldName : Str) : Option FormFieldData :=
  data.find? fun ef => ef.name = fieldName

def hasData (data : FormData) (fieldName : Str) : Bool := (data.fieldByName fieldName).isSome

def hasContent (data : FormData) (fieldName : Str) : Bool :=
  -- Retrieve field
  match data.fieldByName fieldName with
  | none => false
  -- Check if field data has content
  | some field => field.hasData

def content (data : FormData) (fieldName : Str) : Option Str :=
  -- Retrieve field
  match data.fieldByName fieldName with
  | none => none
  | some field =>
    -- Check whether there is any content
    if !field.hasData then none
    -- Return content
    else some field.content

variable {data : FormData} {d : FormFieldData} {name c : Str}

/-- A field has content if `content` returns it. -/
theorem hasContent_eq (data : FormData) (name : Str) :
    data.hasContent name = (data.content name).isSome := by
  unfold hasContent content
  cases data.fieldByName name with
  | none => rfl
  | some field =>
    dsimp only
    cases field.hasData <;> rfl

theorem content_eq_some_iff :
    data.content name = some c ↔
      c ≠ [] ∧ ∃ field, data.fieldByName name = some field ∧ field.content = c := by
  unfold content
  cases data.fieldByName name with
  | none => simp
  | some field =>
    cases hc : field.content <;> simp [FormFieldData.hasData, hc, eq_comm]
    rintro rfl
    exact List.cons_ne_nil _ _

end FormData

/-! ## What a browser sends of a form -/

section

variable {x : Str}

theorem space_not_mem_encodeText : byte ' ' ∉ encodeText x := by
  intro hm
  obtain ⟨c, -, hc⟩ := List.mem_flatMap.mp hm
  exact forall_byte (P := fun c => byte ' ' ∉ encodeByte c) (by decide +kernel) c hc

/-- A text that stays as long as it is has only literal characters and spaces. -/
theorem literal_of_length_encodeText (hlen : (encodeText x).length = x.length)
    (hspace : byte ' ' ∉ x) : ∀ c ∈ x, literal c = true := by
  induction x with
  | nil => exact fun c hc => absurd hc List.not_mem_nil
  | cons c x ih =>
    rw [List.mem_cons, not_or] at hspace
    rw [encodeText, List.flatMap_cons, List.length_append, List.length_cons] at hlen
    have hle := length_le_encodeText x
    rw [encodeText] at hle
    have hpos := List.length_pos_iff.mpr (encodeByte_ne_nil c)
    refine List.forall_mem_cons.mpr ⟨?_, ih ?_ hspace.2⟩
    · cases hc : literal c with
      | true => rfl
      | false =>
        rw [encodeByte, if_neg (by simp [hc]), if_neg (Ne.symm hspace.1)] at hlen
        simp only [List.length_cons, List.length_nil] at hlen
        omega
    · rw [encodeText]
      omega

end

namespace Form

variable {f : Form} {entered : Str → Str} {req : Request} {field : FormField} {d : FormFieldData}

/-- The names of the fields, each with what was entered there. -/
def submitted (f : Form) (entered : Str → Str) : List (Str × Str) :=
  f.fields.map fun field => (field.name, entered field.name)

/-- What is parsed from the submission. -/
def arrived (f : Form) (entered : Str → Str) : FormData :=
  (f.submitted entered).filterMap parsedField

theorem mem_arrived : d ∈ f.arrived entered ↔ ∃ field ∈ f.fields, entered field.name ≠ [] ∧
    d = { name := encodeText field.name, content := (entered field.name).map Html.received } := by
  unfold arrived submitted
  rw [List.filterMap_map, List.mem_filterMap]
  refine exists_congr fun field => and_congr_right fun _ => ?_
  rw [Function.comp_apply, parsedField]
  split
  · rename_i hv
    exact iff_of_false (fun h => by cases h) fun h => h.1 hv
  · rename_i hv
    rw [Option.some.injEq, eq_comm]
    exact ⟨fun h => ⟨hv, h⟩, fun h => h.2⟩

/-- Everything that was entered arrives under the name of its field. -/
def Delivered (f : Form) (entered : Str → Str) : Prop :=
  ∀ field ∈ f.fields, entered field.name ≠ [] →
    ∃ d ∈ f.arrived entered, d.name = field.name ∧ d.content = entered field.name

/-- The names of the fields that were filled in stand for themselves, and what was entered has no
space. -/
def Unencoded (f : Form) (entered : Str → Str) : Prop :=
  ∀ field ∈ f.fields, entered field.name ≠ [] →
    (∀ c ∈ field.name, literal c = true) ∧ byte ' ' ∉ entered field.name

/-- Where a value arrives, there is a field whose encoded name is the name. -/
theorem Delivered.sender (h : f.Delivered entered) (hm : field ∈ f.fields)
    (hv : entered field.name ≠ []) : ∃ field' ∈ f.fields, entered field'.name ≠ [] ∧
      encodeText field'.name = field.name ∧
      (entered field'.name).map Html.received = entered field.name := by
  obtain ⟨d, hd, hname, hcontent⟩ := h field hm hv
  obtain ⟨field', hm', hv', rfl⟩ := mem_arrived.mp hd
  exact ⟨field', hm', hv', hname, hcontent⟩

/-- **A value that arrives under the name of its field is not that of another field.** The field
that it comes from has a shorter name, or one with a space, where nothing arrives. -/
theorem unencoded_of_delivered (h : f.Delivered entered) : f.Unencoded entered := by
  have hnames : ∀ n : Nat, ∀ field ∈ f.fields, entered field.name ≠ [] → field.name.length = n →
      ∀ c ∈ field.name, literal c = true := by
    intro n
    induction n using Nat.strongRecOn with
    | ind n ih =>
      intro field hm hv hn
      obtain ⟨field', hm', hv', hname, -⟩ := h.sender hm hv
      have hle := length_le_encodeText field'.name
      have hlit : ∀ c ∈ field'.name, literal c = true := by
        rcases Nat.lt_or_eq_of_le hle with hlt | heq
        · rw [hname, hn] at hlt
          exact ih _ hlt field' hm' hv' rfl
        · obtain ⟨field'', -, -, hname', -⟩ := h.sender hm' hv'
          exact literal_of_length_encodeText heq.symm (hname' ▸ space_not_mem_encodeText)
      rw [encodeText_eq_self_iff.mpr hlit] at hname
      exact hname ▸ hlit
  intro field hm hv
  have hlit := hnames _ field hm hv rfl
  obtain ⟨field', hm', hv', hname, hcontent⟩ := h.sender hm hv
  rw [encodeText_eq_self_iff.mpr (hnames _ field' hm' hv' rfl)] at hname
  rw [hname] at hcontent
  exact ⟨hlit, received_eq_self_iff.mp hcontent⟩

/-! ## What arrives unencoded -/

theorem mem_arrived_of_unencoded (h : f.Unencoded entered) :
    d ∈ f.arrived entered ↔ ∃ field ∈ f.fields, entered field.name ≠ [] ∧
      d = { name := field.name, content := entered field.name } := by
  rw [mem_arrived]
  refine exists_congr fun field => and_congr_right fun hm => and_congr_right fun hv => ?_
  rw [encodeText_eq_self_iff.mpr (h field hm hv).1, received_eq_self_iff.mpr (h field hm hv).2]

/-- The parsed fields have different names, as those of the form do. -/
theorem nodup_arrived (h : f.Unencoded entered) :
    ((f.arrived entered).map FormFieldData.name).Nodup := by
  have hsub : ∀ fields : List FormField, (∀ field ∈ fields, entered field.name ≠ [] →
      (∀ c ∈ field.name, literal c = true) ∧ byte ' ' ∉ entered field.name) →
      (((fields.map fun field => (field.name, entered field.name)).filterMap parsedField).map
        FormFieldData.name).Sublist (fields.map FormField.name) := by
    intro fields
    induction fields with
    | nil => exact fun _ => .slnil
    | cons field fields ih =>
      intro hall
      obtain ⟨hfield, hall⟩ := List.forall_mem_cons.mp hall
      have ih := ih hall
      rw [List.map_cons, List.filterMap_cons, List.map_cons]
      by_cases hv : entered field.name = []
      · rw [parsedField, if_pos hv]
        exact ih.cons _
      · rw [parsedField, if_neg hv, encodeText_eq_self_iff.mpr (hfield hv).1]
        exact ih.cons_cons _
  exact f.nodup.sublist (hsub f.fields h)

/-- A field that was left empty has not arrived. -/
theorem name_ne_of_mem_arrived (h : f.Unencoded entered) (hd : d ∈ f.arrived entered)
    (hv : entered field.name = []) : d.name ≠ field.name := by
  obtain ⟨field', -, hv', rfl⟩ := (mem_arrived_of_unencoded h).mp hd
  intro he
  have he : field'.name = field.name := he
  rw [he] at hv'
  exact hv' hv

theorem content_arrived (h : f.Unencoded entered) (hm : field ∈ f.fields) :
    (f.arrived entered).content field.name =
      if entered field.name = [] then none else some (entered field.name) := by
  split
  · rename_i hv
    have hnone : (f.arrived entered).fieldByName field.name = none :=
      List.find?_eq_none.mpr fun d hd => by simpa using name_ne_of_mem_arrived h hd hv
    unfold FormData.content
    rw [hnone]
  · rename_i hv
    have hd := (mem_arrived_of_unencoded h).mpr ⟨field, hm, hv, rfl⟩
    exact FormData.content_eq_some_iff.mpr ⟨hv, _, find?_key (nodup_arrived h) hd, rfl⟩

theorem lastContent_arrived (h : f.Unencoded entered) (hm : field ∈ f.fields) :
    lastContent (f.arrived entered) field.name =
      if entered field.name = [] then none else some (entered field.name) := by
  unfold lastContent
  split
  · rename_i hv
    rw [List.filter_eq_nil_iff.mpr]
    · rfl
    · intro d hd
      simp [name_ne_of_mem_arrived h hd hv]
  · rename_i hv
    have hd := (mem_arrived_of_unencoded h).mpr ⟨field, hm, hv, rfl⟩
    have hskip : ∀ ffd ∈ f.arrived entered,
        decide (ffd.name = field.name ∧ ¬ ffd.Skipped) = decide (ffd.name = field.name) := by
      intro ffd hffd
      obtain ⟨field', -, -, rfl⟩ := mem_arrived.mp hffd
      refine decide_eq_decide.mpr (and_iff_left ?_)
      rintro (ht | ht)
      · exact absurd (show ([] : Str) = lit "password" from ht) (by decide)
      · exact absurd (show ([] : Str) = lit "file" from ht) (by decide)
    have hone := filter_key (nodup_arrived h) hd
    rw [List.filter_congr hskip, hone]
    rfl

/-! ## Reading by name, and showing again -/

/-- The application reads what was entered. -/
def ReadsEntered (f : Form) (entered : Str → Str) (data : FormData) : Prop :=
  ∀ field ∈ f.fields, data.content field.name =
    if entered field.name = [] then none else some (entered field.name)

/-- The form shows what was entered. -/
def ShowsEntered (f : Form) (entered : Str → Str) : Prop :=
  ∀ field ∈ f.fields, field.value = entered field.name

theorem readsEntered_iff : f.ReadsEntered entered (f.arrived entered) ↔ f.Unencoded entered := by
  refine ⟨fun h => unencoded_of_delivered fun field hm hv => ?_, fun h field hm =>
    content_arrived h hm⟩
  have hcontent := h field hm
  rw [if_neg hv] at hcontent
  obtain ⟨-, d, hd, hc⟩ := FormData.content_eq_some_iff.mp hcontent
  exact ⟨d, List.mem_of_find?_eq_some hd, by simpa using List.find?_some hd, hc⟩

theorem showsEntered_iff (hvalues : ∀ field ∈ f.fields, field.value = []) :
    (f.populated (f.arrived entered)).ShowsEntered entered ↔ f.Unencoded entered := by
  have hshows : (f.populated (f.arrived entered)).ShowsEntered entered ↔ ∀ field ∈ f.fields,
      (lastContent (f.arrived entered) field.name).getD field.value = entered field.name :=
    List.forall_mem_map
  rw [hshows]
  refine ⟨fun h => unencoded_of_delivered fun field hm hv => ?_, fun h field hm => ?_⟩
  · have hlast := h field hm
    rw [hvalues field hm] at hlast
    cases hl : lastContent (f.arrived entered) field.name with
    | none =>
      rw [hl] at hlast
      exact absurd hlast.symm hv
    | some c =>
      rw [hl] at hlast
      obtain ⟨d, hd, rfl⟩ := Option.map_eq_some_iff.mp hl
      have hmem := List.mem_filter.mp (List.mem_of_getLast? hd)
      exact ⟨d, hmem.1, (by simpa using hmem.2 : d.name = field.name ∧ _).1, hlast⟩
  · rw [lastContent_arrived h hm, hvalues field hm]
    split
    · rename_i hv
      exact hv.symm
    · rfl

/-- **When an URL-encoded form is read by name as it was entered**: exactly if the names of the
fields that were filled in are spelled with characters that stand for themselves, and nothing that
was entered has a space. Exactly then the form, which had no values, shows again what was entered.
-/
theorem read_by_name_iff (h : SubmitsUrlencoded (f.submitted entered) req) :
    ∃ data, parse req = .ok (some data) ∧
      (f.ReadsEntered entered data ↔ f.Unencoded entered) ∧
      ((∀ field ∈ f.fields, field.value = []) → ∃ f', f.populate data = .ok f' ∧
        (f'.ShowsEntered entered ↔ f.Unencoded entered)) := by
  have hnames : ∀ p ∈ f.submitted entered, p.1 ≠ [] := by
    intro p hp
    obtain ⟨field, hm, rfl⟩ := List.mem_map.mp hp
    exact f.name_ne field hm
  exact ⟨f.arrived entered, parse_serialise h hnames, readsEntered_iff, fun hvalues =>
    ⟨_, f.populate_eq _, showsEntered_iff hvalues⟩⟩

/-- A form in which one field has the name that another one is sent under. -/
def twoNames : Form where
  method := .post
  action := lit "/"
  encoding := .url
  fields := [{ name := lit "a b", type := lit "text" }, { name := lit "a+b", type := lit "text" }]
  name_ne := by decide
  nodup := by decide

/-- The value of the first field is read as that of the second one. -/
theorem read_by_name_iff_twoNames :
    (∃ data, parse (urlencoded (twoNames.submitted fun _ => lit "1")) = .ok (some data) ∧
      ¬ twoNames.ReadsEntered (fun _ => lit "1") data) ∧
      (twoNames.arrived fun _ => lit "1").content (lit "a+b") = some (lit "1") := by
  obtain ⟨data, hdata, hreads, -⟩ :=
    @read_by_name_iff twoNames (fun _ => lit "1")
      (urlencoded (twoNames.submitted fun _ => lit "1")) ⟨rfl, rfl⟩
  refine ⟨⟨data, hdata, fun h => ?_⟩, by decide +kernel⟩
  exact absurd (hreads.mp h) (by unfold Unencoded; decide +kernel)

end Form

end Html
end Malloy
