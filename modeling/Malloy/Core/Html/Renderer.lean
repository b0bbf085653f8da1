import Malloy.Core.Html.Populate

/-!
# `malloy::html::form_renderer_basic` (`core/html/form_renderer.cpp`)

The renderer writes the members of the fields between quotation marks and tags as they are.

* `Form.render`: the HTML of a form.
* `Form.secrets_kept_iff`: when data that is submitted for a password or a file is not echoed.
* `Form.count_render`: what is submitted adds its own characters to the HTML, and
  `Form.markup_kept_iff`: when two submissions give the same markup.
-/

namespace Malloy
namespace Html

open Http Lib

/-! ## Rendering -/

def FormField.render (field : FormField) : Str :=
  if field.type = lit "submit" then
    lit "  <button type=\"submit\">" ++ field.name ++ lit "</button>"
  else
    (if field.label ≠ [] then
      lit "  <label for=\"" ++ field.htmlId ++ lit "\">" ++ field.label ++ lit "</label>\n"
    else [])
      ++ lit "  <input id=\"" ++ field.htmlId ++ lit "\" type=\"" ++ field.type
      ++ lit "\" name=\"" ++ field.name ++ lit "\" placeholder=\"" ++ field.placeholder
      ++ lit "\" value=\"" ++ field.value ++ lit "\"/>\n"

namespace Form

/-- `form_renderer_basic::render(f)`. -/
def render (f : Form) : Str :=
  lit "<form method=\"" ++ f.method.toStr ++ lit "\" action=\"" ++ f.action
    ++ lit "\" enctype=\"" ++ encodingToString f.encoding ++ lit "\">\n"
    ++ f.fields.flatMap FormField.render ++ lit "</form>"

end Form

/-! ## Passwords and files -/

/-- A field whose data is not to be echoed. -/
def FormField.Secret (field : FormField) : Prop :=
  field.type = lit "password" ∨ field.type = lit "file"

instance (field : FormField) : Decidable field.Secret := inferInstanceAs (Decidable (_ ∨ _))

namespace Form

/-- The value of the field of this name. -/
def valueOf (f : Form) (name : Str) : Option Str :=
  (f.fields.find? fun field => field.name = name).map FormField.value

/-- Two submissions differ in the contents that were submitted for passwords and files. -/
def AgreeElsewhere (f : Form) (d₁ d₂ : FormData) : Prop :=
  List.Forall₂ (fun e₁ e₂ => e₁ = e₂ ∨
    (∃ field ∈ f.fields, field.name = e₁.name ∧ field.Secret) ∧
      e₂ = { e₁ with content := e₂.content }) d₁ d₂

/-- The passwords and files have the values that they had. -/
def SecretsKept (f f' : Form) : Prop :=
  ∀ field ∈ f.fields, field.Secret → f'.valueOf field.name = some field.value

/-- Nothing new is submitted for a password or a file, except in skipped entries. -/
def NoNewSecrets (f : Form) (data : FormData) : Prop :=
  ∀ field ∈ f.fields, field.Secret →
    lastContent data field.name = none ∨ lastContent data field.name = some field.value

instance (f : Form) (data : FormData) : Decidable (NoNewSecrets f data) :=
  inferInstanceAs (Decidable (∀ field ∈ f.fields, field.Secret →
    lastContent data field.name = none ∨ lastContent data field.name = some field.value))

section

variable {f : Form} {d₁ d₂ data : FormData} {field : FormField} {name : Str}

theorem valueOf_of_mem (h : field ∈ f.fields) : f.valueOf field.name = some field.value := by
  rw [valueOf, find?_key f.nodup h, Option.map_some]

theorem valueOf_populated (h : field ∈ f.fields) (data : FormData) :
    (f.populated data).valueOf field.name =
      some ((lastContent data field.name).getD field.value) := by
  have hm : field.received data ∈ (f.populated data).fields := List.mem_map_of_mem h
  exact valueOf_of_mem hm

/-- The other fields get the same contents. -/
theorem AgreeElsewhere.lastContent_eq (h : AgreeElsewhere f d₁ d₂)
    (hname : ¬ ∃ field ∈ f.fields, field.name = name ∧ field.Secret) :
    lastContent d₁ name = lastContent d₂ name := by
  induction h with
  | nil => rfl
  | @cons e₁ e₂ d₁ d₂ he _ ih =>
    rw [lastContent_cons, lastContent_cons, ih]
    rcases he with rfl | ⟨⟨field, hm, hfield, hsecret⟩, he⟩
    · rfl
    · have hne : e₁.name ≠ name := fun hn => hname ⟨field, hm, hfield.trans hn, hsecret⟩
      have hne' : e₂.name ≠ name := by rwa [he]
      rw [if_neg fun h => hne h.1, if_neg fun h => hne' h.1]

theorem secretsKept_iff (f : Form) (data : FormData) :
    SecretsKept f (f.populated data) ↔ NoNewSecrets f data := by
  refine forall₂_congr fun field hm => forall_congr' fun _ => ?_
  rw [valueOf_populated hm]
  cases lastContent data field.name <;> simp

/-- **When passwords and files are not echoed**: exactly if nothing new is submitted for them. -/
theorem secrets_kept_iff (h : AgreeElsewhere f d₁ d₂) :
    (∃ f₁ f₂, f.populate d₁ = .ok f₁ ∧ f.populate d₂ = .ok f₂ ∧ f₁ = f₂ ∧ f₁.render = f₂.render ∧
      SecretsKept f f₁ ∧ SecretsKept f f₂) ↔ NoNewSecrets f d₁ ∧ NoNewSecrets f d₂ := by
  rw [populate_both_iff, ← secretsKept_iff, ← secretsKept_iff]
  constructor
  · exact fun h => h.2.2
  · rintro ⟨hkept₁, hkept₂⟩
    have heq : f.populated d₁ = f.populated d₂ := by
      refine Form.ext rfl rfl rfl (List.map_congr_left fun field hm => ?_)
      unfold FormField.received
      congr 1
      by_cases hsecret : field.Secret
      · have hvalue₁ := (valueOf_populated hm d₁).symm.trans (hkept₁ field hm hsecret)
        have hvalue₂ := (valueOf_populated hm d₂).symm.trans (hkept₂ field hm hsecret)
        exact Option.some.inj (hvalue₁.trans hvalue₂.symm)
      · have hother : ¬ ∃ field' ∈ f.fields, field'.name = field.name ∧ field'.Secret := by
          rintro ⟨field', hm', hname, hsecret'⟩
          rw [List.inj_on_of_nodup_map f.nodup hm' hm hname] at hsecret'
          exact hsecret hsecret'
        rw [h.lastContent_eq hother]
    exact ⟨heq, congrArg render heq, hkept₁, hkept₂⟩

end

/-- A form with a field for a name and one for a password. -/
def login : Form :=
  (((new .post (lit "/login") .url).addField { name := lit "user", type := lit "text" }).1.addField
    { name := lit "pass", type := lit "password" }).1

/-- The entries of a submission of this password. -/
def entered (type pass : Str) : FormData :=
  [{ name := lit "user", content := lit "me" },
    { name := lit "pass", type := type, content := pass }]

theorem agreeElsewhere_entered (type p₁ p₂ : Str) :
    AgreeElsewhere login (entered type p₁) (entered type p₂) := by
  have hfield : ∃ field ∈ login.fields, field.name = lit "pass" ∧ field.Secret := by
    decide +kernel
  exact .cons (.inl rfl) (.cons (.inr ⟨hfield, rfl⟩) .nil)

/-- A part of type `password` is skipped. -/
theorem secrets_kept_iff_skipped :
    ∃ f₁ f₂, login.populate (entered (lit "password") (lit "1234")) = .ok f₁ ∧
      login.populate (entered (lit "password") (lit "abcd")) = .ok f₂ ∧ f₁ = f₂ ∧
      f₁.render = f₂.render ∧ SecretsKept login f₁ ∧ SecretsKept login f₂ :=
  (secrets_kept_iff (agreeElsewhere_entered _ _ _)).mpr (by decide +kernel)

/-- A submitted password becomes the value of its field. -/
theorem password_echoed :
    parse (urlencoded [(lit "user", lit "me"), (lit "pass", lit "1234")]) =
        .ok (some (entered [] (lit "1234"))) ∧
      AgreeElsewhere login (entered [] (lit "1234")) (entered [] (lit "abcd")) ∧
      ¬ ∃ f₁ f₂, login.populate (entered [] (lit "1234")) = .ok f₁ ∧
        login.populate (entered [] (lit "abcd")) = .ok f₂ ∧ f₁ = f₂ ∧ f₁.render = f₂.render ∧
        SecretsKept login f₁ ∧ SecretsKept login f₂ := by
  refine ⟨by decide +kernel, agreeElsewhere_entered _ _ _, ?_⟩
  rw [populate_both_iff]
  rintro ⟨heq, -⟩
  have hvalue := congrArg (·.valueOf (lit "pass")) heq
  revert hvalue
  decide +kernel

/-! ## Markup -/

/-- The field is one of those whose value `populate` sets. -/
def Populates (data : FormData) (field : FormField) : Prop :=
  ∃ ffd ∈ data, ffd.name = field.name ∧ ¬ ffd.Skipped

instance (data : FormData) (field : FormField) : Decidable (Populates data field) :=
  inferInstanceAs (Decidable (∃ ffd ∈ data, ffd.name = field.name ∧ ¬ ffd.Skipped))

/-- The content that is shown in this field. A button shows none. -/
def shownContent (data : FormData) (field : FormField) : Option Str :=
  if field.type = lit "submit" then none else lastContent data field.name

/-- The contents that are shown in the fields, in order. -/
def shown (f : Form) (data : FormData) : List Str := f.fields.filterMap (shownContent data)

/-- The same submission with empty contents. -/
def blanked (data : FormData) : FormData := data.map fun ffd => { ffd with content := [] }

section

variable {f : Form} {d₁ d₂ : FormData} {name : Str}

theorem lastContent_blanked (data : FormData) (name : Str) :
    lastContent (blanked data) name = (lastContent data name).map fun _ => [] := by
  induction data with
  | nil => rfl
  | cons ffd data ih =>
    have hcons : blanked (ffd :: data) = { ffd with content := [] } :: blanked data := rfl
    rw [hcons, lastContent_cons, lastContent_cons, ih]
    have hskip : FormFieldData.Skipped { ffd with content := [] } ↔ ffd.Skipped := Iff.rfl
    simp only [hskip]
    split <;> cases lastContent data name <;> rfl

theorem populates_iff (data : FormData) (field : FormField) :
    Populates data field ↔ (lastContent data field.name).isSome = true := by
  induction data with
  | nil => simp [Populates, lastContent]
  | cons ffd data ih =>
    rw [lastContent_cons, Option.isSome_or, Bool.or_eq_true, ← ih]
    unfold Populates
    rw [List.exists_mem_cons_iff, or_comm]
    refine or_congr_right ?_
    split <;> simp_all

/-- A value is rendered as it is, unless the field is a button. -/
theorem count_render_value (c : UInt8) (field : FormField) (value : Str) :
    ({ field with value := value } : FormField).render.count c =
      ({ field with value := [] } : FormField).render.count c +
        if field.type = lit "submit" then 0 else value.count c := by
  unfold FormField.render FormField.htmlId
  dsimp only
  split
  · rfl
  · simp only [List.count_append, List.count_nil]
    omega

/-- **What a field adds to the HTML.** -/
theorem count_render_received (c : UInt8) (field : FormField) (data : FormData) :
    (field.received data).render.count c = (field.received (blanked data)).render.count c +
      ((shownContent data field).getD []).count c := by
  unfold FormField.received shownContent
  rw [lastContent_blanked]
  cases lastContent data field.name with
  | none =>
    rw [ite_self]
    rfl
  | some content =>
    rw [Option.map_some, Option.getD_some, Option.getD_some, count_render_value]
    split <;> rfl

theorem count_render_fields (c : UInt8) (data : FormData) (fields : List FormField) :
    ((fields.map (·.received data)).flatMap FormField.render).count c =
      ((fields.map (·.received (blanked data))).flatMap FormField.render).count c +
        (fields.filterMap (shownContent data)).flatten.count c := by
  induction fields with
  | nil => rfl
  | cons field fields ih =>
    simp only [List.map_cons, List.flatMap_cons, List.count_append, List.filterMap_cons, ih,
      count_render_received c field data]
    cases shownContent data field with
    | none =>
      simp only [Option.getD_none, List.count_nil]
      omega
    | some content =>
      simp only [Option.getD_some, List.flatten_cons, List.count_append]
      omega

/-- **What a submission adds to the HTML**: each character that is shown, as often as it is. -/
theorem count_render (c : UInt8) (f : Form) (data : FormData) :
    (f.populated data).render.count c =
      (f.populated (blanked data)).render.count c + (f.shown data).flatten.count c := by
  have hfields := count_render_fields c data f.fields
  unfold render populated mapFields shown
  simp only [List.count_append, hfields]
  omega

/-- **When two submissions give the same markup**: exactly if the contents that are shown have as
many `<`, `>` and quotation marks. -/
theorem markup_kept_iff (h : ∀ field ∈ f.fields, Populates d₁ field ↔ Populates d₂ field) :
    (∃ f₁ f₂, f.populate d₁ = .ok f₁ ∧ f.populate d₂ = .ok f₂ ∧
      ∀ c ∈ lit "<>\"", f₁.render.count c = f₂.render.count c) ↔
      ∀ c ∈ lit "<>\"", (f.shown d₁).flatten.count c = (f.shown d₂).flatten.count c := by
  have hblank : f.populated (blanked d₁) = f.populated (blanked d₂) := by
    refine Form.ext rfl rfl rfl (List.map_congr_left fun field hm => ?_)
    have hsome := h field hm
    rw [populates_iff, populates_iff] at hsome
    unfold FormField.received
    rw [lastContent_blanked, lastContent_blanked]
    cases h₁ : lastContent d₁ field.name <;> cases h₂ : lastContent d₂ field.name <;>
      simp_all
  rw [populate_both_iff]
  refine forall₂_congr fun c _ => ?_
  rw [count_render, count_render c f d₂, hblank]
  exact Nat.add_left_cancel_iff

end

/-- A form with one field. -/
def search : Form := ((new .get (lit "/") .url).addField { name := lit "q", type := lit "text" }).1

theorem markup_kept_iff_quotes :
    ∃ f₁ f₂, search.populate [{ name := lit "q", content := lit "\"" }] = .ok f₁ ∧
      search.populate [{ name := lit "q", content := lit "say \"hi" }] = .ok f₂ ∧
      ∀ c ∈ lit "<>\"", f₁.render.count c = f₂.render.count c :=
  (markup_kept_iff (by decide +kernel)).mpr (by decide +kernel)

/-- A submitted tag becomes part of the form. -/
theorem tag_injected :
    parse (urlencoded [(lit "q", lit "\"><b>")]) =
        .ok (some [{ name := lit "q", content := lit "\"><b>" }]) ∧
      (∀ field ∈ search.fields, Populates [{ name := lit "q", content := lit "\"><b>" }] field ↔
        Populates [{ name := lit "q", content := lit "b" }] field) ∧
      ¬ ∃ f₁ f₂, search.populate [{ name := lit "q", content := lit "\"><b>" }] = .ok f₁ ∧
        search.populate [{ name := lit "q", content := lit "b" }] = .ok f₂ ∧
        ∀ c ∈ lit "<>\"", f₁.render.count c = f₂.render.count c := by
  refine ⟨by decide +kernel, by decide +kernel, ?_⟩
  rw [populate_both_iff]
  decide +kernel

end Form
end Html
end Malloy
