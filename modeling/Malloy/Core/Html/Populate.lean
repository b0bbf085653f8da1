import Malloy.Core.Html.Urlencoded
import Malloy.Lib.KeyMap

/-!
# `malloy::html::form` (`core/html/form.hpp`, `form_field.hpp`): fields and their values

* `Form`: its fields have different names, none of which is empty. `add_field` is the only way to
  add one.
* `Form.populate`: the values of the fields become the contents that were submitted. What is skipped
  is decided by the type of the submitted part, not by that of the field.
* `Form.populate_eq`: a field gets the content of the last entry of its name that is not skipped.
-/

namespace Malloy
namespace Html

open Http Lib

/-! ## Fields -/

/-- `form_field`. -/
structure FormField where
  name : Str
  type : Str
  value : Str := []
  placeholder : Str := []
  label : Str := []
  deriving DecidableEq

/-- The types that `form_field::populate` skips: it compares the type of the data. -/
def FormFieldData.Skipped (data : FormFieldData) : Prop :=
  data.type = lit "password" ∨ data.type = lit "file"

instance (data : FormFieldData) : Decidable data.Skipped := inferInstanceAs (Decidable (_ ∨ _))

namespace FormField

/-- `form_field::populate`. -/
def populate (field : FormField) (data : FormFieldData) : FormField :=
  if data.Skipped then field else { field with value := data.content }

def htmlId (field : FormField) : Str := lit "form-field-" ++ field.name

@[simp] theorem populate_name (field : FormField) (data : FormFieldData) :
    (field.populate data).name = field.name := by
  unfold populate
  split <;> rfl

end FormField

/-! ## Forms -/

/-- `form`. -/
@[ext] structure Form where
  method : Method
  action : Str
  encoding : Encoding
  fields : List FormField
  name_ne : ∀ field ∈ fields, field.name ≠ []
  nodup : (fields.map FormField.name).Nodup

namespace Form

/-- The constructor. -/
def new (method : Method) (action : Str) (encoding : Encoding) : Form where
  method := method
  action := action
  encoding := encoding
  fields := []
  name_ne := fun _ h => by cases h
  nodup := List.nodup_nil

def encodingToString : Encoding → Str
  | .url => lit "application/x-www-form-urlencoded"
  | .multipart => lit "multipart/form-data"
  | .plain => lit "text/plain"

def hasField (f : Form) (fieldName : Str) : Bool :=
  (f.fields.find? fun field => field.name = fieldName).isSome

theorem hasField_iff {f : Form} {fieldName : Str} :
    f.hasField fieldName = true ↔ fieldName ∈ f.fields.map FormField.name := by
  rw [hasField, List.find?_isSome, List.mem_map]
  exact exists_congr fun field => and_congr_right fun _ => decide_eq_true_iff

def fieldFromName (f : Form) (fieldName : Str) : Except Exn FormField :=
  match f.fields.find? fun field => field.name = fieldName with
  | some field => .ok field
  | none => .error (.logicError (lit "field with specified name does not exists."))

/-- `add_field(field)`, and whether the field was added. -/
def addField (f : Form) (field : FormField) : Form × Bool :=
  if hname : field.name = [] then (f, false)
  else if hfield : f.hasField field.name = true then (f, false)
  else
    ({ f with
        fields := f.fields ++ [field]
        name_ne := by
          intro field' hm
          rcases List.mem_append.mp hm with hm | hm
          · exact f.name_ne field' hm
          · rwa [List.mem_singleton.mp hm]
        nodup := by
          rw [List.map_append, List.map_cons, List.map_nil, ← List.concat_eq_append]
          exact f.nodup.concat fun hm => hfield (hasField_iff.mpr hm) }, true)

/-- The field of this name is changed in place. -/
def update (f : Form) (fieldName : Str) (g : FormField → FormField)
    (hg : ∀ field, (g field).name = field.name) : Form :=
  have hnames : (updateKey FormField.name fieldName g f.fields).map FormField.name =
      f.fields.map FormField.name := map_key_updateKey hg
  { f with
    fields := updateKey FormField.name fieldName g f.fields
    name_ne := by
      intro field hm hnil
      have hmem : [] ∈ f.fields.map FormField.name := by
        rw [← hnames, ← hnil]
        exact List.mem_map_of_mem hm
      obtain ⟨field', hm', hnil'⟩ := List.mem_map.mp hmem
      exact f.name_ne field' hm' hnil'
    nodup := by
      rw [hnames]
      exact f.nodup }

/-- One round of `populate`. -/
def populateField (f : Form) (ffd : FormFieldData) : Except Exn Form :=
  -- Find the corresponding field
  if f.hasField ffd.name = true then do
    let _ ← f.fieldFromName ffd.name
    -- Set value
    return f.update ffd.name (·.populate ffd) fun field => field.populate_name ffd
  else .ok f

def populate (f : Form) (data : FormData) : Except Exn Form := data.foldlM populateField f

/-! ## What `populate` does -/

/-- Every field is changed, and keeps its name. -/
def mapFields (f : Form) (g : FormField → FormField) (hg : ∀ field, (g field).name = field.name) :
    Form where
  method := f.method
  action := f.action
  encoding := f.encoding
  fields := f.fields.map g
  name_ne := by
    intro field hm
    obtain ⟨field', hm', rfl⟩ := List.mem_map.mp hm
    rw [hg]
    exact f.name_ne field' hm'
  nodup := by
    have hnames : (f.fields.map g).map FormField.name = f.fields.map FormField.name := by
      rw [List.map_map]
      exact List.map_congr_left fun field _ => hg field
    rw [hnames]
    exact f.nodup

section

variable {f : Form} {data : FormData} {ffd : FormFieldData} {name : Str} {field : FormField}

/-- The content that a field of this name gets: that of the last entry that is not skipped. -/
def lastContent (data : FormData) (name : Str) : Option Str :=
  ((data.filter fun ffd => ffd.name = name ∧ ¬ ffd.Skipped).getLast?).map FormFieldData.content

theorem lastContent_cons : lastContent (ffd :: data) name =
    (lastContent data name).or
      (if ffd.name = name ∧ ¬ ffd.Skipped then some ffd.content else none) := by
  unfold lastContent
  rw [List.filter_cons]
  split
  · rename_i h
    rw [if_pos (by simpa using h), List.getLast?_cons]
    cases (data.filter fun ffd => ffd.name = name ∧ ¬ ffd.Skipped).getLast? <;> rfl
  · rename_i h
    rw [if_neg (by simpa using h), Option.or_none]

end

end Form

/-- The field after the data was received. -/
def FormField.received (field : FormField) (data : FormData) : FormField :=
  { field with value := (Form.lastContent data field.name).getD field.value }

namespace Form

/-- The form after the data was received. -/
def populated (f : Form) (data : FormData) : Form :=
  f.mapFields (·.received data) fun _ => rfl

section

variable {f : Form} {data : FormData} {ffd : FormFieldData} {name : Str} {field : FormField}

theorem received_one (field : FormField) (ffd : FormFieldData) :
    field.received [ffd] = if field.name = ffd.name then field.populate ffd else field := by
  unfold FormField.received FormField.populate
  rw [lastContent_cons]
  by_cases hname : field.name = ffd.name
  · by_cases hskip : ffd.Skipped
    · rw [if_pos hname, if_pos hskip, if_neg fun h => h.2 hskip]
      rfl
    · rw [if_pos hname, if_neg hskip, if_pos ⟨hname.symm, hskip⟩]
      rfl
  · rw [if_neg hname, if_neg fun h => hname h.1.symm]
    rfl

theorem received_cons (field : FormField) (ffd : FormFieldData) (data : FormData) :
    field.received (ffd :: data) = (field.received [ffd]).received data := by
  unfold FormField.received
  rw [lastContent_cons, lastContent_cons]
  cases lastContent data field.name <;> rfl

/-- A field that is not there is not populated; another one is found. -/
theorem populateField_eq (f : Form) (ffd : FormFieldData) :
    f.populateField ffd = .ok (f.populated [ffd]) := by
  unfold populateField
  split
  · rename_i hfield
    obtain ⟨field, hfind⟩ := Option.isSome_iff_exists.mp hfield
    rw [fieldFromName, hfind]
    refine congrArg Except.ok (Form.ext rfl rfl rfl ?_)
    refine (updateKey_eq_map f.nodup).trans (List.map_congr_left fun field _ => ?_)
    rw [received_one]
  · rename_i hfield
    refine congrArg Except.ok (Form.ext rfl rfl rfl ?_)
    refine (List.map_id f.fields).symm.trans (List.map_congr_left fun field hm => ?_)
    rw [received_one, if_neg]
    · rfl
    · intro hname
      exact hfield (hasField_iff.mpr (hname ▸ List.mem_map_of_mem hm))

/-- **What `populate` does**: it does not throw, and each field gets the last content of its
name. -/
theorem populate_eq (f : Form) (data : FormData) : f.populate data = .ok (f.populated data) := by
  induction data generalizing f with
  | nil => exact congrArg Except.ok (Form.ext rfl rfl rfl (List.map_id f.fields).symm)
  | cons ffd data ih =>
    have hcons : f.populate (ffd :: data) = (f.populateField ffd).bind (populate · data) := by
      rw [populate, List.foldlM_cons]
      rfl
    rw [hcons, populateField_eq]
    refine (ih _).trans (congrArg Except.ok (Form.ext rfl rfl rfl ?_))
    refine List.map_map.trans ?_
    exact List.map_congr_left fun field _ => (received_cons field ffd data).symm

/-- What holds of the forms that two submissions give. -/
theorem populate_both_iff {d₁ d₂ : FormData} {P : Form → Form → Prop} :
    (∃ f₁ f₂, f.populate d₁ = .ok f₁ ∧ f.populate d₂ = .ok f₂ ∧ P f₁ f₂) ↔
      P (f.populated d₁) (f.populated d₂) := by
  rw [populate_eq, populate_eq]
  constructor
  · rintro ⟨f₁, f₂, h₁, h₂, h⟩
    cases h₁
    cases h₂
    exact h
  · exact fun h => ⟨_, _, rfl, rfl, h⟩

end

end Form
end Html
end Malloy
