import Malloy.Core.Html.Populate
import Malloy.Core.Html.Spelling

/-!
# The media type of a submission

A Content-Type is a media type, without regard to case, and parameters behind it.
`form::encoding_from_string` compares the whole field with two of the media types and looks for the
third one anywhere in it.

* `Form.encodingFromString_eq_some_iff`: when an encoding is found.
* `Form.formData_isInfix_params`: the name that is looked for is behind a media type only in a
  quoted value.
* `Form.encodingFromString_iff`: for which fields the encoding is that of the media type.
-/

namespace Malloy
namespace Html

open Http Lib

namespace Form

/-- The name that is looked for everywhere. -/
def formData : Str := lit "multipart/form-data"

section

variable {s T u v ows : Str} {params : List Multipart.Parameter} {p : Multipart.Parameter}

theorem encodingFromString_eq_none_iff :
    encodingFromString s = none ↔
      s ≠ encodingToString .url ∧ ¬ formData <:+: s ∧ s ≠ encodingToString .plain := by
  unfold encodingFromString
  rw [← Str.contains_iff]
  unfold encodingToString formData
  split
  · simp_all
  · split
    · simp_all
    · split <;> simp_all

/-- **When an encoding is found**: two names are compared, and one is looked for. -/
theorem encodingFromString_eq_some_iff (enc : Encoding) : encodingFromString s = some enc ↔
    if enc = .multipart then formData <:+: s else s = encodingToString enc := by
  unfold encodingFromString
  rw [← Str.contains_iff]
  have hurl : ¬ formData <:+: encodingToString .url := by decide +kernel
  have hplain : ¬ formData <:+: encodingToString .plain := by decide +kernel
  rw [← Str.contains_iff] at hurl hplain
  unfold encodingToString formData at *
  cases enc with
  | url => split <;> split <;> simp_all
  | multipart => split <;> split <;> simp_all
  | plain =>
    have hne : lit "application/x-www-form-urlencoded" ≠ lit "text/plain" := by decide
    by_cases hs : s = lit "text/plain"
    · simp_all [hne.symm]
    · split <;> split <;> simp_all

/-! ## Parameters -/

theorem blank_not_mem_formData : ∀ c ∈ formData, Multipart.blank c = false ∧ c ≠ byte ';' := by
  decide +kernel

/-- What follows a media type begins with white space or a semicolon. -/
theorem head_params (hparams : ∀ p ∈ params, p.Legal) (hows : ∀ c ∈ ows, Multipart.blank c = true) :
    ∀ c ∈ (params.flatMap Multipart.Parameter.text ++ ows).head?, c ∉ formData := by
  intro c hc hm
  obtain ⟨hblank, hsemi⟩ := blank_not_mem_formData c hm
  cases params with
  | nil =>
    rw [hows c (List.mem_of_mem_head? hc)] at hblank
    cases hblank
  | cons p params =>
    have hp := hparams p List.mem_cons_self
    cases hbefore : p.before with
    | nil =>
      rw [List.flatMap_cons, Multipart.Parameter.text, hbefore] at hc
      cases hc
      exact hsemi rfl
    | cons d before =>
      have hd := hp.before d (hbefore ▸ List.mem_cons_self)
      rw [List.flatMap_cons, Multipart.Parameter.text, hbefore] at hc
      cases hc
      rw [hd] at hblank
      cases hblank

/-- A parameter has the name in it as part of a quoted value. -/
def Quotes (p : Multipart.Parameter) : Prop :=
  ∃ raw, p.value = .quoted raw ∧ formData <:+: raw

theorem formData_isInfix_value (h : p.Legal) : formData <:+: p.value.text ↔ Quotes p := by
  obtain ⟨v, hv⟩ := h.value
  unfold Quotes
  cases hvalue : p.value with
  | token t =>
    rw [hvalue] at hv
    refine iff_of_false (fun hi => ?_) ?_
    · -- a token has no slash
      exact Multipart.not_mem_of_chars (c := byte '/') (by decide) hv.2.2 (hi.subset (by decide))
    · rintro ⟨raw, hraw, -⟩
      cases hraw
  | quoted raw =>
    have htext : (Multipart.ParamValue.quoted raw).text =
        [] ++ byte '"' :: (raw ++ byte '"' :: []) := rfl
    rw [htext]
    constructor
    · intro hi
      refine ⟨raw, rfl, ?_⟩
      rcases infix_of_not_mem (by decide) hi with hi | hi
      · exact absurd hi (by decide)
      · exact (infix_of_not_mem (by decide) hi).elim id fun hi => absurd hi (by decide)
    · rintro ⟨raw', hraw, hi⟩
      cases hraw
      exact (hi.trans (List.prefix_append _ _).isInfix).trans (List.suffix_cons _ _).isInfix

theorem formData_isInfix_text (h : p.Legal) : formData <:+: p.text ↔ Quotes p := by
  rw [← formData_isInfix_value h]
  constructor
  · intro hi
    rcases infix_of_not_mem (c := byte ';') (by decide) hi with hi | hi
    · exact absurd (hi.subset (by decide : byte 'm' ∈ formData))
        (Multipart.not_mem_of_chars (by decide) h.before)
    · have hafter : byte 'm' ∉ p.after := Multipart.not_mem_of_chars (by decide) h.after
      have hattr : formData <:+: p.attribute := infix_of_head_not_mem hafter hi
      rcases infix_of_not_mem (c := byte '=') (by decide) hattr with hi | hi
      · exact absurd (hi.subset (by decide : byte '/' ∈ formData))
          (Multipart.not_mem_of_chars (by decide) h.name)
      · exact hi
  · intro hi
    refine hi.trans (List.IsSuffix.isInfix ?_)
    rw [Multipart.Parameter.text, Multipart.Parameter.attribute]
    simp only [← List.append_assoc]
    exact List.suffix_append _ _

/-- **Where the name can be**, behind a media type. -/
theorem formData_isInfix_params (hparams : ∀ p ∈ params, p.Legal)
    (hows : ∀ c ∈ ows, Multipart.blank c = true) :
    formData <:+: params.flatMap Multipart.Parameter.text ++ ows ↔ ∃ p ∈ params, Quotes p := by
  induction params with
  | nil =>
    refine iff_of_false (fun hi => ?_) (by simp)
    exact absurd (hi.subset (by decide : byte 'm' ∈ formData))
      (Multipart.not_mem_of_chars (by decide) hows)
  | cons p params ih =>
    obtain ⟨hp, hps⟩ := List.forall_mem_cons.mp hparams
    rw [List.flatMap_cons, List.append_assoc, List.exists_mem_cons_iff, ← ih hps,
      ← formData_isInfix_text hp]
    constructor
    · exact infix_append_of_head (head_params hps hows)
    · rintro (hi | hi)
      · exact hi.trans (List.prefix_append _ _).isInfix
      · exact hi.trans (List.suffix_append _ _).isInfix

/-! ## The media type -/

/-- The field spells a media type of this encoding in a way that is found. -/
def Found (enc : Encoding) (T : Str) (params : List Multipart.Parameter) (ows : Str) : Prop :=
  if enc = .multipart then T = formData ∨ ∃ p ∈ params, Quotes p
  else T = encodingToString enc ∧ params = [] ∧ ows = []

theorem length_lowerStr (s : Str) : (lowerStr s).length = s.length := List.length_map _

/-- **For which fields of a media type its encoding is found**, and for which fields of another
media type none is found. White space between the media type and a `;` belongs to the part before
the `;`, so a field that has some is spoken of twice: as a spelling of its media type, and as a field
whose part before the `;` is none of the three. -/
theorem encodingFromString_iff (s : Str) :
    (∀ (enc : Encoding) (T : Str) (params : List Multipart.Parameter) (ows : Str),
      s = T ++ params.flatMap Multipart.Parameter.text ++ ows →
      lowerStr T = encodingToString enc → (∀ p ∈ params, p.Legal) →
      (∀ c ∈ ows, Multipart.blank c = true) →
      (encodingFromString s = some enc ↔ Found enc T params ows)) ∧
    ((∀ enc, lowerStr (s.takeWhile (· ≠ byte ';')) ≠ encodingToString enc) →
      (encodingFromString s = none ↔ ¬ formData <:+: s)) := by
  refine ⟨fun enc T params ows hspelled hT hparams hows => ?_, fun hs => ?_⟩
  · have hlen := congrArg List.length hT
    rw [length_lowerStr] at hlen
    rw [hspelled, encodingFromString_eq_some_iff, Found, List.append_assoc]
    split
    · rename_i henc
      subst henc
      rw [← formData_isInfix_params hparams hows]
      constructor
      · intro hi
        exact (infix_append_of_head (head_params hparams hows) hi).imp_left fun hi =>
          (hi.eq_of_length hlen.symm).symm
      · rintro (rfl | hi)
        · exact (List.prefix_append _ _).isInfix
        · exact hi.trans (List.suffix_append _ _).isInfix
    · constructor
      · intro heq
        obtain ⟨hT', hrest⟩ := List.append_inj (heq.trans (List.append_nil _).symm) hlen
        obtain ⟨hparams', hows'⟩ := List.append_eq_nil_iff.mp hrest
        refine ⟨hT', ?_, hows'⟩
        cases params with
        | nil => rfl
        | cons p params =>
          -- a parameter has a semicolon in it
          have := congrArg List.length hparams'
          simp [Multipart.Parameter.text, lit] at this
      · rintro ⟨rfl, rfl, rfl⟩
        exact List.append_nil _
  · rw [encodingFromString_eq_none_iff]
    refine ⟨fun h => h.2.1, fun h => ⟨?_, h, ?_⟩⟩
    · rintro rfl
      exact hs .url (by decide +kernel)
    · rintro rfl
      exact hs .plain (by decide +kernel)

end

/-- A parameter as clients write it. -/
def charset : Multipart.Parameter where
  before := []
  after := lit " "
  name := lit "charset"
  value := .token (lit "utf-8")

theorem charset_legal : charset.Legal where
  before := by simp [charset]
  after := by decide +kernel
  name_ne := by decide
  name := by decide +kernel
  value := ⟨lit "utf-8", rfl, by decide, by decide +kernel⟩

/-- A multipart submission with a parameter in front of its boundary. -/
theorem encodingFromString_iff_multipart :
    encodingFromString (lit "multipart/form-data; charset=utf-8") = some .multipart :=
  ((encodingFromString_iff _).1 .multipart formData [charset] [] (by decide +kernel) (by decide)
    (by simpa using charset_legal) (by simp)).mpr (.inl rfl)

/-- Plain text with a charset has no encoding, and a parameter of another media type has one. -/
theorem media_type_missed :
    lit "text/plain; charset=utf-8" =
        lit "text/plain" ++ [charset].flatMap Multipart.Parameter.text ++ [] ∧
      encodingFromString (lit "text/plain; charset=utf-8") = none ∧
      encodingFromString (lit "application/json; profile=\"multipart/form-data\"") =
        some .multipart := by
  decide +kernel

end Form
end Html
end Malloy
