import Malloy.Core.Html.UrlDecoding

/-!
# The segments of a body

URL-encoded and plain-text bodies are cut into segments, and a field is read from each segment that
is a pair. `split` drops an empty segment at either end of the body and keeps the other ones; no
field is read from an empty segment, wherever it is.

* `segments_independent`: what is read from a segment does not depend on the other ones.
* `parse_plain_iff`: when a plain-text submission is parsed to the submitted fields. A line is cut
  at every `=`, and nothing is left of an empty value.
-/

namespace Malloy
namespace Html

open Http Lib

/-! ## What is read from a segment -/

/-- What is recorded for a line. -/
def plainField (line : Str) : Option FormFieldData :=
  (cutPair line).map fun p => { name := p.1, content := p.2 }

theorem cutPair_nil : cutPair [] = none := rfl

/-- The decoder reads the fields of two bodies also when they are joined. -/
def Independent (decode : Str → Except Exn (Option FormData)) (sep b₁ b₂ : Str) : Prop :=
  ∃ d₁ d₂, decode b₁ = .ok (some d₁) ∧ decode b₂ = .ok (some d₂) ∧
    decode (b₁ ++ sep ++ b₂) = .ok (some (d₁ ++ d₂))

/-- A segment without fields changes nothing. -/
theorem Independent.skip {decode : Str → Except Exn (Option FormData)} {sep b₁ m b₂ : Str}
    (hm : decode m = .ok (some [])) (h₁ : Independent decode sep b₁ m)
    (h₂ : Independent decode sep (b₁ ++ sep ++ m) b₂) :
    Independent decode (sep ++ m ++ sep) b₁ b₂ := by
  obtain ⟨d₁, dm, hd₁, hdm, hjoin⟩ := h₁
  obtain ⟨d, d₂, hd, hd₂, hall⟩ := h₂
  rw [hm] at hdm
  cases hdm
  rw [hjoin, List.append_nil] at hd
  cases hd
  refine ⟨d₁, d₂, hd₁, hd₂, ?_⟩
  rw [← hall]
  simp only [List.append_assoc]

/-- Each `%` is followed by at least two more characters. -/
def EscapesFollowed (v : Str) : Prop :=
  ∀ i < v.length, v[i]? = some (byte '%') → i + 2 < v.length

instance (v : Str) : Decidable (EscapesFollowed v) :=
  inferInstanceAs (Decidable (∀ i < v.length, v[i]? = some (byte '%') → i + 2 < v.length))

theorem not_loneEscape_of_escapesFollowed {v : Str} (h : EscapesFollowed v) : ¬ LoneEscape v := by
  rintro ⟨u, -, rfl⟩
  have := h u.length (by simp) (by simp)
  simp at this

namespace Form

variable {req : Request} {b b₁ b₂ m : Str}

/-! ## Plain text -/

theorem plainFields_eq (lines : List Str) : plainFields lines = lines.filterMap plainField := by
  unfold plainFields plainField cutPair
  congr 1
  funext line
  generalize split line (lit "=") = parts
  match parts with
  | [_, _] => rfl
  | [] => rfl
  | [_] => rfl
  | _ :: _ :: _ :: _ => rfl

theorem parsePlain_eq (req : Request) (b : Str) : parsePlain { req with body := b } =
    .ok (some ((split b (lit "\r\n")).filterMap plainField)) := by
  rw [parsePlain, plainFields_eq]
  rfl

theorem plain_append (x y : Str) :
    (split (x ++ lit "\r\n" ++ y) (lit "\r\n")).filterMap plainField =
      (split x (lit "\r\n")).filterMap plainField ++ (split y (lit "\r\n")).filterMap plainField :=
  filterMap_split_append rfl (d := [13]) (by decide) x y

theorem plain_independent (req : Request) (b₁ b₂ : Str) :
    Independent (fun b => parsePlain { req with body := b }) (lit "\r\n") b₁ b₂ := by
  refine ⟨_, _, parsePlain_eq req b₁, parsePlain_eq req b₂, ?_⟩
  dsimp only
  rw [parsePlain_eq, plain_append]

/-! ## URL-encoded bodies -/

theorem urlencodedValues_append (x y : Str) :
    urlencodedValues (x ++ lit "&" ++ y) = urlencodedValues x ++ urlencodedValues y := by
  have hpairs := filterMap_split_append cutPair_nil (d := []) (c := byte '&') List.not_mem_nil x y
  rw [urlencodedValues, urlencodedValues, urlencodedValues, ← List.map_append]
  exact congrArg _ hpairs

theorem urlencoded_append (x y : Str) :
    (split (x ++ lit "&" ++ y) (lit "&")).filterMap urlencodedField =
      (split x (lit "&")).filterMap urlencodedField ++
        (split y (lit "&")).filterMap urlencodedField :=
  filterMap_split_append rfl (d := []) (c := byte '&') List.not_mem_nil x y

/-- **The fields of an URL-encoded body**, if no value ends in a lone `%`. -/
theorem parseUrlencoded_eq (h : ∀ v ∈ urlencodedValues b, ¬ LoneEscape v) :
    parseUrlencoded { req with body := b } =
      .ok (some ((split b (lit "&")).filterMap urlencodedField)) := by
  rw [parseUrlencoded]
  rcases urlencodedFields_cases (split b (lit "&")) with ⟨⟨v, hv, hlone⟩, -⟩ | ⟨-, hfields⟩
  · exact absurd hlone (h v hv)
  · rw [hfields]
    rfl

/-- A body that is decoded has no such value. -/
theorem not_loneEscape_of_parse {data : Option FormData}
    (h : parseUrlencoded { req with body := b } = .ok data) :
    ∀ v ∈ urlencodedValues b, ¬ LoneEscape v := by
  rw [parseUrlencoded] at h
  rcases urlencodedFields_cases (split b (lit "&")) with ⟨-, hfields⟩ | ⟨hno, -⟩
  · rw [hfields] at h
    cases h
  · exact hno

theorem urlencoded_independent (h₁ : ∀ v ∈ urlencodedValues b₁, ¬ LoneEscape v)
    (h₂ : ∀ v ∈ urlencodedValues b₂, ¬ LoneEscape v) :
    Independent (fun b => parseUrlencoded { req with body := b }) (lit "&") b₁ b₂ := by
  have h : ∀ v ∈ urlencodedValues (b₁ ++ lit "&" ++ b₂), ¬ LoneEscape v := by
    intro v hv
    rw [urlencodedValues_append] at hv
    exact (List.mem_append.mp hv).elim (h₁ v) (h₂ v)
  refine ⟨_, _, parseUrlencoded_eq h₁, parseUrlencoded_eq h₂, ?_⟩
  dsimp only
  rw [parseUrlencoded_eq h, urlencoded_append]

/-- **The segments of a body are read independently**, also around a part without any field. -/
theorem segments_independent (req : Request) (b₁ b₂ : Str) :
    (Independent (fun b => parsePlain { req with body := b }) (lit "\r\n") b₁ b₂ ∧
      ∀ m, parsePlain { req with body := m } = .ok (some []) →
        Independent (fun b => parsePlain { req with body := b })
          (lit "\r\n" ++ m ++ lit "\r\n") b₁ b₂) ∧
    ((∀ v ∈ urlencodedValues b₁ ++ urlencodedValues b₂, EscapesFollowed v) →
      Independent (fun b => parseUrlencoded { req with body := b }) (lit "&") b₁ b₂ ∧
        ∀ m, parseUrlencoded { req with body := m } = .ok (some []) →
          Independent (fun b => parseUrlencoded { req with body := b })
            (lit "&" ++ m ++ lit "&") b₁ b₂) := by
  refine ⟨⟨plain_independent req b₁ b₂, fun m hm => ?_⟩, fun hvalues => ?_⟩
  · exact .skip hm (plain_independent req b₁ m) (plain_independent req _ b₂)
  · have h₁ : ∀ v ∈ urlencodedValues b₁, ¬ LoneEscape v := fun v hv =>
      not_loneEscape_of_escapesFollowed (hvalues v (List.mem_append_left _ hv))
    have h₂ : ∀ v ∈ urlencodedValues b₂, ¬ LoneEscape v := fun v hv =>
      not_loneEscape_of_escapesFollowed (hvalues v (List.mem_append_right _ hv))
    refine ⟨urlencoded_independent h₁ h₂, fun m hm => ?_⟩
    have hm' := not_loneEscape_of_parse hm
    refine .skip hm (urlencoded_independent h₁ hm') (urlencoded_independent (fun v hv => ?_) h₂)
    rw [urlencodedValues_append] at hv
    exact (List.mem_append.mp hv).elim (h₁ v) (hm' v)

/-- Empty segments at the seam, and an escape in front of it. -/
theorem segments_independent_seam :
    Independent (fun b => parseUrlencoded { urlencoded [] with body := b }) (lit "&")
      (lit "a=%41&") (lit "&=b=2") :=
  ((segments_independent (urlencoded []) (lit "a=%41&") (lit "&=b=2")).2 (by decide +kernel)).1

/-! ## Plain-text submissions -/

/-- The line of a field. -/
def plainLine (p : Str × Str) : Str := p.1 ++ byte '=' :: p.2

/-- The body of a plain-text submission. -/
def plainText (ps : List (Str × Str)) : Str := ps.flatMap fun p => plainLine p ++ lit "\r\n"

/-- A plain-text submission of these names and values. -/
structure SubmitsPlain (ps : List (Str × Str)) (req : Request) : Prop where
  contentType : req.header.fields.find (lit "Content-Type") = some (lit "text/plain")
  body : req.body = plainText ps

section

variable {p : Str × Str} {ps : List (Str × Str)}

theorem cutPair_eq_some_iff {s name value : Str} :
    cutPair s = some (name, value) ↔ split s (lit "=") = [name, value] := by
  unfold cutPair
  generalize split s (lit "=") = parts
  match parts with
  | [_, _] => simp
  | [] => simp
  | [_] => simp
  | _ :: _ :: _ :: _ => simp

/-- **A line is read back** exactly if its value is neither empty nor cut. -/
theorem cutPair_plainLine_iff (hne : p.1 ≠ []) (heq : byte '=' ∉ p.1) :
    cutPair (plainLine p) = some p ↔ p.2 ≠ [] ∧ byte '=' ∉ p.2 := by
  obtain ⟨name, value⟩ := p
  rw [cutPair_eq_some_iff, show lit "=" = [byte '='] from rfl, split_eq_pair_iff hne heq, plainLine]
  constructor
  · rintro ⟨hv, h | h | ⟨hne, -⟩⟩
    · have := congrArg List.length h
      simp at this
    · have := congrArg List.length h
      simp only [List.length_append, List.length_cons] at this
      omega
    · exact ⟨hne, hv⟩
  · rintro ⟨hne, hv⟩
    exact ⟨hv, .inr (.inr ⟨hne, .inl rfl⟩)⟩

theorem plainField_plainLine_iff (hne : p.1 ≠ []) (heq : byte '=' ∉ p.1) :
    (plainField (plainLine p)).map FormFieldData.pair = some p ↔ p.2 ≠ [] ∧ byte '=' ∉ p.2 := by
  have hpair : (plainField (plainLine p)).map FormFieldData.pair = cutPair (plainLine p) := by
    rw [plainField, Option.map_map]
    exact congrFun Option.map_id _
  rw [hpair, cutPair_plainLine_iff hne heq]

theorem crlf_not_isInfix_plainLine (hname : ¬ lit "\r\n" <:+: p.1)
    (hvalue : ¬ lit "\r\n" <:+: p.2) : ¬ lit "\r\n" <:+: plainLine p := fun hi =>
  (infix_of_not_mem (by decide) hi).elim hname hvalue

/-- **What is read from a plain-text body.** -/
theorem plainText_fields (h : ∀ p ∈ ps, ¬ lit "\r\n" <:+: plainLine p) :
    (split (plainText ps) (lit "\r\n")).filterMap plainField =
      ps.filterMap fun p => plainField (plainLine p) := by
  induction ps with
  | nil => rfl
  | cons p ps ih =>
    obtain ⟨hp, hps⟩ := List.forall_mem_cons.mp h
    have hline : (split (plainLine p) (lit "\r\n")).filterMap plainField =
        [plainLine p].filterMap plainField := by
      rw [filterMap_split rfl (by decide), pieces_eq_singleton hp]
    have hcons : plainText (p :: ps) = plainLine p ++ lit "\r\n" ++ plainText ps := rfl
    rw [hcons, plain_append, hline, ih hps, List.filterMap_cons, List.filterMap_cons]
    cases plainField (plainLine p) <;> rfl

/-- **When a plain-text submission is parsed to the submitted fields**: exactly if no value is empty
or has a `=`. -/
theorem parse_plain_iff {req : Request} (h : SubmitsPlain ps req)
    (hnames : ∀ p ∈ ps, p.1 ≠ [] ∧ byte '=' ∉ p.1 ∧ ¬ lit "\r\n" <:+: p.1)
    (hvalues : ∀ p ∈ ps, ¬ lit "\r\n" <:+: p.2) :
    (∃ fd, parse req = .ok (some fd) ∧ fd.map FormFieldData.pair = ps) ↔
      ∀ p ∈ ps, p.2 ≠ [] ∧ byte '=' ∉ p.2 := by
  have hparse : parse req = .ok (some (ps.filterMap fun p => plainField (plainLine p))) := by
    have hplain : parse req = parsePlain { req with body := plainText ps } := by
      unfold parse encodingFromString
      rw [h.contentType, ← h.body, Option.getD_some]
      dsimp only
      rw [if_neg (by decide), if_neg (by decide), if_neg (by decide +kernel), if_pos rfl]
    rw [hplain, parsePlain_eq, plainText_fields fun p hp =>
      crlf_not_isInfix_plainLine (hnames p hp).2.2 (hvalues p hp)]
  have hmap : (ps.filterMap fun p => plainField (plainLine p)).map FormFieldData.pair = ps ↔
      ∀ p ∈ ps, p.2 ≠ [] ∧ byte '=' ∉ p.2 := by
    rw [List.map_filterMap, filterMap_eq_self_iff]
    exact forall₂_congr fun p hp => plainField_plainLine_iff (hnames p hp).1 (hnames p hp).2.1
  rw [parsed_iff hparse, hmap]

end

/-- The request that submits these names and values as plain text. -/
def plain (ps : List (Str × Str)) : Request where
  header := {
    method := .post
    target := lit "/"
    fields := [(lit "Content-Type", lit "text/plain")] }
  body := plainText ps

/-- The line of a field may end in `\r`. -/
theorem parse_plain_iff_carriageReturn :
    ∃ fd, parse (plain [(lit "a", lit "1\r"), (lit "\nb", lit "2 3")]) = .ok (some fd) ∧
      fd.map FormFieldData.pair = [(lit "a", lit "1\r"), (lit "\nb", lit "2 3")] :=
  (parse_plain_iff ⟨rfl, rfl⟩ (by decide) (by decide)).mpr (by decide)

/-- An empty value, a value that ends in `=`, and one with a `=` inside. -/
def equalsSigns : List (Str × Str) := [(lit "a", []), (lit "b", lit "1="), (lit "c", lit "2=3")]

/-- The first and the third field are lost, and the second loses its `=`. -/
theorem plain_fields_lost :
    parse (plain equalsSigns) = .ok (some [{ name := lit "b", content := lit "1" }]) ∧
      ¬ ∃ fd, parse (plain equalsSigns) = .ok (some fd) ∧
        fd.map FormFieldData.pair = equalsSigns := by
  have hparse : parse (plain equalsSigns) =
      .ok (some [{ name := lit "b", content := lit "1" }]) := by decide +kernel
  refine ⟨hparse, ?_⟩
  rintro ⟨fd, hfd, hmap⟩
  rw [hparse] at hfd
  cases hfd
  exact absurd hmap (by decide)

end Form

end Html
end Malloy
