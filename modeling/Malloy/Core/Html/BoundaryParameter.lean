import Malloy.Core.Html.Delimiters

/-!
# The boundary in a Content-Type

`parse(req)` cuts the Content-Type at `"; "`, and a part that begins with `boundary` at `"="`.

* `parse_ne_of_ne`: two boundaries are told apart by some body, so a wrong boundary is a wrong
  result. The body has lines of both (`decoys`), or none of the wrong one.
* `NamesBoundary`, `LastBoundary`: which part of the field the loop reads the boundary from, as a
  condition on the text (`names_iff`, `boundaryOf_eq_iff`).
* `parseRequest_iff`: when a request is parsed with a given boundary, whatever its body.
-/

namespace Malloy
namespace Html
namespace Multipart

open Http Lib

variable {B B' : Str}

/-! ## Two boundaries are told apart -/

/-- A line that is followed by a line end lies in one line. -/
theorem line_infix_cases {m u v : Str} (hm : byte '\n' ∉ m) (hu : ¬ crlf <:+: u)
    (h : m ++ crlf <:+: u ++ crlf ++ v) : m <:+ u ∨ m ++ crlf <:+: v := by
  obtain ⟨x, y, hxy⟩ := h
  have hcr : byte '\n' ∉ [byte '\r'] := by decide
  have hfirst : ¬ [byte '\r'] ++ [byte '\n'] <:+: u ++ [byte '\r'] := fun hi =>
    hu (infix_of_last_not_mem hcr hi)
  have hocc : (x ++ m) ++ ([byte '\r'] ++ [byte '\n']) ++ y =
      u ++ ([byte '\r'] ++ [byte '\n']) ++ v := by
    rw [← List.append_assoc x] at hxy
    exact hxy
  rcases occurrence_cases hcr hfirst hocc with ⟨rfl, -⟩ | ⟨k, hk, rfl⟩
  · exact .inl (List.suffix_append x m)
  · obtain ⟨t, rfl⟩ : m <:+ k := suffix_of_not_mem (u := u ++ [byte '\r']) hm
      ⟨x, by simpa using hk⟩
    have hcrlf : crlf = [byte '\r'] ++ [byte '\n'] := rfl
    exact .inr ⟨t, y, by rw [hcrlf, ← List.append_assoc t, ← List.append_assoc (t ++ m)]⟩

/-- The part that tells two boundaries apart. -/
def probe (content : Str) : SentPart := { disposition := [], type := none, content := content }

theorem encode_probe (B content : Str) : encode B [probe content] =
    marker B ++ crlf ++ (strDisposition ++ crlf ++ ([] ++ crlf ++
      (content ++ crlf ++ boundaryLineLast B))) := by
  unfold encode wrap boundaryLine
  simp [probe, SentPart.raw, SentPart.typeLine, marker]

theorem crlf_not_infix_of_lf {u : Str} (h : byte '\n' ∉ u) : ¬ crlf <:+: u := by
  intro hi
  exact h (hi.subset (by decide))

theorem marker_ne_nil : marker B ≠ [] := List.cons_ne_nil _ _

/-- A line of another boundary is no line of the header of the probe, nor one behind it. -/
theorem not_infix_header (hB' : ValidBoundary B') {v : Str} (hv : ¬ boundaryLine B' <:+: v) :
    ¬ boundaryLine B' <:+: strDisposition ++ crlf ++ ([] ++ crlf ++ v) := by
  have hlf := lf_not_mem_marker hB'
  intro hi
  rcases line_infix_cases hlf (crlf_not_infix_of_lf (by decide)) hi with hs | hi
  · have hdash : lit "--" <:+: strDisposition := (List.prefix_append _ _).isInfix.trans hs.isInfix
    exact absurd hdash (by decide)
  · rcases line_infix_cases hlf (by decide) hi with hs | hi
    · exact marker_ne_nil (List.suffix_nil.mp hs)
    · exact hv hi

/-- The line of a boundary that is not the end of another one is not in its bodies. -/
theorem not_infix_encode_probe (hB : ValidBoundary B) (hB' : ValidBoundary B')
    (hs : ¬ marker B' <:+ marker B) : ¬ boundaryLine B' <:+: encode B [probe []] := by
  have hlf := lf_not_mem_marker hB'
  rw [encode_probe]
  intro hi
  rcases line_infix_cases hlf (crlf_not_infix_of_lf (lf_not_mem_marker hB)) hi with h | hi
  · exact hs h
  · refine not_infix_header hB' (fun hi => ?_) hi
    rcases line_infix_cases hlf (by decide) hi with h | hi
    · exact marker_ne_nil (List.suffix_nil.mp h)
    · exact lf_not_mem_boundaryLineLast hB (hi.subset (List.mem_append_right _ (by decide)))

theorem parse_eq_nil (hb : B ≠ []) {body : Str} (h : ¬ boundaryLine B <:+: body) :
    parse body B = .ok [] := by
  rw [parse_eq, rawParts, if_neg hb, pieces_eq_singleton h]
  rfl

/-- The parts of raw parts that are not empty. -/
theorem two_le_length_of_readParts {raw raw' : Str} {raws : List Str} {parts : List Part}
    (hraw : raw ≠ []) (hraw' : raw' ≠ [])
    (h : readParts (raw :: raw' :: raws) = .ok parts) : 2 ≤ parts.length := by
  have hsome : ∀ {r : Str} {p : Option Part}, r ≠ [] → parsePart r = .ok p → ∃ q, p = some q := by
    intro r p hr hp
    rw [parsePart, if_neg hr] at hp
    dsimp only at hp
    split at hp
    · cases hp
    · cases hp
      exact ⟨_, rfl⟩
  simp only [readParts, bind, Except.bind, pure, Except.pure] at h
  split at h
  · cases h
  · rename_i p hp
    obtain ⟨q, rfl⟩ := hsome hraw hp
    split at h
    · cases h
    · rename_i ps hps
      cases h
      split at hps
      · cases hps
      · rename_i p' hp'
        obtain ⟨q', rfl⟩ := hsome hraw' hp'
        split at hps
        · cases hps
        · cases hps
          simp

/-- A content with lines of the other boundary. -/
def decoys (B' : Str) : Str := boundaryLine B' ++ (lit "a" ++ crlf ++ boundaryLine B')

theorem sendable_decoys (hB : ValidBoundary B) (hlen : B'.length < B.length) :
    (probe (decoys B')).Sendable B := by
  have hnil : ¬ marker B <:+: [] := fun h => marker_ne_nil (List.infix_nil.mp h)
  have hmarker : ¬ marker B <:+: marker B' := fun h => by
    have := h.length_le
    simp only [marker, List.length_append] at this
    omega
  have hline : ¬ marker B <:+: boundaryLine B' := by
    have := marker_not_infix_crlf hB hmarker hnil
    rwa [List.append_nil] at this
  have ha : ¬ marker B <:+: lit "a" := fun h => by
    have := h.length_le
    have hpos := List.length_pos_iff.mpr hB.ne_nil
    simp only [marker, List.length_append] at this
    change 2 + B.length ≤ 1 at this
    omega
  refine ⟨⟨show ¬ crlf <:+: [] from by decide, hnil⟩, fun t ht => (by cases ht), ?_⟩
  show ¬ marker B <:+: decoys B'
  unfold decoys
  rw [show boundaryLine B' = marker B' ++ crlf from rfl]
  exact marker_not_infix_crlf hB hmarker (marker_not_infix_crlf hB ha hline)

/-- The other boundary finds its lines in the content. -/
theorem rawParts_decoys (hB : ValidBoundary B) (hB' : ValidBoundary B')
    (hs : marker B' <:+ marker B) : ∃ raw, rawParts (encode B [probe (decoys B')]) B' =
      [strDisposition ++ crlf ++ crlf, lit "a" ++ crlf, raw] := by
  obtain ⟨d, hd, hline⟩ := boundaryLine_sep hB'
  obtain ⟨z, hz⟩ := hs
  have hbody : encode B [probe (decoys B')] = z ++ boundaryLine B' ++
      ((strDisposition ++ crlf ++ crlf) ++ boundaryLine B' ++
        ((lit "a" ++ crlf) ++ boundaryLine B' ++ (crlf ++ (z ++ boundaryLineLast B')))) := by
    rw [encode_probe, decoys, show boundaryLineLast B = marker B ++ lit "--" from rfl,
      show boundaryLineLast B' = marker B' ++ lit "--" from rfl,
      show boundaryLine B' = marker B' ++ crlf from rfl, ← hz]
    simp
  have hlf := lf_not_mem_marker hB'
  have hzlf : byte '\n' ∉ z := fun hm =>
    lf_not_mem_marker hB (hz ▸ List.mem_append_left _ hm)
  have free : ∀ {u : Str}, byte '\n' ∉ u → ¬ boundaryLine B' <:+: u := fun hu hi =>
    hu (hi.subset (List.mem_append_right _ (by decide)))
  have hhead : ¬ boundaryLine B' <:+: strDisposition ++ crlf ++ crlf := by
    have := not_infix_header hB' (free (u := []) List.not_mem_nil)
    rwa [List.append_nil, List.nil_append] at this
  have ha : ¬ boundaryLine B' <:+: lit "a" ++ crlf := fun hi =>
    absurd (hi.subset List.mem_cons_self) (by decide)
  have htail : ¬ boundaryLine B' <:+: crlf ++ (z ++ boundaryLineLast B') := by
    intro hi
    rcases line_infix_cases (u := []) hlf (by decide) hi with h | hi
    · exact marker_ne_nil (List.suffix_nil.mp h)
    · refine free (fun hm => ?_) hi
      rcases List.mem_append.mp hm with hm | hm
      · exact hzlf hm
      · exact lf_not_mem_boundaryLineLast hB' hm
  have hpieces : pieces (boundaryLine B') (encode B [probe (decoys B')]) =
      [z, strDisposition ++ crlf ++ crlf, lit "a" ++ crlf, crlf ++ (z ++ boundaryLineLast B')] := by
    have hz' := free hzlf
    rw [hbody]
    rw [hline] at hz' hhead ha htail ⊢
    rw [pieces_sep_append hd, pieces_sep_append hd, pieces_sep_append hd,
      pieces_eq_singleton hz', pieces_eq_singleton hhead, pieces_eq_singleton ha,
      pieces_eq_singleton htail]
    rfl
  have hlast : boundaryLineLast B' <:+: boundaryLine B' ++ (crlf ++ (z ++ boundaryLineLast B')) :=
    ((List.suffix_append z _).trans ((List.suffix_append crlf _).trans
      (List.suffix_append (boundaryLine B') _))).isInfix
  rw [rawParts, if_neg hB'.ne_nil, hpieces, List.tail_cons, cutLast, cutLast, cutLast]
  cases hx : (boundaryLine B' ++ (crlf ++ (z ++ boundaryLineLast B'))).dropInfix?
      (boundaryLineLast B') with
  | none => exact absurd hlast (dropInfix?_eq_none.mp hx)
  | some x => exact ⟨_, rfl⟩

theorem sendable_probe_nil (B : Str) : (probe []).Sendable B :=
  ⟨⟨by decide, fun h => marker_ne_nil (List.infix_nil.mp h)⟩, fun t ht => (by cases ht),
    fun h => marker_ne_nil (List.infix_nil.mp h)⟩

/-- A body of one part. -/
theorem parse_one {B : Str} (hB : ValidBoundary B) {p : SentPart} (hp : p.Sendable B) :
    parse (encode B [p]) B = .ok [p.part] :=
  parse_wrap hB (List.forall_mem_singleton.mpr (isRaw_raw hB hp)) (.cons (parsePart_raw hp) .nil)

/-- **Two boundaries are told apart by some body.** -/
theorem parse_ne_of_ne (hB : ValidBoundary B) (hB' : ValidBoundary B') (hne : B' ≠ B) :
    ∃ body, parse body B' ≠ parse body B := by
  by_cases hs : marker B' <:+ marker B
  · have hlen : B'.length < B.length := by
      have hle := hs.length_le
      simp only [marker, List.length_append] at hle
      refine Nat.lt_of_le_of_ne (by omega) fun he => hne ?_
      have := hs.eq_of_length (by simp [marker, he])
      exact List.append_cancel_left this
    obtain ⟨raw, hraw⟩ := rawParts_decoys hB hB' hs
    refine ⟨encode B [probe (decoys B')], fun h => ?_⟩
    rw [parse_one hB (sendable_decoys hB hlen), parse_eq, hraw] at h
    exact absurd (two_le_length_of_readParts (by decide) (by decide) h) (by simp)
  · refine ⟨encode B [probe []], fun h => ?_⟩
    rw [parse_one hB (sendable_probe_nil B),
      parse_eq_nil hB'.ne_nil (not_infix_encode_probe hB hB' hs)] at h
    cases h

/-! ## What the parser reads -/

/-- The part is `boundary..=v`, perhaps with one more `=` behind it. -/
def NamesBoundary (part v : Str) : Prop :=
  ∃ w, byte '=' ∉ w ∧ byte '=' ∉ v ∧
    ((v ≠ [] ∧ part = lit "boundary" ++ w ++ [byte '='] ++ v) ∨
      part = lit "boundary" ++ w ++ [byte '='] ++ (v ++ [byte '=']))

/-- The last of the parts that name a boundary names this one. -/
def LastNames (parts : List Str) (v : Str) : Prop :=
  ∃ pre part post, parts = pre ++ part :: post ∧ NamesBoundary part v ∧
    ∀ q ∈ post, ∀ v', ¬ NamesBoundary q v'

/-- Between its separators, the last part of the Content-Type that names a boundary names this
one. -/
def LastBoundary (contentType v : Str) : Prop := LastNames (pieces (lit "; ") contentType) v

theorem not_names_nil (v : Str) : ¬ NamesBoundary [] v := by
  rintro ⟨w, -, -, ⟨-, h⟩ | h⟩ <;> cases h

/-- What is behind the first `=` is the value, or the value and one more `=`. -/
theorem names_append_iff {w y v : Str} (hw : byte '=' ∉ w) :
    NamesBoundary (lit "boundary" ++ w ++ [byte '='] ++ y) v ↔
      byte '=' ∉ v ∧ ((v ≠ [] ∧ y = v) ∨ y = v ++ [byte '=']) := by
  constructor
  · rintro ⟨w', hw', hv, h⟩
    have hcut : ∀ z, lit "boundary" ++ w ++ [byte '='] ++ y =
        lit "boundary" ++ w' ++ [byte '='] ++ z → y = z := by
      intro z hz
      have hz' : w ++ byte '=' :: y = w' ++ byte '=' :: z := by simpa using hz
      exact eq_of_append_cons_eq hw hw' hz'
    exact ⟨hv, h.imp (fun h => ⟨h.1, hcut v h.2⟩) (hcut (v ++ [byte '=']))⟩
  · rintro ⟨hv, ⟨hne, rfl⟩ | rfl⟩
    · exact ⟨w, hw, hv, .inl ⟨hne, rfl⟩⟩
    · exact ⟨w, hw, hv, .inr rfl⟩

/-- The first part of two begins with the word. -/
theorem exists_word {part n v : Str} (hword : lit "boundary" <+: part)
    (hn : split part [byte '='] = [n, v]) : ∃ w, byte '=' ∉ w ∧ n = lit "boundary" ++ w := by
  by_cases heq : byte '=' ∈ part
  · obtain ⟨x, y, rfl, hx⟩ := List.eq_append_cons_of_mem heq
    obtain ⟨w, rfl⟩ := isPrefix_of_not_mem (by decide) hword
    have hne : lit "boundary" ++ w ≠ [] := List.append_ne_nil_of_left_ne_nil (by decide) w
    rw [List.append_cons, split_append_singleton hx hne] at hn
    refine ⟨w, fun hm => hx (List.mem_append_right _ hm), ?_⟩
    split at hn
    · cases hn
    · exact (List.cons.inj hn).1.symm
  · -- without a separator there is one part
    have hne : part ≠ [] := by
      rintro rfl
      exact absurd hword (by decide)
    have hfree : ¬ [byte '='] <:+: part := fun hi => heq (hi.subset List.mem_cons_self)
    have hlead : dropLeading [part] = [part] := by cases part <;> rfl
    rw [split_eq hne (List.cons_ne_nil _ _), pieces_eq_singleton hfree, hlead] at hn
    exact absurd (congrArg List.length hn) (by simp [dropTrailing])

/-- **What the loop takes for a boundary.** -/
theorem names_iff {part v : Str} :
    NamesBoundary part v ↔
      part.startsWith (lit "boundary") = true ∧ ∃ n, split part (lit "=") = [n, v] := by
  have hne : ∀ w, lit "boundary" ++ w ≠ [] := List.append_ne_nil_of_left_ne_nil (by decide)
  have hfree : ∀ {w}, byte '=' ∉ w → byte '=' ∉ lit "boundary" ++ w := fun hw hm =>
    (List.mem_append.mp hm).elim (by decide) hw
  rw [show lit "=" = [byte '='] from rfl, Str.startsWith_iff]
  constructor
  · rintro ⟨w, hw, hv, h⟩
    refine ⟨?_, lit "boundary" ++ w, (split_eq_pair_iff (hne w) (hfree hw)).mpr ⟨hv, ?_⟩⟩
    · rcases h with ⟨-, rfl⟩ | rfl
      · exact ⟨w ++ [byte '='] ++ v, by simp⟩
      · exact ⟨w ++ [byte '='] ++ (v ++ [byte '=']), by simp⟩
    · rcases h with ⟨hv', rfl⟩ | rfl
      · exact .inr (.inr ⟨hv', .inl (by simp)⟩)
      · exact .inl (by simp)
  · rintro ⟨hword, n, hn⟩
    obtain ⟨w, hw, rfl⟩ : ∃ w, byte '=' ∉ w ∧ n = lit "boundary" ++ w :=
      exists_word hword hn
    -- a separator at the start would be in front of the word
    have hstart : ∀ z, part ≠ byte '=' :: z := by
      rintro z rfl
      exact absurd (isPrefix_of_not_mem (u := []) (by decide) hword) (by decide)
    obtain ⟨hv, h | h | ⟨hv', h | h⟩⟩ := (split_eq_pair_iff (hne w) (hfree hw)).mp hn
    · exact ⟨w, hw, hv, .inr (by rw [h]; simp)⟩
    · exact absurd h (hstart _)
    · exact ⟨w, hw, hv, .inl ⟨hv', by rw [h]; simp⟩⟩
    · exact absurd h (hstart _)

theorem LastNames.snoc_of_names {parts : List Str} {part v : Str} (h : NamesBoundary part v) :
    LastNames (parts ++ [part]) v :=
  ⟨parts, part, [], rfl, h, fun q hq => by cases hq⟩

theorem lastNames_snoc_iff {parts : List Str} {part v : Str} (h : ∀ v', ¬ NamesBoundary part v') :
    LastNames (parts ++ [part]) v ↔ LastNames parts v := by
  constructor
  · rintro ⟨pre, p, post, he, hp, hpost⟩
    rcases List.eq_nil_or_concat post with rfl | ⟨post, q, rfl⟩
    · obtain ⟨-, hq⟩ := List.append_inj' he rfl
      cases hq
      exact absurd hp (h v)
    · rw [List.concat_eq_append, ← List.cons_append, ← List.append_assoc] at he
      obtain ⟨rfl, -⟩ := List.append_inj' he rfl
      exact ⟨pre, p, post, rfl, hp, fun q hq => hpost q (by simp [hq])⟩
  · rintro ⟨pre, p, post, rfl, hp, hpost⟩
    refine ⟨pre, p, post ++ [part], by simp, hp, fun q hq => ?_⟩
    rcases List.mem_append.mp hq with hq | hq
    · exact hpost q hq
    · rw [List.mem_singleton.mp hq]
      exact h

theorem lastNames_cons_iff {part v : Str} {parts : List Str} (h : ∀ v', ¬ NamesBoundary part v') :
    LastNames (part :: parts) v ↔ LastNames parts v := by
  constructor
  · rintro ⟨pre, p, post, he, hp, hpost⟩
    cases pre with
    | nil =>
      obtain ⟨rfl, -⟩ := List.cons.inj he
      exact absurd hp (h v)
    | cons q pre => exact ⟨pre, p, post, (List.cons.inj he).2, hp, hpost⟩
  · rintro ⟨pre, p, post, rfl, hp, hpost⟩
    exact ⟨part :: pre, p, post, rfl, hp, hpost⟩

/-- One round of the loop of `parse(req)`. -/
def readPart (boundary part : Str) : Str :=
  if !part.startsWith (lit "boundary") then boundary
  else
    match split part (lit "=") with
    | [_, value] => value
    | _ => boundary

theorem readPart_cases (boundary part : Str) :
    (∃ v, NamesBoundary part v ∧ readPart boundary part = v) ∨
      ((∀ v, ¬ NamesBoundary part v) ∧ readPart boundary part = boundary) := by
  unfold readPart
  simp only [names_iff]
  cases part.startsWith (lit "boundary") with
  | false => exact .inr ⟨by simp, rfl⟩
  | true =>
    match split part (lit "=") with
    | [] => exact .inr ⟨by simp, rfl⟩
    | [n] => exact .inr ⟨by simp, rfl⟩
    | [n, v] => exact .inl ⟨v, ⟨rfl, n, rfl⟩, rfl⟩
    | n :: v :: w :: ps => exact .inr ⟨by simp, rfl⟩

theorem names_unique {part v v' : Str} (h : NamesBoundary part v) (h' : NamesBoundary part v') :
    v = v' := by
  obtain ⟨-, n, hn⟩ := names_iff.mp h
  obtain ⟨-, n', hn'⟩ := names_iff.mp h'
  rw [hn] at hn'
  simp only [List.cons.injEq, and_true] at hn'
  exact hn'.2

/-- **The loop reads the last boundary.** -/
theorem foldl_readPart_eq_iff (hB : B ≠ []) (parts : List Str) :
    parts.foldl readPart [] = B ↔ LastNames parts B := by
  induction parts using List.reverseRecOn with
  | nil =>
    refine iff_of_false (fun h => hB h.symm) ?_
    rintro ⟨pre, part, post, h, -⟩
    cases pre <;> cases h
  | append_singleton parts part ih =>
    rw [List.foldl_append, List.foldl_cons, List.foldl_nil]
    rcases readPart_cases (parts.foldl readPart []) part with ⟨v, hv, he⟩ | ⟨hno, he⟩
    · rw [he]
      refine ⟨fun h => .snoc_of_names (h ▸ hv), fun ⟨pre, p, post, hp, hnames, hpost⟩ => ?_⟩
      rcases List.eq_nil_or_concat post with rfl | ⟨post, q, rfl⟩
      · obtain ⟨-, hq⟩ := List.append_inj' hp rfl
        cases hq
        exact names_unique hv hnames
      · rw [List.concat_eq_append, ← List.cons_append, ← List.append_assoc] at hp
        obtain ⟨-, hq⟩ := List.append_inj' hp rfl
        cases hq
        exact absurd hv (hpost part (by simp) v)
    · rw [he, ih, lastNames_snoc_iff hno]

/-- An empty part names nothing, so it does not matter that `split` drops one. -/
theorem lastNames_split_iff {s v : Str} :
    LastNames (splitHeaderValue s) v ↔ LastNames (pieces (lit "; ") s) v := by
  have hleading : ∀ ps : List Str, LastNames (dropLeading ps) v ↔ LastNames ps v := by
    intro ps
    match ps with
    | [] => exact Iff.rfl
    | [p] => cases p <;> exact Iff.rfl
    | (c :: p) :: q :: ps => exact Iff.rfl
    | [] :: q :: ps => exact (lastNames_cons_iff not_names_nil).symm
  have htrailing : ∀ ps : List Str, LastNames (dropTrailing ps) v ↔ LastNames ps v := by
    intro ps
    unfold dropTrailing
    split
    · rename_i h
      conv_rhs => rw [← List.dropLast_append_getLast? [] h.2]
      exact (lastNames_snoc_iff not_names_nil).symm
    · exact Iff.rfl
  unfold splitHeaderValue
  by_cases hs : s = []
  · rw [split, if_pos hs, hs, pieces_eq_singleton (by decide), lastNames_cons_iff not_names_nil]
  · rw [split_eq hs (by decide), htrailing, hleading]

theorem boundaryOf_eq_iff (hB : B ≠ []) (contentType : Str) :
    boundaryOf contentType = B ↔ LastBoundary contentType B :=
  (foldl_readPart_eq_iff hB (splitHeaderValue contentType)).trans lastNames_split_iff

theorem NamesBoundary.infix_part {part v : Str} (h : NamesBoundary part v) : v <:+: part := by
  obtain ⟨w, -, -, ⟨-, rfl⟩ | rfl⟩ := h
  · exact (List.suffix_append _ _).isInfix
  · exact (List.prefix_append _ _).isInfix.trans (List.suffix_append _ _).isInfix

/-- The boundary is a part of the field. -/
theorem boundaryOf_isInfix (contentType : Str) :
    boundaryOf contentType = [] ∨ boundaryOf contentType <:+: contentType := by
  by_cases hb : boundaryOf contentType = []
  · exact .inl hb
  · right
    obtain ⟨pre, part, post, hparts, hnames, -⟩ := (boundaryOf_eq_iff hb contentType).mp rfl
    have hpart : part ∈ pieces (lit "; ") contentType := by
      rw [hparts]
      simp
    exact hnames.infix_part.trans (infix_of_mem_pieces (by decide) hpart)

theorem parseRequest_eq {req : Request} {contentType : Str}
    (h : req.header.fields.at' (lit "Content-Type") = .ok contentType) :
    parseRequest req = if boundaryOf contentType = [] then .ok []
      else parse req.body (boundaryOf contentType) := by
  unfold parseRequest
  rw [h]
  simp only [bind, Except.bind]
  split <;> rfl

/-- A request with this body. -/
def requestOf (contentType body : Str) : Request where
  header := { method := .post, target := lit "/", fields := [(lit "Content-Type", contentType)] }
  body := body

/-- **For which Content-Type a request is parsed with this boundary**, whatever its body. -/
theorem parseRequest_iff (hB : ValidBoundary B) {contentType : Str}
    (hcr : byte '\r' ∉ contentType) (hlf : byte '\n' ∉ contentType) :
    (∀ req : Request, req.header.fields.at' (lit "Content-Type") = .ok contentType →
      parseRequest req = parse req.body B) ↔ LastBoundary contentType B := by
  rw [← boundaryOf_eq_iff hB.ne_nil]
  constructor
  · intro h
    by_contra hne
    obtain ⟨body, hbody⟩ : ∃ body, (if boundaryOf contentType = [] then .ok []
        else parse body (boundaryOf contentType)) ≠ parse body B := by
      by_cases hnil : boundaryOf contentType = []
      · refine ⟨encode B [probe []], fun he => ?_⟩
        rw [if_pos hnil, parse_one hB (sendable_probe_nil B)] at he
        cases he
      · have hsub := (boundaryOf_isInfix contentType).resolve_left hnil
        obtain ⟨body, hbody⟩ := parse_ne_of_ne hB
          ⟨hnil, fun hm => hcr (hsub.subset hm), fun hm => hlf (hsub.subset hm)⟩ hne
        exact ⟨body, by rwa [if_neg hnil]⟩
    refine hbody ((parseRequest_eq rfl).symm.trans (h (requestOf contentType body) rfl))
  · intro h req hreq
    rw [parseRequest_eq hreq, h, if_neg hB.ne_nil]

end Multipart
end Html
end Malloy
