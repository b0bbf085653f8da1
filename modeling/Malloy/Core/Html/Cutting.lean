import Malloy.Core.Html.Multipart
import Mathlib.Tactic.Tauto

/-!
# What the multipart parser cuts, for every body and every boundary

`Multipart.parse` works on positions. `rawParts` is the cut that it makes, without positions: the
pieces of the body at the boundary line, of which the last one ends at the closing line. `parse`
reads each of them (`parse_eq`), for every body and every boundary.

* `Truncated`: the raw parts on which `parsePart` throws. They are those whose last line, which is
  not terminated, is counted with a line end.
* `parse_returns_iff`: `parse` returns exactly if no raw part is truncated.
-/

namespace Malloy
namespace Html
namespace Multipart

open Http Lib

/-! ## The cut -/

/-- The positions that `parse` cuts at: those of the boundary lines, and that of the closing line.
It cuts nowhere if it returns before. -/
def delimiters (body boundary : Str) : List Nat :=
  if body = [] ∨ boundary = [] then []
  else
    let starts := boundaryStarts body (boundaryLine boundary) (body.length + 1) 0 []
    match starts.getLast? with
    | none => []
    | some back =>
      match body.find (boundaryLineLast boundary) back with
      | none => []
      | some lastBoundaryPos => starts ++ [lastBoundaryPos]

theorem parse_eq_delimiters (body boundary : Str) :
    parse body boundary =
      parseParts body (boundaryLine boundary).length (delimiters body boundary) := by
  unfold parse delimiters
  split
  · rfl
  · dsimp only
    generalize boundaryStarts body (boundaryLine boundary) (body.length + 1) 0 [] = starts
    cases starts.getLast? with
    | none => rfl
    | some back =>
      dsimp only
      cases body.find (boundaryLineLast boundary) back with
      | none => rfl
      | some q => rfl

/-- The last raw part ends at the closing line. Where the closing line begins inside of the boundary
line its length wraps. -/
def cutLast (line last : Str) : List Str → Option (List Str)
  | [] => some []
  | [raw] => ((line ++ raw).dropInfix? last).map fun x =>
    [raw.take (sizeSub x.1.length line.length)]
  | raw :: raw' :: raws => (cutLast line last (raw' :: raws)).map (raw :: ·)

/-- The raw parts of a body: what is behind a boundary line, up to the next one or to the closing
line. Without a closing line there are none. -/
def rawParts (body boundary : Str) : List Str :=
  if boundary = [] then []
  else (cutLast (boundaryLine boundary) (boundaryLineLast boundary)
    (pieces (boundaryLine boundary) body).tail).getD []

/-- Each raw part is read. -/
def readParts : List Str → Except Exn (List Part)
  | [] => .ok []
  | raw :: raws => do
    let part ← parsePart raw
    let parts ← readParts raws
    return part.toList ++ parts

/-! ## The positions of the cut -/

variable {body boundary : Str}

/-- The loop over the boundary lines finds every cut of the rest of the body, whatever the fuel. -/
theorem boundaryStarts_pieces {line p : Str} {ps : List Str} (hline : line ≠ []) {fuel pos : Nat}
    {starts : List Nat} (hle : pos ≤ body.length) (hfuel : body.length - pos < fuel)
    (hp : pieces line (body.drop pos) = p :: ps) :
    boundaryStarts body line fuel pos starts =
      starts ++ offsets line.length (pos + p.length) ps := by
  induction fuel generalizing pos starts p ps with
  | zero => omega
  | succ fuel ih =>
    have hpos := List.length_pos_iff.mpr hline
    unfold boundaryStarts
    cases hfind : body.find line pos with
    | none =>
      rw [pieces_of_none (find_eq_none hle hfind)] at hp
      cases hp
      exact (List.append_nil _).symm
    | some k =>
      obtain ⟨q, r, hqr, hk, hr, -, hkle⟩ := find_eq_some hfind
      rw [pieces_of_some hline hqr] at hp
      obtain ⟨rfl, hps⟩ := List.cons.inj hp
      obtain ⟨p', ps', hps'⟩ := List.exists_cons_of_ne_nil (pieces_ne_nil line r)
      dsimp only
      rw [if_neg (by omega), ih hkle (by omega) (hr ▸ hps'), ← hps, hps', offsets, hk,
        List.append_assoc, Nat.add_assoc (pos + q.length)]
      rfl

/-- **The loop ends by itself**: more rounds than the size of the body change nothing. -/
theorem boundaryStarts_fuel {line : Str} (hline : line ≠ []) {fuel : Nat}
    (hfuel : body.length < fuel) (starts : List Nat) :
    boundaryStarts body line fuel 0 starts =
      boundaryStarts body line (body.length + 1) 0 starts := by
  obtain ⟨p, ps, hp⟩ := List.exists_cons_of_ne_nil (pieces_ne_nil line (body.drop 0))
  rw [boundaryStarts_pieces hline (Nat.zero_le _) (by omega) hp,
    boundaryStarts_pieces hline (Nat.zero_le _) (by omega) hp]

/-- The pieces give the string back. -/
theorem eq_append_flatMap_of_pieces {line p : Str} {ps : List Str} (hline : line ≠ [])
    (hp : pieces line body = p :: ps) : body = p ++ ps.flatMap (line ++ ·) := by
  induction body using pieces_induction hline generalizing p ps with
  | last s h =>
    rw [pieces_of_none h] at hp
    cases hp
    exact (List.append_nil _).symm
  | cut s q r h ih =>
    rw [pieces_of_some hline h] at hp
    obtain ⟨rfl, hps⟩ := List.cons.inj hp
    obtain ⟨p', ps', hps'⟩ := List.exists_cons_of_ne_nil (pieces_ne_nil line r)
    rw [dropInfix?_append h, ih hps', ← hps, hps', List.flatMap_cons, List.append_assoc,
      List.append_assoc]

theorem sizeSub_add_add (a b c : Nat) : sizeSub (a + b) (a + c) = sizeSub b c := by
  unfold sizeSub
  split
  · rw [if_pos (by omega)]
    omega
  · rw [if_neg (by omega)]
    omega

/-- The parts loop reads what is between the positions. -/
theorem parseParts_cutLast (last : Str) {line raw : Str} {raws : List Str} {pos : Nat}
    (hle : pos ≤ body.length) (hdrop : body.drop pos = (raw :: raws).flatMap (line ++ ·)) :
    ∃ back, (offsets line.length pos (raw :: raws)).getLast? = some back ∧
      match body.find last back with
      | none => cutLast line last (raw :: raws) = none
      | some q => ∃ cut, cutLast line last (raw :: raws) = some cut ∧
          parseParts body line.length (offsets line.length pos (raw :: raws) ++ [q]) =
            readParts cut := by
  induction raws generalizing raw pos with
  | nil =>
    refine ⟨pos, rfl, ?_⟩
    have hline : body.drop pos = line ++ raw := by simpa using hdrop
    have hlen := congrArg List.length hline
    simp only [List.length_append, List.length_drop] at hlen
    unfold Str.find
    rw [if_neg (by omega), hline]
    cases hx : (line ++ raw).dropInfix? last with
    | none => simp [cutLast, hx]
    | some x =>
      refine ⟨_, by rw [cutLast, hx]; rfl, ?_⟩
      have hsub : body.substrN (pos + line.length)
          (sizeSub (pos + x.1.length) (pos + line.length)) =
            .ok (raw.take (sizeSub x.1.length line.length)) := by
        unfold Str.substrN
        rw [if_pos (by omega), sizeSub_add_add, drop_add hline]
      simp only [offsets, List.singleton_append, parseParts, hsub, readParts]
      rfl
  | cons raw' raws ih =>
    rw [List.flatMap_cons, List.append_assoc] at hdrop
    have hraw := drop_add hdrop
    have hnext := drop_add hraw
    have hlen := congrArg List.length hdrop
    simp only [List.length_append, List.length_drop] at hlen
    rw [Nat.add_assoc] at hnext
    obtain ⟨back, hlast, hmatch⟩ := @ih raw' _ (by omega) hnext
    refine ⟨back, by rw [offsets, offsets, List.getLast?_cons_cons, ← offsets]; exact hlast, ?_⟩
    cases hfind : body.find last back with
    | none =>
      rw [hfind] at hmatch
      simp only [cutLast, hmatch, Option.map_none]
    | some q =>
      rw [hfind] at hmatch
      obtain ⟨cut, hcut, hparts⟩ := hmatch
      refine ⟨raw :: cut, by rw [cutLast, hcut]; rfl, ?_⟩
      have hsub : body.substrN (pos + line.length)
          (sizeSub (pos + (line.length + raw.length)) (pos + line.length)) = .ok raw := by
        unfold Str.substrN
        rw [if_pos (by omega), hraw, ← Nat.add_assoc, sizeSub_add, List.take_left]
      rw [offsets] at hparts
      rw [offsets, offsets, List.cons_append, List.cons_append, parseParts, hsub]
      rw [List.cons_append] at hparts
      simp only [hparts, readParts]
      rfl

/-- The delimiters are where the pieces are cut, and the closing line behind the last cut. -/
theorem delimiters_of_pieces (hb : boundary ≠ []) {p : Str} {ps : List Str}
    (hp : pieces (boundaryLine boundary) body = p :: ps) :
    delimiters body boundary =
      match (offsets (boundaryLine boundary).length p.length ps).getLast? with
      | none => []
      | some back =>
        match body.find (boundaryLineLast boundary) back with
        | none => []
        | some q => offsets (boundaryLine boundary).length p.length ps ++ [q] := by
  have hstarts : boundaryStarts body (boundaryLine boundary) (body.length + 1) 0 [] =
      offsets (boundaryLine boundary).length p.length ps := by
    rw [boundaryStarts_pieces boundaryLine_ne_nil (Nat.zero_le _) (by omega) hp, Nat.zero_add]
    rfl
  unfold delimiters
  split
  · rename_i h
    obtain rfl : body = [] := h.resolve_right hb
    have hnil : pieces (boundaryLine boundary) [] = [[]] := pieces_of_none <| by
      rw [dropInfix?_eq_none, List.infix_nil]
      exact boundaryLine_ne_nil
    rw [hnil] at hp
    cases hp
    rfl
  · rw [hstarts]

/-- **`parse` reads the raw parts**, for every body and every boundary. -/
theorem parse_eq (body boundary : Str) :
    parse body boundary = readParts (rawParts body boundary) := by
  rw [parse_eq_delimiters]
  unfold rawParts
  by_cases hb : boundary = []
  · rw [if_pos hb, delimiters, if_pos (.inr hb)]
    rfl
  · rw [if_neg hb]
    obtain ⟨p, ps, hp⟩ := List.exists_cons_of_ne_nil (pieces_ne_nil (boundaryLine boundary) body)
    have hbody := eq_append_flatMap_of_pieces boundaryLine_ne_nil hp
    rw [delimiters_of_pieces hb hp, hp, List.tail_cons]
    cases ps with
    | nil => rfl
    | cons raw raws =>
      have hdrop : body.drop p.length = (raw :: raws).flatMap (boundaryLine boundary ++ ·) := by
        conv_lhs => rw [hbody]
        exact List.drop_left
      have hle : p.length ≤ body.length := by
        rw [hbody, List.length_append]
        omega
      obtain ⟨back, hlast, hmatch⟩ := parseParts_cutLast (boundaryLineLast boundary) hle hdrop
      rw [hlast]
      dsimp only
      cases hfind : body.find (boundaryLineLast boundary) back with
      | none =>
        rw [hfind] at hmatch
        rw [hmatch]
        rfl
      | some q =>
        rw [hfind] at hmatch
        obtain ⟨cut, hcut, hparts⟩ := hmatch
        rw [hcut]
        exact hparts

/-! ## Where `parsePart` throws -/

/-- The last line of the raw part is not terminated, and no empty line is before it. -/
def Truncated (raw : Str) : Prop :=
  raw ≠ [] ∧ ¬ crlf <+: raw ∧ ¬ crlf <:+ raw ∧ ¬ crlf ++ crlf <:+: raw

/-- What `char_counter` is after the loop over these lines: each line counts with a line end, up to
the empty one. -/
def headerSize : List Str → Nat
  | [] => 0
  | line :: lines => line.length + 2 + if line = [] then 0 else headerSize lines

theorem parseLines_fst (lines : List Str) (n : Nat) (p : Part) :
    (parseLines lines n p).1 = n + headerSize lines := by
  induction lines generalizing n p with
  | nil => rfl
  | cons line lines ih =>
    unfold parseLines headerSize
    by_cases hl : line = []
    · rw [hl]
      rfl
    · simp only [hl, if_false]
      split
      · rw [ih]
        omega
      · split <;> rw [ih] <;> omega

/-- The lines of a text without its leading line end. -/
def linesOf (t : Str) : List Str := dropTrailing (pieces crlf t)

theorem crlf_ne_nil : crlf ≠ [] := List.cons_ne_nil _ _

/-- The first line, and the others. -/
theorem headerSize_linesOf_append {p : Str} (hp : ¬ crlf <:+: p) {r : Str} (hr : r ≠ []) :
    headerSize (linesOf (p ++ crlf ++ r)) =
      p.length + 2 + if p = [] then 0 else headerSize (linesOf r) := by
  have hpieces : pieces crlf r ≠ [[]] := pieces_ne_singleton_nil crlf_ne_nil hr
  unfold linesOf
  rw [pieces_crlf hp, dropTrailing_cons p (pieces_ne_nil _ _), if_neg hpieces, headerSize]

/-- The text has a line end that the loop stops behind: at its start, at its end, or an empty line
in between. -/
def Terminated (t : Str) : Prop := crlf <+: t ∨ crlf <:+ t ∨ crlf ++ crlf <:+: t

theorem terminated_append_iff {p r : Str} (hp : ¬ crlf <:+: p) (hne : p ≠ []) (hr : r ≠ []) :
    Terminated (p ++ crlf ++ r) ↔ Terminated r := by
  have hab : byte '\r' ≠ byte '\n' := by decide
  have hpre : ¬ crlf <+: p ++ crlf ++ r := fun h => hne (eq_nil_of_pair_isPrefix hab hp h)
  have hsuf : crlf <:+ p ++ crlf ++ r ↔ crlf <:+ r := by
    rw [show crlf = [byte '\r', byte '\n'] from rfl, pair_suffix_append_iff hab]
    exact or_iff_right hr
  have htwice : crlf ++ crlf <:+: p ++ crlf ++ r ↔ crlf <+: r ∨ crlf ++ crlf <:+: r :=
    pair_twice_append_iff hab hp
  unfold Terminated
  rw [hsuf, htwice, or_iff_right hpre]
  tauto

/-- The header of a text ends in the text exactly if one of its line ends ends it. -/
theorem headerSize_linesOf_le_iff (t : Str) :
    headerSize (linesOf t) ≤ t.length + 2 ∧
      (headerSize (linesOf t) ≤ t.length ↔ Terminated t) := by
  induction t using pieces_induction crlf_ne_nil with
  | last t h =>
    have hno : ¬ crlf <:+: t := dropInfix?_eq_none.mp h
    have hsize : headerSize (linesOf t) = t.length + 2 := by
      unfold linesOf
      rw [pieces_of_none h]
      show t.length + 2 + (if t = [] then 0 else 0) = _
      rw [ite_self]
    refine ⟨by omega, ⟨fun hle => by omega, ?_⟩⟩
    rintro (hi | hi | hi)
    · exact absurd hi.isInfix hno
    · exact absurd hi.isInfix hno
    · exact absurd ((List.prefix_append _ _).isInfix.trans hi) hno
  | cut t p r h ih =>
    obtain rfl := dropInfix?_append h
    have hp := dropInfix?_not_infix crlf_ne_nil h
    have hlen : (p ++ crlf ++ r).length = p.length + 2 + r.length := by
      rw [List.length_append, List.length_append]
      rfl
    by_cases hr : r = []
    · -- the line end is at the end of the text
      subst hr
      have hnil : pieces crlf [] = [[]] := pieces_eq_singleton (by decide)
      have hsize : headerSize (linesOf (p ++ crlf ++ [])) = p.length + 2 := by
        unfold linesOf
        rw [pieces_crlf hp, hnil, dropTrailing_cons p (List.cons_ne_nil _ _), if_pos rfl]
        show p.length + 2 + (if p = [] then 0 else 0) = _
        rw [ite_self]
      have hend : Terminated (p ++ crlf ++ []) := .inr (.inl (by simp))
      rw [hsize, hlen]
      exact ⟨by omega, iff_of_true (by omega) hend⟩
    · rw [headerSize_linesOf_append hp hr, hlen]
      by_cases hne : p = []
      · subst hne
        have hstart : Terminated ([] ++ crlf ++ r) := .inl (by simp)
        rw [if_pos rfl]
        exact ⟨by omega, iff_of_true (by omega) hstart⟩
      · rw [if_neg hne, terminated_append_iff hp hne hr, ← ih.2]
        omega

/-- The lines of a raw part. A line end at its start is not counted. -/
theorem split_crlf {raw : Str} (hne : raw ≠ []) :
    (∃ t, raw = crlf ++ t ∧ split raw crlf = linesOf t) ∨
      (¬ crlf <+: raw ∧ split raw crlf = linesOf raw) := by
  rw [split_eq hne crlf_ne_nil]
  by_cases hpre : crlf <+: raw
  · obtain ⟨t, rfl⟩ := hpre
    refine .inl ⟨t, rfl, ?_⟩
    have hp : pieces crlf (crlf ++ t) = [] :: pieces crlf t := pieces_crlf (p := []) (by decide) t
    obtain ⟨q, qs, hq⟩ := List.exists_cons_of_ne_nil (pieces_ne_nil crlf t)
    unfold linesOf
    rw [hp, hq]
    rfl
  · refine .inr ⟨hpre, ?_⟩
    have hfind : raw.find crlf 0 ≠ some 0 := by
      intro h
      obtain ⟨p, r, hpr, hk, -⟩ := find_eq_some h
      obtain rfl : p = [] := List.eq_nil_of_length_eq_zero (by omega)
      exact hpre ⟨r, (dropInfix?_append hpr).symm⟩
    rw [dropLeading_pieces crlf_ne_nil hfind]
    rfl

/-- The raw part is not read past its end exactly if it is not truncated. -/
theorem headerSize_split_le_iff {raw : Str} (hne : raw ≠ []) :
    headerSize (split raw crlf) ≤ raw.length ↔ ¬ Truncated raw := by
  rcases split_crlf hne with ⟨t, rfl, hs⟩ | ⟨hpre, hs⟩
  · have hle := (headerSize_linesOf_le_iff t).1
    have hlen : (crlf ++ t).length = t.length + 2 := by
      rw [List.length_append, Nat.add_comm]
      rfl
    have hstart : crlf <+: crlf ++ t := List.prefix_append _ _
    rw [hs]
    exact iff_of_true (by omega) fun h => h.2.1 hstart
  · rw [hs, (headerSize_linesOf_le_iff raw).2]
    unfold Terminated Truncated
    tauto

theorem parsePart_ok_iff (raw : Str) : (∃ p, parsePart raw = .ok p) ↔ ¬ Truncated raw := by
  by_cases hne : raw = []
  · exact iff_of_true ⟨none, by rw [parsePart, if_pos hne]⟩ fun h => h.1 hne
  · rw [← headerSize_split_le_iff hne, parsePart, if_neg hne]
    have hfst := parseLines_fst (split raw crlf) 0 {}
    generalize parseLines (split raw crlf) 0 {} = r at hfst
    obtain ⟨charCounter, p⟩ := r
    rw [Nat.zero_add] at hfst
    dsimp only at hfst ⊢
    rw [hfst, Str.substrN]
    by_cases hle : headerSize (split raw crlf) ≤ raw.length
    · rw [if_pos hle]
      exact iff_of_true ⟨_, rfl⟩ hle
    · rw [if_neg hle]
      exact iff_of_false (by rintro ⟨p, ⟨⟩⟩) hle

theorem readParts_ok_iff (raws : List Str) :
    (∃ parts, readParts raws = .ok parts) ↔ ∀ raw ∈ raws, ¬ Truncated raw := by
  induction raws with
  | nil => exact iff_of_true ⟨[], rfl⟩ fun raw hraw => (by cases hraw)
  | cons raw raws ih =>
    rw [List.forall_mem_cons, ← ih, ← parsePart_ok_iff]
    constructor
    · rintro ⟨parts, h⟩
      unfold readParts at h
      cases hp : parsePart raw with
      | error e => rw [hp] at h; cases h
      | ok p =>
        cases hps : readParts raws with
        | error e => rw [hp, hps] at h; cases h
        | ok ps => exact ⟨⟨p, rfl⟩, ⟨ps, rfl⟩⟩
    · rintro ⟨⟨p, hp⟩, ⟨ps, hps⟩⟩
      exact ⟨_, by rw [readParts, hp, hps]; rfl⟩

/-! ## When the parser returns -/

/-- `parse` ends, and no substring begins outside of its string: the loop over the boundary lines
is not stopped by its fuel, and neither `split` nor the parser itself throws. -/
structure Returns (body boundary : Str) : Prop where
  ends : ∀ fuel, body.length < fuel → boundaryStarts body (boundaryLine boundary) fuel 0 [] =
    boundaryStarts body (boundaryLine boundary) (body.length + 1) 0 []
  split : ∀ raw ∈ rawParts body boundary, splitChecked raw crlf = .ok (split raw crlf)
  parse : ∃ parts, parse body boundary = .ok parts

/-- **For every body and every boundary, `parse` returns exactly if no raw part is truncated.** -/
theorem parse_returns_iff (body boundary : Str) :
    Returns body boundary ↔ ∀ raw ∈ rawParts body boundary, ¬ Truncated raw := by
  rw [← readParts_ok_iff, ← parse_eq]
  exact ⟨fun h => h.parse, fun h =>
    ⟨fun fuel hfuel => boundaryStarts_fuel boundaryLine_ne_nil hfuel [],
      fun raw _ => splitChecked_eq raw crlf, h⟩⟩

/-- A part without an empty line, whose only line is not terminated. -/
theorem truncated_part_throws : ¬ ∀ body boundary, Returns body boundary := by
  intro h
  obtain ⟨-, -, parts, hp⟩ := h (lit "--X\r\nabc--X--") (lit "X")
  have : parse (lit "--X\r\nabc--X--") (lit "X") = .error .outOfRange := by decide +kernel
  rw [this] at hp
  cases hp

end Multipart
end Html
end Malloy
