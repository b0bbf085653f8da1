import Malloy.Core.Str

/-!
# `malloy::split` (`core/utils.hpp`)

`split` is the loop of the source over the position `pos`. `split_eq` is its specification: the
complete split of `Malloy/Lib/Split.lean`, less an empty first and an empty last piece. Every
parser of the library that cuts at separators rests on it. `splitChecked` is the loop with the
checks of `substr`, which never throws (`splitChecked_eq`). `splitRounds` is the loop as it is
written, with positions that are a `size_type`: `npos` is one of them, and a sum wraps.
-/

namespace Malloy

open Lib

/-- The loop of `split`, from the position `pos` and the pieces captured so far. Each round moves
`pos` by at least one byte, so `fuel = str.size() + 1` rounds are enough (`splitLoop_eq`). -/
def splitLoop (str delimiter : Str) : Nat → Nat → List Str → List Str
  | 0, _, parts => parts
  | fuel + 1, pos, parts =>
    match str.find delimiter pos with
    -- Drop leading delimiters
    | some 0 => splitLoop str delimiter fuel (pos + delimiter.length) parts
    | some posFound =>
      let parts := parts ++ [(str.drop pos).take (posFound - pos)]
      -- Drop trailing delimiters
      if posFound + delimiter.length ≥ str.length then parts
      else splitLoop str delimiter fuel (posFound + delimiter.length) parts
    -- `npos + delimiter.size()` wraps to `delimiter.size() - 1`; whether that reaches the end or
    -- not, the loop is left here: by the first `break` or by the one for `npos`.
    | none => parts ++ [str.drop pos]

def split (str delimiter : Str) : List Str :=
  if str = [] then []
  else if delimiter = [] then [str]
  else splitLoop str delimiter (str.length + 1) 0 []

/-- A found position splits the rest of the string. -/
theorem find_eq_some {s d : Str} {pos k : Nat} (h : s.find d pos = some k) :
    ∃ p r, (s.drop pos).dropInfix? d = some (p, r) ∧ k = pos + p.length ∧
      r = s.drop (k + d.length) ∧ (s.drop pos).take (k - pos) = p ∧ k + d.length ≤ s.length := by
  unfold Str.find at h
  split at h
  · cases h
  · rename_i hle
    obtain ⟨⟨p, r⟩, hpr, rfl⟩ := Option.map_eq_some_iff.mp h
    have hs := dropInfix?_append hpr
    have hlen := congrArg List.length hs
    simp only [List.length_append, List.length_drop] at hlen
    refine ⟨p, r, hpr, rfl, ?_, ?_, by simp only; omega⟩
    · show r = s.drop (pos + p.length + d.length)
      rw [Nat.add_assoc, ← List.drop_drop, hs, ← List.length_append, List.drop_left]
    · show (s.drop pos).take (pos + p.length - pos) = p
      rw [Nat.add_sub_cancel_left, hs, List.append_assoc, List.take_left]

theorem find_eq_none {s d : Str} {pos : Nat} (hle : pos ≤ s.length) (h : s.find d pos = none) :
    (s.drop pos).dropInfix? d = none := by
  unfold Str.find at h
  rw [if_neg (by omega)] at h
  exact Option.map_eq_none_iff.mp h

/-- A position that no occurrence begins before is the one that is found. -/
theorem find_of_first {s d p r : Str} {pos : Nat} (hd : d ≠ []) (hs : s.drop pos = p ++ d ++ r)
    (h : ¬ d <:+: p ++ d.dropLast) : s.find d pos = some (pos + p.length) := by
  have hlen := congrArg List.length hs
  have hpos := List.length_pos_iff.mpr hd
  simp only [List.length_append, List.length_drop] at hlen
  unfold Str.find
  rw [if_neg (by omega), hs, dropInfix?_of_first hd h]
  rfl

theorem find_of_not_isInfix {s d : Str} {pos : Nat} (h : ¬ d <:+: s.drop pos) :
    s.find d pos = none := by
  unfold Str.find
  split
  · rfl
  · rw [dropInfix?_eq_none.mpr h]
    rfl

/-- Only a delimiter at the start of the string is found at `0`. -/
theorem find_ne_zero {s d : Str} {pos : Nat} (h0 : 0 < pos) : s.find d pos ≠ some 0 := by
  intro h
  obtain ⟨p, r, -, hk, -⟩ := find_eq_some h
  omega

/-- Past a leading delimiter the loop captures the pieces of the rest of the string, less an empty
last one. -/
theorem splitLoop_eq {s d : Str} (hd : d ≠ []) {fuel pos : Nat} {parts : List Str}
    (h0 : s.find d pos ≠ some 0) (hle : pos ≤ s.length) (hf : s.length - pos < fuel) :
    splitLoop s d fuel pos parts = parts ++ dropTrailing (pieces d (s.drop pos)) := by
  induction fuel generalizing pos parts with
  | zero => omega
  | succ fuel ih =>
    have hpos := List.length_pos_iff.mpr hd
    unfold splitLoop
    split
    · rename_i hk
      exact absurd hk h0
    · rename_i k hk hfind
      obtain ⟨p, r, hpr, hkp, hr, hp, hkle⟩ := find_eq_some hfind
      rw [pieces_of_some hd hpr, dropTrailing_cons p (pieces_ne_nil d r), hp]
      dsimp only
      split
      · -- the delimiter is at the end of the string
        have hr0 : r = [] := by rw [hr]; exact List.drop_of_length_le (by omega)
        have hpc : pieces d r = [[]] := by
          rw [hr0]
          exact pieces_of_none (dropInfix?_eq_none.mpr (by rw [List.infix_nil]; exact hd))
        rw [if_pos hpc]
      · rename_i hlt
        have hne : pieces d r ≠ [[]] := by
          intro hc
          have hr0 : r = [] := by
            have := intercalate_pieces hd r
            rw [hc, List.intercalate_singleton] at this
            exact this.symm
          have := congrArg List.length hr
          rw [hr0, List.length_drop, List.length_nil] at this
          omega
        rw [if_neg hne, ih (find_ne_zero (by omega)) (by omega) (by omega), ← hr,
          List.append_assoc]
        rfl
    · rename_i hfind
      rw [pieces_of_none (find_eq_none hle hfind)]
      rfl

/-- An empty first piece is what a delimiter at the start of the string leaves. -/
theorem dropLeading_pieces {s d : Str} (hd : d ≠ []) (h : s.find d 0 ≠ some 0) :
    dropLeading (pieces d s) = pieces d s := by
  cases hf : s.dropInfix? d with
  | none =>
    rw [pieces_of_none hf]
    cases s <;> rfl
  | some pr =>
    obtain ⟨p, r⟩ := pr
    rw [pieces_of_some hd hf]
    cases p with
    | nil => simp [Str.find, hf] at h
    | cons c p => rfl

/-- **The specification of `split`.** -/
theorem split_eq {s d : Str} (hs : s ≠ []) (hd : d ≠ []) :
    split s d = dropTrailing (dropLeading (pieces d s)) := by
  have hpos := List.length_pos_iff.mpr hd
  have hspos := List.length_pos_iff.mpr hs
  rw [split, if_neg hs, if_neg hd]
  by_cases h : s.find d 0 = some 0
  · obtain ⟨p, r, hpr, hkp, hr, -, hle⟩ := find_eq_some h
    have hp : p = [] := List.eq_nil_of_length_eq_zero (by omega)
    subst hp
    rw [List.drop_zero] at hpr
    have hlead : dropLeading (pieces d s) = pieces d (s.drop (0 + d.length)) := by
      rw [pieces_of_some hd hpr, hr]
      obtain ⟨q, qs, hq⟩ := List.exists_cons_of_ne_nil (pieces_ne_nil d (s.drop (0 + d.length)))
      rw [hq]
      rfl
    unfold splitLoop
    rw [h, hlead]
    exact splitLoop_eq hd (find_ne_zero (by omega)) hle (by omega)
  · rw [splitLoop_eq hd h (Nat.zero_le _) (by omega), dropLeading_pieces hd h]
    rfl

/-- What is read from the parts of a string, if nothing is read from an empty part, is read from all
its pieces. -/
theorem filterMap_split {β : Type} {f : Str → Option β} (hf : f [] = none) {d : Str} (hd : d ≠ [])
    (s : Str) : (split s d).filterMap f = (pieces d s).filterMap f := by
  by_cases hs : s = []
  · rw [hs, split, if_pos rfl, pieces_eq_singleton (by rwa [List.infix_nil]),
      List.filterMap_cons_none hf]
  · rw [split_eq hs hd, filterMap_dropTrailing hf, filterMap_dropLeading hf]

/-- A separator that does not overlap itself cuts what is read in two. -/
theorem filterMap_split_append {β : Type} {f : Str → Option β} (hf : f [] = none) {d : Str}
    {c : UInt8} (hc : c ∉ d) (x y : Str) :
    (split (x ++ (d ++ [c]) ++ y) (d ++ [c])).filterMap f =
      (split x (d ++ [c])).filterMap f ++ (split y (d ++ [c])).filterMap f := by
  have hd : d ++ [c] ≠ [] := List.append_ne_nil_of_right_ne_nil _ (List.cons_ne_nil _ _)
  simp only [filterMap_split hf hd, pieces_sep_append hc, List.filterMap_append]

/-! ## The substrings that `split` takes -/

/-- The loop of `split`, with the checks that `str.substr(pos, pos_found-pos)` makes. -/
def splitLoopChecked (str delimiter : Str) : Nat → Nat → List Str → Except Exn (List Str)
  | 0, _, parts => .ok parts
  | fuel + 1, pos, parts =>
    match str.find delimiter pos with
    | some 0 => splitLoopChecked str delimiter fuel (pos + delimiter.length) parts
    | some posFound => do
      let part ← str.substrN pos (sizeSub posFound pos)
      let parts := parts ++ [part]
      if posFound + delimiter.length ≥ str.length then .ok parts
      else splitLoopChecked str delimiter fuel (posFound + delimiter.length) parts
    | none => do
      let part ← str.substr pos
      .ok (parts ++ [part])

def splitChecked (str delimiter : Str) : Except Exn (List Str) :=
  if str = [] then .ok []
  else if delimiter = [] then .ok [str]
  else splitLoopChecked str delimiter (str.length + 1) 0 []

theorem splitLoopChecked_eq {s d : Str} {fuel pos : Nat} {parts : List Str}
    (hle : pos ≤ s.length) :
    splitLoopChecked s d fuel pos parts = .ok (splitLoop s d fuel pos parts) := by
  induction fuel generalizing pos parts with
  | zero => rfl
  | succ fuel ih =>
    unfold splitLoopChecked splitLoop
    cases hfind : s.find d pos with
    | none =>
      simp only [Str.substr, if_pos hle]
      rfl
    | some k =>
      obtain ⟨p, r, -, hk, -, -, hkle⟩ := find_eq_some hfind
      cases k with
      | zero => exact ih (by omega)
      | succ k =>
        have hpart : s.substrN pos (sizeSub (k + 1) pos) =
            .ok ((s.drop pos).take (k + 1 - pos)) := by
          rw [Str.substrN, if_pos hle, sizeSub, if_pos (by omega)]
        simp only [hpart, bind, Except.bind]
        split
        · rfl
        · exact ih hkle

/-- **Every substring that `split` takes begins in the string.** -/
theorem splitChecked_eq (s d : Str) : splitChecked s d = .ok (split s d) := by
  unfold splitChecked split
  split
  · rfl
  · split
    · rfl
    · exact splitLoopChecked_eq (Nat.zero_le _)

/-! ## The first part of a split -/

section

variable {a b : UInt8}

theorem pieces_ne_singleton_nil {d y : Str} (hd : d ≠ []) (hy : y ≠ []) : pieces d y ≠ [[]] := by
  intro h
  have := intercalate_pieces hd y
  rw [h, List.intercalate_singleton] at this
  exact hy this.symm

theorem dropTrailing_pieces {d y : Str} (h : ¬ d <:+: y) : dropTrailing (pieces d y) = [y] := by
  rw [pieces_eq_singleton h]
  rfl

theorem dropTrailing_pieces_append (hab : a ≠ b) {x y : Str} (hx : ¬ [a, b] <:+: x)
    (hy : y ≠ []) :
    dropTrailing (pieces [a, b] (x ++ [a, b] ++ y)) = x :: dropTrailing (pieces [a, b] y) := by
  rw [pieces_pair_append hab hx, dropTrailing_cons x (pieces_ne_nil _ _),
    if_neg (pieces_ne_singleton_nil (List.cons_ne_nil _ _) hy)]

/-- What is before the first separator is the first part. -/
theorem split_append (hab : a ≠ b) {x y : Str} (hx : ¬ [a, b] <:+: x) (hne : x ≠ [])
    (hy : y ≠ []) :
    split (x ++ [a, b] ++ y) [a, b] = x :: dropTrailing (pieces [a, b] y) := by
  have hs : x ++ [a, b] ++ y ≠ [] := List.append_ne_nil_of_right_ne_nil _ hy
  obtain ⟨c, x, rfl⟩ := List.exists_cons_of_ne_nil hne
  rw [split_eq hs (List.cons_ne_nil _ _), ← dropTrailing_pieces_append hab hx hy,
    pieces_pair_append hab hx]
  rfl

/-- The same for a separator of one character. -/
theorem split_append_singleton {c : UInt8} {x : Str} (hx : c ∉ x) (hne : x ≠ []) (y : Str) :
    split (x ++ [c] ++ y) [c] = if y = [] then [x] else x :: dropTrailing (pieces [c] y) := by
  have hd : [c] ≠ [] := List.cons_ne_nil _ _
  have hs : x ++ [c] ++ y ≠ [] := by simp [hne]
  have hfirst : ¬ [c] <:+: x ++ [c].dropLast := by
    rw [List.dropLast_singleton, List.append_nil]
    exact fun hi => hx (hi.subset List.mem_cons_self)
  have hlead : dropLeading (x :: pieces [c] y) = x :: pieces [c] y := by
    obtain ⟨b, n, rfl⟩ := List.exists_cons_of_ne_nil hne
    rfl
  rw [split_eq hs hd, pieces_append hd hfirst, hlead, dropTrailing_cons x (pieces_ne_nil _ _)]
  by_cases hy : y = []
  · rw [if_pos hy, hy, pieces_eq_singleton (by simp), if_pos rfl]
  · rw [if_neg hy, if_neg (pieces_ne_singleton_nil hd hy)]

/-- The strings that a separator of one character splits into two parts. -/
theorem split_eq_pair_iff {c : UInt8} {s u p : Str} (hu : u ≠ []) (huc : c ∉ u) :
    split s [c] = [u, p] ↔ c ∉ p ∧ (s = u ++ c :: p ++ [c] ∨ s = c :: (u ++ c :: p) ++ [c] ∨
      p ≠ [] ∧ (s = u ++ c :: p ∨ s = c :: (u ++ c :: p))) := by
  have hc : [c] ≠ [] := List.cons_ne_nil _ _
  by_cases hs : s = []
  · subst hs
    refine ⟨fun h => (by cases h), fun h => ?_⟩
    simp at h
  have hsplit : split s [c] = [u, p] ↔
      ((pieces [c] s = [u, p] ∨ pieces [c] s = [[], u, p]) ∧ p ≠ []) ∨
        (pieces [c] s = [u, p, []] ∨ pieces [c] s = [[], u, p, []]) := by
    rw [split_eq hs hc, dropTrailing_eq_pair, dropLeading_eq_cons hu, dropLeading_eq_cons hu]
  rw [hsplit]
  by_cases hpc : c ∈ p
  · -- no piece has a separator
    have hno : ∀ ps : List Str, p ∈ ps → pieces [c] s ≠ ps := fun ps hm he =>
      not_infix_of_mem_pieces hc (he ▸ hm) ((List.singleton_infix_iff _ _).mpr hpc)
    simp [hno, hpc]
  · have hpieces : ∀ ps : List Str, ps ≠ [] → (∀ q ∈ ps, q = u ∨ q = p ∨ q = []) →
        (pieces [c] s = ps ↔ s = [c].intercalate ps) := by
      intro ps hne hps
      refine pieces_eq_iff_intercalate hne fun q hq => ?_
      rcases hps q hq with rfl | rfl | rfl
      · exact huc
      · exact hpc
      · exact List.not_mem_nil
    rw [hpieces [u, p] (by simp) (by simp), hpieces [[], u, p] (by simp) (by simp),
      hpieces [u, p, []] (by simp) (by simp), hpieces [[], u, p, []] (by simp) (by simp)]
    simp only [List.intercalate_cons_cons, List.intercalate_singleton, List.nil_append,
      List.append_assoc, List.cons_append, List.append_nil]
    grind

/-- No part has a separator in it. -/
theorem not_infix_of_mem_split {s d p : Str} (hd : d ≠ []) (hp : p ∈ split s d) :
    ¬ d <:+: p := by
  by_cases hs : s = []
  · rw [split, if_pos hs] at hp
    cases hp
  · rw [split_eq hs hd] at hp
    apply not_infix_of_mem_pieces hd (s := s)
    exact mem_of_mem_dropLeading (mem_of_mem_dropTrailing hp)

end

/-! ## The loop on `size_type` -/

/-- `std::string_view::npos`. -/
def npos : Nat := 2 ^ 64 - 1

/-- A `std::string_view`: no string is as long as `npos`. -/
structure StringView where
  chars : Str
  length_lt : chars.length < npos

/-- `a + b` of a `std::size_t`. -/
def sizeAdd (a b : Nat) : Nat := (a + b) % 2 ^ 64

/-- The rounds of the loop of `split`; `none` when there are none left. -/
def splitRounds (str delimiter : StringView) :
    Nat → Nat → List Str → Option (Except Exn (List Str))
  | 0, _, _ => none
  | rounds + 1, pos, parts =>
    if pos = npos then some (.ok parts)
    else
      -- Look for substring
      let posFound := (str.chars.find delimiter.chars pos).getD npos
      -- Drop leading delimiters
      if posFound = 0 then
        splitRounds str delimiter rounds (sizeAdd pos delimiter.chars.length) parts
      else
        -- Capture string
        match str.chars.substrN pos (sizeSub posFound pos) with
        | .error e => some (.error e)
        | .ok part =>
          -- Drop trailing delimiters
          if sizeAdd posFound delimiter.chars.length ≥ str.chars.length then
            some (.ok (parts ++ [part]))
          -- Move on
          else if posFound = npos then some (.ok (parts ++ [part]))
          else
            splitRounds str delimiter rounds (sizeAdd posFound delimiter.chars.length)
              (parts ++ [part])

/-- `split(str, delimiter)`, for as many rounds. -/
def splitView (rounds : Nat) (str delimiter : StringView) : Option (Except Exn (List Str)) :=
  if str.chars = [] then some (.ok [])
  else if delimiter.chars = [] then some (.ok [str.chars])
  else splitRounds str delimiter rounds 0 []

theorem StringView.find_lt {s d : StringView} {pos k : Nat}
    (h : s.chars.find d.chars pos = some k) : k + d.chars.length < npos := by
  obtain ⟨p, r, -, -, -, -, hle⟩ := find_eq_some h
  exact Nat.lt_of_le_of_lt hle s.length_lt

/-- A sum that does not go past the end of a string does not wrap. -/
theorem sizeAdd_of_lt {a b : Nat} (h : a + b < npos) : sizeAdd a b = a + b := by
  unfold npos at h
  exact Nat.mod_eq_of_lt (by omega)

/-- From `pos` up to `npos` is the rest of the string. -/
theorem StringView.substrN_npos (s : StringView) {pos : Nat} (hle : pos ≤ s.chars.length) :
    s.chars.substrN pos (sizeSub npos pos) = .ok (s.chars.drop pos) := by
  have hlt := s.length_lt
  rw [Str.substrN, if_pos hle, sizeSub, if_pos (by omega), List.take_of_length_le]
  rw [List.length_drop]
  omega

/-- The loop never sees a position that is `npos`, nor a sum that has wrapped, but the one that it
leaves with: it makes the same cuts as the loop on lists. -/
theorem splitRounds_eq {s d : StringView} (hd : d.chars ≠ []) {rounds fuel pos : Nat}
    {parts : List Str} (hle : pos ≤ s.chars.length) (hr : s.chars.length - pos < rounds)
    (hf : s.chars.length - pos < fuel) :
    splitRounds s d rounds pos parts =
      some (splitLoopChecked s.chars d.chars fuel pos parts) := by
  have hlt := s.length_lt
  have hpos := List.length_pos_iff.mpr hd
  induction rounds generalizing fuel pos parts with
  | zero => omega
  | succ rounds ih =>
    obtain ⟨fuel, rfl⟩ := Nat.exists_eq_succ_of_ne_zero (show fuel ≠ 0 by omega)
    have hne : pos ≠ npos := by omega
    unfold splitRounds splitLoopChecked
    rw [if_neg hne]
    cases hfind : s.chars.find d.chars pos with
    | none =>
      have hnpos : npos ≠ 0 := by decide
      simp only [Option.getD_none, if_neg hnpos, s.substrN_npos hle, Str.substr, if_pos hle]
      -- whether the wrapped sum reaches the end or not
      split <;> rfl
    | some k =>
      have hk := StringView.find_lt hfind
      obtain ⟨p, r, -, hkp, -, -, hkle⟩ := find_eq_some hfind
      cases k with
      | zero =>
        obtain rfl : pos = 0 := by omega
        simp only [Option.getD_some, if_true, sizeAdd_of_lt hk]
        exact ih hkle (by omega) (by omega)
      | succ k =>
        have hpart : s.chars.substrN pos (sizeSub (k + 1) pos) =
            .ok ((s.chars.drop pos).take (k + 1 - pos)) := by
          rw [Str.substrN, if_pos hle, sizeSub, if_pos (by omega)]
        have hk0 : k + 1 ≠ 0 := by omega
        have hkn : k + 1 ≠ npos := by omega
        simp only [Option.getD_some, if_neg hk0, hpart, sizeAdd_of_lt hk, if_neg hkn, bind,
          Except.bind]
        split
        · rfl
        · exact ih hkle (by omega) (by omega)

/-- As many rounds as the string has characters, and one more, are enough. -/
theorem splitView_eq {s d : StringView} {rounds : Nat} (hr : s.chars.length < rounds) :
    splitView rounds s d = some (.ok (split s.chars d.chars)) := by
  rw [← splitChecked_eq]
  unfold splitView splitChecked
  split
  · rfl
  · split
    · rfl
    · rename_i hd
      exact splitRounds_eq hd (Nat.zero_le _) hr (Nat.lt_succ_self _)

/-- What `split` drops at the ends of a string. -/
theorem intercalate_split {s d : Str} (hs : s ≠ []) (hd : d ≠ []) :
    ∃ lead trail, (lead = [] ∨ lead = d) ∧ (trail = [] ∨ trail = d) ∧
      lead ++ d.intercalate (split s d) ++ trail = s := by
  obtain ⟨lead, hlead, h⟩ := intercalate_dropLeading d (pieces d s)
  obtain ⟨trail, htrail, h'⟩ := intercalate_dropTrailing d (dropLeading (pieces d s))
  refine ⟨lead, trail, hlead, htrail, ?_⟩
  rw [split_eq hs hd, List.append_assoc, ← h', ← h, intercalate_pieces hd]

/-- **`split` against its reference.** The loop ends, whatever the rounds that it is given above the
length of the string, every substring that it takes begins in the string, and it returns the
complete split less an empty first and an empty last piece. -/
theorem splitView_spec (s d : StringView) (hs : s.chars ≠ []) (hd : d.chars ≠ []) :
    ∃ parts, parts = dropTrailing (dropLeading (pieces d.chars s.chars)) ∧
      (∀ rounds, s.chars.length < rounds → splitView rounds s d = some (.ok parts)) ∧
      (∀ p ∈ parts, ¬ d.chars <:+: p) ∧
      ∃ lead trail, (lead = [] ∨ lead = d.chars) ∧ (trail = [] ∨ trail = d.chars) ∧
        lead ++ d.chars.intercalate parts ++ trail = s.chars := by
  refine ⟨split s.chars d.chars, split_eq hs hd, fun rounds hr => splitView_eq hr, ?_,
    intercalate_split hs hd⟩
  intro p hp
  exact not_infix_of_mem_split hd hp

/-- `aaaab` at `aa`: the first occurrence is a leading delimiter, the second one leaves an empty
piece. -/
theorem splitView_spec_overlapping :
    splitView 6 ⟨lit "aaaab", by decide⟩ ⟨lit "aa", by decide⟩ = some (.ok [[], lit "b"]) := by
  obtain ⟨parts, hparts, hrounds, -⟩ := splitView_spec ⟨lit "aaaab", by decide⟩
    ⟨lit "aa", by decide⟩ (by decide) (by decide)
  rw [hrounds 6 (by decide), hparts]
  decide +kernel

end Malloy
