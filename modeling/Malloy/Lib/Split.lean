import Mathlib.Data.List.Basic
import Mathlib.Data.List.Infix

/-!
# Complete splits of a list

`pieces d s` is the leftmost, non-overlapping, complete split of `s` at the separator `d`, with
every empty piece kept.

* `intercalate_pieces`: joining the pieces with `d` gives `s` back.
* `not_infix_of_mem_pieces`: no piece contains `d`; `infix_of_mem_pieces`: each is part of `s`.
* `pieces_singleton`: for a separator of one element the pieces are `List.splitOn`.
* `infix_of_last_not_mem`, `infix_of_not_mem`, `infix_append_of_head`: where an occurrence can lie;
  `isPrefix_of_not_mem`, `eq_of_append_cons_eq`: what is before and behind the first occurrence of
  an element; `pieces_append`: an occurrence that no other one begins before is the first cut.
* `occurrence_cases`, `pieces_sep_append`: a separator that does not overlap itself cuts wherever it
  occurs.
* `dropLeading`, `dropTrailing`: an empty first (last) piece dropped, if another piece follows
  (precedes) it. `pieces_singleton_eq_iff` undoes both for a separator of one element.
  `filterMap_dropLeading`, `filterMap_dropTrailing`: nothing is lost if nothing is taken from an
  empty piece. `intercalate_dropLeading`, `intercalate_dropTrailing`: what is lost by joining.
-/

namespace Malloy
namespace Lib

variable {α : Type}

/-! ## Where an occurrence can lie -/

/-- An occurrence does not end in a part without its last element. -/
theorem infix_of_last_not_mem {d u v : List α} {c : α} (hc : c ∉ v)
    (h : d ++ [c] <:+: u ++ v) : d ++ [c] <:+: u := by
  obtain ⟨a, b, he⟩ := h
  rcases List.append_eq_append_iff.mp he with ⟨m, hu, -⟩ | ⟨m, hu, hv⟩
  · exact ⟨a, m, hu.symm⟩
  · rcases List.eq_nil_or_concat m with rfl | ⟨m, x, rfl⟩
    · exact ⟨a, [], by simpa using hu⟩
    · rw [List.concat_eq_append, ← List.append_assoc, ← List.append_assoc] at hu
      obtain ⟨-, hx⟩ := List.append_inj' hu rfl
      cases hx
      exact absurd (by rw [hv]; simp) hc

/-- An occurrence does not begin in a part without its first element. -/
theorem infix_of_head_not_mem {d u v : List α} {c : α} (hc : c ∉ u) (h : c :: d <:+: u ++ v) :
    c :: d <:+: v := by
  induction u with
  | nil => exact h
  | cons x u ih =>
    rw [List.mem_cons, not_or] at hc
    obtain ⟨hx, hu⟩ := hc
    rcases List.infix_cons_iff.mp h with ⟨t, ht⟩ | h
    · exact absurd (List.cons.inj ht).1 hx
    · exact ih hu h

/-- An occurrence of `a :: b :: d` does not begin in a part in which no `b` can follow an `a`. -/
theorem infix_of_not_infix_pair {a b : α} {d u v : List α} (hu : ¬ [a, b] <:+: u ++ [b])
    (h : a :: b :: d <:+: u ++ v) : a :: b :: d <:+: v := by
  induction u with
  | nil => exact h
  | cons x u ih =>
    rcases List.infix_cons_iff.mp h with ⟨t, ht⟩ | h
    · exfalso
      apply hu
      obtain ⟨rfl, htail⟩ := List.cons.inj ht
      cases u with
      | nil => exact List.infix_refl _
      | cons y u =>
        obtain ⟨rfl, -⟩ := List.cons.inj htail
        exact ⟨[], u ++ [b], rfl⟩
    · exact ih (fun hi => hu (List.infix_cons hi)) h

/-- An occurrence does not lie across an element that is not in it. -/
theorem infix_of_not_mem {d u v : List α} {c : α} (hc : c ∉ d) (h : d <:+: u ++ c :: v) :
    d <:+: u ∨ d <:+: v := by
  obtain ⟨a, b, he⟩ := h
  rcases List.append_eq_append_iff.mp he with ⟨m, hu, -⟩ | ⟨m, hu, hv⟩
  · exact .inl ⟨a, m, hu.symm⟩
  · cases m with
    | nil => exact .inl ⟨a, [], by simpa using hu⟩
    | cons x m =>
      obtain ⟨rfl, rfl⟩ := List.cons.inj hv
      rcases List.append_eq_append_iff.mp hu with ⟨k, -, hk⟩ | ⟨k, -, hk⟩
      · exact absurd (by rw [hk]; simp) hc
      · cases k with
        | nil => exact absurd (by rw [← List.nil_append d, ← hk]; exact List.mem_cons_self) hc
        | cons y k =>
          obtain ⟨-, rfl⟩ := List.cons.inj hk
          exact .inr ⟨k, b, rfl⟩

/-- An occurrence does not go over the first element of the second part, if this is not in it. -/
theorem infix_append_of_head {d u v : List α} (hv : ∀ c ∈ v.head?, c ∉ d) (h : d <:+: u ++ v) :
    d <:+: u ∨ d <:+: v := by
  cases v with
  | nil => exact .inl (by simpa using h)
  | cons c v => exact (infix_of_not_mem (hv c rfl) h).imp_right List.infix_cons

/-- A suffix does not go over an element that is not in it. -/
theorem suffix_of_not_mem {c : α} {m u k : List α} (hc : c ∉ m) (h : m <:+ u ++ c :: k) :
    m <:+ k := by
  rcases List.suffix_or_suffix_of_suffix h (List.suffix_append u (c :: k)) with hm | hm
  · rcases List.suffix_cons_iff.mp hm with rfl | hm
    · exact absurd List.mem_cons_self hc
    · exact hm
  · exact absurd (hm.subset List.mem_cons_self) hc

theorem isPrefix_of_not_mem {c : α} {d u v : List α} (hc : c ∉ d) (h : d <+: u ++ c :: v) :
    d <+: u := by
  rcases List.prefix_or_prefix_of_prefix h (List.prefix_append u (c :: v)) with hd | ⟨r, rfl⟩
  · exact hd
  · cases r with
    | nil => rw [List.append_nil]
    | cons z r =>
      obtain ⟨rfl, -⟩ := List.cons_prefix_cons.mp ((List.prefix_append_right_inj u).mp h)
      exact absurd (by simp) hc

/-- What is behind the first occurrence of an element. -/
theorem eq_of_append_cons_eq {c : α} {u u' v v' : List α} (hu : c ∉ u) (hu' : c ∉ u')
    (h : u ++ c :: v = u' ++ c :: v') : v = v' := by
  rcases List.append_eq_append_iff.mp h with ⟨m, rfl, hm⟩ | ⟨m, rfl, hm⟩
  · cases m with
    | nil => exact (List.cons.inj hm).2
    | cons x m =>
      obtain ⟨rfl, -⟩ := List.cons.inj hm
      exact absurd (by simp) hu'
  · cases m with
    | nil => exact (List.cons.inj hm).2.symm
    | cons x m =>
      obtain ⟨rfl, -⟩ := List.cons.inj hm
      exact absurd (by simp) hu

/-! ## Separators that do not overlap themselves -/

section

variable {c : α} {d p r x y : List α}

/-- An occurrence of `d ++ [c]`, where `c` is not in `d`, is the first one or lies behind it. -/
theorem occurrence_cases (hc : c ∉ d) (hp : ¬ d ++ [c] <:+: p ++ d)
    (h : x ++ (d ++ [c]) ++ y = p ++ (d ++ [c]) ++ r) :
    (x = p ∧ y = r) ∨ ∃ m, x = p ++ (d ++ [c]) ++ m ∧ r = m ++ (d ++ [c]) ++ y := by
  have h' : x ++ (d ++ c :: y) = (p ++ d) ++ c :: r := by simpa using h
  rcases List.append_eq_append_iff.mp h' with ⟨m, hx, hm⟩ | ⟨m, rfl, hm⟩
  · -- it begins in `p ++ d`, and its `c` is the first one behind
    rcases List.append_eq_append_iff.mp hm with ⟨k, rfl, hk⟩ | ⟨k, rfl, hk⟩
    · cases k with
      | nil =>
        obtain ⟨-, rfl⟩ := List.cons.inj hk
        rw [List.append_nil] at hx
        exact .inl ⟨(List.append_cancel_right hx).symm, rfl⟩
      | cons z k =>
        obtain ⟨rfl, -⟩ := List.cons.inj hk
        exact absurd ⟨x, k, by simpa using hx.symm⟩ hp
    · cases k with
      | nil =>
        obtain ⟨-, rfl⟩ := List.cons.inj hk
        simp only [List.append_nil] at hx
        exact .inl ⟨(List.append_cancel_right hx).symm, rfl⟩
      | cons z k =>
        obtain ⟨rfl, -⟩ := List.cons.inj hk
        exact absurd (by simp) hc
  · cases m with
    | nil =>
      cases d with
      | nil => exact .inl ⟨by simp, (List.cons.inj hm).2.symm⟩
      | cons z d =>
        obtain ⟨rfl, -⟩ := List.cons.inj hm
        exact absurd List.mem_cons_self hc
    | cons z m =>
      obtain ⟨rfl, rfl⟩ := List.cons.inj hm
      exact .inr ⟨m, by simp, by simp⟩

end

section

variable {a b : α} {p r u : List α}

/-- The separator is in front only of what begins with it. -/
theorem eq_nil_of_pair_isPrefix (hab : a ≠ b) (hp : ¬ [a, b] <:+: p)
    (h : [a, b] <+: p ++ [a, b] ++ r) : p = [] := by
  match p with
  | [] => rfl
  | [x] =>
    simp only [List.cons_append, List.nil_append, List.cons_prefix_cons] at h
    exact absurd h.2.1.symm hab
  | x :: y :: p =>
    simp only [List.cons_append, List.cons_prefix_cons] at h
    obtain ⟨rfl, rfl, -⟩ := h
    exact absurd ⟨[], p, rfl⟩ hp

theorem pair_suffix_append_iff (hab : a ≠ b) :
    [a, b] <:+ u ++ [a, b] ++ r ↔ r = [] ∨ [a, b] <:+ r := by
  constructor
  · rintro ⟨t, ht⟩
    rcases List.eq_nil_or_concat r with rfl | ⟨r', z, rfl⟩
    · exact .inl rfl
    · rcases List.eq_nil_or_concat r' with rfl | ⟨r'', w, rfl⟩
      · -- the last but one element would be the `b` of the separator
        have hinj : (t ++ [a]) ++ [b] = (u ++ [a] ++ [b]) ++ [z] := by simpa using ht
        obtain ⟨hinj, -⟩ := List.append_inj' hinj rfl
        exact absurd (List.singleton_inj.mp (List.append_inj' hinj rfl).2) hab
      · have hinj : t ++ [a, b] = (u ++ [a, b] ++ r'') ++ [w, z] := by simpa using ht
        obtain ⟨-, hwz⟩ := List.append_inj' hinj rfl
        exact .inr ⟨r'', by simp [hwz]⟩
  · rintro (rfl | h)
    · rw [List.append_nil]
      exact List.suffix_append _ _
    · exact h.trans (List.suffix_append _ _)

/-- Two separators in a row are behind the first one, or later. -/
theorem pair_twice_append_iff (hab : a ≠ b) (hp : ¬ [a, b] <:+: p) :
    [a, b, a, b] <:+: p ++ [a, b] ++ r ↔ [a, b] <+: r ∨ [a, b, a, b] <:+: r := by
  constructor
  · intro h
    induction p with
    | nil =>
      simp only [List.nil_append, List.cons_append, List.infix_cons_iff, List.cons_prefix_cons,
        true_and] at h
      rcases h with h | ⟨h, -⟩ | h
      · exact .inl h
      · exact absurd h hab
      · exact .inr h
    | cons x p ih =>
      simp only [List.cons_append, List.infix_cons_iff] at h
      rcases h with h | h
      · have hpre : [a, b] <+: (x :: p) ++ [a, b] ++ r := List.IsPrefix.trans ⟨[a, b], rfl⟩ h
        cases eq_nil_of_pair_isPrefix hab hp hpre
      · exact ih (fun hi => hp (List.infix_cons hi)) h
  · rintro (⟨t, rfl⟩ | h)
    · exact ⟨p, t, by simp⟩
    · exact h.trans (List.suffix_append _ _).isInfix
end

variable [DecidableEq α]

/-! ## The leftmost occurrence -/

/-- The leftmost occurrence of `d` cuts `s` into what is before and what is after it. -/
theorem dropInfix?_append {s d p r : List α} (h : s.dropInfix? d = some (p, r)) :
    s = p ++ d ++ r := by
  obtain ⟨⟨i, hs, hi⟩, -⟩ := List.dropInfix?_eq_some_iff.mp h
  rw [hs, eq_of_beq hi]

/-- Before the leftmost occurrence of `d` there is no other. -/
theorem dropInfix?_not_infix {s d p r : List α} (hd : d ≠ [])
    (h : s.dropInfix? d = some (p, r)) : ¬ d <:+: p := by
  rintro ⟨a, b, hp⟩
  obtain ⟨-, hmin⟩ := List.dropInfix?_eq_some_iff.mp h
  have hs : s = a ++ d ++ (b ++ d ++ r) := by rw [dropInfix?_append h, ← hp]; simp
  have hle := hmin a d _ hs (beq_self_eq_true d)
  have hpos := List.length_pos_iff.mpr hd
  have hlen := congrArg List.length hp
  simp only [List.length_append] at hlen
  omega

/-- The leftmost occurrence stays where it is when the list grows at its end. -/
theorem dropInfix?_append_right {s d p r : List α} (h : s.dropInfix? d = some (p, r))
    (t : List α) : (s ++ t).dropInfix? d = some (p, r ++ t) := by
  obtain ⟨⟨i, hs, hi⟩, hmin⟩ := List.dropInfix?_eq_some_iff.mp h
  refine List.dropInfix?_eq_some_iff.mpr ⟨⟨i, by rw [hs, List.append_assoc], hi⟩, ?_⟩
  intro a i' b hst hi'
  by_contra hlt
  -- an earlier occurrence would lie in `s`
  have hlen : (a ++ i').length ≤ s.length := by
    rw [hs, eq_of_beq hi, eq_of_beq hi']
    simp only [List.length_append]
    omega
  obtain ⟨b', hb'⟩ : a ++ i' <+: s :=
    List.prefix_of_prefix_length_le ⟨b, hst.symm⟩ (List.prefix_append s t) hlen
  exact hlt (hmin a i' b' hb'.symm hi')

/-- No occurrence of `d` begins before the leftmost one. -/
theorem dropInfix?_first {s d p r : List α} (hd : d ≠ []) (h : s.dropInfix? d = some (p, r)) :
    ¬ d <:+: p ++ d.dropLast := by
  rintro ⟨a, b, hp⟩
  obtain ⟨-, hmin⟩ := List.dropInfix?_eq_some_iff.mp h
  have hs : s = a ++ d ++ (b ++ [d.getLast hd] ++ r) := by
    have hlast : p ++ d.dropLast ++ [d.getLast hd] = p ++ d := by
      rw [List.append_assoc, List.dropLast_concat_getLast]
    rw [dropInfix?_append h, ← hlast, ← hp]
    simp
  have hle := hmin a d _ hs (beq_self_eq_true d)
  have hpos := List.length_pos_iff.mpr hd
  have hlen := congrArg List.length hp
  simp only [List.length_append, List.length_dropLast] at hlen
  omega

theorem dropInfix?_go_eq_none {d s acc : List α} :
    List.dropInfix?.go d s acc = none ↔ ¬ d <:+: s := by
  induction s generalizing acc with
  | nil =>
    unfold List.dropInfix?.go
    rw [List.infix_nil]
    cases d <;> simp
  | cons a as ih =>
    unfold List.dropInfix?.go
    rw [List.infix_cons_iff, not_or]
    cases hp : (a :: as).dropPrefix? d with
    | none =>
      have hn : ¬ d <+: a :: as := by
        rintro ⟨r, hr⟩
        rw [← hr, List.dropPrefix?_append_of_beq r (beq_self_eq_true d)] at hp
        cases hp
      simp only [ih, hn, not_false_eq_true, true_and]
    | some r =>
      obtain ⟨p, hs, hb⟩ := List.dropPrefix?_eq_some_iff.mp hp
      have hy : d <+: a :: as := ⟨r, by rw [hs, eq_of_beq hb]⟩
      simp only [reduceCtorEq, false_iff, not_and]
      exact fun hn => absurd hy hn

theorem dropInfix?_eq_none {s d : List α} : s.dropInfix? d = none ↔ ¬ d <:+: s :=
  dropInfix?_go_eq_none

/-- An occurrence that no other one begins before is the leftmost. -/
theorem dropInfix?_of_first {d p : List α} (hd : d ≠ []) (h : ¬ d <:+: p ++ d.dropLast)
    (r : List α) : (p ++ d ++ r).dropInfix? d = some (p, r) := by
  refine List.dropInfix?_eq_some_iff.mpr ⟨⟨d, rfl, beq_self_eq_true d⟩, ?_⟩
  intro a i b hs hi
  obtain rfl : i = d := eq_of_beq hi
  by_contra hlt
  -- an occurrence that begins before ends before the last element of this one
  have hpos := List.length_pos_iff.mpr hd
  have hpre : p ++ i.dropLast <+: p ++ i ++ r := by
    rw [List.append_assoc]
    exact (List.prefix_append_right_inj p).mpr ((List.dropLast_prefix i).trans (i.prefix_append r))
  have hlen : (a ++ i).length ≤ (p ++ i.dropLast).length := by
    simp only [List.length_append, List.length_dropLast]
    omega
  obtain ⟨b', hb'⟩ := List.prefix_of_prefix_length_le ⟨b, hs.symm⟩ hpre hlen
  exact h ⟨a, b', hb'⟩

/-! ## The pieces -/

/-- The complete split of `s` at `d` (module doc). An empty separator does not split. -/
def pieces (d s : List α) : List (List α) :=
  match _h : s.dropInfix? d with
  | some (p, r) => if _hd : d = [] then [s] else p :: pieces d r
  | none => [s]
termination_by s.length
decreasing_by
  have hlen := congrArg List.length (dropInfix?_append _h)
  have hpos := List.length_pos_iff.mpr _hd
  simp only [List.length_append] at hlen
  omega

theorem pieces_of_none {s d : List α} (h : s.dropInfix? d = none) : pieces d s = [s] := by
  rw [pieces]
  split
  · rename_i h'; rw [h] at h'; cases h'
  · rfl

theorem pieces_of_some {s d p r : List α} (hd : d ≠ []) (h : s.dropInfix? d = some (p, r)) :
    pieces d s = p :: pieces d r := by
  rw [pieces]
  split
  · rename_i h'
    rw [h] at h'
    cases h'
    exact dif_neg hd
  · rename_i h'; rw [h] at h'; cases h'

/-- What is before the leftmost occurrence is the first piece. -/
theorem pieces_append {d p : List α} (hd : d ≠ []) (h : ¬ d <:+: p ++ d.dropLast) (r : List α) :
    pieces d (p ++ d ++ r) = p :: pieces d r :=
  pieces_of_some hd (dropInfix?_of_first hd h r)

theorem pieces_eq_singleton {d s : List α} (h : ¬ d <:+: s) : pieces d s = [s] :=
  pieces_of_none (dropInfix?_eq_none.mpr h)

/-- A separator of two different elements does not overlap itself. -/
theorem pieces_pair_append {a b : α} (hab : a ≠ b) {p : List α} (h : ¬ [a, b] <:+: p)
    (r : List α) : pieces [a, b] (p ++ [a, b] ++ r) = p :: pieces [a, b] r := by
  apply pieces_append (List.cons_ne_nil _ _)
  intro hi
  have hb : b ∉ [a] := by simpa using hab.symm
  exact h (infix_of_last_not_mem (d := [a]) hb hi)

theorem pieces_ne_nil (d s : List α) : pieces d s ≠ [] := by
  rw [pieces]
  split
  · split <;> exact List.cons_ne_nil _ _
  · exact List.cons_ne_nil _ _

/-- The induction over the pieces: the last one, and the ones before a separator. -/
theorem pieces_induction {d : List α} (hd : d ≠ []) {P : List α → Prop}
    (last : ∀ s, s.dropInfix? d = none → P s)
    (cut : ∀ s p r, s.dropInfix? d = some (p, r) → P r → P s) : ∀ s, P s := by
  intro s
  induction hn : s.length using Nat.strongRecOn generalizing s with
  | ind n ih =>
    cases h : s.dropInfix? d with
    | none => exact last s h
    | some pr =>
      obtain ⟨p, r⟩ := pr
      refine cut s p r h (ih r.length ?_ r rfl)
      have hlen := congrArg List.length (dropInfix?_append h)
      have hpos := List.length_pos_iff.mpr hd
      simp only [List.length_append] at hlen
      omega

/-- A separator that does not overlap itself cuts a list wherever it occurs. -/
theorem pieces_sep_append {c : α} {d : List α} (hc : c ∉ d) (x y : List α) :
    pieces (d ++ [c]) (x ++ (d ++ [c]) ++ y) = pieces (d ++ [c]) x ++ pieces (d ++ [c]) y := by
  have hd : d ++ [c] ≠ [] := List.append_ne_nil_of_right_ne_nil _ (List.cons_ne_nil _ _)
  induction x using pieces_induction hd with
  | last x h =>
    have hx : ¬ d ++ [c] <:+: x ++ (d ++ [c]).dropLast := by
      rw [List.dropLast_concat]
      exact fun hi => dropInfix?_eq_none.mp h (infix_of_last_not_mem hc hi)
    rw [pieces_append hd hx, pieces_of_none h]
    rfl
  | cut x p r h ih =>
    have hgrow := dropInfix?_append_right h ((d ++ [c]) ++ y)
    rw [← List.append_assoc, ← List.append_assoc r] at hgrow
    rw [pieces_of_some hd hgrow, ih, pieces_of_some hd h]
    rfl

theorem intercalate_pieces {d : List α} (hd : d ≠ []) (s : List α) :
    d.intercalate (pieces d s) = s := by
  induction s using pieces_induction hd with
  | last s h => rw [pieces_of_none h, List.intercalate_singleton]
  | cut s p r h ih =>
    rw [pieces_of_some hd h, List.intercalate_cons_of_ne_nil (pieces_ne_nil d r), ih,
      dropInfix?_append h]

theorem not_infix_of_mem_pieces {d : List α} (hd : d ≠ []) {s p : List α} (hp : p ∈ pieces d s) :
    ¬ d <:+: p := by
  induction s using pieces_induction hd with
  | last s h =>
    rw [pieces_of_none h, List.mem_singleton] at hp
    subst hp
    exact dropInfix?_eq_none.mp h
  | cut s q r h ih =>
    rw [pieces_of_some hd h, List.mem_cons] at hp
    rcases hp with rfl | hp
    · exact dropInfix?_not_infix hd h
    · exact ih hp

theorem infix_of_mem_pieces {d : List α} (hd : d ≠ []) {s p : List α} (hp : p ∈ pieces d s) :
    p <:+: s := by
  induction s using pieces_induction hd with
  | last s h =>
    rw [pieces_of_none h, List.mem_singleton] at hp
    exact hp ▸ List.infix_refl s
  | cut s q r h ih =>
    rw [pieces_of_some hd h, List.mem_cons] at hp
    rw [dropInfix?_append h, List.append_assoc]
    rcases hp with rfl | hp
    · exact (List.prefix_append _ _).isInfix
    · exact ((ih hp).trans (List.suffix_append d r).isInfix).trans
        (List.suffix_append q (d ++ r)).isInfix

/-- For a separator of one element the pieces are those of `List.splitOn`. -/
theorem pieces_singleton (c : α) (s : List α) : pieces [c] s = s.splitOn c := by
  have hc : [c] ≠ [] := List.cons_ne_nil _ _
  induction s using pieces_induction hc with
  | last s h =>
    have hn : c ∉ s := fun hm => dropInfix?_eq_none.mp h ((List.singleton_infix_iff _ _).mpr hm)
    rw [pieces_of_none h, List.splitOn_eq_singleton hn]
  | cut s p r h ih =>
    have hn : c ∉ p := fun hm => dropInfix?_not_infix hc h ((List.singleton_infix_iff _ _).mpr hm)
    rw [pieces_of_some hc h, ih, dropInfix?_append h, List.append_assoc, List.singleton_append,
      List.splitOn_append_cons_self_of_not_mem hn]

/-! ## Empty pieces at the ends -/

/-- The first piece dropped, if it is empty and another one follows. -/
def dropLeading : List (List α) → List (List α)
  | [] :: p :: ps => p :: ps
  | ps => ps

/-- The last piece dropped, if it is empty and another one precedes it. -/
def dropTrailing (ps : List (List α)) : List (List α) :=
  if 2 ≤ ps.length ∧ ps.getLast? = some [] then ps.dropLast else ps

omit [DecidableEq α] in
theorem mem_of_mem_dropLeading {p : List α} {ps : List (List α)} (h : p ∈ dropLeading ps) :
    p ∈ ps := by
  unfold dropLeading at h
  split at h
  · exact List.mem_cons_of_mem _ h
  · exact h

theorem mem_of_mem_dropTrailing {p : List α} {ps : List (List α)} (h : p ∈ dropTrailing ps) :
    p ∈ ps := by
  unfold dropTrailing at h
  split at h
  · exact List.mem_of_mem_dropLast h
  · exact h

theorem dropTrailing_cons (p : List α) {ps : List (List α)} (hps : ps ≠ []) :
    dropTrailing (p :: ps) = if ps = [[]] then [p] else p :: dropTrailing ps := by
  unfold dropTrailing
  match ps with
  | [] => exact absurd rfl hps
  | [q] => by_cases hq : q = [] <;> simp [hq]
  | q :: q' :: qs =>
    by_cases hl : (q' :: qs).getLast? = some [] <;> simp [List.getLast?_cons_cons, hl]

omit [DecidableEq α] in
theorem dropLeading_of_not_mem {ps : List (List α)} (h : [] ∉ ps) : dropLeading ps = ps := by
  unfold dropLeading
  split
  · exact absurd List.mem_cons_self h
  · rfl

theorem dropTrailing_of_not_mem {ps : List (List α)} (h : [] ∉ ps) : dropTrailing ps = ps := by
  unfold dropTrailing
  rw [if_neg]
  rintro ⟨-, hl⟩
  exact h (List.mem_of_getLast? hl)

/-- What is dropped at the end does not depend on what is before it. -/
theorem dropTrailing_append (qs : List (List α)) {ps : List (List α)} (hps : ps ≠ [])
    (hne : ps ≠ [[]]) : dropTrailing (qs ++ ps) = qs ++ dropTrailing ps := by
  induction qs with
  | nil => rfl
  | cons q qs ih =>
    have happ : qs ++ ps ≠ [] := List.append_ne_nil_of_right_ne_nil _ hps
    rw [List.cons_append, dropTrailing_cons q happ, if_neg, ih]
    · rfl
    · intro h
      cases qs with
      | nil => exact hne h
      | cons q' qs => exact hps (List.append_eq_nil_iff.mp (List.cons.inj h).2).2

/-- The lists that lose nothing, or an empty first piece, to become `qs`. -/
theorem dropLeading_eq_iff {β : Type} {ps qs : List (List β)} :
    dropLeading ps = qs ↔
      (ps = qs ∧ (ps.head? = some [] → ps.length ≤ 1)) ∨ (qs ≠ [] ∧ ps = [] :: qs) := by
  match ps with
  | [] => simp [dropLeading]
  | [p] => cases p <;> simp [dropLeading]
  | (c :: p) :: q :: ps => simp [dropLeading]
  | [] :: q :: ps => simpa [dropLeading] using fun h => h ▸ List.cons_ne_nil q ps

/-- The lists that lose nothing, or an empty last piece, to become `qs`. -/
theorem dropTrailing_eq_iff {ps qs : List (List α)} :
    dropTrailing ps = qs ↔
      (ps = qs ∧ (ps.getLast? = some [] → ps.length ≤ 1)) ∨ (qs ≠ [] ∧ ps = qs ++ [[]]) := by
  unfold dropTrailing
  split
  · rename_i h
    obtain ⟨hlen, hlast⟩ := h
    have hps : ps = ps.dropLast ++ [[]] := (List.dropLast_append_getLast? [] hlast).symm
    constructor
    · rintro rfl
      refine .inr ⟨fun h0 => ?_, hps⟩
      rw [h0] at hps
      rw [hps] at hlen
      simp at hlen
    · rintro (⟨-, hle⟩ | ⟨-, hq⟩)
      · have := hle hlast; omega
      · rw [hq, List.dropLast_concat]
  · rename_i h
    constructor
    · rintro rfl
      exact .inl ⟨rfl, fun hl => by_contra fun hn => h ⟨by omega, hl⟩⟩
    · rintro (⟨rfl, -⟩ | ⟨hq, rfl⟩)
      · rfl
      · have := List.length_pos_iff.mpr hq
        exact absurd ⟨by simp; omega, by simp⟩ h

omit [DecidableEq α] in
/-- What a `filterMap` takes no empty piece for loses nothing with an empty first piece. -/
theorem filterMap_dropLeading {β : Type} {f : List α → Option β} (hf : f [] = none)
    (ps : List (List α)) : (dropLeading ps).filterMap f = ps.filterMap f := by
  unfold dropLeading
  split
  · rw [List.filterMap_cons_none hf]
  · rfl

theorem filterMap_dropTrailing {β : Type} {f : List α → Option β} (hf : f [] = none)
    (ps : List (List α)) : (dropTrailing ps).filterMap f = ps.filterMap f := by
  unfold dropTrailing
  split
  · rename_i h
    conv_rhs => rw [← List.dropLast_append_getLast? [] h.2]
    rw [List.filterMap_append, List.filterMap_cons_none hf, List.filterMap_nil, List.append_nil]
  · rfl

theorem dropTrailing_eq_pair {qs : List (List α)} {u p : List α} :
    dropTrailing qs = [u, p] ↔ (qs = [u, p] ∧ p ≠ []) ∨ qs = [u, p, []] := by
  rw [dropTrailing_eq_iff]
  constructor
  · rintro (⟨rfl, h⟩ | ⟨-, rfl⟩)
    · refine .inl ⟨rfl, ?_⟩
      rintro rfl
      exact absurd (h rfl) (by simp)
    · exact .inr rfl
  · rintro (⟨rfl, hp⟩ | rfl)
    · exact .inl ⟨rfl, fun h => absurd (Option.some.inj h) hp⟩
    · exact .inr ⟨List.cons_ne_nil _ _, rfl⟩

omit [DecidableEq α] in
theorem dropLeading_eq_cons {ps qs : List (List α)} {u : List α} (hu : u ≠ []) :
    dropLeading ps = u :: qs ↔ ps = u :: qs ∨ ps = [] :: u :: qs := by
  rw [dropLeading_eq_iff]
  constructor
  · rintro (⟨h, -⟩ | ⟨-, h⟩)
    · exact .inl h
    · exact .inr h
  · rintro (rfl | rfl)
    · exact .inl ⟨rfl, fun h => absurd (Option.some.inj h) hu⟩
    · exact .inr ⟨List.cons_ne_nil _ _, rfl⟩

omit [DecidableEq α] in
theorem intercalate_concat (d : List α) {ps : List (List α)} (hps : ps ≠ []) (p : List α) :
    d.intercalate (ps ++ [p]) = d.intercalate ps ++ d ++ p := by
  induction ps with
  | nil => exact absurd rfl hps
  | cons q ps ih =>
    cases ps with
    | nil => simp
    | cons q' ps =>
      rw [List.cons_append, List.cons_append, List.intercalate_cons_cons, ← List.cons_append,
        ih (List.cons_ne_nil _ _), List.intercalate_cons_cons]
      simp only [List.append_assoc]

omit [DecidableEq α] in
/-- An empty first piece stands for a separator in front of the others. -/
theorem intercalate_dropLeading (d : List α) (ps : List (List α)) :
    ∃ lead, (lead = [] ∨ lead = d) ∧ d.intercalate ps = lead ++ d.intercalate (dropLeading ps) := by
  unfold dropLeading
  split
  · rename_i p ps
    exact ⟨d, .inr rfl, by rw [List.intercalate_cons_cons, List.nil_append]⟩
  · exact ⟨[], .inl rfl, rfl⟩

/-- An empty last piece stands for a separator behind the others. -/
theorem intercalate_dropTrailing (d : List α) (ps : List (List α)) :
    ∃ trail, (trail = [] ∨ trail = d) ∧
      d.intercalate ps = d.intercalate (dropTrailing ps) ++ trail := by
  rcases dropTrailing_eq_iff.mp (rfl : dropTrailing ps = dropTrailing ps) with
    ⟨hps, -⟩ | ⟨hne, hps⟩
  · exact ⟨[], .inl rfl, by rw [← hps, List.append_nil]⟩
  · refine ⟨d, .inr rfl, ?_⟩
    conv_lhs => rw [hps]
    rw [intercalate_concat d hne, List.append_nil]

/-- The pieces at a separator of one element are the lists without it that it joins to `s`. -/
theorem pieces_singleton_eq_iff {c : α} {s : List α} {ps : List (List α)} :
    pieces [c] s = ps ↔ ps ≠ [] ∧ (∀ p ∈ ps, c ∉ p) ∧ [c].intercalate ps = s := by
  have hc : [c] ≠ [] := List.cons_ne_nil _ _
  constructor
  · rintro rfl
    refine ⟨pieces_ne_nil _ _, fun p hp hm => ?_, intercalate_pieces hc s⟩
    exact not_infix_of_mem_pieces hc hp ((List.singleton_infix_iff _ _).mpr hm)
  · rintro ⟨hne, hfree, rfl⟩
    rw [pieces_singleton, List.splitOn_intercalate c hfree hne]

/-- The pieces are these ones, none of which has the separator. -/
theorem pieces_eq_iff_intercalate {c : α} {s : List α} {ps : List (List α)} (hps : ps ≠ [])
    (hfree : ∀ p ∈ ps, c ∉ p) : pieces [c] s = ps ↔ s = [c].intercalate ps := by
  rw [pieces_singleton_eq_iff]
  exact ⟨fun h => h.2.2.symm, fun h => ⟨hps, hfree, h.symm⟩⟩

end Lib
end Malloy
