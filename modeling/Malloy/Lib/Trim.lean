import Mathlib.Data.List.DropRight
import Malloy.Lib.Split

/-!
# Trimming and cutting a list

The readers of attribute lists trim what they read at both ends and cut it at the first occurrence
of an element.

* `trim p l`: `l` without the elements at its ends that `p` holds of. `Bare p l`: there are none
  (`trim_eq_self`).
* `cutFirst c l`: what is before and behind the first `c`.
* `pieces_terminated`: the pieces of lists that all end in the separator.
-/

namespace Malloy
namespace Lib

variable {α : Type} {p : α → Bool} {l r : List α} {c : α}

/-! ## Both ends -/

def trim (p : α → Bool) (l : List α) : List α := (l.dropWhile p).rdropWhile p

/-- `p` holds neither of the first nor of the last element. -/
def Bare (p : α → Bool) (l : List α) : Prop :=
  (∀ c ∈ l.head?, p c = false) ∧ ∀ c ∈ l.getLast?, p c = false

instance (p : α → Bool) (l : List α) : Decidable (Bare p l) := inferInstanceAs (Decidable (_ ∧ _))

theorem trim_eq_self (h : Bare p l) : trim p l = l := by
  obtain ⟨hhead, hlast⟩ := h
  have hdrop : l.dropWhile p = l := by
    cases l with
    | nil => rfl
    | cons c l => exact List.dropWhile_cons_of_neg (by simp [hhead c rfl])
  rw [trim, hdrop, List.rdropWhile_eq_self_iff]
  intro hne
  rw [hlast _ (List.getLast?_eq_some_getLast hne)]
  exact Bool.false_ne_true

/-- A list that starts with a part of the one kind and ends in a part of the other. -/
theorem Bare.append (hl : ∀ c ∈ l.head?, p c = false) (hne : l ≠ [])
    (hr : ∀ c ∈ r.getLast?, p c = false) (hne' : r ≠ []) : Bare p (l ++ r) := by
  constructor
  · rwa [List.head?_append_of_ne_nil l hne]
  · rwa [List.getLast?_append_of_ne_nil l hne']

theorem bare_of_forall (h : ∀ c ∈ l, p c = false) : Bare p l :=
  ⟨fun c hc => h c (List.mem_of_mem_head? hc), fun c hc => h c (List.mem_of_getLast? hc)⟩

/-! ## The first occurrence -/

variable [DecidableEq α]

def cutFirst (c : α) (l : List α) : List α × List α :=
  (l.takeWhile (· ≠ c), (l.dropWhile (· ≠ c)).drop 1)

theorem cutFirst_append (h : c ∉ l) (r : List α) : cutFirst c (l ++ c :: r) = (l, r) := by
  have hl : ∀ x ∈ l, decide (x ≠ c) = true := by
    intro x hx
    rw [decide_eq_true_iff]
    rintro rfl
    exact h hx
  rw [cutFirst, List.takeWhile_append_of_pos hl, List.dropWhile_append_of_pos hl]
  simp

/-! ## Terminated lists -/

/-- The last piece is what is behind the last separator. -/
theorem pieces_terminated {ls : List (List α)} (h : ∀ l ∈ ls, c ∉ l) :
    pieces [c] (ls.flatMap (· ++ [c])) = ls ++ [[]] := by
  induction ls with
  | nil => exact pieces_eq_singleton (by simp)
  | cons l ls ih =>
    obtain ⟨hl, hls⟩ := List.forall_mem_cons.mp h
    have hfirst : ¬ [c] <:+: l ++ [c].dropLast := by
      rw [List.dropLast_singleton, List.append_nil]
      exact fun hi => hl (hi.subset List.mem_cons_self)
    rw [List.flatMap_cons, pieces_append (List.cons_ne_nil _ _) hfirst, ih hls]
    rfl

end Lib
end Malloy
