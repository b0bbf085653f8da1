import Malloy.Lib.Machine
import Mathlib.Data.List.Forall2

/-!
# Two runs side by side, and parts of a machine

* `Couples`: operations that are related take related states to related states, and give related
  results. `Couples.run`: so do related lists of operations. It serves the statements about two runs
  that differ in something nobody is to see.
* `Within`: the operations that `sel` selects act on a part of the state as another machine does, and
  the other ones leave that part alone. `Within.outs_eq`: then the selected results of a run are those
  of the other machine.
-/

namespace Malloy
namespace Lib

variable {S T Op Op' Out Out' : Type}

theorem rel_mono {α β : Type} {R R' : α → β → Prop} (h : ∀ x y, R x y → R' x y) {x : Option α}
    {y : Option β} (hr : Option.Rel R x y) : Option.Rel R' x y := by
  cases hr with
  | some hr => exact .some (h _ _ hr)
  | none => exact .none

namespace Machine

variable {M : Machine S Op Out} {s s' : S} {op : Op} {out : Out} {ops : List Op}

theorem outs_of_none (h : M.step s op = none) : M.outs s (op :: ops) = [] := by
  unfold outs
  rw [h]

theorem outs_of_some (h : M.step s op = some (s', out)) :
    M.outs s (op :: ops) = out :: M.outs s' ops := by
  rw [outs, h]

end Machine

/-! ## Two runs -/

/-- Related operations, from related states (module doc). -/
structure Couples (C : Machine S Op Out) (A : Machine T Op' Out') (Q : Op → Op' → Prop)
    (V : Op × Out → Op' × Out' → Prop) (R : S → T → Prop) : Prop where
  step : ∀ s t a b, R s t → Q a b →
    Option.Rel (fun x y => R x.1 y.1 ∧ V (a, x.2) (b, y.2)) (C.step s a) (A.step t b)

theorem Couples.run {C : Machine S Op Out} {A : Machine T Op' Out'} {Q : Op → Op' → Prop}
    {V : Op × Out → Op' × Out' → Prop} {R : S → T → Prop} (h : Couples C A Q V R)
    {as : List Op} {bs : List Op'} (hq : List.Forall₂ Q as bs) {s : S} {t : T} (hr : R s t) :
    List.Forall₂ V (as.zip (C.outs s as)) (bs.zip (A.outs t bs)) := by
  induction hq generalizing s t with
  | nil => exact .nil
  | @cons a b as bs hab _ ih =>
    have hstep := h.step s t a b hr hab
    cases hc : C.step s a with
    | none =>
      rw [hc] at hstep
      cases ha : A.step t b with
      | none =>
        rw [Machine.outs_of_none hc, Machine.outs_of_none ha]
        exact .nil
      | some y =>
        rw [ha] at hstep
        cases hstep
    | some x =>
      rw [hc] at hstep
      cases ha : A.step t b with
      | none =>
        rw [ha] at hstep
        cases hstep
      | some y =>
        rw [ha] at hstep
        cases hstep with
        | some hn =>
          rw [Machine.outs_of_some hc, Machine.outs_of_some ha]
          exact .cons hn.2 (ih hn.1)

/-! ## A part of a machine -/

/-- The selected operations act on the part as `P` does (module doc). -/
structure Within (M : Machine S Op Out) (P : Machine T Op' Out) (sel : Op → Option Op')
    (R : S → T → Prop) : Prop where
  selected : ∀ s t s' op op' out, R s t → sel op = some op' → M.step s op = some (s', out) →
    ∃ t', P.step t op' = some (t', out) ∧ R s' t'
  other : ∀ s t s' op out, R s t → sel op = none → M.step s op = some (s', out) → R s' t

/-- The results of the selected operations. -/
def selectedOuts (sel : Op → Option Op') (hist : List (Op × Out)) : List Out :=
  hist.filterMap fun x => (sel x.1).map fun _ => x.2

theorem Within.outs_eq {M : Machine S Op Out} {P : Machine T Op' Out} {sel : Op → Option Op'}
    {R : S → T → Prop} (h : Within M P sel R) (ops : List Op) {s : S} {t : T} (hr : R s t) :
    selectedOuts sel (ops.zip (M.outs s ops)) =
      P.outs t ((ops.take (M.outs s ops).length).filterMap sel) := by
  induction ops generalizing s t with
  | nil => rfl
  | cons op ops ih =>
    cases hst : M.step s op with
    | none =>
      rw [Machine.outs_of_none hst]
      rfl
    | some x =>
      obtain ⟨s', out⟩ := x
      rw [Machine.outs_of_some hst, List.zip_cons_cons, List.length_cons, List.take_succ_cons]
      unfold selectedOuts at ih ⊢
      cases hsel : sel op with
      | none =>
        rw [List.filterMap_cons_none (by simp [hsel]), List.filterMap_cons_none hsel]
        exact ih (h.other s t s' op out hr hsel hst)
      | some op' =>
        obtain ⟨t', hst', hr'⟩ := h.selected s t s' op op' out hr hsel hst
        rw [List.filterMap_cons_some (b := out) (by simp [hsel]), List.filterMap_cons_some hsel,
          Machine.outs_of_some hst', ih hr']

end Lib
end Malloy
