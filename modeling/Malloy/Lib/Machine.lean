import Malloy.Lib.Sys

/-!
# Machines with results, and simulation

A machine takes operations one after the other; each gives a result and the next state, or it
cannot be made at all (`none`). Two machines with the same operations and the same results can be
compared by what a client sees of them.

* `Machine.outs s ops`: the results of the operations, up to the first one that cannot be made.
* `Machine.after s ops`: the state after them.
* `Machine.Admits ok s ops`: every operation of the run meets `ok` where it is made.
* `Simulates`: the two machines take related states to related states, with the same result.
  `Simulates.outs_eq` and `Simulates.after` are the induction over the run.
* `Machine.sys`: the machine as a labelled system.
-/

namespace Malloy
namespace Lib

/-- A machine with results (module doc). -/
structure Machine (St Op Out : Type) where
  init : St
  step : St → Op → Option (St × Out)

namespace Machine

variable {St Op Out : Type} (M : Machine St Op Out)

def sys : Sys St Op where
  init := fun s => s = M.init
  step := fun s op => (M.step s op).map Prod.fst

def outs : St → List Op → List Out
  | _, [] => []
  | s, op :: ops =>
    match M.step s op with
    | some (s', out) => out :: outs s' ops
    | none => []

def after : St → List Op → St
  | s, [] => s
  | s, op :: ops =>
    match M.step s op with
    | some (s', _) => after s' ops
    | none => s

def Admits (ok : St → Op → Prop) : St → List Op → Prop
  | _, [] => True
  | s, op :: ops =>
    ok s op ∧ match M.step s op with
      | some (s', _) => Admits ok s' ops
      | none => True

instance decidableAdmits (ok : St → Op → Prop) [∀ s, DecidablePred (ok s)] :
    ∀ s ops, Decidable (M.Admits ok s ops)
  | _, [] => isTrue trivial
  | _, _ :: ops =>
    have : ∀ r, Decidable (match (r : Option (St × Out)) with
        | some (s', _) => M.Admits ok s' ops
        | none => True) := fun r =>
      match r with
      | some (s', _) => decidableAdmits ok s' ops
      | none => isTrue trivial
    inferInstanceAs (Decidable (_ ∧ _))

end Machine

/-- The states of the machine `C` are related to those of `A` along every run (module doc). -/
structure Simulates {S T Op Out : Type} (C : Machine S Op Out) (A : Machine T Op Out)
    (ok : S → Op → Prop) (R : S → T → Prop) : Prop where
  init : R C.init A.init
  step : ∀ s t op, R s t → ok s op →
    Option.Rel (fun x y => R x.1 y.1 ∧ x.2 = y.2) (C.step s op) (A.step t op)

namespace Simulates

variable {S T Op Out : Type} {C : Machine S Op Out} {A : Machine T Op Out}
  {ok : S → Op → Prop} {R : S → T → Prop}

theorem run (h : Simulates C A ok R) (ops : List Op) {s : S} {t : T} (hr : R s t)
    (hok : C.Admits ok s ops) :
    C.outs s ops = A.outs t ops ∧ R (C.after s ops) (A.after t ops) := by
  induction ops generalizing s t with
  | nil => exact ⟨rfl, hr⟩
  | cons op ops ih =>
    obtain ⟨ho, hrest⟩ := hok
    have hstep := h.step s t op hr ho
    unfold Machine.outs Machine.after
    revert hstep hrest
    cases C.step s op with
    | none =>
      cases A.step t op with
      | none => intro _ _; exact ⟨rfl, hr⟩
      | some y => intro _ hn; cases hn
    | some x =>
      cases A.step t op with
      | none => intro _ hn; cases hn
      | some y =>
        intro hrest hn
        cases hn with
        | some hn =>
          obtain ⟨hr', hout⟩ := hn
          obtain ⟨ho', ha'⟩ := ih hr' hrest
          exact ⟨congrArg₂ _ hout ho', ha'⟩

/-- A client sees the same results. -/
theorem outs_eq (h : Simulates C A ok R) {ops : List Op} (hok : C.Admits ok C.init ops) :
    C.outs C.init ops = A.outs A.init ops :=
  (h.run ops h.init hok).1

theorem after (h : Simulates C A ok R) {ops : List Op} (hok : C.Admits ok C.init ops) :
    R (C.after C.init ops) (A.after A.init ops) :=
  (h.run ops h.init hok).2

end Simulates

end Lib
end Malloy
