import Mathlib.Logic.Basic

/-!
# Labelled systems, their runs and their invariants

A system is a type of states, the states a run starts in, and a step function: `step s a` is the
state after the step `a`, or `none` if `a` cannot be taken in `s`. A step is atomic; a run is any
sequence of steps, so a property of every reachable state holds for every interleaving.

* `Sys.Reach ok`: the states reached by the runs whose steps all meet `ok` (a condition on the
  state before the step and on the step). `ok = Sys.free` gives every run.
* `Sys.Inductive ok I`: `I` holds initially and each step that meets `ok` keeps it;
  `Inductive.reach` is the induction over the run.
* `Sys.onward s`: the system whose runs start in `s`; the states that it reaches are those that come
  later than `s`.
* `Sys.Final ok s`: the run cannot go on with a step that meets `ok`.
* `Sys.exec ok s as`: the state after the steps `as`, `none` if one of them cannot be taken or
  does not meet `ok`. It is executable, and `reach_exec` turns such a computation into a run.
* `Sys.Runs tr s`: `tr` is a run that ends in `s`: its steps, each with the state before it. It
  serves the statements that compare the steps of one run with what the run does.
-/

namespace Malloy
namespace Lib

/-- A labelled system (module doc). -/
structure Sys (St Act : Type) where
  init : St → Prop
  step : St → Act → Option St

namespace Sys

variable {St Act : Type} (S : Sys St Act)

/-- The runs: their steps, each with the state before it, and the state that they end in. -/
inductive Runs : List (St × Act) → St → Prop
  | init {s : St} : S.init s → Runs [] s
  | step {tr : List (St × Act)} {s s' : St} (a : Act) :
    Runs tr s → S.step s a = some s' → Runs (tr ++ [(s, a)]) s'

/-- The run of the steps `as` from `s`, up to the first one that cannot be taken. -/
def run (s : St) : List Act → List (St × Act) × St
  | [] => ([], s)
  | a :: as =>
    match S.step s a with
    | some s' => ((s, a) :: (run s' as).1, (run s' as).2)
    | none => ([], s)

/-- The condition that every step meets. -/
def free (_ : St) (_ : Act) : Prop := True

/-- The states that a run reaches whose steps all meet `ok`. -/
inductive Reach (ok : St → Act → Prop) : St → Prop
  | init {s : St} : S.init s → Reach ok s
  | step {s s' : St} (a : Act) : Reach ok s → ok s a → S.step s a = some s' → Reach ok s'

/-- The system that goes on from this state. -/
def onward (s : St) : Sys St Act where
  init := fun t => t = s
  step := S.step

/-- No step that meets `ok` can be taken: a run of such steps ends here. -/
def Final (ok : St → Act → Prop) (s : St) : Prop := ∀ a s', ok s a → S.step s a ≠ some s'

/-- An inductive invariant of the runs whose steps all meet `ok`. -/
structure Inductive (ok : St → Act → Prop) (I : St → Prop) : Prop where
  base : ∀ s, S.init s → I s
  keep : ∀ s a s', I s → ok s a → S.step s a = some s' → I s'

/-- The run of the steps `as` from `s`, checked against `ok`. -/
def exec (ok : St → Act → Bool) : St → List Act → Option St
  | s, [] => some s
  | s, a :: as =>
    if ok s a then
      match S.step s a with
      | some s' => exec ok s' as
      | none => none
    else none

/-- The check that passes every step. -/
def freeCheck (_ : St) (_ : Act) : Bool := true

theorem free_sound (s : St) (a : Act) (_ : freeCheck s a = true) : free s a := trivial

variable {S} {ok ok' : St → Act → Prop} {I P : St → Prop}

/-- An inductive invariant holds in every state that such a run reaches. -/
theorem Inductive.reach (h : S.Inductive ok I) {s : St} (hs : S.Reach ok s) : I s := by
  induction hs with
  | init hi => exact h.base _ hi
  | step a _ ho hst ih => exact h.keep _ a _ ih ho hst

theorem Reach.mono (h : ∀ s a, ok s a → ok' s a) {s : St} (hs : S.Reach ok s) : S.Reach ok' s := by
  induction hs with
  | init hi => exact .init hi
  | step a _ ho hst ih => exact .step a ih (h _ _ ho) hst

/-- A run goes on. -/
theorem Reach.onward {s t : St} (hs : S.Reach ok s) (ht : (S.onward s).Reach ok t) :
    S.Reach ok t := by
  induction ht with
  | init hi =>
    cases hi
    exact hs
  | step a _ ho hst ih => exact .step a ih ho hst

/-- A checked computation continues a run. -/
theorem reach_exec {okb : St → Act → Bool} (hok : ∀ s a, okb s a = true → ok s a) (as : List Act)
    {s s' : St} (hs : S.Reach ok s) (h : S.exec okb s as = some s') : S.Reach ok s' := by
  induction as generalizing s with
  | nil => cases h; exact hs
  | cons a as ih =>
    unfold exec at h
    split at h
    · rename_i ho
      split at h
      · rename_i t ht
        exact ih (hs.step a (hok s a ho) ht) h
      · cases h
    · cases h

/-- A run whose steps all meet `ok` ends in a state that such runs reach. -/
theorem Runs.reach {tr : List (St × Act)} {s : St} (h : S.Runs tr s)
    (hok : ∀ x ∈ tr, ok x.1 x.2) : S.Reach ok s := by
  induction h with
  | init hi => exact .init hi
  | step a _ hst ih =>
    obtain ⟨htr, ha⟩ := List.forall_mem_append.mp hok
    exact .step a (ih htr) (ha _ List.mem_cons_self) hst

theorem runs_append_run (as : List Act) {tr : List (St × Act)} {s : St} (hs : S.Runs tr s) :
    S.Runs (tr ++ (S.run s as).1) (S.run s as).2 := by
  induction as generalizing tr s with
  | nil => simpa [run] using hs
  | cons a as ih =>
    unfold run
    cases hst : S.step s a with
    | none => simpa using hs
    | some t =>
      have := ih (hs.step a hst)
      rwa [List.append_assoc] at this

/-- The steps of a computation are among those that it was given. -/
theorem mem_of_mem_run {as : List Act} {s : St} {x : St × Act} (hx : x ∈ (S.run s as).1) :
    x.2 ∈ as := by
  induction as generalizing s with
  | nil => cases hx
  | cons a as ih =>
    unfold run at hx
    cases hst : S.step s a with
    | none =>
      rw [hst] at hx
      cases hx
    | some t =>
      rw [hst] at hx
      rcases List.mem_cons.mp hx with rfl | hx
      · exact List.mem_cons_self
      · exact List.mem_cons_of_mem _ (ih hx)

/-- A computation is a run. -/
theorem runs_run {s : St} (hs : S.init s) (as : List Act) :
    S.Runs (S.run s as).1 (S.run s as).2 :=
  runs_append_run as (.init hs)

end Sys

end Lib
end Malloy
