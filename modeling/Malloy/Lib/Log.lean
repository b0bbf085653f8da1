import Malloy.Lib.Sys

/-!
# Runs that keep a log

`Sys.logged` adds a log to the states of a system: each step appends the events that it is. The
log does not change what the system does (`Reach.logged`), so a property of the log of every run is
a property of the order in which the events of the run happen.

* `Obeys R log`: `R` holds between the events up to any point of the log and the event that comes
  next. It is what one proves about logs, one event after the other (`Obeys.snoc`).
-/

namespace Malloy
namespace Lib

variable {α St Act Ev : Type}

/-! ## What may come next -/

/-- Each event of the log is related by `R` to the events before it. -/
def Obeys (R : List α → α → Prop) (log : List α) : Prop :=
  ∀ l₁ e l₂, log = l₁ ++ e :: l₂ → R l₁ e

variable {R : List α → α → Prop} {log : List α}

theorem obeys_nil : Obeys R [] := by
  intro l₁ e l₂ h
  cases l₁ <;> cases h

/-- One more event. -/
theorem Obeys.snoc (h : Obeys R log) {e : α} (he : R log e) : Obeys R (log ++ [e]) := by
  intro l₁ e' l₂ hl
  rcases List.eq_nil_or_concat l₂ with rfl | ⟨l₂', x, rfl⟩
  · obtain ⟨rfl, hx⟩ := List.append_inj' hl rfl
    cases hx
    exact he
  · -- the last event is not `e'`, which is in the log already
    rw [List.concat_eq_append, ← List.cons_append, ← List.append_assoc] at hl
    exact h l₁ e' l₂' (List.append_inj' hl rfl).1

/-- Events that may come anywhere. -/
theorem Obeys.append (h : Obeys R log) {es : List α} (hes : ∀ l, ∀ e ∈ es, R l e) :
    Obeys R (log ++ es) := by
  induction es generalizing log with
  | nil => rwa [List.append_nil]
  | cons e es ih =>
    rw [List.append_cons]
    exact ih (h.snoc (hes log e List.mem_cons_self)) fun l x hx =>
      hes l x (List.mem_cons_of_mem e hx)

/-! ## The log of a run -/

namespace Sys

variable (S : Sys St Act) (first : List Ev) (events : St → Act → St → List Ev)

/-- The system with a log, which starts as `first`: `events s a s'` are the events of the step `a`
from `s` to `s'`. -/
def logged : Sys (St × List Ev) Act where
  init x := S.init x.1 ∧ x.2 = first
  step x a := (S.step x.1 a).map fun s' => (s', x.2 ++ events x.1 a s')

variable {S first events}

theorem logged_step {x y : St × List Ev} {a : Act} (h : (S.logged first events).step x a = some y) :
    S.step x.1 a = some y.1 ∧ y.2 = x.2 ++ events x.1 a y.1 := by
  obtain ⟨s', hs, rfl⟩ := Option.map_eq_some_iff.mp h
  exact ⟨hs, rfl⟩

variable {ok : St → Act → Prop}

/-- Every run has a log. -/
theorem Reach.logged {s : St} (h : S.Reach ok s) :
    ∃ log, (S.logged first events).Reach (fun x a => ok x.1 a) (s, log) := by
  induction h with
  | init hi => exact ⟨first, .init ⟨hi, rfl⟩⟩
  | step a _ ho hst ih =>
    obtain ⟨log, ih⟩ := ih
    exact ⟨_, .step a ih ho (Option.map_eq_some_iff.mpr ⟨_, hst, rfl⟩)⟩

end Sys

end Lib
end Malloy
