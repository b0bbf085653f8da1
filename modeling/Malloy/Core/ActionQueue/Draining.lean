import Malloy.Core.ActionQueue
import Malloy.Lib.Draining

/-!
# An action queue drains

When nobody pushes any more, a queue still has handlers on its strand to run and actions that will
call their callback. This comes to an end, and then every action that `push()` was called with has
been started once.

* `posted`, `calls`: the actions whose `push()` has not run yet, and all that were pushed.
* `waiting`: the starts and the pushes that wait, each with its price. `Proceeds k`: an operation
  that starts some actions, and makes less than `k` more wait than it starts.
* `queue_settles`: the queue comes to rest, with everything started.
-/

namespace Malloy
namespace ActionQueue

variable {α : Type} {q q' : ActionQueue α} {act : α} {i k : Nat}

/-! ## What was pushed -/

/-- The action of a posted `push()`. -/
def Handler.act? : Handler α → Option α
  | .push act => some act
  | .exe => none

/-- The actions whose `push()` is posted on the strand. -/
def posted (q : ActionQueue α) : List α := q.strand.filterMap Handler.act?

/-- The actions that `push()` was called with. -/
def calls (q : ActionQueue α) : List α := q.pushed ++ q.posted

/-- The work that waits: a handler that is posted, an action that is queued or will be. -/
def waiting (q : ActionQueue α) : Nat := 4 * (q.acts.length + q.posted.length) + q.strand.length

theorem posted_takeHandler {h : Handler α} (hi : q.strand[i]? = some h) :
    q.posted.Perm (h.act?.toList ++ (q.takeHandler i).posted) := by
  obtain ⟨hlt, rfl⟩ := List.getElem?_eq_some_iff.mp hi
  have hp := ((List.getElem_cons_eraseIdx_perm hlt).filterMap Handler.act?).symm
  rw [List.filterMap_cons] at hp
  cases hact : (q.strand[i]).act? with
  | none =>
    rw [hact] at hp
    exact hp
  | some act =>
    rw [hact] at hp
    exact hp

theorem waiting_takeHandler {h : Handler α} (hi : q.strand[i]? = some h) :
    (q.takeHandler i).waiting + 4 * h.act?.toList.length + 1 = q.waiting := by
  have hp := (posted_takeHandler hi).length_eq
  obtain ⟨hlt, -⟩ := List.getElem?_eq_some_iff.mp hi
  have hlen : (q.takeHandler i).strand.length + 1 = q.strand.length := by
    simp only [takeHandler, List.length_eraseIdx, if_pos hlt]
    omega
  have hacts : (q.takeHandler i).acts = q.acts := rfl
  rw [List.length_append] at hp
  unfold waiting
  rw [hacts]
  omega

/-! ## What an operation makes of it -/

/-- The operation starts actions that were pushed, and makes less than `k` more wait. -/
structure Proceeds (k : Nat) (q q' : ActionQueue α) : Prop where
  calls : q'.calls.Perm q.calls
  pushed : q.pushed <+: q'.pushed
  starts : ∃ l, q'.started = q.started ++ l ∧ q'.outstanding = q.outstanding ++ l ∧
    q'.waiting + 4 * l.length < q.waiting + k

theorem Proceeds.mono {k' : Nat} (h : Proceeds k q q') (hk : k ≤ k') : Proceeds k' q q' where
  calls := h.calls
  pushed := h.pushed
  starts := by
    obtain ⟨l, hs, ho, hlt⟩ := h.starts
    exact ⟨l, hs, ho, by omega⟩

/-- The flags of the queue are not looked at. -/
theorem Proceeds.of_flags {running flag : Bool}
    (h : Proceeds k { q with running := running, currentlyRunningAct := flag } q') :
    Proceeds k q q' := ⟨h.calls, h.pushed, h.starts⟩

/-- Nothing is started. -/
theorem proceeds_of_eq (hs : q'.started = q.started) (ho : q'.outstanding = q.outstanding)
    (hp : q'.pushed = q.pushed) (hposted : q'.posted = q.posted)
    (hw : q'.waiting < q.waiting + k) : Proceeds k q q' where
  calls := by
    unfold ActionQueue.calls
    rw [hp, hposted]
  pushed := hp ▸ List.prefix_rfl
  starts := ⟨[], by rw [hs, List.append_nil], by rw [ho, List.append_nil], hw⟩

theorem exeHandler_proceeds (q : ActionQueue α) : Proceeds 1 q (exeHandler q) := by
  unfold exeHandler
  split
  · rename_i act rest ha
    refine ⟨.refl _, List.prefix_rfl, [act], rfl, rfl, ?_⟩
    simp only [waiting, posted, ha, List.length_cons, List.length_nil]
    omega
  · exact proceeds_of_eq rfl rfl rfl rfl (Nat.lt_succ_self _)

theorem exeNext_proceeds (b : Bool) (q : ActionQueue α) : Proceeds 2 q (exeNext b q) := by
  cases b with
  | true =>
    have h := exeHandler_proceeds { q with currentlyRunningAct := true }
    exact h.of_flags.mono (by omega)
  | false =>
    have hposted : (exeNext false q).posted = q.posted := by
      simp [posted, exeNext, dispatch, Handler.act?]
    refine proceeds_of_eq rfl rfl rfl hposted ?_
    unfold waiting
    rw [hposted]
    simp only [exeNext, dispatch, Bool.false_eq_true, ↓reduceIte, List.length_append,
      List.length_singleton]
    omega

theorem run_proceeds (b : Bool) (q : ActionQueue α) : Proceeds 2 q (run b q) :=
  (exeNext_proceeds b { q with running := true }).of_flags

theorem onDone_proceeds (b : Bool) (q : ActionQueue α) : Proceeds 2 q (onDone b q) := by
  unfold onDone
  split
  · exact exeNext_proceeds b q
  · exact proceeds_of_eq rfl rfl rfl rfl (Nat.lt_add_of_pos_right Nat.two_pos)

theorem pushHandler_proceeds (act : α) (q : ActionQueue α) :
    Proceeds 1 (q.enqueue act) (pushHandler act q) := by
  unfold pushHandler
  split
  · exact proceeds_of_eq rfl rfl rfl rfl (Nat.lt_succ_self _)
  · have h := exeHandler_proceeds { q.enqueue act with running := true, currentlyRunningAct := true }
    exact h.of_flags

theorem waiting_enqueue (act : α) (q : ActionQueue α) :
    (q.enqueue act).waiting = q.waiting + 4 := by
  simp only [waiting, posted, enqueue, List.length_append, List.length_singleton]
  omega

theorem calls_enqueue (act : α) (q : ActionQueue α) :
    (q.enqueue act).calls.Perm (act :: q.calls) := by
  show (q.pushed ++ [act] ++ q.posted).Perm _
  rw [List.append_assoc]
  exact List.perm_middle

/-- A handler of the strand does work that was waiting. -/
theorem handle_proceeds {x : Handler α} (hi : q.strand[i]? = some x) :
    Proceeds 0 q (handle x (q.takeHandler i)) := by
  have hposted := posted_takeHandler hi
  have hwaiting := waiting_takeHandler hi
  cases x with
  | push act =>
    obtain ⟨hcalls, hpushed, l, hs, ho, hlt⟩ := pushHandler_proceeds act (q.takeHandler i)
    refine ⟨hcalls.trans ((calls_enqueue act _).trans ?_), ?_, l, hs, ho, ?_⟩
    · exact (List.perm_middle.symm.trans (hposted.symm.append_left q.pushed))
    · exact (List.prefix_append q.pushed [act]).trans hpushed
    · rw [waiting_enqueue] at hlt
      simp only [Handler.act?, Option.toList_some, List.length_singleton] at hwaiting
      show (pushHandler act (q.takeHandler i)).waiting + _ < _
      omega
  | exe =>
    obtain ⟨hcalls, hpushed, l, hs, ho, hlt⟩ := exeHandler_proceeds (q.takeHandler i)
    refine ⟨hcalls.trans (hposted.symm.append_left q.pushed), hpushed, l, hs, ho, ?_⟩
    simp only [Handler.act?, Option.toList_none, List.length_nil] at hwaiting
    show (exeHandler (q.takeHandler i)).waiting + _ < _
    omega

/-- A call of `push()`. -/
theorem push_calls (act : α) (b : Bool) (q : ActionQueue α) :
    (q.push act b).calls.Perm (act :: q.calls) := by
  cases b with
  | true => exact (pushHandler_proceeds act q).calls.trans (calls_enqueue act q)
  | false =>
    have hposted : (q.push act false).posted = q.posted ++ [act] := by
      simp [posted, push, dispatch, Handler.act?]
    have hpushed : (q.push act false).pushed = q.pushed := rfl
    unfold calls
    rw [hposted, hpushed, ← List.append_assoc]
    exact List.perm_append_singleton act _

/-! ## The order of the calls -/

/-- The strand runs its handlers in the order in which they were posted, and a `push()` inside it
does not overtake one that is posted. -/
def InOrder (q : ActionQueue α) : Act α → Prop
  | .push _ inStrand => inStrand = true → q.posted = []
  | .handler i => i = 0
  | _ => True

instance [DecidableEq α] (q : ActionQueue α) : (a : Act α) → Decidable (q.InOrder a)
  | .push _ _ => inferInstanceAs (Decidable (_ → _))
  | .handler _ => inferInstanceAs (Decidable (_ = _))
  | .run _ | .complete _ _ => inferInstanceAs (Decidable True)

/-- The action that the step pushes. -/
def Act.pushes : Act α → Option α
  | .push act _ => some act
  | _ => none

theorem exeHandler_calls (q : ActionQueue α) : (exeHandler q).calls = q.calls := by
  unfold exeHandler
  split <;> rfl

theorem exeNext_calls (b : Bool) (q : ActionQueue α) : (exeNext b q).calls = q.calls := by
  cases b with
  | true => exact exeHandler_calls { q with currentlyRunningAct := true }
  | false => simp [calls, posted, exeNext, dispatch, Handler.act?]

theorem onDone_calls (b : Bool) (q : ActionQueue α) : (onDone b q).calls = q.calls := by
  unfold onDone
  split
  · exact exeNext_calls b q
  · rfl

theorem pushHandler_calls (act : α) (q : ActionQueue α) :
    (pushHandler act q).calls = q.pushed ++ [act] ++ q.posted := by
  unfold pushHandler
  split
  · rfl
  · exact exeNext_calls true { q.enqueue act with running := true }

/-- A handler at the head of the strand. -/
theorem handle_calls {x : Handler α} (hi : q.strand[0]? = some x) :
    (handle x (q.takeHandler 0)).calls = q.calls := by
  obtain ⟨rest, hrest⟩ : ∃ rest, q.strand = x :: rest := by
    cases hs : q.strand with
    | nil => simp [hs] at hi
    | cons y rest =>
      rw [hs] at hi
      cases hi
      exact ⟨rest, rfl⟩
  have htake : (q.takeHandler 0).posted = rest.filterMap Handler.act? := by
    simp [posted, takeHandler, hrest]
  have hpushed : (q.takeHandler 0).pushed = q.pushed := rfl
  cases x with
  | push act =>
    refine (pushHandler_calls act _).trans ?_
    rw [htake, hpushed, calls, posted, hrest, List.filterMap_cons]
    simp [Handler.act?]
  | exe =>
    refine (exeHandler_calls _).trans ?_
    rw [calls, calls, htake, hpushed, posted, hrest, List.filterMap_cons]
    simp [Handler.act?]

/-- In such a step nothing changes places. -/
theorem step_calls_inOrder {a : Act α} (ho : q.InOrder a) (hs : q.step a = some q') :
    q'.calls = q.calls ++ a.pushes.toList := by
  rcases step_cases hs with ⟨act, b, rfl, rfl⟩ | ⟨b, rfl, rfl⟩ | ⟨i, x, rfl, hi, rfl⟩ |
    ⟨i, b, x, rfl, hi, rfl⟩
  · cases b with
    | true =>
      have hnone : q.posted = [] := ho rfl
      refine (pushHandler_calls act q).trans ?_
      rw [calls, hnone, List.append_nil, List.append_nil]
      rfl
    | false => simp [calls, posted, push, dispatch, Handler.act?, Act.pushes]
  · refine (exeNext_calls b { q with running := true }).trans ?_
    exact (List.append_nil q.calls).symm
  · cases ho
    rw [handle_calls hi]
    exact (List.append_nil q.calls).symm
  · refine (onDone_calls b _).trans ?_
    exact (List.append_nil q.calls).symm

/-! ## The queue left to itself -/

/-- The step runs a handler of the strand, or the callback of a started action. -/
def Inner (_ : ActionQueue α) (a : Act α) : Prop :=
  (∃ i, a = .handler i) ∨ ∃ i b, a = .complete i b

/-- The work that is left. -/
def work (q : ActionQueue α) : Nat := q.waiting + 3 * q.outstanding.length

/-- What such a step does. -/
theorem step_inner {a : Act α} (ha : Inner q a) (hs : q.step a = some q') :
    q'.calls.Perm q.calls ∧ q.pushed <+: q'.pushed ∧ q.started <+: q'.started ∧
      q'.work < q.work := by
  rcases step_cases hs with ⟨act, b, rfl, -⟩ | ⟨b, rfl, -⟩ | ⟨i, h, -, hi, rfl⟩ |
    ⟨i, b, x, -, hi, rfl⟩
  · rcases ha with ⟨i, h⟩ | ⟨i, b, h⟩ <;> cases h
  · rcases ha with ⟨i, h⟩ | ⟨i, b, h⟩ <;> cases h
  · obtain ⟨hcalls, hpushed, l, hstarted, ho, hlt⟩ := handle_proceeds hi
    refine ⟨hcalls, hpushed, ⟨l, hstarted.symm⟩, ?_⟩
    unfold work
    rw [ho, List.length_append]
    omega
  · obtain ⟨hcalls, hpushed, l, hstarted, ho, hlt⟩ := onDone_proceeds b (q.takeOutstanding i)
    refine ⟨hcalls, hpushed, ⟨l, hstarted.symm⟩, ?_⟩
    obtain ⟨hi, -⟩ := List.getElem?_eq_some_iff.mp hi
    have hwaiting : (q.takeOutstanding i).waiting = q.waiting := rfl
    have hout : (q.takeOutstanding i).outstanding.length + 1 = q.outstanding.length := by
      simp only [takeOutstanding, List.length_eraseIdx, if_pos hi]
      omega
    unfold work
    rw [ho, List.length_append]
    omega

theorem lowers_inner : (system α).Lowers Inner work := fun _ _ _ ha hs =>
  (step_inner ha hs).2.2.2

/-- What the queue has come to, when it is left to itself. -/
theorem later_of_inner {t : ActionQueue α} (h : ((system α).onward q).Reach Inner t) :
    t.calls.Perm q.calls ∧ q.started <+: t.started := by
  induction h with
  | init hi =>
    cases hi
    exact ⟨.refl _, List.prefix_rfl⟩
  | step a _ ha hs ih =>
    obtain ⟨hcalls, -, hstarted, -⟩ := step_inner ha hs
    exact ⟨hcalls.trans ih.1, ih.2.trans hstarted⟩

/-- Nothing is left to be done: no handler is posted and no action is queued or running. -/
structure Idle (q : ActionQueue α) : Prop where
  strand : q.strand = []
  outstanding : q.outstanding = []
  acts : q.acts = []
  flag : q.currentlyRunningAct = false

theorem idle_of_final (hl : q.Live) (h : (system α).Final Inner q) : q.Idle := by
  have hstrand : q.strand = [] := by
    by_contra hne
    obtain ⟨x, xs, hx⟩ := List.exists_cons_of_ne_nil hne
    exact h (.handler 0) (handle x (q.takeHandler 0)) (.inl ⟨0, rfl⟩)
      (Option.map_eq_some_iff.mpr ⟨x, by simp [hx], rfl⟩)
  have hout : q.outstanding = [] := by
    by_contra hne
    obtain ⟨x, xs, hx⟩ := List.exists_cons_of_ne_nil hne
    exact h (.complete 0 true) (onDone true (q.takeOutstanding 0)) (.inr ⟨0, true, rfl⟩)
      (Option.map_eq_some_iff.mpr ⟨x, by simp [hx], rfl⟩)
  have htokens : q.tokens = 0 := by simp [tokens, hstrand, hout]
  refine ⟨hstrand, hout, ?_, ?_⟩
  · by_contra hne
    have := hl.acts hne
    omega
  · by_contra hne
    have := hl.flag (by simpa using hne)
    omega

/-- **A queue drains.** From every reachable state the handlers of the strand and the callbacks of
the started actions come to an end, in whatever order they run, within `work` steps. Then nothing is
left to be done, and the actions that `push()` was called with have been started, each as often as it
was pushed, those that had been started before in the same order before the others. -/
theorem queue_settles (h : (system α).Reach Lib.Sys.free q) :
    (system α).Settles Inner work
      (fun t => t.Idle ∧ t.started.Perm q.calls ∧ q.started <+: t.started) q := by
  refine lowers_inner.comes_to_rest fun t ht hf => ?_
  have hreach : (system α).Reach Lib.Sys.free t := h.onward (ht.mono fun _ _ _ => trivial)
  obtain ⟨hordered, hlive⟩ := inductive_ordered_live.reach hreach
  have hidle := idle_of_final hlive hf
  obtain ⟨hcalls, hstarted⟩ := later_of_inner ht
  refine ⟨hidle, ?_, hstarted⟩
  have hall : t.calls = t.started := by
    unfold calls posted
    unfold Ordered at hordered
    rw [hidle.strand, List.filterMap_nil, List.append_nil, ← hordered, hidle.acts, List.append_nil]
  rw [← hall]
  exact hcalls

/-- Two pushes are queued behind an action that has not completed, a third one is posted. -/
theorem queue_settles_four_pushes :
    let q : ActionQueue Nat :=
      { running := true, currentlyRunningAct := true, acts := [1, 2], strand := [.push 3],
        pushed := [0, 1, 2], started := [0], outstanding := [0] }
    (system Nat).Settles Inner work
      (fun t => t.Idle ∧ t.started.Perm q.calls ∧ q.started <+: t.started) q :=
  queue_settles (Lib.Sys.reach_exec Lib.Sys.free_sound
    [.push 0 true, .push 1 true, .push 2 true, .push 3 false] (.init rfl) (by decide))

end ActionQueue

end Malloy
