import Malloy.Core.Websocket.Draining

/-!
# The order of the reads and of the sends

The stream is read and written one operation at a time, so what a user sees of a connection is a
sequence on each side: the callbacks of the reads, and those of the sends.

* `doneOn`: the actions of a queue that have called their `on_done`, in the order of the calls.
* `queue_moves`: what a step of a queue starts and what it completes. `done_step`: what completes is
  what was started first, as nothing else has left the actions in progress.
* `done_in_order`: the actions complete in the order in which they were pushed, which is the order of
  the calls where the strand runs its handlers in order (`InOrder`).
-/

namespace Malloy
namespace Websocket

/-- The action of this queue that called its `on_done`. -/
def Event.doneOn (side : Side) : Event → Option WsAct
  | .onDone side' act => if side' = side then some act else none
  | _ => none

namespace Connection

variable {c c' : Connection} {side : Side} {act : WsAct}

/-- The actions of this queue that have called their `on_done`, in order. -/
def doneOn (c : Connection) (side : Side) : List WsAct := c.log.filterMap (Event.doneOn side)

theorem count_filterMap_doneOn (log : List Event) (side : Side) (act : WsAct) :
    (log.filterMap (Event.doneOn side)).count act = log.count (.onDone side act) := by
  induction log with
  | nil => rfl
  | cons e log ih =>
    rw [List.filterMap_cons, List.count_cons, ← ih]
    cases e with
    | onDone side' act' =>
      by_cases hs : side' = side
      · subst hs
        simp [Event.doneOn, List.count_cons]
      · simp [Event.doneOn, hs]
    | _ => simp [Event.doneOn]

theorem count_doneOn (c : Connection) (side : Side) (act : WsAct) :
    (c.doneOn side).count act = c.onDones side act := count_filterMap_doneOn c.log side act

/-- What a step of a queue with one action in progress starts, and what it completes. -/
theorem queue_moves {α : Type} {q q' : ActionQueue α} {b : ActionQueue.Act α}
    (h : q.step b = some q') (hone : q.outstanding.length ≤ 1) :
    ∃ done l : List α, q'.started = q.started ++ l ∧
      ((done = [] ∧ q'.outstanding = q.outstanding ++ l) ∨
        (done = q.outstanding ∧ q'.outstanding = l)) := by
  rcases ActionQueue.step_cases h with ⟨act, b', rfl, rfl⟩ | ⟨b', rfl, rfl⟩ |
    ⟨i, x, rfl, hi, rfl⟩ | ⟨i, b', x, rfl, hi, rfl⟩
  · obtain ⟨l, hs, ho⟩ := ActionQueue.push_starts act b' q
    exact ⟨[], l, hs, .inl ⟨rfl, ho⟩⟩
  · obtain ⟨l, hs, ho⟩ := ActionQueue.run_starts b' q
    exact ⟨[], l, hs, .inl ⟨rfl, ho⟩⟩
  · obtain ⟨l, hs, ho⟩ := ActionQueue.handle_starts x i q
    exact ⟨[], l, hs, .inl ⟨rfl, ho⟩⟩
  · obtain ⟨l, hs, ho⟩ := ActionQueue.onDone_starts b' (q.takeOutstanding i)
    refine ⟨q.outstanding, l, hs, .inr ⟨rfl, ?_⟩⟩
    obtain ⟨hlt, -⟩ := List.getElem?_eq_some_iff.mp hi
    have hnil : q.outstanding.eraseIdx i = [] := by
      rw [← List.length_eq_zero_iff, List.length_eraseIdx, if_pos hlt]
      omega
    have ho : (ActionQueue.onDone b' (q.takeOutstanding i)).outstanding =
        q.outstanding.eraseIdx i ++ l := ho
    rw [ho, hnil, List.nil_append]

theorem eq_of_perm_of_length_le {α : Type} {l l' : List α} (h : l.Perm l') (hle : l'.length ≤ 1) :
    l = l' := by
  cases l' with
  | nil => exact h.eq_nil
  | cons x l' =>
    have hnil : l' = [] := List.length_eq_zero_iff.mp (by
      rw [List.length_cons] at hle
      omega)
    rw [hnil] at h ⊢
    exact List.perm_singleton.mp h

/-- The actions that complete are the oldest ones. -/
theorem done_step (hacc : c.Accounted) (hacc' : c'.Accounted) {a : Act}
    (hone : (c.queue side).outstanding.length ≤ 1) (hs : c.step a = some c')
    (h : c.doneOn side ++ (c.queue side).outstanding = (c.queue side).started) :
    c'.doneOn side ++ (c'.queue side).outstanding = (c'.queue side).started := by
  obtain ⟨new, hnew⟩ := step_log hs
  have hdone : c'.doneOn side = c.doneOn side ++ new.filterMap (Event.doneOn side) := by
    unfold doneOn
    rw [← hnew, List.filterMap_append]
  -- what is recorded is counted by what has left the actions in progress
  have hcount : ∀ act, (new.filterMap (Event.doneOn side)).count act +
      (c.queue side).started.count act + (c'.queue side).outstanding.count act =
        (c'.queue side).started.count act + (c.queue side).outstanding.count act := by
    intro act
    have hc := count_doneOn c side act
    have hc' := count_doneOn c' side act
    rw [hdone, List.count_append] at hc'
    have h1 := hacc.started side act
    have h2 := hacc'.started side act
    have h3 := hacc.outstanding side act
    have h4 := hacc'.outstanding side act
    omega
  rcases step_queue hacc hs side with ⟨-, he⟩ | ⟨b, -, hst⟩
  · rw [he] at hcount ⊢
    have hnil : new.filterMap (Event.doneOn side) = [] :=
      List.eq_nil_iff_forall_not_mem.mpr fun act hm => by
        have hpos := List.count_pos_iff.mpr hm
        have := hcount act
        omega
    rw [hdone, hnil, List.append_nil, h]
  · obtain ⟨done, l, hstarted, hout⟩ := queue_moves hst hone
    have hperm : (new.filterMap (Event.doneOn side)).Perm done := by
      refine List.perm_iff_count.mpr fun act => ?_
      have hc := hcount act
      rw [hstarted, List.count_append] at hc
      rcases hout with ⟨rfl, ho⟩ | ⟨rfl, ho⟩
      · rw [ho, List.count_append] at hc
        simp only [List.count_nil]
        omega
      · rw [ho] at hc
        omega
    rw [hdone, hstarted, ← h]
    rcases hout with ⟨rfl, ho⟩ | ⟨rfl, ho⟩
    · rw [hperm.eq_nil, ho, List.append_nil, List.append_assoc]
    · rw [eq_of_perm_of_length_le hperm hone, ho]

theorem inductive_done (h : system.Reach UsedWhenActive c) (side : Side) :
    c.doneOn side ++ (c.queue side).outstanding = (c.queue side).started := by
  induction h with
  | init hi =>
    obtain ⟨isClient, isTls, rfl⟩ := hi
    cases side <;> rfl
  | step a hr ho hs ih =>
    have hone := ActionQueue.inductive_serial.reach (reach_queue_runsWhenIdle hr side)
    exact done_step (inductive_untried.reach hr).1 (inductive_untried.reach (hr.step a ho hs)).1
      hone.outstanding_le hs ih

/-! ## The order of the calls -/

/-- The strand of the queue runs its handlers in the order in which they were posted, and a call
inside the strand does not overtake one that is posted. -/
def InOrder (side : Side) (c : Connection) (a : Act) : Prop :=
  ∀ b ∈ c.queueAct a side, (c.queue side).InOrder b

instance (side : Side) (c : Connection) (a : Act) : Decidable (InOrder side c a) :=
  inferInstanceAs (Decidable (∀ b ∈ c.queueAct a side, _))

/-- What was called, in the order of the calls, is what was pushed and then what is posted. -/
theorem calls_inOrder {tr : List (Connection × Act)} (h : system.Runs tr c)
    (ho : ∀ x ∈ tr, InOrder side x.1 x.2) :
    (c.queue side).calls = tr.filterMap fun x => x.1.asked side x.2 := by
  induction h with
  | init hi =>
    obtain ⟨isClient, isTls, rfl⟩ := hi
    cases side <;> rfl
  | @step tr c c' a hr hs ih =>
    obtain ⟨htr, ha⟩ := List.forall_mem_append.mp ho
    have ha : InOrder side c a := ha _ List.mem_cons_self
    have hacc := inductive_accounted.reach (hr.reach fun _ _ => trivial)
    have hasked : ∀ l, tr.filterMap (fun x => x.1.asked side x.2) ++ l =
        (c.queue side).calls ++ l := fun l => by rw [ih htr]
    have hlast : List.filterMap (fun x : Connection × Act => x.1.asked side x.2) [(c, a)] =
        (c.asked side a).toList := by
      rw [List.filterMap_cons]
      cases c.asked side a <;> rfl
    rw [List.filterMap_append, hasked, hlast, ← queueAct_pushes]
    rcases step_queue hacc hs side with ⟨hnone, he⟩ | ⟨b, hb, hst⟩
    · rw [he, hnone]
      exact (List.append_nil _).symm
    · rw [ActionQueue.step_calls_inOrder (ha b hb) hst, hb]
      rfl

/-- **Reads and sends are served in order.** In every run of a connection that is used from the
moment on when it is active, and whose TLS handshake does not fail: on each side, the actions that
have completed, the one in progress, if there is one, and those that wait are the actions that were
pushed, in their order. Where the strand runs its handlers in order, these and those that are still
posted are the calls of the run in their order. So the messages go out in the order of the sends,
each when the one before has been written, and the messages that come in go to the reads in their
order. -/
theorem done_in_order {tr : List (Connection × Act)} (h : system.Runs tr c)
    (huse : ∀ x ∈ tr, UsedWhenActive x.1 x.2) (side : Side) :
    c.doneOn side ++ ((c.queue side).outstanding ++ (c.queue side).acts) =
        (c.queue side).pushed ∧
      (c.queue side).outstanding.length ≤ 1 ∧
      ((∀ x ∈ tr, InOrder side x.1 x.2) →
        c.doneOn side ++ ((c.queue side).outstanding ++ (c.queue side).acts) ++
            (c.queue side).posted =
          tr.filterMap fun x => x.1.asked side x.2) := by
  have hreach : system.Reach UsedWhenActive c := h.reach huse
  obtain ⟨hordered, -⟩ := ActionQueue.inductive_ordered_live.reach
    (reach_queue (hreach.mono fun _ _ _ => trivial) side)
  have hone := ActionQueue.inductive_serial.reach (reach_queue_runsWhenIdle hreach side)
  have hpushed : c.doneOn side ++ ((c.queue side).outstanding ++ (c.queue side).acts) =
      (c.queue side).pushed := by
    rw [← List.append_assoc, inductive_done hreach side]
    exact hordered
  refine ⟨hpushed, hone.outstanding_le, fun hin => ?_⟩
  rw [hpushed]
  exact calls_inOrder h hin

/-- A client that sends, disconnects and sends, one action of which has completed. The last call is
posted. -/
theorem done_in_order_client :
    let run := system.run { isClient := true, isTls := false }
      [.connect, .complete 0 false false false, .complete 0 false true true,
        .send 0 true, .disconnect true true, .send 1 false, .complete 0 false true true,
        .complete 1 false true true]
    run.2.doneOn .write ++ ((run.2.queue .write).outstanding ++ (run.2.queue .write).acts) =
        [.send 0, .disconnect] ∧
      (run.2.queue .write).outstanding.length ≤ 1 ∧
      run.2.doneOn .write ++ ((run.2.queue .write).outstanding ++ (run.2.queue .write).acts) ++
        (run.2.queue .write).posted = [.send 0, .disconnect, .send 1] := by
  obtain ⟨hpushed, hone, hcalls⟩ := done_in_order (runs_run true false
    [.connect, .complete 0 false false false, .complete 0 false true true,
      .send 0 true, .disconnect true true, .send 1 false, .complete 0 false true true,
      .complete 1 false true true]) (by decide) .write
  exact ⟨hpushed, hone, hcalls (by decide)⟩

end Connection

end Websocket
end Malloy
