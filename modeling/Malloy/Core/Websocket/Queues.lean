import Malloy.Core.Websocket.Closing
import Malloy.Lib.Draining

/-!
# The queues of a websocket connection

What a connection does with one of its queues is what a user of the queue does: `read()`, `send()`
and `disconnect()` push, `go_active()` runs it, and the handlers of the operations call `on_done`.

* `queueAct`: the step that a queue takes in a step of the connection, if it takes one. `step_queue`:
  it is that step. So each queue is in a state that the runs of a queue reach (`reach_queue`), and
  what holds of every queue holds of it.
* `UsedWhenActive`: the connection is used from the moment on when it is active, and its TLS handshake
  does not fail. Then `go_active()` runs an idle queue (`idle_of_goesActive`).
* `one_operation_each`: what follows for the stream, which must not be read twice at a time, nor be
  written twice at a time.
-/

namespace Malloy
namespace Websocket

/-- The flag of the strand of this queue. -/
def Side.flag (inRead inWrite : Bool) : Side → Bool
  | .read => inRead
  | .write => inWrite

/-- The started action whose `on_done` the handler of the operation calls. -/
def Pending.callsOnDone : Pending → Option (Side × WsAct)
  | .onDone side act => some (side, act)
  | .close (some side) => some (side, .disconnect)
  | _ => none

/-- `async_read` or `async_write`, of an action of the queue. -/
def Pending.isIo (side : Side) : Pending → Bool
  | .io side' _ => side' == side
  | _ => false

theorem Pending.isIo_iff {side : Side} {op : Pending} :
    op.isIo side = true ↔ ∃ act, op = .io side act := by
  cases op with
  | io side' act => simp [isIo]
  | _ => simp [isIo]

/-- The action of this queue to which the operation belongs. -/
def Pending.ownerOn (side : Side) (op : Pending) : Option WsAct :=
  op.owner.bind fun x => if x.1 = side then some x.2 else none

theorem Pending.ownerOn_iff {side : Side} {op : Pending} {act : WsAct} :
    op.ownerOn side = some act ↔ op.owner = some (side, act) := by
  unfold ownerOn
  cases op.owner with
  | none => simp
  | some x =>
    obtain ⟨side', act'⟩ := x
    simp

namespace Connection

variable {c c' : Connection} {side side' : Side} {act : WsAct}

/-! ## What the operations do to the queues -/

theorem queue_onQueue (side side' : Side) (f : ActionQueue WsAct → ActionQueue WsAct) :
    (c.onQueue side f).queue side' =
      if side' = side then f (c.queue side) else c.queue side' := by
  unfold onQueue
  rw [(executes_foldl side _ _).queue, queue_setQueue]

theorem queue_callOnDone (side side' : Side) (act : WsAct) (b : Bool) :
    (c.callOnDone side act b).queue side' =
      if side' = side then
        ActionQueue.onDone b ((c.queue side).takeOutstanding ((c.queue side).outstanding.idxOf act))
      else c.queue side' := by
  unfold callOnDone
  rw [queue_onQueue, queue_record, queue_record]

theorem queue_goActive (r w : Bool) (side : Side) :
    (c.goActive r w).queue side = ActionQueue.run (side.flag r w) (c.queue side) := by
  unfold goActive
  rw [queue_onQueue, queue_onQueue, queue_onQueue, queue_setState, queue_setState]
  cases side <;> rfl

theorem queue_push (side side' : Side) (act : WsAct) (b : Bool) :
    (c.push side act b).queue side' =
      if side' = side then (c.queue side).push act b else c.queue side' :=
  queue_onQueue side side' _

theorem queue_disconnect (h : c.isClosing = false) (r w : Bool) (side : Side) :
    (c.disconnect r w).queue side = (c.queue side).push .disconnect (side.flag r w) := by
  unfold disconnect
  rw [if_neg (by simp [h]), queue_push, queue_push, queue_push]
  cases side <;> rfl

theorem queue_forceDisconnect (side : Side) : c.forceDisconnect.queue side = c.queue side := by
  unfold forceDisconnect
  split
  · rfl
  · unfold doDisconnect
    rw [queue_start, queue_record, queue_setState]

theorem queue_onHandshake (ec r w : Bool) (side : Side) :
    (c.onHandshake ec r w).queue side = ActionQueue.run (side.flag r w) (c.queue side) := by
  unfold onHandshake
  rw [queue_record, queue_goActive]

/-- What the handler of an operation does to the queues. -/
theorem queue_complete (op : Pending) (ec r w : Bool) (side : Side) :
    (c.complete ec r w op).queue side =
      if op.goesActive ec then ActionQueue.run (side.flag r w) (c.queue side)
      else match op.callsOnDone with
        | some (side', act) =>
          if side = side' then
            ActionQueue.onDone (side.flag r w)
              ((c.queue side).takeOutstanding ((c.queue side).outstanding.idxOf act))
          else c.queue side
        | none => c.queue side := by
  cases op with
  | connect =>
    cases ec with
    | true => exact queue_record _ side
    | false =>
      show c.onConnect.queue side = c.queue side
      unfold onConnect onReadyForHandshake
      split <;> exact queue_start _ side
  | tlsHandshake =>
    cases ec with
    | true => exact (queue_start _ side).trans (queue_onHandshake true r w side)
    | false => exact queue_start _ side
  | handshake =>
    refine (queue_onHandshake ec r w side).trans ?_
    rw [queue_record]
    rfl
  | accept =>
    cases ec with
    | true => exact queue_record _ side
    | false =>
      refine (queue_record _ side).trans ((queue_goActive r w side).trans ?_)
      rw [queue_record]
      rfl
  | io side' act => exact queue_start _ side
  | close owner =>
    have hclosed : ∀ side, (if ec then c else c.setState .closed).queue side = c.queue side := by
      intro side
      split
      · rfl
      · exact queue_setState _ side
    match owner with
    | none => exact hclosed side
    | some .read =>
      refine (queue_callOnDone .read side .disconnect r).trans ?_
      rw [hclosed, hclosed]
      cases side <;> rfl
    | some .write =>
      refine (queue_callOnDone .write side .disconnect w).trans ?_
      rw [hclosed, hclosed]
      cases side <;> rfl
  | onDone side' act =>
    cases side' with
    | read =>
      refine (queue_callOnDone .read side act r).trans ?_
      cases side <;> rfl
    | write =>
      refine (queue_callOnDone .write side act w).trans ?_
      cases side <;> rfl

/-! ## A queue follows its own runs -/

/-- The step that the queue takes in a step of the connection. -/
def queueAct (c : Connection) (a : Act) (side : Side) : Option (ActionQueue.Act WsAct) :=
  match a with
  | .connect | .accept | .forceDisconnect => none
  | .disconnect r w => if c.isClosing then none else some (.push .disconnect (side.flag r w))
  | .read call r => if side = .read then some (.push (.read call) r) else none
  | .send call w => if side = .write then some (.push (.send call) w) else none
  | .handler side' i => if side = side' then some (.handler i) else none
  | .complete i ec r w => c.pending[i]?.bind fun op =>
    if op.goesActive ec then some (.run (side.flag r w))
    else op.callsOnDone.bind fun x =>
      if side = x.1 then
        some (.complete ((c.queue side).outstanding.idxOf x.2) (side.flag r w))
      else none

/-- An operation that calls `on_done` belongs to an action that has not completed. -/
theorem outstanding_of_callsOnDone (ha : c.Accounted) {i : Nat} {op : Pending}
    (hop : c.pending[i]? = some op) (hcalls : op.callsOnDone = some (side, act)) :
    (c.queue side).outstanding[(c.queue side).outstanding.idxOf act]? = some act := by
  have howner : op.owner = some (side, act) := by
    cases op with
    | onDone side' act' => exact hcalls
    | close owner =>
      cases owner with
      | none => cases hcalls
      | some side' => exact hcalls
    | _ => cases hcalls
  have hpos : 0 < c.owned side act :=
    List.countP_pos_iff.mpr ⟨op, List.mem_of_getElem? hop, by simp [howner]⟩
  rw [← ha.outstanding] at hpos
  exact List.getElem?_idxOf (List.count_pos_iff.mp hpos)

/-- **A step of the connection is a step of each of its queues**, or leaves the queue as it is. -/
theorem step_queue {a : Act} (ha : c.Accounted) (h : c.step a = some c') (side : Side) :
    (c.queueAct a side = none ∧ c'.queue side = c.queue side) ∨
      ∃ b, c.queueAct a side = some b ∧ (c.queue side).step b = some (c'.queue side) := by
  have hcalled : ({ c with called := true } : Connection).queue side = c.queue side := by
    cases side <;> rfl
  cases a with
  | connect =>
    simp only [step] at h
    split at h
    · cases h
      refine .inl ⟨rfl, ?_⟩
      unfold connect
      split
      · exact hcalled
      · exact (queue_start _ side).trans hcalled
    · cases h
  | accept =>
    simp only [step] at h
    split at h
    · cases h
      refine .inl ⟨rfl, ?_⟩
      unfold accept
      split
      · exact hcalled
      · exact (queue_start _ side).trans ((queue_setState _ side).trans hcalled)
    · cases h
  | disconnect r w =>
    cases h
    cases hc : c.isClosing with
    | true => exact .inl ⟨by simp [queueAct, hc], by simp [disconnect, hc]⟩
    | false =>
      refine .inr ⟨.push .disconnect (side.flag r w), by simp [queueAct, hc], ?_⟩
      rw [queue_disconnect hc]
      rfl
  | forceDisconnect =>
    cases h
    exact .inl ⟨rfl, queue_forceDisconnect side⟩
  | read call r =>
    cases h
    cases side with
    | read => exact .inr ⟨.push (.read call) r, rfl, by rw [queue_push, if_pos rfl]; rfl⟩
    | write => exact .inl ⟨rfl, by rw [queue_push]; rfl⟩
  | send call w =>
    cases h
    cases side with
    | read => exact .inl ⟨rfl, by rw [queue_push]; rfl⟩
    | write => exact .inr ⟨.push (.send call) w, rfl, by rw [queue_push, if_pos rfl]; rfl⟩
  | handler side' i =>
    obtain ⟨x, hx, rfl⟩ := Option.map_eq_some_iff.mp h
    rw [queue_onQueue]
    by_cases hs : side = side'
    · subst hs
      refine .inr ⟨.handler i, if_pos rfl, ?_⟩
      rw [if_pos rfl]
      exact Option.map_eq_some_iff.mpr ⟨x, hx, rfl⟩
    · exact .inl ⟨if_neg hs, by rw [if_neg hs]⟩
  | complete i ec r w =>
    obtain ⟨op, hop, rfl⟩ := Option.map_eq_some_iff.mp h
    have hqueue := queue_complete (c := c.takePending i) op ec r w side
    rw [queue_takePending] at hqueue
    simp only [queueAct, hop, Option.bind_some]
    rw [hqueue]
    cases hgo : op.goesActive ec with
    | true => exact .inr ⟨.run (side.flag r w), by simp, rfl⟩
    | false =>
      cases hcalls : op.callsOnDone with
      | none => exact .inl ⟨by simp, by simp⟩
      | some x =>
        obtain ⟨side', act⟩ := x
        by_cases hs : side = side'
        · subst hs
          refine .inr ⟨_, by simp; rfl, ?_⟩
          have hout := outstanding_of_callsOnDone ha hop hcalls
          simp only [ActionQueue.step, hout, Option.map_some, Bool.false_eq_true, if_false, if_true]
        · exact .inl ⟨by simp [hs], by simp [hs]⟩

/-- Each queue is in a state that the runs of a queue reach. -/
theorem reach_queue (h : system.Reach Lib.Sys.free c) (side : Side) :
    (ActionQueue.system WsAct).Reach Lib.Sys.free (c.queue side) := by
  refine Lib.Sys.Reach.project (fun c => c.queue side) h (fun s hs => ?_) fun s a s' hs _ hst => ?_
  · obtain ⟨isClient, isTls, rfl⟩ := hs
    cases side <;> rfl
  · rcases step_queue (inductive_accounted.reach hs) hst side with ⟨-, he⟩ | ⟨b, -, hb⟩
    · exact .inl he
    · exact .inr ⟨b, trivial, hb⟩

/-! ## A connection that is used when it is active -/

end Connection

/-- A call of the user on a queue, or one that closes the connection. -/
def Act.uses : Act → Bool
  | .disconnect _ _ | .forceDisconnect | .read _ _ | .send _ _ => true
  | _ => false

namespace Connection

variable {c c' : Connection} {side : Side} {act : WsAct}

/-- The connection is only used once it is active, and a TLS handshake does not fail. -/
def UsedWhenActive (c : Connection) (a : Act) : Prop :=
  (a.uses = true → .state .active ∈ c.log) ∧ c.failsTls a = false

instance (c : Connection) (a : Act) : Decidable (UsedWhenActive c a) :=
  inferInstanceAs (Decidable (_ ∧ _))

/-- Which steps of the connection are which steps of a queue. -/
theorem queueAct_cases {a : Act} {b : ActionQueue.Act WsAct} (h : c.queueAct a side = some b) :
    (a.uses = true ∧ ∃ act inStrand, b = .push act inStrand) ∨
    (c.goesActive a = true ∧ ∃ inStrand, b = .run inStrand) ∨
    (∃ i, b = .handler i) ∨ ∃ i inStrand, b = .complete i inStrand := by
  cases a with
  | connect => cases h
  | accept => cases h
  | forceDisconnect => cases h
  | disconnect r w =>
    simp only [queueAct] at h
    split at h
    · cases h
    · cases h
      exact .inl ⟨rfl, _, _, rfl⟩
  | read call r =>
    simp only [queueAct] at h
    split at h
    · cases h
      exact .inl ⟨rfl, _, _, rfl⟩
    · cases h
  | send call w =>
    simp only [queueAct] at h
    split at h
    · cases h
      exact .inl ⟨rfl, _, _, rfl⟩
    · cases h
  | handler side' i =>
    simp only [queueAct] at h
    split at h
    · cases h
      exact .inr (.inr (.inl ⟨i, rfl⟩))
    · cases h
  | complete i ec r w =>
    obtain ⟨op, hop, h⟩ := Option.bind_eq_some_iff.mp h
    split at h
    · rename_i hgo
      cases h
      exact .inr (.inl ⟨by simpa [goesActive, hop] using hgo, _, rfl⟩)
    · obtain ⟨x, -, h⟩ := Option.bind_eq_some_iff.mp h
      split at h
      · cases h
        exact .inr (.inr (.inr ⟨_, _, rfl⟩))
      · cases h

/-- A handler that calls `go_active()` writes the state. -/
theorem active_of_goesActive {a : Act} (hs : c.step a = some c') (hgo : c.goesActive a = true) :
    .state .active ∈ c'.log := by
  rcases step_cases hs with ⟨hno, -⟩ | ⟨-, pre, ⟨l, hl, -⟩, -⟩
  · rw [hno] at hgo
    cases hgo
  · rw [hl]
    simp

/-- The queues are as they were made. -/
def Untried (c : Connection) : Prop := ∀ side, c.queue side = {}

/-- A queue that was not used has nothing to run, and no action that could complete. -/
theorem untried_step {a : Act} (ha : c.Accounted) (hu : c.Untried) (huses : a.uses = false)
    (hgo : c.goesActive a = false) (hs : c.step a = some c') : c'.Untried := by
  intro side
  rcases step_queue ha hs side with ⟨-, he⟩ | ⟨b, hb, hst⟩
  · rw [he, hu side]
  · rw [hu side] at hst
    rcases queueAct_cases hb with ⟨h, -⟩ | ⟨h, -⟩ | ⟨i, rfl⟩ | ⟨i, b, rfl⟩
    · rw [huses] at h
      cases h
    · rw [hgo] at h
      cases h
    · simp [ActionQueue.step] at hst
    · simp [ActionQueue.step] at hst

theorem inductive_untried : system.Inductive UsedWhenActive
    fun c => c.Accounted ∧ (.state .active ∉ c.log → c.Untried) where
  base c hc := by
    refine ⟨inductive_accounted.base c hc, fun _ side => ?_⟩
    obtain ⟨isClient, isTls, rfl⟩ := hc
    cases side <;> rfl
  keep c a c' h ha hs := by
    refine ⟨inductive_accounted.keep c a c' h.1 trivial hs, fun hno => ?_⟩
    have hbefore : .state .active ∉ c.log := fun hm => hno ((step_log hs).subset hm)
    refine untried_step h.1 (h.2 hbefore) ?_ ?_ hs
    · cases hu : a.uses with
      | true => exact absurd (ha.1 hu) hbefore
      | false => rfl
    · cases hgo : c.goesActive a with
      | true => exact absurd (active_of_goesActive hs hgo) hno
      | false => rfl

/-- `go_active()` runs queues that were not used before. -/
theorem untried_of_goesActive (h : system.Reach UsedWhenActive c) {a : Act}
    (ha : UsedWhenActive c a) (hs : c.step a = some c') (hgo : c.goesActive a = true) :
    c.Untried := by
  have hfirst : system.Reach (fun c a => ActiveFirst c a ∧ c.failsTls a = false) c := by
    refine h.mono fun c a hu => ⟨fun hd => hu.1 ?_, hu.2⟩
    cases a with
    | disconnect r w => rfl
    | forceDisconnect => rfl
    | _ => cases hd
  obtain ⟨-, honce⟩ := inductive_activeOnce.reach hfirst
  refine (inductive_untried.reach h).2 fun hm => ?_
  have hlt := openings_goesActive hs hgo ha.2
  have := (honce.openings hm).2
  omega

/-- The queues of such a connection are only run while they are idle. -/
theorem reach_queue_runsWhenIdle (h : system.Reach UsedWhenActive c) (side : Side) :
    (ActionQueue.system WsAct).Reach ActionQueue.RunsWhenIdle (c.queue side) := by
  refine Lib.Sys.Reach.project (fun c => c.queue side) h (fun s hs => ?_) fun s a s' hs ha hst => ?_
  · obtain ⟨isClient, isTls, rfl⟩ := hs
    cases side <;> rfl
  · rcases step_queue (inductive_untried.reach hs).1 hst side with ⟨-, he⟩ | ⟨b, hb, hbst⟩
    · exact .inl he
    · refine .inr ⟨b, fun inStrand hrun => ?_, hbst⟩
      subst hrun
      rcases queueAct_cases hb with ⟨-, act, b, hp⟩ | ⟨hgo, -⟩ | ⟨i, hp⟩ | ⟨i, b, hp⟩
      · cases hp
      · rw [untried_of_goesActive hs ha hst hgo side]
      · cases hp
      · cases hp

/-- The actions of the queue to which the operations in progress belong. -/
def owners (c : Connection) (side : Side) : List WsAct := c.pending.filterMap (Pending.ownerOn side)

/-- They are the started actions that have not called their `on_done`. -/
theorem owners_perm (ha : c.Accounted) (side : Side) :
    (c.owners side).Perm (c.queue side).outstanding := by
  refine List.perm_iff_count.mpr fun act => ?_
  rw [ha.outstanding, owners, List.count_filterMap, owned]
  refine List.countP_congr fun op _ => ?_
  rw [beq_iff_eq, beq_iff_eq, Pending.ownerOn_iff]

/-- The operations on the stream are among those that belong to an action. -/
theorem countP_isIo_le (ha : c.Accounted) (side : Side) :
    c.pending.countP (Pending.isIo side) ≤ (c.queue side).outstanding.length := by
  rw [← (owners_perm ha side).length_eq, owners, List.length_filterMap_eq_countP]
  refine List.countP_mono_left fun op _ hop => ?_
  obtain ⟨act, rfl⟩ := Pending.isIo_iff.mp hop
  simp [Pending.ownerOn, Pending.owner]

/-- **One operation each.** In every run of a connection that is used from the moment on when it is
active, and whose TLS handshake does not fail, at most one `async_read` and at most one `async_write`
are in progress, as the stream demands, and none before the connection is active. In general at most
one action of each queue has not called its `on_done`. -/
theorem one_operation_each (h : system.Reach UsedWhenActive c) :
    c.pending.countP (Pending.isIo .read) ≤ 1 ∧ c.pending.countP (Pending.isIo .write) ≤ 1 ∧
      (∀ side act, .io side act ∈ c.pending → .state .active ∈ c.log) ∧
      ∀ side, (c.queue side).outstanding.length ≤ 1 := by
  obtain ⟨hacc, huntried⟩ := inductive_untried.reach h
  have hone : ∀ side, (c.queue side).outstanding.length ≤ 1 := fun side =>
    (ActionQueue.inductive_serial.reach (reach_queue_runsWhenIdle h side)).outstanding_le
  have hle : ∀ side, c.pending.countP (Pending.isIo side) ≤ 1 := fun side =>
    Nat.le_trans (countP_isIo_le hacc side) (hone side)
  refine ⟨hle .read, hle .write, fun side act hm => ?_, hone⟩
  by_contra hno
  have hpos : 0 < c.pending.countP (Pending.isIo side) :=
    List.countP_pos_iff.mpr ⟨_, hm, Pending.isIo_iff.mpr ⟨act, rfl⟩⟩
  have hio := Nat.lt_of_lt_of_le hpos (countP_isIo_le hacc side)
  rw [huntried hno side] at hio
  exact absurd hio (by simp)

/-- A client that connects, reads, sends twice and disconnects. -/
theorem one_operation_each_client :
    let c := (system.run { isClient := true, isTls := false }
      [.connect, .complete 0 false false false, .complete 0 false true true, .read 0 true,
        .send 1 true, .send 2 true, .disconnect true true]).2
    c.pending.countP (Pending.isIo .read) ≤ 1 ∧ c.pending.countP (Pending.isIo .write) ≤ 1 ∧
      (∀ side act, .io side act ∈ c.pending → .state .active ∈ c.log) ∧
      ∀ side, (c.queue side).outstanding.length ≤ 1 :=
  one_operation_each ((runs_run true false _).reach (by decide))

/-- Before it is active, a connection that is sent two messages writes the first one at once, and
the second one when it becomes active. -/
example : (system.run { isClient := true, isTls := false }
    [.connect, .send 0 true, .send 1 true, .complete 0 false false false,
      .complete 1 false true true]).2.pending.countP (Pending.isIo .write) = 2 := by decide

end Connection

end Websocket
end Malloy
