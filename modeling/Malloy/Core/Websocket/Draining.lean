import Malloy.Core.ActionQueue.Draining
import Malloy.Core.Websocket.Queues
import Mathlib.Algebra.GroupWithZero.Nat

/-!
# A websocket connection answers every read and every send

When the user makes no more calls, a connection goes on until every operation in progress has
completed, with or without an error, and no handler waits. It does come to that, and then the action
of each `read()` and of each `send()` has called its `on_done`, behind the callback of the caller.

* `Pending.price`, `work`: what an operation in progress may still lead to, and the sum of it with what
  waits in the queues. `Within n`: what adds at most `n` to it.
* `lowers_inner`: a step that is no call of the user lowers it.
* `asked`: what a step pushes on a queue. `calls_of_runs`: a queue has in it what was read and sent.
* `connection_settles`: the runs.
-/

namespace Malloy
namespace Websocket

open Connection

/-- More than what the handler of the operation can add to the work. -/
def Pending.price : Pending → Nat
  | .connect => 7
  | .tlsHandshake => 6
  | .handshake | .accept | .io _ _ | .close _ => 3
  | .onDone _ _ => 2

namespace Connection

variable {c c' c'' : Connection} {side : Side} {act : WsAct} {n m : Nat}

/-! ## The work that is left -/

def work (c : Connection) : Nat :=
  c.readQueue.waiting + c.writeQueue.waiting + (c.pending.map Pending.price).sum

/-- What the connection does adds at most `n` to the work. -/
def Within (n : Nat) (c c' : Connection) : Prop := c'.work ≤ c.work + n

theorem Within.trans (h : Within n c c') (h' : Within m c' c'') : Within (n + m) c c'' := by
  unfold Within at *
  omega

theorem Within.mono (h : Within n c c') (hn : n ≤ m) : Within m c c' := by
  unfold Within at *
  omega

theorem within_refl (c : Connection) : Within 0 c c := Nat.le_refl _

theorem within_record (e : Event) : Within 0 c (c.record e) := Nat.le_refl _

theorem within_setState (s : State) : Within 0 c (c.setState s) := Nat.le_refl _

theorem work_start (op : Pending) : (c.start op).work = c.work + op.price := by
  simp only [work, start, List.map_append, List.sum_append, List.map_singleton,
    List.sum_singleton]
  omega

theorem within_start (op : Pending) : Within op.price c (c.start op) :=
  Nat.le_of_eq (work_start op)

theorem work_takePending {i : Nat} {op : Pending} (h : c.pending[i]? = some op) :
    (c.takePending i).work + op.price = c.work := by
  obtain ⟨hlt, rfl⟩ := List.getElem?_eq_some_iff.mp h
  have hp := ((List.getElem_cons_eraseIdx_perm hlt).map Pending.price).sum_nat
  rw [List.map_cons, List.sum_cons] at hp
  simp only [work, takePending]
  omega

/-- The queues change, one of them into `q`. -/
theorem work_setQueue (side : Side) (q : ActionQueue WsAct) :
    (c.setQueue side q).work + (c.queue side).waiting = c.work + q.waiting := by
  cases side <;> simp only [work, setQueue, queue] <;> omega

theorem within_execute (side : Side) (act : WsAct) : Within 3 c (c.execute side act) := by
  cases act with
  | read call => exact within_start _
  | send call => exact within_start _
  | disconnect =>
    simp only [execute]
    split
    · exact (within_start (.onDone side .disconnect)).mono (Nat.le_succ 2)
    · exact ((within_setState .closing).trans (within_record .asyncClose)).trans
        (within_start (.close (some side)))

theorem within_foldl (side : Side) (acts : List WsAct) (c : Connection) :
    Within (3 * acts.length) c (acts.foldl (execute side) c) := by
  induction acts generalizing c with
  | nil => exact within_refl c
  | cons act acts ih =>
    refine ((within_execute side act).trans (ih (c.execute side act))).mono ?_
    rw [List.length_cons]
    omega

/-- An operation of a queue: an action that it starts costs less than one that waits. -/
theorem work_onQueue (c : Connection) (side : Side) {f : ActionQueue WsAct → ActionQueue WsAct}
    {q : ActionQueue WsAct} {k : Nat}
    (hs : q.started = (c.queue side).started) (hp : q.Proceeds k (f (c.queue side))) :
    (c.onQueue side f).work + (c.queue side).waiting < c.work + q.waiting + k := by
  obtain ⟨-, -, l, hl, -, hlt⟩ := hp
  have hdrop : (f (c.queue side)).started.drop (c.queue side).started.length = l := by
    rw [hl, hs, List.drop_left]
  have hfold := within_foldl side l (c.setQueue side (f (c.queue side)))
  have hset := work_setQueue (c := c) side (f (c.queue side))
  unfold onQueue
  rw [hdrop]
  unfold Within at hfold
  omega

theorem within_run (side : Side) (b : Bool) : Within 1 c (c.onQueue side (ActionQueue.run b)) := by
  have h := work_onQueue c side rfl (ActionQueue.run_proceeds b (c.queue side))
  unfold Within
  omega

theorem within_goActive (r w : Bool) : Within 2 c (c.goActive r w) :=
  ((within_setState .active).trans (within_run .read r)).trans (within_run .write w)

theorem within_onHandshake (ec r w : Bool) : Within 2 c (c.onHandshake ec r w) :=
  (within_goActive r w).trans (within_record (.done ec))

theorem within_callOnDone (side : Side) (act : WsAct) (b : Bool) :
    Within 1 c (c.callOnDone side act b) := by
  have hp := ActionQueue.onDone_proceeds b
    ((c.queue side).takeOutstanding ((c.queue side).outstanding.idxOf act))
  have h := work_onQueue (c.record (.onDone side act)) side
    (f := fun q => (q.takeOutstanding (q.outstanding.idxOf act)).onDone b)
    (q := (c.queue side).takeOutstanding ((c.queue side).outstanding.idxOf act))
    (by rw [queue_record]; rfl) (by rw [queue_record]; exact hp)
  have htake : ((c.queue side).takeOutstanding
      ((c.queue side).outstanding.idxOf act)).waiting = (c.queue side).waiting := rfl
  have hwork : (c.record (.onDone side act)).work = c.work := rfl
  rw [queue_record, htake, hwork] at h
  unfold Within callOnDone
  omega

/-- The handler of an operation adds less than its price. -/
theorem within_complete (op : Pending) (ec r w : Bool) :
    Within (op.price - 1) c (c.complete ec r w op) := by
  cases op with
  | connect =>
    cases ec with
    | true => exact (within_record (.done true)).mono (Nat.zero_le _)
    | false =>
      show Within _ c c.onConnect
      unfold onConnect
      split
      · exact within_start .tlsHandshake
      · exact (within_start .handshake).mono (by decide)
  | tlsHandshake =>
    cases ec with
    | true => exact (within_onHandshake true r w).trans (within_start .handshake)
    | false => exact (within_start .handshake).mono (by decide)
  | handshake =>
    exact (within_record (.handshake ec)).trans (within_onHandshake ec r w)
  | accept =>
    cases ec with
    | true => exact (within_record (.handshake true)).mono (Nat.zero_le _)
    | false =>
      exact ((within_record (.handshake false)).trans (within_goActive r w)).trans
        (within_record (.done false))
  | io side act => exact within_start (.onDone side act)
  | close owner =>
    have hclosed : Within 0 c (if ec then c else c.setState .closed) := by
      split
      · exact within_refl c
      · exact within_setState .closed
    match owner with
    | none => exact hclosed.mono (Nat.zero_le _)
    | some .read => exact (hclosed.trans (within_callOnDone .read .disconnect r)).mono (by decide)
    | some .write =>
      exact (hclosed.trans (within_callOnDone .write .disconnect w)).mono (by decide)
  | onDone side act =>
    cases side with
    | read => exact within_callOnDone .read act r
    | write => exact within_callOnDone .write act w

theorem price_pos (op : Pending) : 0 < op.price := by
  cases op <;> exact Nat.succ_pos _

/-- The step is no call of the user: it runs a handler of a strand or of an operation. -/
def Inner (_ : Connection) (a : Act) : Prop :=
  (∃ side i, a = .handler side i) ∨ ∃ i ec r w, a = .complete i ec r w

/-- Such a step does work that was left. -/
theorem lowers_inner : system.Lowers Inner work := by
  rintro c a c' (⟨side, i, rfl⟩ | ⟨i, ec, r, w, rfl⟩) hs
  · obtain ⟨x, hx, rfl⟩ := Option.map_eq_some_iff.mp hs
    have h := work_onQueue c side
      (f := fun q => ActionQueue.handle x (q.takeHandler i)) rfl (ActionQueue.handle_proceeds hx)
    omega
  · obtain ⟨op, hop, rfl⟩ := Option.map_eq_some_iff.mp hs
    have htake := work_takePending hop
    have hpos := price_pos op
    have h := within_complete (c := c.takePending i) op ec r w
    unfold Within at h
    omega

/-! ## What was read and sent -/

end Connection

/-- The step is this call of `read()`. -/
def Act.isRead (call : Nat) : Act → Bool
  | .read call' _ => call' == call
  | _ => false

/-- The step is this call of `send()`. -/
def Act.isSend (call : Nat) : Act → Bool
  | .send call' _ => call' == call
  | _ => false

/-- The step pushes this action on this queue, which is `read()` on the read queue or `send()` on the
write queue. -/
def Act.asks (a : Act) : Side → WsAct → Bool
  | .read, .read call => a.isRead call
  | .write, .send call => a.isSend call
  | _, _ => false

namespace Connection

variable {c c' : Connection} {side : Side} {act : WsAct}

/-- What a step of a queue does to what was pushed on it. -/
theorem queue_calls {q q' : ActionQueue WsAct} {b : ActionQueue.Act WsAct} (h : q.step b = some q')
    (act : WsAct) : q'.calls.count act = q.calls.count act +
      if ∃ inStrand, b = .push act inStrand then 1 else 0 := by
  rcases ActionQueue.step_cases h with ⟨act', b', rfl, rfl⟩ | ⟨b', rfl, rfl⟩ |
    ⟨i, x, rfl, hi, rfl⟩ | ⟨i, b', x, rfl, hi, rfl⟩
  · rw [(ActionQueue.push_calls act' b' q).count_eq, List.count_cons]
    refine congrArg _ (if_congr ?_ rfl rfl)
    rw [beq_iff_eq]
    constructor
    · rintro rfl
      exact ⟨b', rfl⟩
    · rintro ⟨_, he⟩
      cases he
      rfl
  · rw [(ActionQueue.run_proceeds b' q).calls.count_eq, if_neg (by simp)]
    rfl
  · rw [(ActionQueue.handle_proceeds hi).calls.count_eq, if_neg (by simp)]
    rfl
  · rw [(ActionQueue.onDone_proceeds b' (q.takeOutstanding i)).calls.count_eq, if_neg (by simp)]
    rfl

/-- What the step pushes on the queue: the action of the call `read()`, `send()` or `disconnect()`. -/
def asked (side : Side) (c : Connection) : Act → Option WsAct
  | .read call _ => if side = .read then some (.read call) else none
  | .send call _ => if side = .write then some (.send call) else none
  | .disconnect _ _ => if c.isClosing then none else some .disconnect
  | _ => none

theorem queueAct_pushes (c : Connection) (a : Act) (side : Side) :
    (c.queueAct a side).bind ActionQueue.Act.pushes = c.asked side a := by
  cases a with
  | read call r =>
    simp only [queueAct, asked]
    split <;> rfl
  | send call w =>
    simp only [queueAct, asked]
    split <;> rfl
  | disconnect r w =>
    simp only [queueAct, asked]
    split <;> rfl
  | handler side' i =>
    simp only [queueAct, asked]
    split <;> rfl
  | complete i ec r w =>
    refine Option.eq_none_iff_forall_not_mem.mpr fun act hact => ?_
    obtain ⟨b, hb, hpush⟩ := Option.bind_eq_some_iff.mp hact
    obtain ⟨op, -, hb⟩ := Option.bind_eq_some_iff.mp hb
    split at hb
    · cases hb
      cases hpush
    · obtain ⟨x, -, hb⟩ := Option.bind_eq_some_iff.mp hb
      split at hb
      · cases hb
        cases hpush
      · cases hb
  | _ => rfl

theorem queueAct_push_iff {a : Act} :
    (∃ inStrand, c.queueAct a side = some (.push act inStrand)) ↔ c.asked side a = some act := by
  rw [← queueAct_pushes, Option.bind_eq_some_iff]
  constructor
  · rintro ⟨b, hb⟩
    exact ⟨_, hb, rfl⟩
  · rintro ⟨x, hx, hact⟩
    cases x with
    | push act' b =>
      cases hact
      exact ⟨b, hx⟩
    | _ => cases hact

/-- The queue of the reads, or of the sends. -/
def Serves (side : Side) (act : WsAct) : Prop :=
  ∃ call, (side = .read ∧ act = .read call) ∨ (side = .write ∧ act = .send call)

theorem asked_iff (hserves : Serves side act) {a : Act} :
    c.asked side a = some act ↔ a.asks side act = true := by
  obtain ⟨call, ⟨rfl, rfl⟩ | ⟨rfl, rfl⟩⟩ := hserves
  all_goals
    cases a with
    | disconnect r w => cases hc : c.isClosing <;> simp [asked, hc, Act.asks, Act.isRead, Act.isSend]
    | _ => simp [asked, Act.asks, Act.isRead, Act.isSend]

/-- A read is pushed on the read queue, and a send on the write queue. -/
theorem step_calls (hserves : Serves side act) (ha : c.Accounted) {a : Act}
    (hs : c.step a = some c') :
    (c'.queue side).calls.count act =
      (c.queue side).calls.count act + if a.asks side act then 1 else 0 := by
  have hiff := (@queueAct_push_iff c side act a).trans (asked_iff hserves)
  rcases step_queue ha hs side with ⟨hnone, he⟩ | ⟨b, hb, hst⟩
  · rw [he, if_neg]
    · rfl
    · rw [← hiff, hnone]
      simp
  · rw [queue_calls hst]
    refine congrArg _ (if_congr ?_ rfl rfl)
    rw [← hiff, hb]
    simp

/-- **What was read and sent** is in the queue: it waits, or it was started. -/
theorem calls_of_runs (hserves : Serves side act) {tr : List (Connection × Act)}
    (h : system.Runs tr c) :
    (c.queue side).calls.count act = tr.countP fun x => x.2.asks side act := by
  induction h with
  | init hi =>
    obtain ⟨isClient, isTls, rfl⟩ := hi
    cases side <;> rfl
  | step a hr hs ih =>
    have hacc := inductive_accounted.reach (hr.reach fun _ _ => trivial)
    rw [step_calls hserves hacc hs, ih, List.countP_append, List.countP_singleton]

/-! ## Coming to rest -/

theorem asks_of_inner {a : Act} (ha : Inner c a) : a.asks side act = false := by
  rcases ha with ⟨side', i, rfl⟩ | ⟨i, ec, r, w, rfl⟩ <;> cases side <;> cases act <;> rfl

theorem calls_of_inner (hserves : Serves side act) {d : Connection}
    (hc : system.Reach Lib.Sys.free c) (h : (system.onward c).Reach Inner d) :
    (d.queue side).calls.count act = (c.queue side).calls.count act := by
  induction h with
  | init hi =>
    cases hi
    rfl
  | step a hr ha hs ih =>
    have hacc := inductive_accounted.reach (hc.onward (hr.mono fun _ _ _ => trivial))
    rw [step_calls hserves hacc hs, asks_of_inner ha, ih]
    rfl

/-- Where no handler can run, nothing is in progress and nothing waits. -/
theorem rest_of_final (hacc : c.Accounted) (h : system.Final Inner c) :
    c.pending = [] ∧ ∀ side, (c.queue side).Idle := by
  have hpending : c.pending = [] := by
    by_contra hne
    obtain ⟨op, ops, hop⟩ := List.exists_cons_of_ne_nil hne
    exact h (.complete 0 true true true) _ (.inr ⟨0, true, true, true, rfl⟩)
      (Option.map_eq_some_iff.mpr ⟨op, by simp [hop], rfl⟩)
  refine ⟨hpending, fun side => ?_⟩
  have hstrand : (c.queue side).strand = [] := by
    by_contra hne
    obtain ⟨x, xs, hx⟩ := List.exists_cons_of_ne_nil hne
    exact h (.handler side 0) _ (.inl ⟨side, 0, rfl⟩)
      (Option.map_eq_some_iff.mpr ⟨x, by simp [hx], rfl⟩)
  have hout : (c.queue side).outstanding = [] := by
    refine List.eq_nil_iff_forall_not_mem.mpr fun act hm => ?_
    have hpos := List.count_pos_iff.mpr hm
    rw [hacc.outstanding] at hpos
    simp [owned, hpending] at hpos
  have htokens : (c.queue side).tokens = 0 := by simp [ActionQueue.tokens, hstrand, hout]
  refine ⟨hstrand, hout, ?_, ?_⟩
  · by_contra hne
    have := (hacc.live side).acts hne
    omega
  · by_contra hne
    have := (hacc.live side).flag (by simpa using hne)
    omega

/-- At rest the actions that were pushed have called their `on_done`. -/
theorem onDones_of_rest (h : system.Reach Lib.Sys.free c) (hp : c.pending = [])
    (hi : (c.queue side).Idle) : c.onDones side act = (c.queue side).calls.count act := by
  have hacc := inductive_accounted.reach h
  obtain ⟨hordered, -⟩ := ActionQueue.inductive_ordered_live.reach (reach_queue h side)
  have hcalls : (c.queue side).calls = (c.queue side).started := by
    unfold ActionQueue.calls ActionQueue.posted
    unfold ActionQueue.Ordered at hordered
    rw [hi.strand, List.filterMap_nil, List.append_nil, ← hordered, hi.acts, List.append_nil]
  have hstarted := hacc.started side act
  have hnone : c.owned side act = 0 := by simp [owned, hp]
  rw [hcalls, hstarted, hnone]
  rfl

/-- **Every read and every send is answered.** After any run, the handlers that wait and the
operations in progress come to an end, in whatever order and with whatever errors they complete, as
long as the user makes no more calls. Then nothing is in progress, and the action of each `read()`
and of each `send()` has called its `on_done` as often as the call was made in the run: once, if
the call has a number of its own. -/
theorem connection_settles {tr : List (Connection × Act)} (h : system.Runs tr c) :
    system.Settles Inner work
      (fun d => d.pending = [] ∧ (∀ side, (d.queue side).Idle) ∧
        ∀ call, d.onDones .read (.read call) = tr.countP (fun x => x.2.isRead call) ∧
          d.onDones .write (.send call) = tr.countP fun x => x.2.isSend call) c := by
  have hreach : system.Reach Lib.Sys.free c := h.reach fun _ _ => trivial
  refine lowers_inner.comes_to_rest fun d hd hf => ?_
  have hdr : system.Reach Lib.Sys.free d := hreach.onward (hd.mono fun _ _ _ => trivial)
  obtain ⟨hp, hidle⟩ := rest_of_final (inductive_accounted.reach hdr) hf
  have hanswered : ∀ side act, Serves side act →
      d.onDones side act = tr.countP fun x => x.2.asks side act := by
    intro side act hserves
    rw [onDones_of_rest hdr hp (hidle side), calls_of_inner hserves hreach hd,
      calls_of_runs hserves h]
  exact ⟨hp, hidle, fun call => ⟨hanswered .read (.read call) ⟨call, .inl ⟨rfl, rfl⟩⟩,
    hanswered .write (.send call) ⟨call, .inr ⟨rfl, rfl⟩⟩⟩⟩

/-- Two sends before the connection is active, whose handshake then fails, and a read. -/
theorem connection_settles_refused :
    let run := system.run { isClient := true, isTls := false }
      [.connect, .send 0 true, .send 1 false, .complete 0 false false false,
        .complete 1 true false false, .read 2 false]
    system.Settles Inner work
      (fun d => d.pending = [] ∧ (∀ side, (d.queue side).Idle) ∧
        ∀ call, d.onDones .read (.read call) = run.1.countP (fun x => x.2.isRead call) ∧
          d.onDones .write (.send call) = run.1.countP fun x => x.2.isSend call) run.2 :=
  connection_settles (runs_run true false _)

end Connection

end Websocket
end Malloy
