import Malloy.Core.Websocket.Lifecycle

/-!
# Closing a websocket connection

`disconnect()` pushes one action on each of the two queues, `force_disconnect()` passes both by,
and "whichever gets there first wins": the others find the state closing.

* `Pending.owner`, `owned`: the operations in progress that will call the `on_done` of a started
  action. `Accounted`: each started action has called its `on_done`, or owns one operation.
* `closeBudget`: the calls of `async_close` that were made, and one more while the connection is not
  closing. Only a handler that calls `go_active()` while the connection is closing adds to it.
* `Keeps`: what every operation does to both. `asyncClose_once`: the runs.
* `notOvertaken_of_activeFirst`: a connection that is active before the first `disconnect()` is only
  overtaken by the handshake that follows a failed TLS handshake.
-/

namespace Malloy
namespace Websocket

/-- The started action whose `on_done` the handler of the operation will call. -/
def Pending.owner : Pending → Option (Side × WsAct)
  | .io side act | .onDone side act => some (side, act)
  | .close (some side) => some (side, .disconnect)
  | _ => none

namespace Connection

variable {c c' c'' : Connection} {side side' : Side} {act act' : WsAct}

/-! ## The queues -/

@[simp] theorem queue_record (e : Event) (side : Side) :
    (c.record e).queue side = c.queue side := by
  cases side <;> rfl

@[simp] theorem queue_setState (s : State) (side : Side) :
    (c.setState s).queue side = c.queue side := by
  cases side <;> rfl

@[simp] theorem queue_start (op : Pending) (side : Side) :
    (c.start op).queue side = c.queue side := by
  cases side <;> rfl

@[simp] theorem queue_takePending (i : Nat) (side : Side) :
    (c.takePending i).queue side = c.queue side := by
  cases side <;> rfl

theorem queue_setQueue (q : ActionQueue WsAct) (side side' : Side) :
    (c.setQueue side q).queue side' = if side' = side then q else c.queue side' := by
  cases side <;> cases side' <;> rfl

/-! ## Who calls `on_done` -/

/-- The operations in progress that belong to the started action. -/
def owned (c : Connection) (side : Side) (act : WsAct) : Nat :=
  c.pending.countP fun op => op.owner == some (side, act)

/-- The calls of `on_done` by the action. -/
def onDones (c : Connection) (side : Side) (act : WsAct) : Nat :=
  c.log.count (.onDone side act)

@[simp] theorem owned_record (e : Event) : (c.record e).owned side act = c.owned side act := rfl

@[simp] theorem owned_setState (s : State) : (c.setState s).owned side act = c.owned side act := rfl

@[simp] theorem owned_setQueue (q : ActionQueue WsAct) (side' : Side) :
    (c.setQueue side' q).owned side act = c.owned side act := by
  cases side' <;> rfl

theorem owned_start (op : Pending) :
    (c.start op).owned side act =
      c.owned side act + if op.owner = some (side, act) then 1 else 0 := by
  simp [owned, start, List.countP_singleton]

theorem owned_takePending {i : Nat} {op : Pending} (h : c.pending[i]? = some op) (side : Side)
    (act : WsAct) :
    (c.takePending i).owned side act + (if op.owner = some (side, act) then 1 else 0) =
      c.owned side act := by
  obtain ⟨hlt, rfl⟩ := List.getElem?_eq_some_iff.mp h
  have hp := (List.getElem_cons_eraseIdx_perm hlt).countP_eq
    fun op => op.owner == some (side, act)
  rw [List.countP_cons] at hp
  simpa [owned, takePending] using hp

theorem onDones_record (e : Event) :
    (c.record e).onDones side act = c.onDones side act + if e = .onDone side act then 1 else 0 := by
  simp [onDones, record, List.count_singleton]

@[simp] theorem onDones_setState (s : State) :
    (c.setState s).onDones side act = c.onDones side act := by
  simp [setState, onDones, record]

@[simp] theorem onDones_start (op : Pending) :
    (c.start op).onDones side act = c.onDones side act := rfl

@[simp] theorem onDones_setQueue (q : ActionQueue WsAct) (side' : Side) :
    (c.setQueue side' q).onDones side act = c.onDones side act := by
  cases side' <;> rfl

/-! ## How often `async_close` is called -/

/-- The calls of `async_close`, and one more if the connection may still make one. -/
def closeBudget (c : Connection) : Nat :=
  c.log.count .asyncClose + if c.isClosing then 0 else 1

theorem closeBudget_record {e : Event} (he : e ≠ .asyncClose) :
    (c.record e).closeBudget = c.closeBudget := by
  have hcount : (c.record e).log.count .asyncClose = c.log.count .asyncClose := by
    simp [record, he]
  have hclosing : (c.record e).isClosing = c.isClosing := rfl
  unfold closeBudget
  rw [hcount, hclosing]

theorem closeBudget_setState (s : State) :
    (c.setState s).closeBudget =
      c.log.count .asyncClose + if s = .closed ∨ s = .closing then 0 else 1 := by
  have hcount : (c.setState s).log.count .asyncClose = c.log.count .asyncClose := by
    simp [setState, record]
  unfold closeBudget
  rw [hcount]
  exact congrArg _ (if_congr isClosing_iff rfl rfl)

@[simp] theorem closeBudget_start (op : Pending) : (c.start op).closeBudget = c.closeBudget := rfl

@[simp] theorem closeBudget_setQueue (q : ActionQueue WsAct) (side : Side) :
    (c.setQueue side q).closeBudget = c.closeBudget := by
  cases side <;> rfl

/-- The state becomes closing or closed. -/
theorem closeBudget_close {s : State} (hs : s = .closed ∨ s = .closing) :
    (c.setState s).closeBudget ≤ c.closeBudget := by
  rw [closeBudget_setState, if_pos hs]
  exact Nat.le_add_right _ _

/-- The first `async_close` takes the place of the one that could still be made. -/
theorem closeBudget_doDisconnect {owner : Option Side} (h : c.isClosing = false) :
    (c.doDisconnect owner).closeBudget = c.closeBudget := by
  have hclosing : (c.doDisconnect owner).isClosing = true := rfl
  have hcount : (c.doDisconnect owner).log.count .asyncClose = c.log.count .asyncClose + 1 := by
    simp [doDisconnect, start, record, setState]
  unfold closeBudget
  rw [hclosing, hcount, h]
  rfl

/-! ## What an operation does -/

/-- Every started action has called its `on_done` or owns one operation in progress, and no queue
waits for nothing. -/
structure Accounted (c : Connection) : Prop where
  outstanding : ∀ side act, (c.queue side).outstanding.count act = c.owned side act
  started : ∀ side act,
    (c.queue side).started.count act = c.onDones side act + c.owned side act
  live : ∀ side, (c.queue side).Live

/-- What the connection does keeps the accounts, and adds at most `n` calls of `async_close` to
those that can be made. -/
structure Keeps (n : Nat) (c c' : Connection) : Prop where
  accounted : c.Accounted → c'.Accounted
  closeBudget : c'.closeBudget ≤ c.closeBudget + n

theorem Keeps.refl (c : Connection) : Keeps 0 c c where
  accounted := id
  closeBudget := Nat.le_refl _

theorem Keeps.trans {n m : Nat} (h : Keeps n c c') (h' : Keeps m c' c'') : Keeps (n + m) c c'' where
  accounted := h'.accounted ∘ h.accounted
  closeBudget := by
    have := h.closeBudget
    have := h'.closeBudget
    omega

theorem Keeps.mono {n m : Nat} (h : Keeps n c c') (hn : n ≤ m) : Keeps m c c' where
  accounted := h.accounted
  closeBudget := by
    have := h.closeBudget
    omega

/-- An event or an operation that no started action waits for. -/
theorem Accounted.congr (h : c.Accounted) (hq : ∀ side, c'.queue side = c.queue side)
    (hd : ∀ side act, c'.onDones side act = c.onDones side act)
    (ho : ∀ side act, c'.owned side act = c.owned side act) : c'.Accounted where
  outstanding side act := by rw [hq, ho, h.outstanding]
  started side act := by rw [hq, hd, ho, h.started]
  live side := by rw [hq]; exact h.live side

theorem keeps_record {e : Event} (he : e ≠ .asyncClose) (hd : ∀ side act, e ≠ .onDone side act) :
    Keeps 0 c (c.record e) where
  accounted h := h.congr (fun _ => queue_record e _)
    (fun side act => by rw [onDones_record, if_neg (hd side act)]; rfl) (fun _ _ => rfl)
  closeBudget := Nat.le_of_eq (closeBudget_record he)

theorem keeps_handshake (ec : Bool) : Keeps 0 c (c.record (.handshake ec)) :=
  keeps_record Event.noConfusion fun _ _ => Event.noConfusion

theorem keeps_done (ec : Bool) : Keeps 0 c (c.record (.done ec)) :=
  keeps_record Event.noConfusion fun _ _ => Event.noConfusion

theorem accounted_setState (s : State) (h : c.Accounted) : (c.setState s).Accounted :=
  h.congr (fun _ => queue_setState s _) (fun _ _ => onDones_setState s) fun _ _ => rfl

/-- A closing connection that becomes active can call `async_close` once more. -/
theorem keeps_setState {s : State} : Keeps (if c.isClosing then 1 else 0) c (c.setState s) where
  accounted := accounted_setState s
  closeBudget := by
    rw [closeBudget_setState, closeBudget]
    split <;> split <;> omega

theorem keeps_close {s : State} (hs : s = .closed ∨ s = .closing) : Keeps 0 c (c.setState s) where
  accounted := accounted_setState s
  closeBudget := closeBudget_close hs

theorem accounted_start {op : Pending} (hop : op.owner = none) (h : c.Accounted) :
    (c.start op).Accounted :=
  h.congr (fun _ => queue_start op _) (fun _ _ => rfl)
    fun side act => by rw [owned_start, hop]; simp

theorem keeps_start {op : Pending} (hop : op.owner = none) : Keeps 0 c (c.start op) where
  accounted := accounted_start hop
  closeBudget := Nat.le_refl _

theorem keeps_forceDisconnect : Keeps 0 c c.forceDisconnect := by
  unfold forceDisconnect
  split
  · exact .refl c
  · rename_i h
    obtain ⟨-, hc⟩ := not_or.mp h
    refine ⟨fun ha => ?_, Nat.le_of_eq (closeBudget_doDisconnect (by simpa using hc))⟩
    have hclose : (Connection.record .asyncClose (c.setState .closing)).Accounted :=
      (accounted_setState _ ha).congr (fun _ => queue_record _ _)
        (fun side act => by rw [onDones_record]; simp) fun _ _ => rfl
    exact accounted_start rfl hclose

/-! ## The actions that a queue starts -/

/-- The execution of an action: an operation that belongs to it. -/
structure Executes (side : Side) (acts : List WsAct) (c c' : Connection) : Prop where
  queue : ∀ side', c'.queue side' = c.queue side'
  onDones : ∀ side' act, c'.onDones side' act = c.onDones side' act
  owned : ∀ side' act, c'.owned side' act = c.owned side' act + if side' = side then acts.count act
    else 0
  closeBudget : c'.closeBudget ≤ c.closeBudget

theorem executes_start {op : Pending} (hop : op.owner = some (side, act)) :
    Executes side [act] c (c.start op) where
  queue _ := queue_start op _
  onDones _ _ := rfl
  owned side' act' := by
    rw [owned_start, hop]
    by_cases hs : side' = side
    · subst hs
      simp [List.count_singleton]
    · simp [hs, Ne.symm hs]
  closeBudget := Nat.le_refl _

theorem executes_execute (side : Side) (act : WsAct) :
    Executes side [act] c (c.execute side act) := by
  cases act with
  | read call => exact executes_start rfl
  | send call => exact executes_start rfl
  | disconnect =>
    simp only [execute]
    by_cases h : c.isClosing = true
    · rw [if_pos h]
      exact executes_start rfl
    · rw [if_neg h]
      have hs : Executes side [.disconnect] ((c.setState .closing).record .asyncClose)
          (c.doDisconnect (some side)) := executes_start rfl
      refine ⟨fun side' => ?_, fun side' act => ?_, hs.owned, ?_⟩
      · rw [hs.queue, queue_record, queue_setState]
      · rw [hs.onDones, onDones_record, onDones_setState, if_neg (by simp)]
        rfl
      · exact Nat.le_of_eq (closeBudget_doDisconnect (by simpa using h))

theorem executes_foldl (side : Side) (acts : List WsAct) (c : Connection) :
    Executes side acts c (acts.foldl (execute side) c) := by
  induction acts generalizing c with
  | nil => exact ⟨fun _ => rfl, fun _ _ => rfl, fun _ _ => by simp, Nat.le_refl _⟩
  | cons act acts ih =>
    have hone := executes_execute (c := c) side act
    have hrest := ih (c.execute side act)
    refine ⟨fun side' => ?_, fun side' act' => ?_, fun side' act' => ?_, ?_⟩
    · exact (hrest.queue side').trans (hone.queue side')
    · exact (hrest.onDones side' act').trans (hone.onDones side' act')
    · rw [List.foldl_cons, hrest.owned, hone.owned]
      have hcount : (act :: acts).count act' = [act].count act' + acts.count act' := by
        rw [← List.count_append, List.singleton_append]
      rw [hcount]
      split <;> omega
    · exact Nat.le_trans hrest.closeBudget hone.closeBudget

/-- An operation of a queue executes what it starts. -/
theorem executes_onQueue (side : Side) {f : ActionQueue WsAct → ActionQueue WsAct} {l : List WsAct}
    (hl : (f (c.queue side)).started = (c.queue side).started ++ l) :
    Executes side l (c.setQueue side (f (c.queue side))) (c.onQueue side f) := by
  have hdrop : (f (c.queue side)).started.drop (c.queue side).started.length = l := by
    rw [hl, List.drop_left]
  unfold onQueue
  rw [hdrop]
  exact executes_foldl side l _

theorem keeps_onQueue {f : ActionQueue WsAct → ActionQueue WsAct}
    (hf : (c.queue side).Starts (f (c.queue side)))
    (hlive : (c.queue side).Live → (f (c.queue side)).Live) : Keeps 0 c (c.onQueue side f) := by
  obtain ⟨l, hl, ho⟩ := hf
  have he := executes_onQueue side hl
  refine ⟨fun h => ⟨fun side' act' => ?_, fun side' act' => ?_, fun side' => ?_⟩, ?_⟩
  · have := h.outstanding side' act'
    rw [he.queue, he.owned, queue_setQueue, owned_setQueue]
    by_cases hs : side' = side
    · subst hs
      rw [if_pos rfl, if_pos rfl, ho, List.count_append]
      omega
    · rw [if_neg hs, if_neg hs]
      exact this
  · have := h.started side' act'
    rw [he.queue, he.owned, he.onDones, queue_setQueue, owned_setQueue, onDones_setQueue]
    by_cases hs : side' = side
    · subst hs
      rw [if_pos rfl, if_pos rfl, hl, List.count_append]
      omega
    · rw [if_neg hs, if_neg hs]
      exact this
  · rw [he.queue, queue_setQueue]
    split
    · rename_i hs
      exact hlive (h.live side)
    · exact h.live side'
  · exact Nat.le_trans he.closeBudget (Nat.le_of_eq (closeBudget_setQueue _ side))

/-- The handler of an operation that belongs to a started action calls its `on_done`. -/
theorem keeps_callOnDone {i : Nat} {op : Pending} {b : Bool} (h : c.pending[i]? = some op)
    (hop : op.owner = some (side, act)) :
    Keeps 0 c ((c.takePending i).callOnDone side act b) := by
  obtain ⟨l, hl, ho⟩ := ActionQueue.onDone_starts b
    ((c.queue side).takeOutstanding ((c.queue side).outstanding.idxOf act))
  have he := executes_onQueue side (c := (c.takePending i).record (.onDone side act))
    (f := fun q => (q.takeOutstanding (q.outstanding.idxOf act)).onDone b) (l := l)
    (by rw [queue_record, queue_takePending]; exact hl)
  have htake : ∀ side' act', (c.takePending i).owned side' act' +
      (if (side, act) = (side', act') then 1 else 0) = c.owned side' act' := by
    intro side' act'
    have := owned_takePending h side' act'
    simpa only [hop, Option.some.injEq] using this
  -- the action that calls its `on_done` leaves the actions that have not completed
  have herase : ∀ act', ((c.queue side).takeOutstanding
        ((c.queue side).outstanding.idxOf act)).outstanding.count act' =
      (c.queue side).outstanding.count act' - if (side, act) = (side, act') then 1 else 0 := by
    intro act'
    rw [ActionQueue.takeOutstanding, List.eraseIdx_idxOf_eq_erase, List.count_erase]
    simp
  refine ⟨fun ha => ⟨fun side' act' => ?_, fun side' act' => ?_, fun side' => ?_⟩, ?_⟩
  · have hout := ha.outstanding side' act'
    have hown := htake side' act'
    rw [callOnDone, he.queue, he.owned, queue_setQueue, owned_setQueue, owned_record]
    by_cases hs : side' = side
    · subst hs
      have := herase act'
      rw [if_pos rfl, if_pos rfl, queue_record, queue_takePending, ho, List.count_append]
      omega
    · have hne : (side, act) ≠ (side', act') := fun he => hs (congrArg Prod.fst he).symm
      rw [if_neg hne] at hown
      rw [if_neg hs, if_neg hs, queue_record, queue_takePending]
      omega
  · have hstart := ha.started side' act'
    have hown := htake side' act'
    have hdone : Event.onDone side act = .onDone side' act' ↔ (side, act) = (side', act') := by
      rw [Event.onDone.injEq, Prod.mk.injEq]
    rw [callOnDone, he.queue, he.owned, he.onDones, queue_setQueue, owned_setQueue, owned_record,
      onDones_setQueue, onDones_record, if_congr hdone rfl rfl]
    have hkept : (c.takePending i).onDones side' act' = c.onDones side' act' := rfl
    by_cases hs : side' = side
    · subst hs
      rw [if_pos rfl, if_pos rfl, queue_record, queue_takePending, hl, List.count_append, hkept]
      simp only [ActionQueue.takeOutstanding]
      omega
    · rw [if_neg hs, if_neg hs, queue_record, queue_takePending, hkept]
      omega
  · rw [callOnDone, he.queue, queue_setQueue]
    split
    · exact (ActionQueue.onDone_advances b _).live
    · exact ha.live side'
  · refine Nat.le_trans he.closeBudget ?_
    have hne : Event.onDone side act ≠ .asyncClose := by simp
    rw [closeBudget_setQueue, closeBudget_record hne]
    exact Nat.le_refl _

theorem keeps_push {b : Bool} : Keeps 0 c (c.push side act b) :=
  keeps_onQueue (ActionQueue.push_starts act b _) ActionQueue.push_live

theorem keeps_disconnect {r w : Bool} : Keeps 0 c (c.disconnect r w) := by
  unfold disconnect
  split
  · exact .refl c
  · exact keeps_push.trans keeps_push

/-! ## What a step does -/

/-- The step runs a handler that calls `go_active()` while the connection is closing. -/
def overtakes (c : Connection) (a : Act) : Bool := c.goesActive a && c.isClosing

theorem keeps_goActive {r w : Bool} :
    Keeps (if c.isClosing then 1 else 0) c (c.goActive r w) := by
  have hrun : ∀ (c : Connection) side b, Keeps 0 c (c.onQueue side (ActionQueue.run b)) :=
    fun _ _ b => keeps_onQueue (ActionQueue.run_starts b _) fun _ =>
      (ActionQueue.exeNext_advances b _).live
  exact (keeps_setState.trans (hrun _ .read r)).trans (hrun _ .write w)

/-- An operation that no started action waits for has completed. -/
theorem keeps_takePending {i : Nat} {op : Pending} (h : c.pending[i]? = some op)
    (hop : op.owner = none) : Keeps 0 c (c.takePending i) where
  accounted ha := ha.congr (fun _ => queue_takePending i _) (fun _ _ => rfl) fun side act => by
    have := owned_takePending h side act
    simpa [hop] using this
  closeBudget := Nat.le_refl _

theorem keeps_onHandshake (ec r w : Bool) :
    Keeps (if c.isClosing then 1 else 0) c (c.onHandshake ec r w) :=
  keeps_goActive.trans (keeps_done ec)

/-- What the handler of an operation does. -/
theorem keeps_complete {i : Nat} {op : Pending} (h : c.pending[i]? = some op) {ec r w : Bool} :
    Keeps (if op.goesActive ec && c.isClosing then 1 else 0) c
      ((c.takePending i).complete ec r w op) := by
  cases op with
  | connect =>
    have htake := keeps_takePending h rfl
    cases ec with
    | true => exact htake.trans (keeps_done true)
    | false =>
      refine htake.trans (?_ : Keeps 0 _ (onConnect _))
      unfold onConnect
      split
      · exact keeps_start rfl
      · exact keeps_start rfl
  | tlsHandshake =>
    have htake := keeps_takePending h rfl
    have hstart : ∀ c : Connection, Keeps 0 c c.onReadyForHandshake := fun _ => keeps_start rfl
    cases ec with
    | true =>
      have hactive : Keeps (if c.isClosing then 1 else 0) _ _ :=
        keeps_onHandshake (c := c.takePending i) true r w
      exact ((htake.trans hactive).trans (hstart _)).mono (by simp [Pending.goesActive])
    | false => exact htake.trans (hstart _)
  | handshake =>
    have htake := (keeps_takePending h rfl).trans (keeps_handshake ec)
    have hactive : Keeps (if c.isClosing then 1 else 0) _ _ :=
      keeps_onHandshake (c := (c.takePending i).record (.handshake ec)) ec r w
    exact (htake.trans hactive).mono (by simp [Pending.goesActive])
  | accept =>
    have htake := (keeps_takePending h rfl).trans (keeps_handshake ec)
    cases ec with
    | true => exact htake
    | false =>
      have hactive : Keeps (if c.isClosing then 1 else 0) _ _ :=
        keeps_goActive (c := (c.takePending i).record (.handshake false)) (r := r) (w := w)
      exact ((htake.trans hactive).trans (keeps_done false)).mono (by simp [Pending.goesActive])
  | io side act =>
    refine ⟨fun ha => ha.congr (fun _ => ?_) (fun _ _ => rfl) fun side' act' => ?_, Nat.le_refl _⟩
    · exact (queue_start _ _).trans (queue_takePending i _)
    · have := owned_takePending h side' act'
      exact (owned_start _).trans this
  | close owner =>
    have hclosed : Keeps 0 c (if ec then c else c.setState .closed) := by
      split
      · exact .refl c
      · exact keeps_close (.inl rfl)
    have hpending : (if ec then c else c.setState .closed).pending[i]? = some (.close owner) := by
      split <;> exact h
    have hcomm : (if ec then c.takePending i else (c.takePending i).setState .closed) =
        (if ec then c else c.setState .closed).takePending i := by
      split <;> rfl
    simp only [complete, hcomm]
    cases owner with
    | none => exact hclosed.trans (keeps_takePending hpending rfl)
    | some side =>
      cases side with
      | read => exact hclosed.trans (keeps_callOnDone hpending rfl)
      | write => exact hclosed.trans (keeps_callOnDone hpending rfl)
  | onDone side act =>
    cases side with
    | read => exact keeps_callOnDone h rfl
    | write => exact keeps_callOnDone h rfl

/-- The call of `connect()` or `accept()` is remembered. -/
theorem keeps_called : Keeps 0 c { c with called := true } where
  accounted ha := ha.congr (fun side => by cases side <;> rfl) (fun _ _ => rfl) fun _ _ => rfl
  closeBudget := Nat.le_refl _

/-- **What a step does**: it keeps the accounts, and only a handler that calls `go_active()` while
the connection is closing lets it call `async_close` once more. -/
theorem keeps_step {a : Act} (h : c.step a = some c') :
    Keeps (if c.overtakes a then 1 else 0) c c' := by
  cases a with
  | connect =>
    simp only [step] at h
    split at h
    · cases h
      refine (keeps_called.trans (?_ : Keeps 0 _ (connect _))).mono (Nat.zero_le _)
      unfold connect
      split
      · exact .refl _
      · exact keeps_start rfl
    · cases h
  | accept =>
    simp only [step] at h
    split at h
    · cases h
      refine (keeps_called.trans (?_ : Keeps 0 _ (accept _))).mono (Nat.zero_le _)
      unfold accept
      split
      · exact .refl _
      · rename_i hst
        have hopen : isClosing { c with called := true } = false := by
          have : c.state = .inactive := by simpa using hst
          simp [isClosing, this]
        have := keeps_setState (c := { c with called := true }) (s := .handshaking)
        rw [hopen] at this
        exact this.trans (keeps_start rfl)
    · cases h
  | disconnect r w =>
    cases h
    exact keeps_disconnect
  | forceDisconnect =>
    cases h
    exact keeps_forceDisconnect
  | read call r =>
    cases h
    exact keeps_push
  | send call w =>
    cases h
    exact keeps_push
  | handler side i =>
    obtain ⟨x, hx, rfl⟩ := Option.map_eq_some_iff.mp h
    exact keeps_onQueue (ActionQueue.handle_starts x i _) fun hl => ActionQueue.handle_live hl hx
  | complete i ec r w =>
    obtain ⟨op, hop, rfl⟩ := Option.map_eq_some_iff.mp h
    have hover : c.overtakes (.complete i ec r w) = (op.goesActive ec && c.isClosing) := by
      simp [overtakes, goesActive, hop]
    rw [hover]
    exact keeps_complete hop

/-! ## When a handshake is overtaken -/

/-- The connection is not closing, and nothing that would close it is waiting. -/
structure Untouched (c : Connection) : Prop where
  waits : ∀ side, ¬ (c.queue side).Waits .disconnect
  pending : ∀ owner, .close owner ∉ c.pending
  state : c.isClosing = false

theorem Untouched.congr (h : c.Untouched) (hq : ∀ side, c'.queue side = c.queue side)
    (hp : ∀ owner, .close owner ∈ c'.pending → .close owner ∈ c.pending)
    (hs : c'.state = c.state) : c'.Untouched where
  waits side := by rw [hq]; exact h.waits side
  pending owner hm := h.pending owner (hp owner hm)
  state := by
    have := h.state
    unfold isClosing at this ⊢
    rwa [hs]

theorem untouched_record (e : Event) (h : c.Untouched) : (c.record e).Untouched :=
  h.congr (fun _ => queue_record e _) (fun _ => id) rfl

theorem untouched_setState {s : State} (hs : ¬ (s = .closed ∨ s = .closing)) (h : c.Untouched) :
    (c.setState s).Untouched where
  waits side := by rw [queue_setState]; exact h.waits side
  pending := h.pending
  state := by
    by_contra hc
    exact hs (isClosing_iff.mp (by simpa using hc))

theorem untouched_start {op : Pending} (hop : ∀ owner, op ≠ .close owner) (h : c.Untouched) :
    (c.start op).Untouched :=
  h.congr (fun _ => queue_start op _)
    (fun owner hm => (List.mem_append.mp hm).resolve_right fun hm =>
      hop owner (List.mem_singleton.mp hm).symm) rfl

theorem untouched_takePending (i : Nat) (h : c.Untouched) : (c.takePending i).Untouched :=
  h.congr (fun _ => queue_takePending i _) (fun _ => List.mem_of_mem_eraseIdx) rfl

theorem untouched_foldl (side : Side) (acts : List WsAct) (hacts : .disconnect ∉ acts)
    (h : c.Untouched) : (acts.foldl (execute side) c).Untouched := by
  induction acts generalizing c with
  | nil => exact h
  | cons act acts ih =>
    simp only [List.mem_cons, not_or] at hacts
    obtain ⟨hact, hacts⟩ := hacts
    refine ih hacts ?_
    cases act with
    | read call => exact untouched_start (by simp) h
    | send call => exact untouched_start (by simp) h
    | disconnect => exact absurd rfl hact

theorem untouched_onQueue {f : ActionQueue WsAct → ActionQueue WsAct} {new : List WsAct}
    (hf : (c.queue side).Draws new (f (c.queue side))) (hnew : .disconnect ∉ new)
    (h : c.Untouched) : (c.onQueue side f).Untouched := by
  have hno : ∀ act, (c.queue side).Waits act ∨ act ∈ new → act ≠ .disconnect := by
    rintro _ (hw | hm) rfl
    · exact h.waits side hw
    · exact hnew hm
  refine untouched_foldl side _ (fun hm => hno _ (hf.2 _ hm) rfl) ⟨fun side' => ?_, ?_, ?_⟩
  · rw [queue_setQueue]
    split
    · exact fun hw => hno _ (hf.1 _ hw) rfl
    · exact h.waits side'
  · cases side <;> exact h.pending
  · cases side <;> exact h.state

theorem untouched_callOnDone {b : Bool} (h : c.Untouched) :
    (c.callOnDone side act b).Untouched :=
  untouched_onQueue (ActionQueue.onDone_draws b _) List.not_mem_nil (untouched_record _ h)

theorem untouched_goActive {r w : Bool} (h : c.Untouched) : (c.goActive r w).Untouched := by
  have hrun : ∀ {c : Connection} side b, c.Untouched →
      (c.onQueue side (ActionQueue.run b)).Untouched := fun side b h =>
    untouched_onQueue (ActionQueue.run_draws b _) List.not_mem_nil h
  exact hrun .write w (hrun .read r (untouched_setState (by decide) h))

theorem untouched_complete {i : Nat} {op : Pending} (hi : c.pending[i]? = some op)
    {ec r w : Bool} (h : c.Untouched) : ((c.takePending i).complete ec r w op).Untouched := by
  have htake := untouched_takePending i h
  have hready : ∀ {c : Connection}, c.Untouched → c.onReadyForHandshake.Untouched :=
    untouched_start (by simp)
  cases op with
  | connect =>
    cases ec with
    | true => exact untouched_record _ htake
    | false =>
      show (onConnect _).Untouched
      unfold onConnect
      split
      · exact untouched_start (by simp) htake
      · exact hready htake
  | tlsHandshake =>
    cases ec with
    | true => exact hready (untouched_record _ (untouched_goActive htake))
    | false => exact hready htake
  | handshake => exact untouched_record _ (untouched_goActive (untouched_record _ htake))
  | accept =>
    cases ec with
    | true => exact untouched_record _ htake
    | false => exact untouched_record _ (untouched_goActive (untouched_record _ htake))
  | io side act => exact untouched_start (by simp) htake
  | close owner => exact absurd (List.mem_of_getElem? hi) (h.pending owner)
  | onDone side act =>
    cases side with
    | read => exact untouched_callOnDone htake
    | write => exact untouched_callOnDone htake

end Connection

/-- A call of `disconnect()` or of `force_disconnect()`. -/
def Act.disconnects : Act → Bool
  | .disconnect _ _ | .forceDisconnect => true
  | _ => false

namespace Connection

variable {c c' : Connection}

theorem untouched_step {a : Act} (h : c.Untouched) (ha : a.disconnects = false)
    (hs : c.step a = some c') : c'.Untouched := by
  have hcalled : Untouched { c with called := true } :=
    h.congr (fun side => by cases side <;> rfl) (fun _ => id) rfl
  cases a with
  | connect =>
    simp only [step] at hs
    split at hs
    · cases hs
      unfold connect
      split
      · exact hcalled
      · exact untouched_start (by simp) hcalled
    · cases hs
  | accept =>
    simp only [step] at hs
    split at hs
    · cases hs
      unfold accept
      split
      · exact hcalled
      · exact untouched_start (by simp) (untouched_setState (by decide) hcalled)
    · cases hs
  | disconnect r w => cases ha
  | forceDisconnect => cases ha
  | read call r =>
    cases hs
    exact untouched_onQueue (ActionQueue.push_draws _ r _) (by simp) h
  | send call w =>
    cases hs
    exact untouched_onQueue (ActionQueue.push_draws _ w _) (by simp) h
  | handler side i =>
    obtain ⟨x, hx, rfl⟩ := Option.map_eq_some_iff.mp hs
    exact untouched_onQueue (ActionQueue.handle_draws hx) List.not_mem_nil h
  | complete i ec r w =>
    obtain ⟨op, hop, rfl⟩ := Option.map_eq_some_iff.mp hs
    exact untouched_complete hop h

/-- `disconnect()` and `force_disconnect()` are only called once the connection has become
active. -/
def ActiveFirst (c : Connection) (a : Act) : Prop :=
  a.disconnects = true → .state .active ∈ c.log

instance (c : Connection) (a : Act) : Decidable (ActiveFirst c a) :=
  inferInstanceAs (Decidable (_ → _))

/-- The step completes a TLS handshake with an error. -/
def failsTls (c : Connection) : Act → Bool
  | .complete i ec _ _ => ec && c.pending[i]? == some .tlsHandshake
  | _ => false

/-- The handler that calls `go_active()` was the last one that leads to a handshake. -/
theorem openings_goesActive {a : Act} (hs : c.step a = some c') (hgo : c.goesActive a = true)
    (htls : c.failsTls a = false) : c'.openings + 1 ≤ c.openings := by
  cases a with
  | complete i ec r w =>
    obtain ⟨op, hop, rfl⟩ := Option.map_eq_some_iff.mp hs
    have hgo : op.goesActive ec = true := by simpa [goesActive, hop] using hgo
    have htake := openings_takePending hop
    cases op with
    | tlsHandshake =>
      have he : ec = true := hgo
      simp [failsTls, hop, he] at htls
    | handshake =>
      have hq : Quiet (((c.takePending i).record (.handshake ec)).setState .active)
          ((c.takePending i).complete ec r w .handshake) := quiet_onHandshake
      have hle : _ ≤ (c.takePending i).openings := hq.openings
      simp only [Pending.opens, if_true] at htake
      omega
    | accept =>
      have he : ec = false := by simpa [Pending.goesActive] using hgo
      subst he
      have hq : Quiet (((c.takePending i).record (.handshake false)).setState .active)
          ((c.takePending i).complete false r w .accept) :=
        quiet_goActive.trans (quiet_record rfl fun _ => rfl)
      have hle : _ ≤ (c.takePending i).openings := hq.openings
      simp only [Pending.opens, if_true] at htake
      omega
    | connect => cases hgo
    | io side act => cases hgo
    | close owner => cases hgo
    | onDone side act => cases hgo
  | _ => cases hgo

/-! ## Before the first `disconnect()` -/

/-- The invariant of the runs that are active before they disconnect: the handshake that made the
connection active was the last one, and before it nothing was closed. -/
structure ActiveOnce (c : Connection) : Prop where
  openings : .state .active ∈ c.log → c.called = true ∧ c.openings = 0
  untouched : .state .active ∉ c.log → c.Untouched

theorem step_activeOnce {a : Act} (hco : c.Coherent) (h : c.ActiveOnce) (ha : ActiveFirst c a)
    (htls : c.failsTls a = false) (hs : c.step a = some c') : c'.ActiveOnce := by
  have hmono : .state .active ∈ c.log → .state .active ∈ c'.log := fun hm =>
    (step_log hs).subset hm
  refine ⟨fun hm => ?_, fun hm => ?_⟩
  · have hopen := hco.openings
    rcases step_cases hs with ⟨-, -, hq | ho⟩ | ⟨hgo, pre, -, hcalled, -⟩
    · obtain ⟨l, hl, hquiet, -⟩ := hq.log
      rw [hl] at hm
      have hm := (List.mem_append.mp hm).resolve_right fun hm => ne_active_of_quiet hquiet _ hm rfl
      obtain ⟨hc, h0⟩ := h.openings hm
      have := hq.openings
      exact ⟨hq.called.trans hc, by omega⟩
    · have hnot : .state .active ∉ c.log := fun hm => by
        have := (h.openings hm).1
        rw [ho.before] at this
        cases this
      rcases ho.log with ⟨hl, -⟩ | ⟨-, hl, -⟩
      · exact absurd (hl ▸ hm) hnot
      · rw [hl] at hm
        exact absurd ((List.mem_append.mp hm).resolve_right (by decide)) hnot
    · have hlt := openings_goesActive hs hgo htls
      have hc : c.called = true := by
        by_contra hc
        rw [if_neg hc] at hopen
        omega
      rw [if_pos hc] at hopen
      exact ⟨hcalled.trans hc, by omega⟩
  · have hm : .state .active ∉ c.log := fun h => hm (hmono h)
    refine untouched_step (h.untouched hm) ?_ hs
    cases hd : a.disconnects with
    | true => exact absurd (ha hd) hm
    | false => rfl

theorem inductive_activeOnce :
    system.Inductive (fun c a => ActiveFirst c a ∧ c.failsTls a = false)
      fun c => c.Coherent ∧ c.ActiveOnce where
  base c hc := by
    refine ⟨inductive_coherent.base c hc, ?_⟩
    obtain ⟨isClient, isTls, rfl⟩ := hc
    refine ⟨fun hm => absurd hm List.not_mem_nil, fun _ => ⟨?_, fun _ => List.not_mem_nil, rfl⟩⟩
    rintro (_ | _) (hm | hm) <;> cases hm
  keep c a c' h ha hs :=
    ⟨inductive_coherent.keep c a c' h.1 trivial hs, step_activeOnce h.1 h.2 ha.1 ha.2 hs⟩

/-- A connection that is active before it disconnects is overtaken by a handshake only if a TLS
handshake has failed. -/
theorem notOvertaken_of_activeFirst
    (h : system.Reach (fun c a => ActiveFirst c a ∧ c.failsTls a = false) c) (a : Act) :
    NotOvertaken c a := by
  obtain ⟨-, hact⟩ := inductive_activeOnce.reach h
  intro hgo
  have hpos : c.openings ≠ 0 := by
    cases a with
    | complete i ec r w =>
      simp only [goesActive, Option.any_eq_true] at hgo
      obtain ⟨op, hop, hgo⟩ := hgo
      have hopens : op.opens = true := by
        cases op with
        | tlsHandshake => rfl
        | handshake => rfl
        | accept => rfl
        | _ => cases hgo
      exact Nat.ne_of_gt (List.countP_pos_iff.mpr ⟨op, List.mem_of_getElem? hop, hopens⟩)
    | _ => cases hgo
  by_cases hm : .state .active ∈ c.log
  · exact absurd (hact.openings hm).2 hpos
  · exact (hact.untouched hm).state

/-! ## Closing once -/

/-- **Each started action calls its `on_done` exactly once**: it has done so, or owns an operation
in progress. A queue in which an action waits has such an operation, or a start that is posted. -/
theorem inductive_accounted : system.Inductive Lib.Sys.free Accounted where
  base c hc := by
    obtain ⟨isClient, isTls, rfl⟩ := hc
    refine ⟨fun side act => ?_, fun side act => ?_, fun side => ?_⟩
    · cases side <;> rfl
    · cases side <;> rfl
    · cases side <;> exact ActionQueue.live_of_tokens (.inr ⟨rfl, rfl⟩)
  keep c a c' h _ hs := (keeps_step hs).accounted h

/-- A run calls `async_close` once, and once more for each handler of `go_active()` that ran while
the connection was closing. -/
theorem closeBudget_le {tr : List (Connection × Act)} (h : system.Runs tr c) :
    c.closeBudget ≤ 1 + tr.countP fun x => x.1.overtakes x.2 := by
  induction h with
  | init hi =>
    obtain ⟨isClient, isTls, rfl⟩ := hi
    exact Nat.le_refl 1
  | step a _ hs ih =>
    have hle := (keeps_step hs).closeBudget
    simp only [List.countP_append, List.countP_singleton]
    omega

/-- A queue in which an action waits is not blocked: a started action of the queue owns an operation
in progress, or the start of the next one is posted. -/
theorem Accounted.not_blocked (h : c.Accounted) (hacts : (c.queue side).acts ≠ []) :
    (∃ op ∈ c.pending, ∃ act, op.owner = some (side, act)) ∨ .exe ∈ (c.queue side).strand := by
  refine (ActionQueue.tokens_pos ((h.live side).acts hacts)).imp_left fun ho => ?_
  obtain ⟨act, hact⟩ := List.exists_mem_of_ne_nil _ ho
  have hpos : 0 < c.owned side act := by
    rw [← h.outstanding]
    exact List.count_pos_iff.mpr hact
  obtain ⟨op, hop, howner⟩ := List.countP_pos_iff.mp hpos
  exact ⟨op, hop, act, by simpa using howner⟩

/-- **Closing once.** In a run in which no handler that calls `go_active()` runs while the
connection is closing, `async_close` is called once at most. Each `disconnect()` action that a queue
has started has called its `on_done` or owns the operation that will, exactly one of both, and no
queue is blocked. -/
theorem asyncClose_once {tr : List (Connection × Act)} (h : system.Runs tr c)
    (hok : ∀ x ∈ tr, NotOvertaken x.1 x.2) :
    c.log.count .asyncClose ≤ 1 ∧
      ∀ side,
        ((c.queue side).started.count .disconnect =
            c.onDones side .disconnect + c.owned side .disconnect) ∧
          ((c.queue side).acts ≠ [] →
            (∃ op ∈ c.pending, ∃ act, op.owner = some (side, act)) ∨
              .exe ∈ (c.queue side).strand) := by
  have hacc : c.Accounted := inductive_accounted.reach (h.reach fun _ _ => trivial)
  refine ⟨?_, fun side => ⟨hacc.started side _, hacc.not_blocked⟩⟩
  have hnone : tr.countP (fun x => x.1.overtakes x.2) = 0 := by
    refine List.countP_eq_zero.mpr fun x hx => ?_
    have := hok x hx
    unfold NotOvertaken at this
    cases hgo : x.1.goesActive x.2 with
    | true => simp [overtakes, this hgo]
    | false => simp [overtakes, hgo]
  have hle := closeBudget_le h
  rw [hnone] at hle
  unfold closeBudget at hle
  omega

/-- A client that is connected, and that two calls of `disconnect()` and `force_disconnect()` race
to close. -/
def racedRun : List (Connection × Act) × Connection :=
  system.run { isClient := true, isTls := false }
    [.connect, .complete 0 false false false, .complete 0 false true true, .read 0 true,
      .disconnect true true, .disconnect false false, .forceDisconnect, .complete 1 false true true,
      .complete 0 true true true, .complete 0 false true true, .handler .write 0,
      .complete 0 false true true, .complete 0 false true true]

theorem asyncClose_once_racedRun :
    racedRun.2.log.count .asyncClose ≤ 1 ∧
      ∀ side,
        ((racedRun.2.queue side).started.count .disconnect =
            racedRun.2.onDones side .disconnect + racedRun.2.owned side .disconnect) ∧
          ((racedRun.2.queue side).acts ≠ [] →
            (∃ op ∈ racedRun.2.pending, ∃ act, op.owner = some (side, act)) ∨
              .exe ∈ (racedRun.2.queue side).strand) := by
  have hrun : system.Runs racedRun.1 racedRun.2 := runs_run true false _
  exact asyncClose_once hrun (by decide)

/-- A client whose TLS handshake fails: `go_active()` makes it active, it disconnects, and the
websocket handshake that was started all the same makes it active again. -/
def closedTwiceRun : List (Connection × Act) × Connection :=
  system.run { isClient := true, isTls := true }
    [.connect, .complete 0 false false false, .complete 0 true true true, .disconnect true true,
      .complete 0 true true true, .forceDisconnect]

/-- The connection became active before the first `disconnect()`, and closes twice. -/
theorem failed_tls_closes_twice :
    ¬ ∀ tr c, system.Runs tr c →
      (∀ x ∈ tr, ActiveFirst x.1 x.2) → c.log.count .asyncClose ≤ 1 := by
  intro h
  have hrun : system.Runs closedTwiceRun.1 closedTwiceRun.2 := runs_run true true _
  exact absurd (h _ _ hrun (by decide)) (by decide)

end Connection

end Websocket
end Malloy
