import Malloy.Core.ActionQueue

/-!
# `malloy::websocket::connection` (`core/websocket/connection.hpp`)

A websocket connection: its state variable, its read queue and its write queue, and the operations
of the stream that have not completed.

* `Connection`: the members of the class, the operations in progress (`pending`), and the history
  of the run (`log`).
* An action of a queue is executed when the queue starts it (`onQueue`). An action that calls its
  `on_done` at once leaves `Pending.onDone`, which is run by a later step; so does an operation
  that calls the user's `done` before `on_done`, and what `done` calls are the steps between.
* `Act`: the atomic steps of a run: a call of the user, a handler posted on the strand of a queue,
  the completion of an operation with or without an error. The flags say in which strands the
  caller runs.
* `step_cases`: what a step can do. Outside the handlers that call `go_active()` a connection only
  closes (`Quiet`).
-/

namespace Malloy
namespace Websocket

/-- `connection::state`. -/
inductive State where
  | handshaking | active | closing | closed | inactive
  deriving DecidableEq

/-- `m_read_queue` or `m_write_queue`. -/
inductive Side where
  | read | write
  deriving DecidableEq

/-- The actions that are pushed on the queues, by `read()`, `send()` and `disconnect()`. The number
stands for what the caller gave: the buffer or the payload, and the callback. -/
inductive WsAct where
  | read (call : Nat)
  | send (call : Nat)
  | disconnect
  deriving DecidableEq

/-- What a handler is waiting for. -/
inductive Pending where
  /-- `async_connect`, of `connect()`. -/
  | connect
  /-- `async_handshake_tls`, of `on_connect()`. -/
  | tlsHandshake
  /-- `async_handshake`, of `on_ready_for_handshake()`. -/
  | handshake
  /-- `async_accept`, of `accept()`. -/
  | accept
  /-- `async_read` or `async_write`, of an action of the queue. -/
  | io (side : Side) (act : WsAct)
  /-- `async_close`, with the queue whose action started it (none for `force_disconnect()`). -/
  | close (owner : Option Side)
  /-- Nothing: the call of `on_done()` is due. -/
  | onDone (side : Side) (act : WsAct)
  deriving DecidableEq

inductive Event where
  /-- `m_state` was written. -/
  | state (s : State)
  /-- The websocket handshake (`async_handshake`, `async_accept`) completed. -/
  | handshake (ec : Bool)
  /-- `async_close` was called. -/
  | asyncClose
  /-- An action called its `on_done`. -/
  | onDone (side : Side) (act : WsAct)
  /-- The callback of `connect()` or `accept()` was invoked, with an error or without. -/
  | done (ec : Bool)
  deriving DecidableEq

structure Connection where
  isClient : Bool
  /-- `m_ws.is_tls()`. -/
  isTls : Bool
  /-- `m_state`. -/
  state : State := .inactive
  readQueue : ActionQueue WsAct := {}
  writeQueue : ActionQueue WsAct := {}
  /-- `connect()` or `accept()` was called. -/
  called : Bool := false
  pending : List Pending := []
  log : List Event := []
  deriving DecidableEq

namespace Connection

/-! ## The member functions -/

def record (e : Event) (c : Connection) : Connection := { c with log := c.log ++ [e] }

def setState (s : State) (c : Connection) : Connection := { c with state := s }.record (.state s)

/-- An operation is started. -/
def start (op : Pending) (c : Connection) : Connection := { c with pending := c.pending ++ [op] }

/-- The `i`-th operation leaves the operations in progress. -/
def takePending (i : Nat) (c : Connection) : Connection :=
  { c with pending := c.pending.eraseIdx i }

def isClosing (c : Connection) : Bool := c.state == .closed || c.state == .closing

def queue (c : Connection) : Side → ActionQueue WsAct
  | .read => c.readQueue
  | .write => c.writeQueue

def setQueue (c : Connection) (side : Side) (q : ActionQueue WsAct) : Connection :=
  match side with
  | .read => { c with readQueue := q }
  | .write => { c with writeQueue := q }

def doDisconnect (owner : Option Side) (c : Connection) : Connection :=
  ((c.setState .closing).record .asyncClose).start (.close owner)

/-- The action of `read()`, `send()` or `disconnect()`. -/
def execute (side : Side) (c : Connection) : WsAct → Connection
  | .disconnect =>
    -- Check we haven't been beaten to it
    if c.isClosing then c.start (.onDone side .disconnect) else c.doDisconnect (some side)
  | act => c.start (.io side act)

/-- An operation of a queue, which executes the actions that it starts. -/
def onQueue (side : Side) (f : ActionQueue WsAct → ActionQueue WsAct) (c : Connection) :
    Connection :=
  ((f (c.queue side)).started.drop (c.queue side).started.length).foldl (execute side)
    (c.setQueue side (f (c.queue side)))

def push (side : Side) (act : WsAct) (inStrand : Bool) (c : Connection) : Connection :=
  c.onQueue side (ActionQueue.push act inStrand)

/-- The call of `on_done()` by an action that the queue has started. -/
def callOnDone (side : Side) (act : WsAct) (inStrand : Bool) (c : Connection) : Connection :=
  (c.record (.onDone side act)).onQueue side fun q =>
    (q.takeOutstanding (q.outstanding.idxOf act)).onDone inStrand

def goActive (inRead inWrite : Bool) (c : Connection) : Connection :=
  -- Start/run action queues
  ((c.setState .active).onQueue .read (ActionQueue.run inRead)).onQueue .write
    (ActionQueue.run inWrite)

/-- `connect()`, which throws unless the state is inactive. -/
def connect (c : Connection) : Connection :=
  if c.state ≠ .inactive then c else c.start .connect

/-- `accept()`, which throws unless the state is inactive. -/
def accept (c : Connection) : Connection :=
  if c.state ≠ .inactive then c else (c.setState .handshaking).start .accept

def disconnect (inRead inWrite : Bool) (c : Connection) : Connection :=
  if c.isClosing then c
  else
    -- We queue in both read and write, and whichever gets there first wins
    (c.push .write .disconnect inWrite).push .read .disconnect inRead

def forceDisconnect (c : Connection) : Connection :=
  -- it throws if the state is inactive
  if c.state = .inactive ∨ c.isClosing then c else c.doDisconnect none

/-- The callback that `connect()` passes to `on_connect()`: it does not look at `ec`. -/
def onHandshake (ec inRead inWrite : Bool) (c : Connection) : Connection :=
  (c.goActive inRead inWrite).record (.done ec)

def onReadyForHandshake (c : Connection) : Connection := c.start .handshake

def onConnect (c : Connection) : Connection :=
  if c.isTls then c.start .tlsHandshake else c.onReadyForHandshake

/-- The handler of an operation that has completed. -/
def complete (c : Connection) (ec inRead inWrite : Bool) : Pending → Connection
  | .connect => if ec then c.record (.done ec) else c.onConnect
  | .tlsHandshake =>
    (if ec then c.onHandshake ec inRead inWrite else c).onReadyForHandshake
  | .handshake => (c.record (.handshake ec)).onHandshake ec inRead inWrite
  | .accept =>
    if ec then c.record (.handshake ec)
    -- We're good to go
    else ((c.record (.handshake ec)).goActive inRead inWrite).record (.done ec)
  | .io side act => c.start (.onDone side act)
  | .close owner =>
    let c := if ec then c else c.setState .closed
    match owner with
    | some .read => c.callOnDone .read .disconnect inRead
    | some .write => c.callOnDone .write .disconnect inWrite
    | none => c
  | .onDone .read act => c.callOnDone .read act inRead
  | .onDone .write act => c.callOnDone .write act inWrite

end Connection

/-! ## Runs -/

/-- The atomic steps (module doc). `handler side i` is the `i`-th handler posted on the strand of
the queue, `complete i` the completion of the `i`-th operation. -/
inductive Act where
  | connect
  | accept
  | disconnect (inRead inWrite : Bool)
  | forceDisconnect
  | read (call : Nat) (inRead : Bool)
  | send (call : Nat) (inWrite : Bool)
  | handler (side : Side) (i : Nat)
  | complete (i : Nat) (ec inRead inWrite : Bool)
  deriving DecidableEq

namespace Connection

def step (c : Connection) : Act → Option Connection
  | .connect =>
    if c.isClient ∧ !c.called then some { c with called := true }.connect else none
  | .accept =>
    if !c.isClient ∧ !c.called then some { c with called := true }.accept else none
  | .disconnect inRead inWrite => some (c.disconnect inRead inWrite)
  | .forceDisconnect => some c.forceDisconnect
  | .read call inRead => some (c.push .read (.read call) inRead)
  | .send call inWrite => some (c.push .write (.send call) inWrite)
  | .handler side i => (c.queue side).strand[i]?.map fun h =>
      c.onQueue side fun q => ActionQueue.handle h (q.takeHandler i)
  | .complete i ec inRead inWrite => c.pending[i]?.map fun op =>
      (c.takePending i).complete ec inRead inWrite op

/-- The runs of a connection that was just made. -/
def system : Lib.Sys Connection Act where
  init c := ∃ isClient isTls, c = { isClient := isClient, isTls := isTls }
  step := step

/-- A computation from a connection that was just made is a run. -/
theorem runs_run (isClient isTls : Bool) (as : List Act) :
    system.Runs (system.run { isClient := isClient, isTls := isTls } as).1
      (system.run { isClient := isClient, isTls := isTls } as).2 :=
  Lib.Sys.runs_run (S := system) (Exists.intro isClient (Exists.intro isTls rfl)) as

/-! ## What the queues do to the connection -/

end Connection

/-- The state after an event. -/
def Event.next (s : State) : Event → State
  | .state s' => s'
  | _ => s

/-- An event that neither opens the connection nor tells that its handshake succeeded. -/
def Event.quiet : Event → Bool
  | .state s => s == .closing || s == .closed
  | .handshake ec => ec
  | _ => true

/-- The operation leads to the handshake, or is the handshake. -/
def Pending.opens : Pending → Bool
  | .connect | .tlsHandshake | .handshake | .accept => true
  | _ => false

namespace Connection

/-- The operations in progress that lead to a handshake. -/
def openings (c : Connection) : Nat := c.pending.countP Pending.opens

/-- What a connection does outside the handlers that open it: its state is only written to close
it, and no operation is started that leads to a handshake. -/
structure Quiet (c c' : Connection) : Prop where
  log : ∃ l, c'.log = c.log ++ l ∧ (∀ e ∈ l, e.quiet = true) ∧ c'.state = l.foldl Event.next c.state
  openings : c'.openings ≤ c.openings
  called : c'.called = c.called

variable {c c' c'' : Connection}

theorem isClosing_iff : c.isClosing = true ↔ c.state = .closed ∨ c.state = .closing := by
  unfold isClosing
  rw [Bool.or_eq_true, beq_iff_eq, beq_iff_eq]

theorem Quiet.refl (c : Connection) : Quiet c c where
  log := ⟨[], (List.append_nil _).symm, fun _ he => absurd he List.not_mem_nil, rfl⟩
  openings := Nat.le_refl _
  called := rfl

theorem Quiet.trans (h : Quiet c c') (h' : Quiet c' c'') : Quiet c c'' := by
  obtain ⟨l, hl, hq, hs⟩ := h.log
  obtain ⟨l', hl', hq', hs'⟩ := h'.log
  refine ⟨⟨l ++ l', ?_, ?_, ?_⟩, Nat.le_trans h'.openings h.openings, h'.called.trans h.called⟩
  · rw [hl', hl, List.append_assoc]
  · exact List.forall_mem_append.mpr ⟨hq, hq'⟩
  · rw [hs', hs, List.foldl_append]

theorem quiet_record {e : Event} (he : e.quiet = true) (hs : ∀ s, e.next s = s) :
    Quiet c (c.record e) where
  log := ⟨[e], rfl, List.forall_mem_singleton.mpr he, (hs _).symm⟩
  openings := Nat.le_refl _
  called := rfl

theorem quiet_setState {s : State} (hs : (Event.state s).quiet = true) :
    Quiet c (c.setState s) where
  log := ⟨[.state s], rfl, List.forall_mem_singleton.mpr hs, rfl⟩
  openings := Nat.le_refl _
  called := rfl

theorem quiet_start {op : Pending} (hop : op.opens = false) : Quiet c (c.start op) where
  log := (Quiet.refl c).log
  openings := by simp [openings, start, hop]
  called := rfl

theorem quiet_setQueue {side : Side} {q : ActionQueue WsAct} : Quiet c (c.setQueue side q) := by
  cases side <;> exact ⟨(Quiet.refl c).log, Nat.le_refl _, rfl⟩

/-- What a connection does on behalf of its queues and of the user who closes it, one change after
the other. -/
inductive Internal (c : Connection) : Connection → Prop
  | refl : Internal c c
  | setQueue {d : Connection} (side : Side) (q : ActionQueue WsAct) :
    Internal c d → Internal c (d.setQueue side q)
  | start {d : Connection} (op : Pending) (hop : op.opens = false) :
    Internal c d → Internal c (d.start op)
  | asyncClose {d : Connection} :
    Internal c d → Internal c ((d.setState .closing).record .asyncClose)
  | onDone {d : Connection} (side : Side) (act : WsAct) :
    Internal c d → Internal c (d.record (.onDone side act))

theorem Internal.trans (h : Internal c c') (h' : Internal c' c'') : Internal c c'' := by
  induction h' with
  | refl => exact h
  | setQueue side q _ ih => exact .setQueue side q ih
  | start op hop _ ih => exact .start op hop ih
  | asyncClose _ ih => exact .asyncClose ih
  | onDone side act _ ih => exact .onDone side act ih

theorem Internal.quiet (h : Internal c c') : Quiet c c' := by
  induction h with
  | refl => exact .refl c
  | setQueue side q _ ih => exact ih.trans quiet_setQueue
  | start op hop _ ih => exact ih.trans (quiet_start hop)
  | asyncClose _ ih => exact (ih.trans (quiet_setState rfl)).trans (quiet_record rfl fun _ => rfl)
  | onDone side act _ ih => exact ih.trans (quiet_record rfl fun _ => rfl)

theorem internal_doDisconnect {owner : Option Side} : Internal c (c.doDisconnect owner) :=
  .start _ rfl (.asyncClose .refl)

theorem internal_execute {side : Side} {act : WsAct} : Internal c (c.execute side act) := by
  cases act with
  | read call => exact .start _ rfl .refl
  | send call => exact .start _ rfl .refl
  | disconnect =>
    simp only [execute]
    split
    · exact .start _ rfl .refl
    · exact internal_doDisconnect

theorem internal_onQueue {side : Side} {f : ActionQueue WsAct → ActionQueue WsAct} :
    Internal c (c.onQueue side f) := by
  have hfold : ∀ (acts : List WsAct) (c' : Connection), Internal c c' →
      Internal c (acts.foldl (execute side) c') := by
    intro acts
    induction acts with
    | nil => exact fun c' h => h
    | cons act acts ih => exact fun c' h => ih _ (h.trans internal_execute)
  exact hfold _ _ (.setQueue side _ .refl)

theorem internal_callOnDone {side : Side} {act : WsAct} {b : Bool} :
    Internal c (c.callOnDone side act b) :=
  .trans (.onDone side act .refl) internal_onQueue

theorem internal_disconnect {r w : Bool} : Internal c (c.disconnect r w) := by
  unfold disconnect
  split
  · exact .refl
  · exact .trans internal_onQueue internal_onQueue

theorem internal_forceDisconnect : Internal c c.forceDisconnect := by
  unfold forceDisconnect
  split
  · exact .refl
  · exact internal_doDisconnect

theorem quiet_onQueue {side : Side} {f : ActionQueue WsAct → ActionQueue WsAct} :
    Quiet c (c.onQueue side f) := internal_onQueue.quiet

/-! ## What a step can do -/

end Connection

/-- The handler of the operation calls `go_active()`. -/
def Pending.goesActive : Pending → Bool → Bool
  | .tlsHandshake, ec => ec
  | .handshake, _ => true
  | .accept, ec => !ec
  | _, _ => false

/-- The handshakes of a client. -/
def Pending.clientHandshake : Pending → Bool
  | .tlsHandshake | .handshake => true
  | _ => false

namespace Connection

variable {c c' : Connection}

/-- The step runs a handler that calls `go_active()`. -/
def goesActive (c : Connection) : Act → Bool
  | .complete i ec _ _ => c.pending[i]?.any fun op => op.goesActive ec
  | _ => false

/-- The step completes a TLS or websocket handshake of a client with an error. -/
def failsHandshake (c : Connection) : Act → Bool
  | .complete i ec _ _ => ec && c.pending[i]?.any Pending.clientHandshake
  | _ => false

/-- `go_active()` was called, after the events `pre`. -/
def WentActive (pre : List Event) (c c' : Connection) : Prop :=
  ∃ l, c'.log = c.log ++ pre ++ .state .active :: l ∧ (∀ e ∈ l, e.quiet = true) ∧
    c'.state = l.foldl Event.next .active

theorem openings_takePending {i : Nat} {op : Pending} (h : c.pending[i]? = some op) :
    (c.takePending i).openings + (if op.opens then 1 else 0) = c.openings := by
  obtain ⟨hlt, rfl⟩ := List.getElem?_eq_some_iff.mp h
  have hp := (List.getElem_cons_eraseIdx_perm hlt).countP_eq Pending.opens
  rw [List.countP_cons] at hp
  exact hp

theorem quiet_takePending {i : Nat} {op : Pending} (h : c.pending[i]? = some op) :
    Quiet c (c.takePending i) where
  log := (Quiet.refl c).log
  openings := by have := openings_takePending h; omega
  called := rfl

/-- Once `go_active()` has written the state, the connection only closes. -/
theorem wentActive_of_quiet {pre : List Event} {d : Connection} (hd : d.log = c.log ++ pre)
    (h : Quiet (d.setState .active) c') : WentActive pre c c' := by
  obtain ⟨l, hl, hq, hs⟩ := h.log
  refine ⟨l, ?_, hq, hs⟩
  rw [hl, ← hd]
  exact List.append_assoc _ _ _

theorem quiet_goActive {r w : Bool} : Quiet (c.setState .active) (c.goActive r w) :=
  quiet_onQueue.trans quiet_onQueue

theorem quiet_onHandshake {ec r w : Bool} :
    Quiet (c.setState .active) (c.onHandshake ec r w) :=
  quiet_goActive.trans (quiet_record rfl fun _ => rfl)

/-- What the handler of an operation does when it does not call `go_active()`. -/
theorem complete_quiet {i : Nat} {op : Pending} (h : c.pending[i]? = some op) {ec r w : Bool}
    (hop : op.goesActive ec = false) : Quiet c ((c.takePending i).complete ec r w op) := by
  have htake := quiet_takePending h
  have hopen : ∀ op', op.opens = true → Quiet c ((c.takePending i).start op') := by
    intro op' ho
    have hcount := openings_takePending h
    rw [if_pos ho] at hcount
    refine ⟨htake.log, ?_, rfl⟩
    have hstart : ((c.takePending i).start op').openings ≤ (c.takePending i).openings + 1 := by
      unfold openings start
      rw [List.countP_append, List.countP_singleton]
      split <;> omega
    omega
  cases op with
  | connect =>
    simp only [complete]
    by_cases he : ec = true
    · rw [if_pos he]
      exact htake.trans (quiet_record rfl fun _ => rfl)
    · rw [if_neg he]
      unfold onConnect
      split
      · exact hopen _ rfl
      · exact hopen _ rfl
  | tlsHandshake =>
    have he : ec = false := hop
    subst he
    exact hopen _ rfl
  | handshake => cases hop
  | accept =>
    have he : ec = true := by simpa [Pending.goesActive] using hop
    subst he
    exact htake.trans (quiet_record rfl fun _ => rfl)
  | io side act => exact htake.trans (quiet_start rfl)
  | close owner =>
    have hclosed :
        Quiet c (if ec then c.takePending i else (c.takePending i).setState .closed) := by
      split
      · exact htake
      · exact htake.trans (quiet_setState rfl)
    match owner with
    | some .read => exact hclosed.trans internal_callOnDone.quiet
    | some .write => exact hclosed.trans internal_callOnDone.quiet
    | none => exact hclosed
  | onDone side act =>
    cases side with
    | read => exact htake.trans internal_callOnDone.quiet
    | write => exact htake.trans internal_callOnDone.quiet

/-- What a handler that calls `go_active()` does: after a handshake that failed, or after the
websocket handshake. -/
theorem complete_goesActive {i : Nat} {op : Pending} (h : c.pending[i]? = some op)
    {ec r w : Bool} (hop : op.goesActive ec = true) :
    ∃ pre, WentActive pre c ((c.takePending i).complete ec r w op) ∧
      ((c.takePending i).complete ec r w op).called = c.called ∧
      (((ec && op.clientHandshake) = true ∧ (pre = [] ∨ pre = [.handshake true]) ∧
          1 ≤ c.openings ∧ ((c.takePending i).complete ec r w op).openings ≤ c.openings) ∨
        ((ec && op.clientHandshake) = false ∧ pre = [.handshake false] ∧
          ((c.takePending i).complete ec r w op).openings + 1 ≤ c.openings)) := by
  have hopens : op.opens = true := by
    cases op with
    | tlsHandshake => rfl
    | handshake => rfl
    | accept => rfl
    | _ => cases hop
  have hcount := openings_takePending h
  rw [if_pos hopens] at hcount
  cases op with
  | connect => cases hop
  | io side act => cases hop
  | close owner => cases hop
  | onDone side act => cases hop
  | tlsHandshake =>
    have he : ec = true := hop
    subst he
    have hq : Quiet ((c.takePending i).setState .active)
        ((c.takePending i).onHandshake true r w) := quiet_onHandshake
    have ho : ((c.takePending i).complete true r w .tlsHandshake).openings ≤
        ((c.takePending i).onHandshake true r w).openings + 1 := by
      simp [complete, onReadyForHandshake, openings, start, Pending.opens]
    have hle := hq.openings
    have : ((c.takePending i).setState .active).openings = (c.takePending i).openings := rfl
    have hactive : WentActive [] c ((c.takePending i).onHandshake true r w) :=
      wentActive_of_quiet (d := c.takePending i) (List.append_nil c.log).symm hq
    exact ⟨[], hactive, hq.called, .inl ⟨rfl, .inl rfl, by omega, by omega⟩⟩
  | handshake =>
    have hq : Quiet (((c.takePending i).record (.handshake ec)).setState .active)
        ((c.takePending i).complete ec r w .handshake) := quiet_onHandshake
    have hle := hq.openings
    have : (((c.takePending i).record (.handshake ec)).setState .active).openings =
      (c.takePending i).openings := rfl
    refine ⟨[.handshake ec], wentActive_of_quiet rfl hq, hq.called, ?_⟩
    cases ec with
    | true => exact .inl ⟨rfl, .inr rfl, by omega, by omega⟩
    | false => exact .inr ⟨rfl, rfl, by omega⟩
  | accept =>
    have he : ec = false := by simpa [Pending.goesActive] using hop
    subst he
    have hq : Quiet (((c.takePending i).record (.handshake false)).setState .active)
        ((c.takePending i).complete false r w .accept) :=
      quiet_goActive.trans (quiet_record rfl fun _ => rfl)
    have hle := hq.openings
    have : (((c.takePending i).record (.handshake false)).setState .active).openings =
      (c.takePending i).openings := rfl
    exact ⟨[.handshake false], wentActive_of_quiet rfl hq, hq.called, .inr ⟨rfl, rfl, by omega⟩⟩

/-- The call of `connect()` or `accept()`: it throws, or it starts to open the connection. -/
structure Opens (c c' : Connection) : Prop where
  before : c.called = false
  called : c'.called = true
  openings : c'.openings ≤ c.openings + 1
  log : (c'.log = c.log ∧ c'.state = c.state) ∨
    (c.state = .inactive ∧ c'.log = c.log ++ [.state .handshaking] ∧ c'.state = .handshaking)

theorem opens_connect (h : c.called = false) : Opens c { c with called := true }.connect := by
  unfold connect
  split
  · exact ⟨h, rfl, Nat.le_succ _, .inl ⟨rfl, rfl⟩⟩
  · refine ⟨h, rfl, ?_, .inl ⟨rfl, rfl⟩⟩
    simp [openings, start, Pending.opens]

theorem opens_accept (h : c.called = false) : Opens c { c with called := true }.accept := by
  unfold accept
  split
  · exact ⟨h, rfl, Nat.le_succ _, .inl ⟨rfl, rfl⟩⟩
  · rename_i hs
    refine ⟨h, rfl, ?_, .inr ⟨by simpa using hs, rfl, rfl⟩⟩
    simp [openings, start, setState, record, Pending.opens]

/-- **What a step can do.** -/
theorem step_cases {a : Act} (h : c.step a = some c') :
    (c.goesActive a = false ∧ c.failsHandshake a = false ∧ (Quiet c c' ∨ Opens c c')) ∨
    (c.goesActive a = true ∧ ∃ pre, WentActive pre c c' ∧ c'.called = c.called ∧
      ((c.failsHandshake a = true ∧ (pre = [] ∨ pre = [.handshake true]) ∧ 1 ≤ c.openings ∧
          c'.openings ≤ c.openings) ∨
        (c.failsHandshake a = false ∧ pre = [.handshake false] ∧
          c'.openings + 1 ≤ c.openings))) := by
  cases a with
  | connect =>
    simp only [step] at h
    split at h
    · rename_i hc
      cases h
      exact .inl ⟨rfl, rfl, .inr (opens_connect (by simpa using hc.2))⟩
    · cases h
  | accept =>
    simp only [step] at h
    split at h
    · rename_i hc
      cases h
      exact .inl ⟨rfl, rfl, .inr (opens_accept (by simpa using hc.2))⟩
    · cases h
  | disconnect r w =>
    cases h
    exact .inl ⟨rfl, rfl, .inl internal_disconnect.quiet⟩
  | forceDisconnect =>
    cases h
    exact .inl ⟨rfl, rfl, .inl internal_forceDisconnect.quiet⟩
  | read call r =>
    cases h
    exact .inl ⟨rfl, rfl, .inl quiet_onQueue⟩
  | send call w =>
    cases h
    exact .inl ⟨rfl, rfl, .inl quiet_onQueue⟩
  | handler side i =>
    obtain ⟨x, -, rfl⟩ := Option.map_eq_some_iff.mp h
    exact .inl ⟨rfl, rfl, .inl quiet_onQueue⟩
  | complete i ec r w =>
    obtain ⟨op, hop, rfl⟩ := Option.map_eq_some_iff.mp h
    have hgo : c.goesActive (.complete i ec r w) = op.goesActive ec := by
      simp [goesActive, hop]
    have hfail : c.failsHandshake (.complete i ec r w) = (ec && op.clientHandshake) := by
      simp [failsHandshake, hop]
    rw [hgo, hfail]
    cases ha : op.goesActive ec with
    | true => exact .inr ⟨rfl, complete_goesActive hop ha⟩
    | false =>
      refine .inl ⟨rfl, ?_, .inl (complete_quiet hop ha)⟩
      -- a failed handshake calls `go_active()`
      cases op <;> simp_all [Pending.goesActive, Pending.clientHandshake]

end Connection

end Websocket
end Malloy
