import Malloy.Lib.Log
import Malloy.Server.Http.Framing

/-!
# The order in which a connection serves its requests

A connection reads a header, hands it to the router, reads the body if the router asks for it,
writes the response if the router gives one, and reads the next header only from `on_write`. The
router is any that gives at most one response for a request, and it may be another one at each
step: what it answers need not depend on the header alone.

* `serving`: the runs of a connection with such routers, from any buffer (the detection of TLS may
  have read some bytes). `reach_serving`: the runs with a `Router` are among them.
* `StreamEvent`: what happens on the stream; an operation (`Task`) has the number of the request
  that it is for. `history`: the system with the log of these events.
* `MayFollow`: which event may come after a log. `Orderly` logs have only such events.
* `Protocol`: what a connection does, with the operation in progress as the only state. Its logs are
  orderly (`Protocol.orderly`), and the connection follows it (`protocol_of_step`).
-/

namespace Malloy
namespace Server

open Http

/-! ## Routers that answer at most once -/

/-- What the callback of this body read writes. -/
def BodyRead.AnswersAtMostOnce (read : BodyRead) : Prop :=
  ∀ bytes es, read.finish bytes = .ok es → (writes es).length ≤ 1

/-- A reaction that writes at most one response, and none before the body read that it starts has
completed. -/
structure Reaction.AnswersAtMostOnce (re : Reaction) : Prop where
  now : re.body = none → (writes re.effects).length ≤ 1
  later : ∀ read, re.body = some read → writes re.effects = [] ∧ read.AnswersAtMostOnce

theorem Reaction.AnswersOnce.atMostOnce {re : Reaction} (h : re.AnswersOnce) :
    re.AnswersAtMostOnce where
  now hb := by
    rcases h.now hb with ⟨w, hw⟩ | ⟨-, hw⟩ <;> simp [hw]
  later b hb := by
    obtain ⟨hnow, hlater⟩ := h.later b hb
    refine ⟨hnow, fun bytes es hf => ?_⟩
    obtain ⟨w, hw⟩ := hlater bytes es hf
    simp [hw]

/-- The handler gives at most one response for a request. -/
def Handler.AnswersAtMostOnce (handler : Handler) : Prop :=
  ∀ head re, handler.http head = .ok re → re.AnswersAtMostOnce

structure AnsweringHandler extends Handler where
  atMostOnce : toHandler.AnswersAtMostOnce

/-- A router, behind the interface `handler`. -/
def Router.answering (env : Env) (r : Router) : AnsweringHandler where
  websocket := r.handleRequest env true
  http := r.handleRequest env false
  atMostOnce _ _ h := (Router.handleRequest_answersOnce h).atMostOnce

/-- The handlers of upgrade requests have the websocket: no body is read and no response is written
on the HTTP stream. -/
theorem handleWsEndpoints_silent (head : RequestHeader) (eps : List EndpointWebsocket) :
    (handleWsEndpoints head eps).body = none ∧
      writes (handleWsEndpoints head eps).effects = [] := by
  induction eps with
  | nil => exact ⟨rfl, rfl⟩
  | cons ep eps ih =>
    unfold handleWsEndpoints
    split
    · exact ih
    · split
      · exact ih
      · exact ⟨rfl, rfl⟩

/-- **The HTTP stream is left alone after an upgrade**, by every router. -/
theorem Router.upgrade_silent {env : Env} {r : Router} {head : RequestHeader} {re : Reaction}
    (h : r.handleRequest env true head = .ok re) : re.body = none ∧ writes re.effects = [] := by
  rw [handleRequest_websocket, handleWsRequest] at h
  split at h
  · cases h
    exact handleWsEndpoints_silent _ _
  · cases h

namespace HttpConnection

/-! ## The runs -/

/-- The connection with this router behind it. -/
abbrev withHandler (S : Setup) (handler : Handler) : Setup := { S with handler := handler }

/-- The runs of a connection, whose router gives at most one response for a request. -/
def serving (S : Setup) : Lib.Sys (Of S) (AnsweringHandler × Act S.parser) where
  init c := ∃ buffer, c = { buffer := buffer, pending := [.readHeader] }
  step c a := step (withHandler S a.1.toHandler) c a.2

/-- A connection in front of a router is one of them. -/
theorem reach_serving (env : Env) (parser : RequestParser) (r : Router) (limit : Nat)
    {ok : Of (r.setup env parser limit) → Act parser → Prop} {c : Of (r.setup env parser limit)}
    (h : (system (r.setup env parser limit)).Reach ok c) :
    (serving (r.setup env parser limit)).Reach Lib.Sys.free c := by
  induction h with
  | init hi => exact .init ⟨[], hi⟩
  | step a _ _ hst ih => exact .step (r.answering env, a) ih trivial hst

/-! ## What happens on the stream -/

/-- An operation on the stream, and the number of the request that it is for. -/
inductive Task where
  | readHeader (k : Nat)
  | readBody (k : Nat)
  | write (k : Nat) (needEof : Bool)
  deriving DecidableEq

inductive StreamEvent where
  | started (t : Task)
  | completed (t : Task)
  | failed (t : Task)
  /-- `do_close()`. -/
  | closed
  /-- The stream went to a websocket. -/
  | upgraded
  deriving DecidableEq

/-- Nothing is started on the stream after this. -/
def StreamEvent.Ends : StreamEvent → Prop
  | .failed _ | .closed | .upgraded => True
  | .started _ | .completed _ => False

section

variable {S : Setup}

/-- A header is read for the next request, a body or a response belongs to the last one that was
handed to the router. -/
def task (c : Of S) : Op → Task
  | .readHeader => .readHeader (c.dispatched.length + 1)
  | .readBody _ _ _ => .readBody c.dispatched.length
  | .write needEof => .write c.dispatched.length needEof

/-- The parser of a read does not accept what it has: a header that is malformed or whose body is
too long, or a body that is. -/
def refuses (c : Of S) : Op → Bool
  | .readHeader =>
    match S.parser.parse c.buffer with
    | .needMore => false
    | .error => true
    | .done head _ => S.requestBodyLimit < S.parser.contentLength head
  | .readBody buffer head _ =>
    match S.readBody head buffer with
    | .error => true
    | _ => false
  | .write _ => false

theorem refuses_readHeader {c : Of S} : refuses c .readHeader = true ↔ Refused c := by
  unfold refuses Refused
  cases S.parser.parse c.buffer with
  | needMore => simp
  | error => simp
  | done head size => simp

/-- What a handler is called with: the operation completed or failed. What its parser refuses is an
error of a read. -/
def outcome (c : Of S) : Act S.parser → List StreamEvent
  | .complete i => (c.pending[i]?).toList.map fun op =>
    if refuses c op then .failed (task c op) else .completed (task c op)
  | .fail i _ => (c.pending[i]?).toList.map fun op => .failed (task c op)
  | _ => []

/-- How many of the operations in progress still are after the step. -/
def kept (c : Of S) : Act S.parser → Nat
  | .complete _ | .fail _ _ => c.pending.length - 1
  | _ => c.pending.length

/-- The connection was closed, or the stream was given away. -/
def ending (c c' : Of S) : List StreamEvent :=
  (if !c.closed && c'.closed then [.closed] else []) ++
    if c.upgrade.isNone && c'.upgrade.isSome then [.upgraded] else []

/-- What happens in a step from `c` to `c'`, in order. -/
def happens (c : Of S) (a : Act S.parser) (c' : Of S) : List StreamEvent :=
  outcome c a ++ ending c c' ++ (c'.pending.drop (kept c a)).map fun op => .started (task c' op)

end

/-- What happens does not depend on the router. -/
theorem happens_withHandler {S : Setup} (handler : Handler) (c : Of S) (a : Act S.parser)
    (c' : Of S) : happens (S := withHandler S handler) c a c' = happens c a c' := by
  cases a <;> rfl

/-- The runs with the log of what happens on the stream, which begins with the first `do_read()`. -/
def history (S : Setup) :
    Lib.Sys (Of S × List StreamEvent) (AnsweringHandler × Act S.parser) :=
  (serving S).logged [.started (.readHeader 1)] fun c a c' => happens c a.2 c'

/-- A connection in front of a router has such a log. -/
theorem reach_history (env : Env) (parser : RequestParser) (r : Router) (limit : Nat)
    {ok : Of (r.setup env parser limit) → Act parser → Prop} {c : Of (r.setup env parser limit)}
    (h : (system (r.setup env parser limit)).Reach ok c) :
    ∃ log, (history (r.setup env parser limit)).Reach Lib.Sys.free (c, log) :=
  (reach_serving env parser r limit h).logged

/-! ## The order of the events -/

/-- What comes before an operation is started: a header is read when the response to the request
before it was written, without an error and without an end of the stream; a body is read, and a
response is written, for a header that was read, and a request has one response. -/
def Task.Due (log : List StreamEvent) : Task → Prop
  | .readHeader k => (k = 1 ∧ log = []) ∨
      ∃ j l, k = j + 1 ∧ log = l ++ [.completed (.write j false)]
  | .readBody k => .completed (.readHeader k) ∈ log
  | .write k _ => .completed (.readHeader k) ∈ log ∧ ∀ needEof, .started (.write k needEof) ∉ log

/-- The events that may come next: no operation is started after one failed, after the connection
was closed or after an upgrade; and what completes or fails was started. -/
def MayFollow (log : List StreamEvent) : StreamEvent → Prop
  | .started t => (∀ e ∈ log, ¬ e.Ends) ∧ t.Due log
  | .completed t | .failed t => .started t ∈ log
  | .closed | .upgraded => True

def Orderly (log : List StreamEvent) : Prop := Lib.Obeys MayFollow log

/-! ## The protocol

What a connection does, with only the operation in progress as its state. -/

inductive Protocol : Option Task → List StreamEvent → Option Task → Prop
  | stay (t : Option Task) : Protocol t [] t
  | answer (k : Nat) (needEof : Bool) : Protocol (some (.readHeader k))
    [.completed (.readHeader k), .started (.write k needEof)] (some (.write k needEof))
  | askBody (k : Nat) : Protocol (some (.readHeader k))
    [.completed (.readHeader k), .started (.readBody k)] (some (.readBody k))
  | answerBody (k : Nat) (needEof : Bool) : Protocol (some (.readBody k))
    [.completed (.readBody k), .started (.write k needEof)] (some (.write k needEof))
  | next (k : Nat) : Protocol (some (.write k false))
    [.completed (.write k false), .started (.readHeader (k + 1))] (some (.readHeader (k + 1)))
  | stop {t : Task} {e : StreamEvent} {marks : List StreamEvent} :
    e = .completed t ∨ e = .failed t → (∀ m ∈ marks, m = .closed ∨ m = .upgraded) →
    Protocol (some t) (e :: marks) none

/-- The responses whose write may have been started are those below this number. -/
def Task.begun : Task → Nat
  | .readHeader k | .readBody k => k
  | .write k _ => k + 1

/-- Where the log is while this operation is in progress. -/
structure Stage (log : List StreamEvent) (t : Task) : Prop where
  running : ∀ e ∈ log, ¬ e.Ends
  started : .started t ∈ log
  writes : ∀ k needEof, .started (.write k needEof) ∈ log → k < t.begun
  body : ∀ k, t = .readBody k → .completed (.readHeader k) ∈ log

/-- An operation completes, and the next one is started. -/
theorem Stage.advance {log : List StreamEvent} {t : Task} (t' : Task) (ho : Orderly log)
    (hs : Stage log t) (hdue : t'.Due (log ++ [.completed t]))
    (hwrites : ∀ k needEof, t' = .write k needEof → k < t'.begun) (hle : t.begun ≤ t'.begun)
    (hbody : ∀ k, t' = .readBody k → .completed (.readHeader k) ∈ log ++ [.completed t]) :
    Orderly (log ++ [.completed t, .started t']) ∧
      ∀ u ∈ some t', Stage (log ++ [.completed t, .started t']) u := by
  have hrun : ∀ e ∈ log ++ [StreamEvent.completed t], ¬ e.Ends := by
    intro e he
    rcases List.mem_append.mp he with he | he
    · exact hs.running e he
    · rw [List.mem_singleton.mp he]
      exact id
  have hsplit : log ++ [StreamEvent.completed t, .started t'] =
      (log ++ [.completed t]) ++ [.started t'] := by simp
  have ho' : Orderly (log ++ [.completed t]) := Lib.Obeys.snoc ho hs.started
  rw [hsplit]
  refine ⟨Lib.Obeys.snoc ho' ⟨hrun, hdue⟩, ?_⟩
  rintro u ⟨⟩
  refine ⟨fun e he => ?_, by simp, fun k needEof hk => ?_,
    fun k hk => List.mem_append_left _ (hbody k hk)⟩
  · rcases List.mem_append.mp he with he | he
    · exact hrun e he
    · rw [List.mem_singleton.mp he]
      exact id
  · simp only [List.mem_append, List.mem_singleton, reduceCtorEq, or_false,
      StreamEvent.started.injEq] at hk
    rcases hk with hk | hk
    · exact Nat.lt_of_lt_of_le (hs.writes k needEof hk) hle
    · exact hwrites k needEof hk.symm

/-- The response to a request is due when its header was read, and no body is being read. -/
theorem Stage.due_write {log : List StreamEvent} {t : Task} (hs : Stage log t) {k : Nat}
    (hk : t.begun = k) (hread : .completed (.readHeader k) ∈ log ++ [.completed t])
    (needEof : Bool) : (Task.write k needEof).Due (log ++ [.completed t]) := by
  refine ⟨hread, fun eof hm => ?_⟩
  rcases List.mem_append.mp hm with hm | hm
  · exact absurd (hs.writes k eof hm) (by omega)
  · cases List.mem_singleton.mp hm

/-- **The logs of the protocol are orderly.** -/
theorem Protocol.orderly {t t' : Option Task} {es log : List StreamEvent} (h : Protocol t es t')
    (ho : Orderly log) (hs : ∀ u ∈ t, Stage log u) :
    Orderly (log ++ es) ∧ ∀ u ∈ t', Stage (log ++ es) u := by
  cases h with
  | stay t =>
    rw [List.append_nil]
    exact ⟨ho, hs⟩
  | answer k needEof =>
    have hst := hs _ rfl
    refine hst.advance (.write k needEof) ho (hst.due_write (k := k) rfl (by simp) needEof) ?_
      (Nat.le_succ k) ?_
    · rintro j eof ⟨⟩
      exact Nat.lt_succ_self k
    · rintro j ⟨⟩
  | askBody k =>
    have hread : StreamEvent.completed (.readHeader k) ∈
        log ++ [StreamEvent.completed (.readHeader k)] := by simp
    refine (hs _ rfl).advance (.readBody k) ho hread ?_ (Nat.le_refl k) ?_
    · rintro j eof ⟨⟩
    · rintro j ⟨⟩
      exact hread
  | answerBody k needEof =>
    have hst := hs _ rfl
    refine hst.advance (.write k needEof) ho
      (hst.due_write rfl (List.mem_append_left _ (hst.body k rfl)) needEof) ?_ (Nat.le_succ k) ?_
    · rintro j eof ⟨⟩
      exact Nat.lt_succ_self k
    · rintro j ⟨⟩
  | next k =>
    refine (hs _ rfl).advance (.readHeader (k + 1)) ho (.inr ⟨k, log, rfl, rfl⟩) ?_
      (Nat.le_refl (k + 1)) ?_
    · rintro j eof ⟨⟩
    · rintro j ⟨⟩
  | @stop t e marks he hmarks =>
    refine ⟨?_, by rintro u ⟨⟩⟩
    have hfirst : Orderly (log ++ [e]) := by
      refine Lib.Obeys.snoc ho ?_
      rcases he with rfl | rfl
      · exact (hs t rfl).started
      · exact (hs t rfl).started
    rw [List.append_cons]
    refine Lib.Obeys.append hfirst fun l m hm => ?_
    rcases hmarks m hm with rfl | rfl
    · trivial
    · trivial

/-! ## The connection follows the protocol -/

section

variable {S : Setup} {c c' : Of S}

/-- One operation is in progress at most, and a body read in progress answers at most once. -/
structure Sequential (c : Of S) : Prop where
  single : c.pending.length ≤ 1
  once : ∀ buffer head read, .readBody buffer head read ∈ c.pending → read.AnswersAtMostOnce

theorem sequential_of_idle (h : c.pending = []) : Sequential c := by
  refine ⟨by simp [h], fun buffer head read hm => ?_⟩
  rw [h] at hm
  cases hm

theorem sequential_of_op {op : Op} (h : c.pending = [op])
    (hop : ∀ buffer head read, op = .readBody buffer head read → read.AnswersAtMostOnce) :
    Sequential c := by
  refine ⟨by simp [h], fun buffer head read hm => ?_⟩
  rw [h, List.mem_singleton] at hm
  exact hop buffer head read hm.symm

/-- The operation in progress. -/
def current (c : Of S) : Option Task := c.pending.head?.map (task c)

theorem current_of_idle (h : c.pending = []) : current c = none := by simp [current, h]

theorem current_of_op {op : Op} (h : c.pending = [op]) : current c = some (task c op) := by
  simp [current, h]

theorem perform_cases {es : List Effect} (h : (Server.writes es).length ≤ 1) (c : Of S) :
    perform S es c = c ∨ ∃ w, perform S es c = doWrite S c w := by
  unfold perform
  cases hw : Server.writes es with
  | nil => exact .inl rfl
  | cons w ws =>
    rw [hw, List.length_cons] at h
    have hws : ws = [] := List.eq_nil_of_length_eq_zero (by omega)
    exact .inr ⟨w, by rw [hws]; rfl⟩

/-- What becomes of a header, with a router that gives at most one response: the stream is given
away, or nothing is started, or the response is written, or the body is read. -/
theorem onRead_atMostOnce (hS : S.handler.AnswersAtMostOnce) (head : RequestHeader) (rest : Str)
    (c : Of S) :
    (∃ u, onRead S head rest c = { handOver S head c with upgrade := u }) ∨
    (∃ w, onRead S head rest c = doWrite S (handOver S head c) w) ∨
    (∃ read, read.AnswersAtMostOnce ∧
      onRead S head rest c = body S rest read head (handOver S head c)) := by
  unfold onRead
  cases hu : S.isUpgrade head with
  | true => exact .inl ⟨some (S.handler.websocket head), by simp⟩
  | false =>
    cases hr : S.handler.http head with
    | error e => exact .inl ⟨c.upgrade, by simp [handOver]⟩
    | ok re =>
      have hre := hS head re hr
      cases hb : re.body with
      | none =>
        rcases perform_cases (hre.now hb) (handOver S head c) with he | ⟨w, he⟩
        · exact .inl ⟨c.upgrade, by simp [hb, he]; rfl⟩
        · exact .inr (.inl ⟨w, by simp [hb, he]⟩)
      | some read =>
        obtain ⟨hw, hread⟩ := hre.later read hb
        exact .inr (.inr ⟨read, hread, by simp [hb, perform, hw]⟩)

theorem mem_ending {m : StreamEvent} (h : m ∈ ending c c') : m = .closed ∨ m = .upgraded := by
  unfold ending at h
  rcases List.mem_append.mp h with h | h
  · split at h
    · exact .inl (List.mem_singleton.mp h)
    · cases h
  · split at h
    · exact .inr (List.mem_singleton.mp h)
    · cases h

/-- An operation ends, and nothing is started. -/
theorem protocol_stop {a : Act S.parser} {op : Op} {e : StreamEvent} (hp : c.pending = [op])
    (hout : outcome c a = [e]) (he : e = .completed (task c op) ∨ e = .failed (task c op))
    (hp' : c'.pending = []) :
    Protocol (current c) (happens c a c') (current c') ∧ Sequential c' := by
  refine ⟨?_, sequential_of_idle hp'⟩
  have hev : happens c a c' = e :: ending c c' := by simp [happens, hout, hp']
  rw [hev, current_of_op hp, current_of_idle hp']
  exact .stop he fun m hm => mem_ending hm

theorem ending_eq_nil (hcl : c'.closed = c.closed) (hup : c'.upgrade = c.upgrade) :
    ending c c' = [] := by
  unfold ending
  rw [hcl, hup]
  cases c.closed <;> cases c.upgrade <;> rfl

/-- An operation completes, and another one is started. -/
theorem protocol_start {op : Op} (hp : c.pending = [op])
    (hout : outcome c (.complete 0) = [.completed (task c op)]) (op' : Op)
    (hp' : c'.pending = [op']) (hcl : c'.closed = c.closed) (hup : c'.upgrade = c.upgrade)
    (hstep : Protocol (some (task c op)) [.completed (task c op), .started (task c' op')]
      (some (task c' op')))
    (hop : ∀ buffer head read, op' = .readBody buffer head read → read.AnswersAtMostOnce) :
    Protocol (current c) (happens c (.complete 0) c') (current c') ∧ Sequential c' := by
  refine ⟨?_, sequential_of_op hp' hop⟩
  have hev : happens c (.complete 0) c' = [.completed (task c op), .started (task c' op')] := by
    simp [happens, hout, ending_eq_nil hcl hup, kept, hp, hp']
  rw [hev, current_of_op hp, current_of_op hp']
  exact hstep

/-- A step in which no operation ends. -/
theorem protocol_stay {a : Act S.parser} (hout : outcome c a = [])
    (hk : kept c a = c.pending.length) (hlen : c'.pending.length = c.pending.length)
    (hcl : c'.closed = c.closed) (hup : c'.upgrade = c.upgrade) (hcur : current c' = current c) :
    Protocol (current c) (happens c a c') (current c') := by
  have hev : happens c a c' = [] := by
    simp [happens, hout, ending_eq_nil hcl hup, hk, ← hlen]
  rw [hev, hcur]
  exact .stay _

/-- **A step of the connection is a step of the protocol**, with the events that happen in it. -/
theorem protocol_of_step {a : Act S.parser} (hS : S.handler.AnswersAtMostOnce) (hs : Sequential c)
    (h : step S c a = some c') :
    Protocol (current c) (happens c a c') (current c') ∧ Sequential c' := by
  cases moves_of_step hs.single h with
  | send q => exact ⟨protocol_stay rfl rfl rfl rfl rfl rfl, hs.single, hs.once⟩
  | recvHeader hp h0 hn hm => exact ⟨protocol_stay rfl rfl rfl rfl rfl rfl, hs.single, hs.once⟩
  | @recvBody n buffer head read hp h0 hn hm =>
    refine ⟨protocol_stay rfl rfl ?_ rfl rfl ?_, sequential_of_op rfl ?_⟩
    · rw [hp]
      rfl
    · rw [current_of_op hp]
      rfl
    · rintro b s r ⟨⟩
      exact hs.once buffer head read (hp ▸ List.mem_cons_self)
  | refused hp hr =>
    have hout : outcome c (.complete 0) = [.failed (task c .readHeader)] := by
      simp [outcome, hp, refuses_readHeader.mpr hr]
    exact protocol_stop hp hout (.inr rfl) rfl
  | @refusedBody buffer head read hp herr =>
    have hout : outcome c (.complete 0) = [.failed (task c (.readBody buffer head read))] := by
      simp [outcome, hp, refuses, herr]
    exact protocol_stop hp hout (.inr rfl) rfl
  | @header head size hp hd hl =>
    have hout : outcome c (.complete 0) = [.completed (task c .readHeader)] := by
      simp [outcome, hp, refuses, hd, hl]
    rcases onRead_atMostOnce hS head (c.buffer.drop size) { c with pending := [] } with
      ⟨u, he⟩ | ⟨w, he⟩ | ⟨read, hread, he⟩
    · rw [he]
      exact protocol_stop hp hout (.inl rfl) rfl
    · rw [he]
      refine protocol_start hp hout (.write (S.needEof w)) rfl rfl rfl ?_ (by rintro _ _ _ ⟨⟩)
      simpa only [task, doWrite, handOver, List.length_append] using .answer _ (S.needEof w)
    · rw [he]
      refine protocol_start hp hout (.readBody (c.buffer.drop size) _ read) rfl rfl rfl ?_ ?_
      · simpa only [task, body, handOver, List.length_append] using .askBody _
      · rintro _ _ _ ⟨⟩
        exact hread
  | @body buffer head read content size hp hd =>
    have hout : outcome c (.complete 0) = [.completed (task c (.readBody buffer head read))] := by
      simp [outcome, hp, refuses, hd]
    have hread := hs.once buffer head read (hp ▸ List.mem_cons_self)
    unfold onBody
    cases hf : read.finish content with
    | error e => exact protocol_stop hp hout (.inl rfl) rfl
    | ok es =>
      show Protocol _ (happens _ _ (perform S es _)) (current (perform S es _)) ∧
        Sequential (perform S es _)
      rcases perform_cases (hread _ es hf) { c with pending := [] } with he | ⟨w, he⟩
      · rw [he]
        exact protocol_stop hp hout (.inl rfl) rfl
      · rw [he]
        exact protocol_start hp hout (.write (S.needEof w)) rfl rfl rfl (.answerBody _ _)
          (by rintro _ _ _ ⟨⟩)
  | @written needEof hp =>
    have hout : outcome c (.complete 0) = [.completed (task c (.write needEof))] := by
      simp [outcome, hp, refuses]
    cases needEof with
    | true => exact protocol_stop hp hout (.inl rfl) rfl
    | false =>
      exact protocol_start hp hout .readHeader rfl rfl rfl (.next _) (by rintro _ _ _ ⟨⟩)
  | @failed eof op hp =>
    have hout : outcome c (.fail 0 eof) = [.failed (task c op)] := by simp [outcome, hp]
    obtain ⟨closed, he⟩ := onError_eq eof op { c with pending := [] }
    rw [he]
    exact protocol_stop hp hout (.inr rfl) rfl

end

/-! ## The order of every run -/

/-- At most one operation is in progress, and the log is orderly up to where it is. -/
structure Serves {S : Setup} (x : Of S × List StreamEvent) : Prop where
  sequential : Sequential x.1
  orderly : Orderly x.2
  stage : ∀ t ∈ current x.1, Stage x.2 t

theorem inductive_serves (S : Setup) : (history S).Inductive Lib.Sys.free Serves where
  base x hx := by
    obtain ⟨⟨buffer, hc⟩, hlog⟩ := hx
    obtain ⟨c, log⟩ := x
    cases hc
    cases hlog
    refine ⟨sequential_of_op rfl (by rintro _ _ _ ⟨⟩), ?_, ?_⟩
    · exact Lib.obeys_nil.snoc ⟨fun e he => (by cases he), .inl ⟨rfl, rfl⟩⟩
    · rintro t ⟨⟩
      exact ⟨by simp [StreamEvent.Ends], List.mem_cons_self, by simp, by rintro k ⟨⟩⟩
  keep x a y hI _ h := by
    obtain ⟨hstep, hlog⟩ := Lib.Sys.logged_step h
    obtain ⟨hp, hs⟩ := protocol_of_step (S := withHandler S a.1.toHandler) a.1.atMostOnce
      ⟨hI.sequential.single, hI.sequential.once⟩ hstep
    obtain ⟨ho, hst⟩ := hp.orderly hI.orderly hI.stage
    refine ⟨⟨hs.single, hs.once⟩, ?_, ?_⟩
    · rw [hlog, ← happens_withHandler a.1.toHandler]
      exact ho
    · rw [hlog, ← happens_withHandler a.1.toHandler]
      exact hst

/-- **One operation at a time, and the responses in order**, in every run of a connection whose
router gives at most one response for a request. -/
theorem served_in_order {S : Setup} {x : Of S × List StreamEvent}
    (h : (history S).Reach Lib.Sys.free x) : x.1.pending.length ≤ 1 ∧ Orderly x.2 :=
  have hI := (inductive_serves S).reach h
  ⟨hI.sequential.single, hI.orderly⟩

/-- Two requests on one connection: the first is answered, the second does not arrive. -/
theorem served_in_order_bareSite :
    ∃ x : Of (bareSite.setup Env.bare RequestParser.plain) × List StreamEvent,
      x.2 = [.started (.readHeader 1), .completed (.readHeader 1), .started (.write 1 false),
        .completed (.write 1 false), .started (.readHeader 2), .failed (.readHeader 2), .closed] ∧
      x.1.pending.length ≤ 1 ∧ Orderly x.2 := by
  have hrun : ((history (bareSite.setup Env.bare RequestParser.plain)).exec Lib.Sys.freeCheck
      ({ pending := [.readHeader] }, [.started (.readHeader 1)])
      ([.send getRoot, .recv 0 18, .complete 0, .complete 0, .fail 0 true].map fun a =>
        (bareSite.answering Env.bare, a))).map (·.2) =
      some [.started (.readHeader 1), .completed (.readHeader 1), .started (.write 1 false),
        .completed (.write 1 false), .started (.readHeader 2), .failed (.readHeader 2),
        .closed] := by decide +kernel
  obtain ⟨x, hx, hlog⟩ := Option.map_eq_some_iff.mp hrun
  have hinit : (history (bareSite.setup Env.bare RequestParser.plain)).init
      ({ pending := [.readHeader] }, [.started (.readHeader 1)]) := ⟨⟨[], rfl⟩, rfl⟩
  have hreach := Lib.Sys.reach_exec Lib.Sys.free_sound _ (.init hinit) hx
  exact ⟨x, hlog, served_in_order hreach⟩

end HttpConnection
end Server
end Malloy
