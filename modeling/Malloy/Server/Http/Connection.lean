import Malloy.Lib.Sys
import Malloy.Server.Http.RequestParser
import Malloy.Server.Routing.Dispatch

/-!
# `malloy::server::http::connection` (`server/http/connection.hpp`)

A server connection reads a header, hands it to the router, writes the response and reads the next
header. Bytes that a read took in beyond its message stay in the buffer that the read was given:
the connection's own buffer, which the generator of a request takes over, or the generator's.

* `Setup`: the parser, the router behind the interface `handler`, and the configuration.
* `HttpConnection`: the members of the class, the operations in progress, and the history of a run
  (what the client sent, what was handed to the router, how often `do_write` was called).
* `Act`: the atomic steps. The client sends a request; a read takes in bytes, only while its
  message is not complete; an operation completes (a read also with an error of its parser); an
  operation fails.
* An exception that leaves a handler ends the run of the connection: nothing is in progress then.
* `onRead_cases`, `onBody_cases`: what the handlers do with a router that answers once.
-/

namespace Malloy
namespace Server

open Http

/-! ## The setup -/

/-- The interface `handler`, through which a connection reaches the router. -/
structure Handler where
  websocket : RequestHeader → Except Exn Reaction
  http : RequestHeader → Except Exn Reaction

/-- The router answers every request that it handles with one response. -/
def Handler.AnswersOnce (handler : Handler) : Prop :=
  ∀ head re, handler.http head = .ok re → re.AnswersOnce

structure Setup where
  parser : RequestParser
  handler : Handler
  /-- `boost::beast::websocket::is_upgrade`. -/
  isUpgrade : RequestHeader → Bool
  /-- `need_eof()` of a response. -/
  needEof : Response → Bool
  /-- `config::request_body_limit`. -/
  requestBodyLimit : Nat

/-- The body that follows this header, for a parser with the limit of the configuration. -/
def Setup.readBody (S : Setup) (head : RequestHeader) (b : Str) : BodyResult :=
  S.parser.readBody S.requestBodyLimit head b

/-- `router_adaptor`: a connection in front of a router. -/
def Router.setup (env : Env) (parser : RequestParser) (r : Router)
    (requestBodyLimit : Nat := 100000000) : Setup where
  parser := parser
  handler := { websocket := r.handleRequest env true, http := r.handleRequest env false }
  isUpgrade := env.isUpgrade
  needEof := env.needEof
  requestBodyLimit := requestBodyLimit

theorem Router.setup_answersOnce (env : Env) (parser : RequestParser) (r : Router) (limit : Nat) :
    (r.setup env parser limit).handler.AnswersOnce :=
  fun _ _ h => Router.handleRequest_answersOnce h

/-! ## The connection -/

/-- An asynchronous operation that has not completed. -/
inductive Op where
  /-- `async_read_header` into the connection's buffer. -/
  | readHeader
  /-- `async_read` of the body that follows this header: the bytes that it has had, with those
  that were in the buffer of the generator. -/
  | readBody (buffer : Str) (head : RequestHeader) (read : BodyRead)
  /-- `async_write`; the flag is `need_eof()`. -/
  | write (needEof : Bool)

structure HttpConnection (P : RequestParser) where
  /-- `m_buffer`. -/
  buffer : Str := []
  /-- The operations in progress. -/
  pending : List Op := []
  /-- `do_close()` was called. -/
  closed : Bool := false
  /-- The bytes that the client sent and no read has taken in. -/
  wire : Str := []
  /-- The requests that the client sent. -/
  sent : List (WireRequest P) := []
  /-- The headers that were handed to the router. -/
  dispatched : List RequestHeader := []
  /-- How often `do_write()` was called. -/
  writes : Nat := 0
  /-- What the router did with an upgrade request, which it handles on the websocket. -/
  upgrade : Option (Except Exn Reaction) := none

namespace HttpConnection

variable (S : Setup)

/-- The connections of a setup. -/
abbrev Of (S : Setup) : Type := HttpConnection S.parser

def doRead (c : Of S) : Of S := { c with pending := c.pending ++ [.readHeader] }

def doWrite (c : Of S) (resp : Response) : Of S :=
  { c with pending := c.pending ++ [.write (S.needEof resp)], writes := c.writes + 1 }

def doClose (c : Of S) : Of S := { c with closed := true }

/-- `request_generator::body`: the generator has the rest of the buffer, and starts the read. -/
def body (rest : Str) (read : BodyRead) (head : RequestHeader) (c : Of S) : Of S :=
  { c with pending := c.pending ++ [.readBody rest head read] }

/-- The effects of the router on the connection. -/
def perform (es : List Effect) (c : Of S) : Of S := (Server.writes es).foldl (doWrite S) c

/-- The header is handed to the router, with a generator that takes the buffer. -/
def handOver (head : RequestHeader) (c : Of S) : Of S :=
  { c with buffer := [], dispatched := c.dispatched ++ [head] }

/-- `on_read` of a header, with what the buffer holds after it. An upgrade request takes the
stream away. -/
def onRead (head : RequestHeader) (rest : Str) (c : Of S) : Of S :=
  let c := handOver S head c
  if S.isUpgrade head then { c with upgrade := some (S.handler.websocket head) }
  else
    match S.handler.http head with
    | .error _ => c
    | .ok re =>
      match re.body with
      | some read => body S rest read head (perform S re.effects c)
      | none => perform S re.effects c

/-- The callback of a body read. What the generator's buffer holds after the body goes with it. -/
def onBody (bytes : Str) (read : BodyRead) (c : Of S) : Of S :=
  match read.finish bytes with
  | .error _ => c
  | .ok es => perform S es c

/-- `on_write` without an error. -/
def onWrite (needEof : Bool) (c : Of S) : Of S :=
  if needEof then doClose S c else doRead S c

/-- The callback of an operation that failed; `eof` for the end of the stream or a timeout. -/
def onError (eof : Bool) (op : Op) (c : Of S) : Of S :=
  match op with
  | .readHeader => if eof then doClose S c else c
  | .readBody _ _ _ => c
  | .write _ => c

end HttpConnection

/-! ## Runs -/

inductive HttpConnection.Act (P : RequestParser) where
  /-- The client sends a request. -/
  | send (r : WireRequest P)
  /-- The `i`-th operation takes in `n` bytes. -/
  | recv (i n : Nat)
  | complete (i : Nat)
  | fail (i : Nat) (eof : Bool)

namespace HttpConnection

variable (S : Setup)

/-- A read that needs more bytes takes in some. -/
def receive (n : Nat) (c : Of S) : Op → Option (Op × Of S)
  | .readHeader =>
    match S.parser.parse c.buffer with
    | .needMore =>
      some (.readHeader, { c with buffer := c.buffer ++ c.wire.take n, wire := c.wire.drop n })
    | _ => none
  | .readBody buffer head read =>
    match S.readBody head buffer with
    | .needMore =>
      some (.readBody (buffer ++ c.wire.take n) head read, { c with wire := c.wire.drop n })
    | _ => none
  | .write _ => none

/-- The operation completes, if it needs no more bytes. -/
def finish (c : Of S) : Op → Option (Of S)
  | .readHeader =>
    match S.parser.parse c.buffer with
    | .needMore => none
    | .error => some (onError S false .readHeader c)
    | .done head size =>
      if S.requestBodyLimit < S.parser.contentLength head then
        some (onError S false .readHeader c)
      else some (onRead S head (c.buffer.drop size) c)
  | .readBody buffer head read =>
    match S.readBody head buffer with
    | .needMore => none
    | .error => some (onError S false (.readBody buffer head read) c)
    | .done content _ => some (onBody S content read c)
  | .write needEof => some (onWrite S needEof c)

/-- The `i`-th operation is no longer in progress. -/
def takeOp (i : Nat) (c : Of S) : Of S := { c with pending := c.pending.eraseIdx i }

def step (c : Of S) : Act S.parser → Option (Of S)
  | .send r => some { c with sent := c.sent ++ [r], wire := c.wire ++ r.bytes }
  | .recv i n => c.pending[i]?.bind fun op =>
    if 0 < n ∧ n ≤ c.wire.length then
      (receive S n c op).map fun x => { x.2 with pending := x.2.pending.set i x.1 }
    else none
  | .complete i => c.pending[i]?.bind fun op => finish S (takeOp S i c) op
  | .fail i eof => c.pending[i]?.map fun op => onError S eof op (takeOp S i c)

/-- The runs of a connection, from its first `do_read()`. -/
def system : Lib.Sys (Of S) (Act S.parser) where
  init c := c = { pending := [.readHeader] }
  step := step S

/-! ## What the steps do -/

section

variable {S} {c c' : Of S}

/-- What a step can do. -/
theorem step_cases {a : Act S.parser} (h : step S c a = some c') :
    (∃ r, a = .send r ∧ c' = { c with sent := c.sent ++ [r], wire := c.wire ++ r.bytes }) ∨
    (∃ i n op x, a = .recv i n ∧ c.pending[i]? = some op ∧ 0 < n ∧ n ≤ c.wire.length ∧
      receive S n c op = some x ∧ c' = { x.2 with pending := x.2.pending.set i x.1 }) ∨
    (∃ i op, a = .complete i ∧ c.pending[i]? = some op ∧ finish S (takeOp S i c) op = some c') ∨
    (∃ i eof op, a = .fail i eof ∧ c.pending[i]? = some op ∧
      c' = onError S eof op (takeOp S i c)) := by
  cases a with
  | send r => exact .inl ⟨r, rfl, by simpa [step, eq_comm] using h⟩
  | recv i n =>
    right; left
    obtain ⟨op, hop, h⟩ := Option.bind_eq_some_iff.mp h
    split at h
    · rename_i hn
      obtain ⟨x, hx, rfl⟩ := Option.map_eq_some_iff.mp h
      exact ⟨i, n, op, x, rfl, hop, hn.1, hn.2, hx, rfl⟩
    · cases h
  | complete i =>
    right; right; left
    obtain ⟨op, hop, h⟩ := Option.bind_eq_some_iff.mp h
    exact ⟨i, op, rfl, hop, h⟩
  | fail i eof =>
    right; right; right
    obtain ⟨op, hop, h⟩ := Option.map_eq_some_iff.mp h
    exact ⟨i, eof, op, rfl, hop, h.symm⟩

/-- What a read does with the bytes that it takes in. -/
theorem receive_cases {n : Nat} {op : Op} {x : Op × Of S} (h : receive S n c op = some x) :
    (op = .readHeader ∧ S.parser.parse c.buffer = .needMore ∧ x = (.readHeader,
      { c with buffer := c.buffer ++ c.wire.take n, wire := c.wire.drop n })) ∨
    (∃ buffer head read, op = .readBody buffer head read ∧ S.readBody head buffer = .needMore ∧
      x = (.readBody (buffer ++ c.wire.take n) head read, { c with wire := c.wire.drop n })) := by
  cases op with
  | readHeader =>
    left
    simp only [receive] at h
    split at h
    · rename_i hp
      exact ⟨rfl, hp, by simpa [eq_comm] using h⟩
    · cases h
  | readBody buffer head read =>
    right
    simp only [receive] at h
    split at h
    · rename_i hmore
      exact ⟨buffer, head, read, rfl, hmore, by simpa [eq_comm] using h⟩
    · cases h
  | write needEof => cases h

/-- The header in the buffer is not handed over: it is malformed, or its body is too long. -/
def Refused (c : Of S) : Prop :=
  S.parser.parse c.buffer = .error ∨ ∃ head size, S.parser.parse c.buffer = .done head size ∧
    S.requestBodyLimit < S.parser.contentLength head

/-- How an operation completes. -/
theorem finish_cases {op : Op} (h : finish S c op = some c') :
    (op = .readHeader ∧ Refused c ∧ c' = c) ∨
    (∃ head size, op = .readHeader ∧ S.parser.parse c.buffer = .done head size ∧
      S.parser.contentLength head ≤ S.requestBodyLimit ∧
      c' = onRead S head (c.buffer.drop size) c) ∨
    (∃ buffer head read, op = .readBody buffer head read ∧ S.readBody head buffer = .error ∧
      c' = c) ∨
    (∃ buffer head read content size, op = .readBody buffer head read ∧
      S.readBody head buffer = .done content size ∧ c' = onBody S content read c) ∨
    (∃ needEof, op = .write needEof ∧ c' = onWrite S needEof c) := by
  cases op with
  | readHeader =>
    simp only [finish] at h
    split at h
    · cases h
    · rename_i hp
      exact .inl ⟨rfl, .inl hp, by simpa [onError, eq_comm] using h⟩
    · rename_i head size hp
      split at h
      · rename_i hlim
        exact .inl ⟨rfl, .inr ⟨head, size, hp, hlim⟩, by simpa [onError, eq_comm] using h⟩
      · rename_i hlim
        exact .inr (.inl ⟨head, size, rfl, hp, Nat.le_of_not_lt hlim, by simpa [eq_comm] using h⟩)
  | readBody buffer head read =>
    simp only [finish] at h
    split at h
    · cases h
    · rename_i herr
      exact .inr (.inr (.inl ⟨buffer, head, read, rfl, herr, by simpa [onError, eq_comm] using h⟩))
    · rename_i content size hdone
      exact .inr (.inr (.inr (.inl ⟨buffer, head, read, content, size, rfl, hdone,
        by simpa [eq_comm] using h⟩)))
  | write needEof =>
    exact .inr (.inr (.inr (.inr ⟨needEof, rfl, by simpa [finish, eq_comm] using h⟩)))

theorem perform_of_writes {es : List Effect} {w : Response} (h : Server.writes es = [w])
    (c : Of S) : perform S es c = doWrite S c w := by
  unfold perform
  rw [h]
  rfl

/-- A failed operation is not started again. -/
theorem onError_eq (eof : Bool) (op : Op) (c : Of S) :
    ∃ closed, onError S eof op c = { c with closed := closed } := by
  cases op with
  | readHeader =>
    cases eof with
    | true => exact ⟨true, rfl⟩
    | false => exact ⟨c.closed, rfl⟩
  | readBody buffer head read => exact ⟨c.closed, rfl⟩
  | write needEof => exact ⟨c.closed, rfl⟩

/-- The router is left with an exception. -/
def Throws (S : Setup) (head : RequestHeader) : Prop :=
  ∀ re, S.handler.http head = .ok re → re.body = none ∧ re.Throws

/-- What becomes of a header that is handed to a router that answers once: nothing is started
(an upgrade, or an exception), or the response is written, or the body is read. -/
theorem onRead_cases (hS : S.handler.AnswersOnce) (head : RequestHeader) (rest : Str) (c : Of S) :
    (∃ u, (S.isUpgrade head = true ∨ Throws S head) ∧
      onRead S head rest c = { handOver S head c with upgrade := u }) ∨
    (∃ re w, S.isUpgrade head = false ∧ S.handler.http head = .ok re ∧ re.body = none ∧
      Server.writes re.effects = [w] ∧ onRead S head rest c = doWrite S (handOver S head c) w) ∨
    (∃ re read, S.isUpgrade head = false ∧ S.handler.http head = .ok re ∧ re.body = some read ∧
      re.AnswersOnce ∧ onRead S head rest c = body S rest read head (handOver S head c)) := by
  unfold onRead
  cases hu : S.isUpgrade head with
  | true => exact .inl ⟨some (S.handler.websocket head), .inl rfl, by simp⟩
  | false =>
    cases hr : S.handler.http head with
    | error e =>
      exact .inl ⟨c.upgrade, .inr fun re he => by simp [hr] at he, by simp [handOver]⟩
    | ok re =>
      have hre := hS head re hr
      cases hb : re.body with
      | none =>
        rcases hre.now hb with ⟨w, hw⟩ | ⟨hthrow, hw⟩
        · exact .inr (.inl ⟨re, w, rfl, rfl, hb, hw, by simp [hb, perform_of_writes hw]⟩)
        · refine .inl ⟨c.upgrade, .inr fun re' he => ?_, by simp [hb, perform, hw, handOver]⟩
          rw [hr, Except.ok.injEq] at he
          exact he ▸ ⟨hb, hthrow⟩
      | some read =>
        have hw := (hre.later read hb).1
        exact .inr (.inr ⟨re, read, rfl, rfl, hb, hre, by simp [hb, perform, hw]⟩)

/-- The callback of a body read writes the response, or nothing follows it. -/
theorem onBody_cases (bytes : Str) {read : BodyRead} (c : Of S)
    (hread : ∀ bytes es, read.finish bytes = .ok es → ∃ w, Server.writes es = [w]) :
    ((∃ e, read.finish bytes = .error e) ∧ onBody S bytes read c = c) ∨
    (∃ es w, read.finish bytes = .ok es ∧ Server.writes es = [w] ∧
      onBody S bytes read c = doWrite S c w) := by
  unfold onBody
  cases hf : read.finish bytes with
  | error e => exact .inl ⟨⟨e, rfl⟩, rfl⟩
  | ok es =>
    obtain ⟨w, hw⟩ := hread bytes es hf
    exact .inr ⟨es, w, rfl, hw, perform_of_writes hw c⟩

end

end HttpConnection

end Server
end Malloy
