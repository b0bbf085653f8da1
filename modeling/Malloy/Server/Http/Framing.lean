import Malloy.Server.Http.Connection

/-!
# Request framing on a keep-alive connection

The requests that a client sends are a stream of bytes, which the connection cuts into headers and
bodies again. Two things can go wrong between a header and the next one. An answer that does not
read the body leaves on the stream what of the body has not arrived, and the next header is read
from there (`unread_body_is_dispatched`). And a read may take in bytes of the next request, in a
buffer that goes with the generator.

* `Moves`: the steps of a connection with one operation in progress.
* `Framed`: the headers dispatched so far are those of the first requests that were sent, and what
  has not been read are the remaining requests. `Exact` is what keeps it: a step that leaves a
  message behind has neither more nor less than the message in its buffer.
* `dispatched_of_turns`: the result for a client that waits for the responses.
-/

namespace Malloy
namespace Server
namespace HttpConnection

open Http

/-! ## One operation at a time -/

/-- The steps of a connection that has one operation in progress. -/
inductive Moves (S : Setup) (c : Of S) : Act S.parser → Of S → Prop
  | send (q : WireRequest S.parser) :
    Moves S c (.send q) { c with sent := c.sent ++ [q], wire := c.wire ++ q.bytes }
  | recvHeader {n : Nat} : c.pending = [.readHeader] → 0 < n → n ≤ c.wire.length →
    S.parser.parse c.buffer = .needMore → Moves S c (.recv 0 n)
      { c with buffer := c.buffer ++ c.wire.take n, wire := c.wire.drop n }
  | recvBody {n : Nat} {buffer : Str} {head : RequestHeader} {read : BodyRead} :
    c.pending = [.readBody buffer head read] → 0 < n → n ≤ c.wire.length →
    S.readBody head buffer = .needMore → Moves S c (.recv 0 n)
      { c with
        wire := c.wire.drop n, pending := [.readBody (buffer ++ c.wire.take n) head read] }
  | refused : c.pending = [.readHeader] → Refused c →
    Moves S c (.complete 0) { c with pending := [] }
  | header {head : RequestHeader} {size : Nat} : c.pending = [.readHeader] →
    S.parser.parse c.buffer = .done head size →
    S.parser.contentLength head ≤ S.requestBodyLimit →
    Moves S c (.complete 0) (onRead S head (c.buffer.drop size) { c with pending := [] })
  | refusedBody {buffer : Str} {head : RequestHeader} {read : BodyRead} :
    c.pending = [.readBody buffer head read] → S.readBody head buffer = .error →
    Moves S c (.complete 0) { c with pending := [] }
  | body {buffer : Str} {head : RequestHeader} {read : BodyRead} {content : Str} {size : Nat} :
    c.pending = [.readBody buffer head read] → S.readBody head buffer = .done content size →
    Moves S c (.complete 0) (onBody S content read { c with pending := [] })
  | written {needEof : Bool} : c.pending = [.write needEof] →
    Moves S c (.complete 0) (onWrite S needEof { c with pending := [] })
  | failed {eof : Bool} {op : Op} : c.pending = [op] →
    Moves S c (.fail 0 eof) (onError S eof op { c with pending := [] })

section

variable {S : Setup} {c c' : Of S} {a : Act S.parser}

theorem single_cases {i : Nat} {op : Op} (hs : c.pending.length ≤ 1)
    (hi : c.pending[i]? = some op) : i = 0 ∧ c.pending = [op] := by
  obtain ⟨hlt, he⟩ := List.getElem?_eq_some_iff.mp hi
  have h0 : i = 0 := by omega
  subst h0
  obtain ⟨x, hx⟩ := List.length_eq_one_iff.mp (show c.pending.length = 1 by omega)
  refine ⟨rfl, ?_⟩
  rw [hx, List.getElem?_cons_zero] at hi
  rw [hx, Option.some.inj hi]

theorem moves_of_step (hs : c.pending.length ≤ 1) (h : step S c a = some c') : Moves S c a c' := by
  rcases step_cases h with ⟨q, rfl, rfl⟩ | ⟨i, n, op, x, rfl, hi, h0, hn, hx, rfl⟩ |
    ⟨i, op, rfl, hi, hf⟩ | ⟨i, eof, op, rfl, hi, rfl⟩
  · exact .send q
  · obtain ⟨rfl, hp⟩ := single_cases hs hi
    rcases receive_cases hx with ⟨rfl, hm, rfl⟩ | ⟨buffer, head, read, rfl, hm, rfl⟩
    · have he : (({ c with buffer := c.buffer ++ c.wire.take n, wire := c.wire.drop n } : Of S)
          |>.pending.set 0 .readHeader) = c.pending := by simp [hp]
      simp only [he]
      exact .recvHeader hp h0 hn hm
    · simp only [hp, List.set_cons_zero]
      exact .recvBody hp h0 hn hm
  · obtain ⟨rfl, hp⟩ := single_cases hs hi
    have ht : takeOp S 0 c = { c with pending := [] } := by simp [takeOp, hp]
    rw [ht] at hf
    rcases finish_cases hf with ⟨rfl, hr, rfl⟩ | ⟨head, size, rfl, hd, hl, rfl⟩ |
      ⟨buffer, head, read, rfl, herr, rfl⟩ | ⟨buffer, head, read, content, size, rfl, hd, rfl⟩ |
      ⟨needEof, rfl, rfl⟩
    · exact .refused hp hr
    · exact .header hp hd hl
    · exact .refusedBody hp herr
    · exact .body hp hd
    · exact .written hp
  · obtain ⟨rfl, hp⟩ := single_cases hs hi
    have ht : takeOp S 0 c = { c with pending := [] } := by simp [takeOp, hp]
    rw [ht]
    exact .failed hp

/-- One operation is in progress at most, and a body read in progress writes one response. -/
structure Serial (c : Of S) : Prop where
  single : c.pending.length ≤ 1
  once : ∀ buffer head read, .readBody buffer head read ∈ c.pending →
    ∀ bytes es, read.finish bytes = .ok es → ∃ w, Server.writes es = [w]

theorem serial_of_idle (h : c.pending = []) : Serial c := by
  refine ⟨by simp [h], fun buffer head read hm => ?_⟩
  rw [h] at hm
  cases hm

theorem serial_of_op {op : Op} (h : c.pending = [op])
    (hop : ∀ buffer head read, op ≠ .readBody buffer head read) : Serial c := by
  refine ⟨by simp [h], fun buffer head read hm => ?_⟩
  rw [h, List.mem_singleton] at hm
  exact absurd hm.symm (hop buffer head read)

theorem step_serial (hS : S.handler.AnswersOnce) (hs : Serial c) (h : step S c a = some c') :
    Serial c' := by
  cases moves_of_step hs.single h with
  | send q => exact ⟨hs.single, hs.once⟩
  | recvHeader hp h0 hn hm => exact ⟨hs.single, hs.once⟩
  | @recvBody n buffer head read hp h0 hn hm =>
    refine ⟨Nat.le_refl 1, fun buffer' head' read' hm' => ?_⟩
    cases List.mem_singleton.mp hm'
    exact hs.once buffer head read (hp ▸ List.mem_cons_self)
  | refused hp hr => exact serial_of_idle rfl
  | refusedBody hp herr => exact serial_of_idle rfl
  | @header head size hp hd hl =>
    rcases onRead_cases hS head (c.buffer.drop size) { c with pending := [] } with
      ⟨u, -, he⟩ | ⟨re, w, -, -, -, -, he⟩ | ⟨re, read, -, -, hb, hre, he⟩
    · rw [he]
      exact serial_of_idle rfl
    · rw [he]
      exact serial_of_op rfl fun _ _ _ h => (by cases h)
    · rw [he]
      refine ⟨Nat.le_refl 1, fun buffer' head' read' hm => ?_⟩
      cases List.mem_singleton.mp hm
      exact (hre.later read hb).2
  | @body buffer head read content size hp hd =>
    have hread := hs.once buffer head read (hp ▸ List.mem_cons_self)
    rcases onBody_cases content { c with pending := [] } hread with
      ⟨-, he⟩ | ⟨es, w, -, -, he⟩
    · rw [he]
      exact serial_of_idle rfl
    · rw [he]
      exact serial_of_op rfl fun _ _ _ h => (by cases h)
  | @written needEof hp =>
    cases needEof with
    | true => exact serial_of_idle rfl
    | false => exact serial_of_op rfl fun _ _ _ h => (by cases h)
  | @failed eof op hp =>
    obtain ⟨closed, he⟩ := onError_eq eof op { c with pending := [] }
    rw [he]
    exact serial_of_idle rfl

/-! ## Framing -/

/-- The requests that have not been handed to the router. -/
def ahead (c : Of S) : List (WireRequest S.parser) := c.sent.drop c.dispatched.length

/-- What has not been read, where this operation is in progress: the remaining requests, after the
rest of a body that is being read. Nothing is said once the connection is to be closed. -/
def SyncedAt (c : Of S) : Op → Prop
  | .readHeader => c.buffer ++ c.wire = wireBytes c.ahead
  | .readBody buffer head _ => c.buffer = [] ∧
    ∃ q : WireRequest S.parser, q.head = head ∧ buffer ++ c.wire = q.body ++ wireBytes c.ahead
  | .write needEof => c.buffer = [] ∧ (needEof = false → c.wire = wireBytes c.ahead)

structure Framed (c : Of S) : Prop where
  heads : c.dispatched <+: c.sent.map WireRequest.head
  synced : ∀ op ∈ c.pending, SyncedAt c op

/-- The answer to this header leaves no body behind on the stream: it reads the body, or the
connection is not read again. -/
def DealsWithBody (S : Setup) (head : RequestHeader) : Prop :=
  S.isUpgrade head = true ∨ ∀ re, S.handler.http head = .ok re →
    re.body.isSome = true ∨ ∀ w ∈ Server.writes re.effects, S.needEof w = true

/-- The whole body that follows this header has arrived in these bytes. -/
def HasBody (S : Setup) (head : RequestHeader) (b : Str) : Prop :=
  ∃ limit content n, S.parser.readBody limit head b = .done content n

/-- The body that follows this header is all of these bytes. -/
def IsBody (S : Setup) (head : RequestHeader) (b : Str) : Prop :=
  ∃ limit content, S.parser.readBody limit head b = .done content b.length

/-- A step that leaves a message behind has neither more nor less than the message in its buffer:
a header whose body is not read, and a body. -/
def Exact (c : Of S) (a : Act S.parser) : Prop :=
  ∀ i, a = .complete i →
    (∀ head size, c.pending[i]? = some .readHeader → S.parser.parse c.buffer = .done head size →
      DealsWithBody S head ∨ IsBody S head (c.buffer.drop size)) ∧
    (∀ buffer head read content size, c.pending[i]? = some (.readBody buffer head read) →
      S.readBody head buffer = .done content size → buffer.length = size)

theorem Framed.of_idle (h : c.dispatched <+: c.sent.map WireRequest.head) (hp : c.pending = []) :
    Framed c := by
  refine ⟨h, fun op hop => ?_⟩
  rw [hp] at hop
  cases hop

theorem Framed.of_op {op : Op} (h : c.dispatched <+: c.sent.map WireRequest.head)
    (hp : c.pending = [op]) (hop : SyncedAt c op) : Framed c := by
  refine ⟨h, fun op' hm => ?_⟩
  rw [hp, List.mem_singleton] at hm
  exact hm ▸ hop

theorem Framed.inProgress (hf : Framed c) {op : Op} (hp : c.pending = [op]) : SyncedAt c op :=
  hf.synced op (hp ▸ List.mem_cons_self)

/-- A request that is sent goes to the end of what is ahead. -/
theorem ahead_send (hd : c.dispatched <+: c.sent.map WireRequest.head)
    (q : WireRequest S.parser) (wire : Str) :
    ahead { c with sent := c.sent ++ [q], wire := wire } = c.ahead ++ [q] := by
  have hle : c.dispatched.length ≤ c.sent.length := by simpa using hd.length_le
  exact List.drop_append_of_le_length hle

/-- **A header that is read in step is that of the next request**, and its body follows. -/
theorem Framed.next (hf : Framed c) (hp : c.pending = [.readHeader]) {head : RequestHeader}
    {size : Nat} (hd : S.parser.parse c.buffer = .done head size) :
    ∃ q rest, c.ahead = q :: rest ∧ q.head = head ∧ q.headBytes.length = size ∧
      c.buffer.drop size ++ c.wire = q.body ++ wireBytes rest ∧
      c.dispatched ++ [head] <+: c.sent.map WireRequest.head ∧
      c.sent.drop (c.dispatched ++ [head]).length = rest := by
  obtain ⟨q, rest, hq, hhead, hsize, hbody⟩ := S.parser.frame hd (hf.inProgress hp)
  have hsent : c.sent = c.sent.take c.dispatched.length ++ q :: rest := by
    have := List.take_append_drop c.dispatched.length c.sent
    rw [← hq]
    exact this.symm
  have hle : c.dispatched.length ≤ c.sent.length := by simpa using hf.heads.length_le
  have hlen : (c.sent.take c.dispatched.length).length = c.dispatched.length := by
    rw [List.length_take]
    omega
  have hdisp : c.dispatched = (c.sent.take c.dispatched.length).map WireRequest.head := by
    rw [List.map_take]
    exact (List.prefix_iff_eq_take.mp hf.heads)
  refine ⟨q, rest, hq, hhead, hsize, hbody, ⟨rest.map WireRequest.head, ?_⟩, ?_⟩
  · conv_rhs => rw [hsent]
    rw [List.map_append, ← hdisp, List.map_cons, hhead, List.append_assoc]
    rfl
  · have hdrop : c.sent.drop (c.dispatched.length + 1) =
        (c.sent.drop c.dispatched.length).drop 1 := by rw [List.drop_drop]
    have hq' : c.sent.drop c.dispatched.length = q :: rest := hq
    rw [List.length_append, List.length_singleton, hdrop, hq']
    rfl

/-- A request that is sent comes after all that is ahead, so what is in progress stays in step. -/
theorem Framed.send (hf : Framed c) (q : WireRequest S.parser) :
    Framed { c with sent := c.sent ++ [q], wire := c.wire ++ q.bytes } := by
  refine ⟨?_, fun op hop => ?_⟩
  · rw [List.map_append]
    exact hf.heads.trans (List.prefix_append _ _)
  · have hop' := hf.synced op hop
    have hahead : wireBytes (c.ahead ++ [q]) = wireBytes c.ahead ++ q.bytes := by
      simp [wireBytes]
    cases op with
    | readHeader =>
      simp only [SyncedAt, ahead_send hf.heads] at hop' ⊢
      rw [← List.append_assoc, hop', hahead]
    | readBody buffer head read =>
      obtain ⟨hb, r, hr, hw⟩ := hop'
      refine ⟨hb, r, hr, ?_⟩
      rw [ahead_send hf.heads, hahead, ← List.append_assoc, ← List.append_assoc, hw]
    | write needEof =>
      refine ⟨hop'.1, fun he => ?_⟩
      rw [ahead_send hf.heads, hahead, hop'.2 he]

/-- A header has been found, and is handed over. -/
theorem framed_header (hS : S.handler.AnswersOnce) (hf : Framed c) (hx : Exact c (.complete 0))
    {head : RequestHeader} {size : Nat} (hp : c.pending = [.readHeader])
    (hd : S.parser.parse c.buffer = .done head size) :
    Framed (onRead S head (c.buffer.drop size) { c with pending := [] }) := by
  obtain ⟨q, rest, hq, hhead, -, hbody, hheads, hahead⟩ := hf.next hp hd
  rcases onRead_cases hS head (c.buffer.drop size) { c with pending := [] } with
    ⟨u, -, he⟩ | ⟨re, w, hu, hr, hb, hw, he⟩ | ⟨re, read, hu, hr, hb, hre, he⟩
  · rw [he]
    exact .of_idle hheads rfl
  · rw [he]
    refine .of_op hheads rfl ⟨rfl, fun heof => ?_⟩
    -- the body was not read, so all of it was in the buffer
    have hexact : (c.buffer.drop size).length = q.body.length := by
      rcases (hx 0 rfl).1 head size (by simp [hp]) hd with hdeal | ⟨limit, content, hall⟩
      · rcases hdeal with hup | hdeal
        · rw [hu] at hup; cases hup
        · rcases hdeal re hr with hsome | hall
          · rw [hb] at hsome; cases hsome
          · rw [hw] at hall
            rw [hall w List.mem_cons_self] at heof
            cases heof
      · rw [← hhead] at hall
        exact (q.readBody_unique hall ⟨_, hbody⟩).2
    have hwire : c.wire = wireBytes rest := (List.append_inj hbody hexact).2
    rw [← hahead] at hwire
    exact hwire
  · rw [he]
    refine .of_op hheads rfl ⟨rfl, q, hhead, ?_⟩
    rw [← hahead] at hbody
    exact hbody

/-- **A step that leaves no message behind in part keeps the framing.** -/
theorem step_framed (hS : S.handler.AnswersOnce) (hs : Serial c) (hf : Framed c)
    (hx : Exact c a) (h : step S c a = some c') : Framed c' := by
  cases moves_of_step hs.single h with
  | send q => exact hf.send q
  | @recvHeader n hp h0 hn hm =>
    refine .of_op hf.heads hp ?_
    have hsync := hf.inProgress hp
    simp only [SyncedAt] at hsync ⊢
    rw [List.append_assoc, List.take_append_drop]
    exact hsync
  | @recvBody n buffer head read hp h0 hn hm =>
    refine .of_op hf.heads rfl ?_
    obtain ⟨hb, q, hq, hw⟩ := hf.inProgress hp
    refine ⟨hb, q, hq, ?_⟩
    rw [List.append_assoc, List.take_append_drop]
    exact hw
  | refused hp hr => exact .of_idle hf.heads rfl
  | refusedBody hp herr => exact .of_idle hf.heads rfl
  | @header head size hp hd hl =>
    exact framed_header hS hf hx hp hd
  | @body buffer head read content size hp hd =>
    obtain ⟨hbuf, q, rfl, hw⟩ := hf.inProgress hp
    rcases onBody_cases content { c with pending := [] }
        (hs.once buffer q.head read (hp ▸ List.mem_cons_self)) with ⟨-, he⟩ | ⟨es, w, -, -, he⟩
    · rw [he]
      exact .of_idle hf.heads rfl
    · rw [he]
      refine .of_op hf.heads rfl ⟨hbuf, fun _ => ?_⟩
      have hexact := (hx 0 rfl).2 buffer q.head read content size (by simp [hp]) hd
      exact (List.append_inj hw (hexact.trans (q.readBody_unique hd ⟨_, hw⟩).2)).2
  | @written needEof hp =>
    obtain ⟨hbuf, hwire⟩ := hf.inProgress hp
    cases needEof with
    | true => exact .of_idle hf.heads rfl
    | false =>
      refine .of_op hf.heads rfl ?_
      have hwire := hwire rfl
      show c.buffer ++ c.wire = wireBytes c.ahead
      rw [hbuf, hwire]
      rfl
  | @failed eof op hp =>
    obtain ⟨closed, he⟩ := onError_eq eof op { c with pending := [] }
    rw [he]
    exact .of_idle hf.heads rfl

/-! ## A client that waits for the responses -/

/-- The client sends a request when every request before it was answered. -/
def TakesTurns (c : Of S) (a : Act S.parser) : Prop := ∀ q, a = .send q → c.sent.length ≤ c.writes

/-- A header whose body the router does not read is handed over when the whole body has arrived
with it, or the connection is not read again. -/
def NoUnreadBody (c : Of S) (a : Act S.parser) : Prop :=
  ∀ i, a = .complete i → ∀ head size, c.pending[i]? = some .readHeader →
    S.parser.parse c.buffer = .done head size →
    DealsWithBody S head ∨ HasBody S head (c.buffer.drop size)

/-- One response for each header that was handed over, except while a body is read. -/
def CountedAt (c : Of S) : Op → Prop
  | .readBody _ _ _ => c.writes + 1 = c.dispatched.length
  | _ => c.writes = c.dispatched.length

/-- At most one request has been sent and not been answered. -/
structure Turns (c : Of S) : Prop where
  sent : c.sent.length ≤ c.writes + 1
  counted : ∀ op ∈ c.pending, CountedAt c op

theorem Turns.of_idle (h : c.sent.length ≤ c.writes + 1) (hp : c.pending = []) : Turns c := by
  refine ⟨h, fun op hop => ?_⟩
  rw [hp] at hop
  cases hop

theorem Turns.of_op {op : Op} (h : c.sent.length ≤ c.writes + 1) (hp : c.pending = [op])
    (hop : CountedAt c op) : Turns c := by
  refine ⟨h, fun op' hm => ?_⟩
  rw [hp, List.mem_singleton] at hm
  exact hm ▸ hop

theorem Turns.inProgress (ht : Turns c) {op : Op} (hp : c.pending = [op]) : CountedAt c op :=
  ht.counted op (hp ▸ List.mem_cons_self)

theorem step_turns (hS : S.handler.AnswersOnce) (hs : Serial c) (ht : Turns c)
    (hx : TakesTurns c a) (h : step S c a = some c') : Turns c' := by
  cases moves_of_step hs.single h with
  | send q =>
    have hle := hx q rfl
    refine ⟨?_, ht.counted⟩
    simp only [List.length_append, List.length_singleton]
    omega
  | recvHeader hp h0 hn hm => exact ⟨ht.sent, ht.counted⟩
  | recvBody hp h0 hn hm => exact .of_op ht.sent rfl (ht.inProgress hp)
  | refused hp hr => exact .of_idle ht.sent rfl
  | refusedBody hp herr => exact .of_idle ht.sent rfl
  | @header head size hp hd hl =>
    have hc : c.writes = c.dispatched.length := ht.inProgress hp
    have hlen : (c.dispatched ++ [head]).length = c.dispatched.length + 1 := by simp
    rcases onRead_cases hS head (c.buffer.drop size) { c with pending := [] } with
      ⟨u, -, he⟩ | ⟨re, w, -, -, -, -, he⟩ | ⟨re, read, -, -, -, -, he⟩
    · rw [he]
      exact .of_idle ht.sent rfl
    · rw [he]
      refine .of_op (Nat.le_succ_of_le ht.sent) rfl ?_
      show c.writes + 1 = (c.dispatched ++ [head]).length
      omega
    · rw [he]
      refine .of_op ht.sent rfl ?_
      show c.writes + 1 = (c.dispatched ++ [head]).length
      omega
  | @body buffer head read content size hp hd =>
    have hc : c.writes + 1 = c.dispatched.length := ht.inProgress hp
    rcases onBody_cases content { c with pending := [] }
        (hs.once buffer head read (hp ▸ List.mem_cons_self)) with ⟨-, he⟩ | ⟨es, w, -, -, he⟩
    · rw [he]
      exact .of_idle ht.sent rfl
    · rw [he]
      exact .of_op (Nat.le_succ_of_le ht.sent) rfl hc
  | @written needEof hp =>
    have hc : c.writes = c.dispatched.length := ht.inProgress hp
    cases needEof with
    | true => exact .of_idle ht.sent rfl
    | false => exact .of_op ht.sent rfl hc
  | @failed eof op hp =>
    obtain ⟨closed, he⟩ := onError_eq eof op { c with pending := [] }
    rw [he]
    exact .of_idle ht.sent rfl

/-- While the client waits, no byte after the current request is on its way. -/
theorem exact_of_turns (hs : Serial c) (hf : Framed c) (ht : Turns c) (hx : NoUnreadBody c a) :
    Exact c a := by
  intro i ha
  refine ⟨fun head size hi hd => ?_, fun buffer head read content size hi hd => ?_⟩
  · obtain ⟨-, hp⟩ := single_cases hs.single hi
    obtain ⟨q, rest, hq, hhead, -, hbody, -, -⟩ := hf.next hp hd
    refine (hx i ha head size hi hd).imp_right fun ⟨limit, content, n, hall⟩ => ?_
    -- the request is the last one that was sent
    have hc : c.writes = c.dispatched.length := ht.inProgress hp
    have hrest : rest = [] := by
      have hl := congrArg List.length hq
      have hsent := ht.sent
      simp only [ahead, List.length_drop, List.length_cons] at hl
      exact List.eq_nil_of_length_eq_zero (by omega)
    have hl := congrArg List.length hbody
    simp only [hrest, wireBytes_nil, List.append_nil, List.length_append] at hl
    have hle := RequestParser.readBody_le hall
    have hn : n = q.body.length := (q.readBody_unique (hhead ▸ hall) ⟨_, hbody⟩).2
    have hlen : n = (c.buffer.drop size).length := by omega
    exact ⟨limit, content, hlen ▸ hall⟩
  · obtain ⟨-, hp⟩ := single_cases hs.single hi
    obtain ⟨-, q, rfl, hw⟩ := hf.inProgress hp
    have hc : c.writes + 1 = c.dispatched.length := ht.inProgress hp
    have hrest : c.ahead = [] := List.drop_of_length_le (by have := ht.sent; omega)
    have hl := congrArg List.length hw
    simp only [hrest, wireBytes_nil, List.append_nil, List.length_append] at hl
    have hle := RequestParser.readBody_le hd
    have hn : size = q.body.length := (q.readBody_unique hd ⟨_, hw⟩).2
    omega

theorem inductive_turns (hS : S.handler.AnswersOnce) :
    (system S).Inductive (fun c a => TakesTurns c a ∧ NoUnreadBody c a)
      (fun c => Serial c ∧ Framed c ∧ Turns c) where
  base c hc := by
    cases hc
    exact ⟨serial_of_op rfl fun _ _ _ h => (by cases h),
      .of_op (List.nil_prefix) rfl rfl, .of_op (Nat.zero_le _) rfl rfl⟩
  keep c a c' hI hx h := by
    obtain ⟨hs, hf, ht⟩ := hI
    exact ⟨step_serial hS hs h, step_framed hS hs hf (exact_of_turns hs hf ht hx.2) h,
      step_turns hS hs ht hx.1 h⟩

end

/-- **No byte of a body is taken for a header**, for every router and every segmentation, while
the client waits for the responses and no header is handed over whose body is not read and has not
arrived: the headers that are handed to the router are those of the requests that were sent, in
order. -/
theorem dispatched_of_turns (env : Env) (parser : RequestParser) (r : Router) (limit : Nat)
    {c : Of (r.setup env parser limit)}
    (h : (system (r.setup env parser limit)).Reach
      (fun c a => TakesTurns c a ∧ NoUnreadBody c a) c) :
    (∀ head ∈ c.dispatched, ∃ q ∈ c.sent, q.head = head) ∧
      c.dispatched <+: c.sent.map WireRequest.head := by
  have hheads := ((inductive_turns (r.setup_answersOnce env parser limit)).reach h).2.1.heads
  refine ⟨fun head hm => ?_, hheads⟩
  obtain ⟨q, hq, he⟩ := List.mem_map.mp (hheads.subset hm)
  exact ⟨q, hq, he⟩

/-- The executable form of `TakesTurns`. -/
def takesTurns {S : Setup} (c : Of S) : Act S.parser → Bool
  | .send _ => c.sent.length ≤ c.writes
  | _ => true

theorem takesTurns_sound {S : Setup} {c : Of S} {a : Act S.parser} (h : takesTurns c a = true) :
    TakesTurns c a := by
  rintro q rfl
  simpa [takesTurns] using h

/-- A router without endpoints: every request is an unknown request. -/
def bareSite : Router where
  logger := true
  subRouters := []
  endpointsHttp := []
  endpointsWebsocket := []
  policies := []
  serverStr := lit "malloy"

def getRoot : WireRequest RequestParser.plain where
  head := { method := .get, target := lit "/" }
  headBytes := lit "GET / HTTP/1.1\r\n\r\n"
  body := []
  content := []
  parses := by decide
  delimits := by decide

/-- A `POST` whose body is the text of `getRoot`. -/
def postGetRoot : WireRequest RequestParser.plain where
  head := { method := .post, target := lit "/", fields := [(lit "Content-Length", lit "18")] }
  headBytes := lit "POST / HTTP/1.1\r\nContent-Length: 18\r\n\r\n"
  body := lit "GET / HTTP/1.1\r\n\r\n"
  content := lit "GET / HTTP/1.1\r\n\r\n"
  parses := by decide
  delimits := by decide

/-- The executable form of `NoUnreadBody`, for routers that read no body. -/
def bodyArrived {S : Setup} (c : Of S) : Act S.parser → Bool
  | .complete i =>
    match c.pending[i]?, S.parser.parse c.buffer with
    | some .readHeader, .done head size =>
      match S.readBody head (c.buffer.drop size) with
      | .done _ _ => true
      | _ => false
    | _, _ => true
  | _ => true

theorem bodyArrived_sound {S : Setup} {c : Of S} {a : Act S.parser} (h : bodyArrived c a = true) :
    NoUnreadBody c a := by
  rintro i rfl head size hi hd
  simp only [bodyArrived, hi, hd] at h
  split at h
  · rename_i content n hread
    exact .inr ⟨_, content, n, hread⟩
  · cases h

/-- The same text is not taken for a header when it arrives with the header of its request. -/
theorem dispatched_of_turns_bareSite :
    ∃ c : Of (bareSite.setup Env.bare RequestParser.plain),
      c.dispatched = [postGetRoot.head, getRoot.head] ∧
      (∀ head ∈ c.dispatched, ∃ q ∈ c.sent, q.head = head) ∧
      c.dispatched <+: c.sent.map WireRequest.head := by
  have hrun : ((system (bareSite.setup Env.bare RequestParser.plain)).exec
      (fun c a => takesTurns c a && bodyArrived c a)
      { pending := [.readHeader] } [.send postGetRoot, .recv 0 57, .complete 0, .complete 0,
        .send getRoot, .recv 0 18, .complete 0]).map (·.dispatched) =
      some [postGetRoot.head, getRoot.head] := by decide +kernel
  obtain ⟨c, hc, hd⟩ := Option.map_eq_some_iff.mp hrun
  have hreach := Lib.Sys.reach_exec (fun c a ho =>
    And.imp takesTurns_sound bodyArrived_sound (Bool.and_eq_true_iff.mp ho)) _ (.init rfl) hc
  exact ⟨c, hd, dispatched_of_turns Env.bare RequestParser.plain bareSite _ hreach⟩

/-- The body of a request that no endpoint reads is dispatched as a request, if it arrives after
the header. -/
theorem unread_body_is_dispatched :
    ¬ ∀ (env : Env) (parser : RequestParser) (r : Router) (limit : Nat)
        (c : Of (r.setup env parser limit)),
      (system (r.setup env parser limit)).Reach TakesTurns c →
      ∀ head ∈ c.dispatched, ∃ q ∈ c.sent, q.head = head := by
  intro h
  have hrun : ((system (bareSite.setup Env.bare RequestParser.plain)).exec takesTurns
      { pending := [.readHeader] } [.send postGetRoot, .recv 0 39, .complete 0, .complete 0,
        .recv 0 18, .complete 0]).map (fun c => (c.dispatched, c.sent.map WireRequest.head)) =
      some ([postGetRoot.head, getRoot.head], [postGetRoot.head]) := by decide +kernel
  obtain ⟨c, hc, he⟩ := Option.map_eq_some_iff.mp hrun
  obtain ⟨hd, hs⟩ := Prod.mk.inj he
  have hreach := Lib.Sys.reach_exec (fun _ _ => takesTurns_sound) _ (.init rfl) hc
  obtain ⟨q, hq, hh⟩ := h Env.bare RequestParser.plain bareSite _ c hreach getRoot.head
    (by rw [hd]; simp)
  have hm : q.head ∈ c.sent.map WireRequest.head := List.mem_map_of_mem hq
  rw [hs, hh] at hm
  exact absurd hm (by decide)

end HttpConnection
end Server
end Malloy
