import Malloy.Server.Http.Framing
import Mathlib.Algebra.GroupWithZero.Nat

/-!
# Requests that are sent back to back

The client sends requests without waiting for the responses, and each is handled by an endpoint
that reads its body and keeps the connection alive. A read may take in bytes of the next request.
The buffer that holds them is the generator's, and is destroyed with it: the connection's own
buffer is empty at every `do_read()`. (The `connection_detector` hands its buffer on.)

* `NoReadAhead`: each read takes in bytes of the request that it reads, and no others.
* `Steady`: the invariant of the runs without read-ahead. Some operation is in progress, and what
  is in its buffer belongs to its request.
* `work`: each step of the connection has less of it, so a run without new requests ends;
  `dispatched_of_final` says that all requests are dispatched then.
* `dispatched_of_pipelined` is the result, and `pipelined_request_is_lost` shows that it fails as
  soon as two requests arrive in one segment.
-/

namespace Malloy
namespace Server
namespace HttpConnection

open Http

/-! ## The runs -/

/-- The callback of this body read answers with a response that keeps the connection alive. -/
def KeepsAlive (S : Setup) (read : BodyRead) (bytes : Str) : Prop :=
  ∃ es, read.finish bytes = .ok es ∧ ∀ w ∈ Server.writes es, S.needEof w = false

/-- The request is dispatched to an endpoint that reads its body and answers with keep-alive. -/
structure KeptAlive (S : Setup) (q : WireRequest S.parser) : Prop where
  plain : S.isUpgrade q.head = false
  limit : q.content.length ≤ S.requestBodyLimit
  answer : ∃ re read, S.handler.http q.head = .ok re ∧ re.body = some read ∧
    KeepsAlive S read q.content

section

variable {S : Setup}

/-- Such requests are sent, at any time, and no operation fails. -/
def Pipelined (_ : Of S) (a : Act S.parser) : Prop :=
  (∀ q, a = .send q → KeptAlive S q) ∧ ∀ i eof, a ≠ .fail i eof

/-- A read takes in no byte after the end of the request that it reads. -/
def NoReadAhead (c : Of S) (a : Act S.parser) : Prop :=
  ∀ i n, a = .recv i n →
    (c.pending[i]? = some .readHeader →
      ∀ q ∈ c.ahead.head?, c.buffer.length + n ≤ q.bytes.length) ∧
    ∀ buffer head read content size, c.pending[i]? = some (.readBody buffer head read) →
      S.readBody head (buffer ++ c.wire) = .done content size → buffer.length + n ≤ size

/-- A step that meets `ok`, and is not a new request. -/
def GoesOn (ok : Of S → Act S.parser → Prop) (c : Of S) (a : Act S.parser) : Prop :=
  ok c a ∧ ∀ q, a ≠ .send q

/-! ## The invariant -/

/-- What is in the buffer belongs to the request that is read, and the response to it will keep the
connection alive. -/
def SteadyAt (c : Of S) : Op → Prop
  | .readHeader => ∀ q ∈ c.ahead.head?, c.buffer.length ≤ q.bytes.length
  | .readBody buffer head read => ∃ content size,
    S.readBody head (buffer ++ c.wire) = .done content size ∧ buffer.length ≤ size ∧
      KeepsAlive S read content
  | .write needEof => needEof = false

structure Steady (c : Of S) : Prop where
  kept : ∀ q ∈ c.sent, KeptAlive S q
  busy : ∃ op, c.pending = [op] ∧ SteadyAt c op

variable {c c' : Of S} {a : Act S.parser}

theorem Steady.inProgress (hst : Steady c) {op : Op} (hp : c.pending = [op]) : SteadyAt c op := by
  obtain ⟨op', hp', hop⟩ := hst.busy
  rw [hp', List.singleton_inj] at hp
  exact hp ▸ hop

theorem Steady.kept_ahead (hst : Steady c) {q : WireRequest S.parser}
    {rest : List (WireRequest S.parser)} (h : c.ahead = q :: rest) : KeptAlive S q :=
  hst.kept q (List.mem_of_mem_drop (h ▸ List.mem_cons_self))

/-- The header of a request that was sent is not refused. -/
theorem not_refused (hf : Framed c) (hst : Steady c) (hp : c.pending = [.readHeader]) :
    ¬ Refused c := by
  rintro (herr | ⟨head, size, hd, hlim⟩)
  · have hsync : c.buffer ++ c.wire = wireBytes c.ahead := hf.inProgress hp
    have hall := S.parser.error_append c.wire herr
    rw [hsync] at hall
    cases hq : c.ahead with
    | nil =>
      rw [hq, wireBytes_nil, S.parser.parse_nil] at hall
      cases hall
    | cons q rest =>
      rw [hq, wireBytes_cons, S.parser.done_append _ q.parses] at hall
      cases hall
  · obtain ⟨q, rest, hq, rfl, -, -, -, -⟩ := hf.next hp hd
    have hle := (hst.kept_ahead hq).limit
    have hlen := q.contentLength_le
    omega

/-- **A header that was sent is answered by reading its body.** -/
theorem onRead_of_kept (hS : S.handler.AnswersOnce) {q : WireRequest S.parser}
    (hk : KeptAlive S q) (rest : Str) (c : Of S) :
    ∃ read, KeepsAlive S read q.content ∧
      onRead S q.head rest c = body S rest read q.head (handOver S q.head c) := by
  obtain ⟨re, read, hr, hb, hkeep⟩ := hk.answer
  rcases onRead_cases hS q.head rest c with
    ⟨u, hu | he, -⟩ | ⟨re', w, -, hr', hb', -, -⟩ | ⟨re', read', -, hr', hb', -, he⟩
  · rw [hk.plain] at hu; cases hu
  · rw [(he re hr).1] at hb; cases hb
  · rw [hr, Except.ok.injEq] at hr'
    rw [← hr', hb] at hb'
    cases hb'
  · rw [hr, Except.ok.injEq] at hr'
    rw [← hr', hb, Option.some.injEq] at hb'
    exact ⟨read, hkeep, hb' ▸ he⟩

/-- The whole request is read before the response to it is written. -/
theorem exact_of_steady (hs : Serial c) (hf : Framed c) (hst : Steady c) : Exact c a := by
  intro i _
  refine ⟨fun head size hi hd => ?_, fun buffer head read content size hi hd => ?_⟩
  · refine .inl (.inr fun re hr => .inl ?_)
    obtain ⟨-, hp⟩ := single_cases hs.single hi
    obtain ⟨q, rest, hq, hhead, -⟩ := hf.next hp hd
    obtain ⟨re', read, hr', hb, -⟩ := (hst.kept_ahead hq).answer
    rw [hhead, hr, Except.ok.injEq] at hr'
    rw [hr', hb]
    rfl
  · obtain ⟨-, hp⟩ := single_cases hs.single hi
    obtain ⟨content', size', hall, hle, -⟩ := hst.inProgress hp
    have hd' := RequestParser.readBody_append_done c.wire hd
    rw [← Setup.readBody, hall, BodyResult.done.injEq] at hd'
    exact Nat.le_antisymm (hd'.2 ▸ hle) (RequestParser.readBody_le hd)

/-- The body of a request that was sent is not refused. -/
theorem Steady.body_not_refused (hst : Steady c) {buffer : Str} {head : RequestHeader}
    {read : BodyRead} (hp : c.pending = [.readBody buffer head read]) :
    S.readBody head buffer ≠ .error := by
  intro herr
  obtain ⟨content, size, hall, -, -⟩ := hst.inProgress hp
  have herr' := RequestParser.readBody_append_error c.wire herr
  rw [← Setup.readBody, hall] at herr'
  cases herr'

/-- The callback of the body read keeps the connection alive with what was read. -/
theorem Steady.keepsAlive (hst : Steady c) {buffer content : Str} {head : RequestHeader}
    {read : BodyRead} {size : Nat} (hp : c.pending = [.readBody buffer head read])
    (hd : S.readBody head buffer = .done content size) : KeepsAlive S read content := by
  obtain ⟨content', size', hall, -, hkeep⟩ := hst.inProgress hp
  have hd' := RequestParser.readBody_append_done c.wire hd
  rw [← Setup.readBody, hall, BodyResult.done.injEq] at hd'
  exact hd'.1 ▸ hkeep

/-- A request that is sent does not come into the buffer of the one that is read. -/
theorem Steady.send (hst : Steady c) (hf : Framed c) {q : WireRequest S.parser}
    (hq : KeptAlive S q) : Steady { c with sent := c.sent ++ [q], wire := c.wire ++ q.bytes } := by
  refine ⟨fun q' hm => ?_, ?_⟩
  · rcases List.mem_append.mp hm with hm | hm
    · exact hst.kept q' hm
    · rw [List.mem_singleton.mp hm]
      exact hq
  · obtain ⟨op, hp, hop⟩ := hst.busy
    refine ⟨op, hp, ?_⟩
    cases op with
    | readHeader =>
      show ∀ q' ∈ (ahead { c with sent := _, wire := _ }).head?, c.buffer.length ≤ q'.bytes.length
      rw [ahead_send hf.heads]
      have hsync : c.buffer ++ c.wire = wireBytes c.ahead := hf.inProgress hp
      have hop : ∀ q' ∈ c.ahead.head?, c.buffer.length ≤ q'.bytes.length := hop
      cases hahead : c.ahead with
      | nil =>
        -- nothing was left to read, so the buffer is empty
        rw [hahead, wireBytes_nil] at hsync
        rw [(List.append_eq_nil_iff.mp hsync).1]
        intro q' _
        exact Nat.zero_le _
      | cons q₀ rest =>
        rw [hahead] at hop
        exact hop
    | readBody buffer head read =>
      obtain ⟨content, size, hall, hle, hkeep⟩ := hop
      refine ⟨content, size, ?_, hle, hkeep⟩
      show S.readBody head (buffer ++ (c.wire ++ q.bytes)) = _
      rw [← List.append_assoc]
      exact RequestParser.readBody_append_done q.bytes hall
    | write needEof => exact hop

/-- **A step without read-ahead keeps the invariant.** -/
theorem step_steady (hS : S.handler.AnswersOnce) (hs : Serial c) (hf : Framed c) (hst : Steady c)
    (hok : Pipelined c a) (hra : NoReadAhead c a) (h : step S c a = some c') : Steady c' := by
  cases moves_of_step hs.single h with
  | send q => exact hst.send hf (hok.1 q rfl)
  | @recvHeader n hp h0 hn hm =>
    refine ⟨hst.kept, .readHeader, hp, fun q hq => ?_⟩
    have hle := (hra 0 n rfl).1 (by simp [hp]) q hq
    simp only [List.length_append, List.length_take]
    omega
  | @recvBody n buffer head read hp h0 hn hm =>
    obtain ⟨content, size, hall, -, hkeep⟩ := hst.inProgress hp
    refine ⟨hst.kept, _, rfl, content, size, ?_, ?_, hkeep⟩
    · show S.readBody head (buffer ++ c.wire.take n ++ c.wire.drop n) = _
      rw [List.append_assoc, List.take_append_drop]
      exact hall
    · have hle := (hra 0 n rfl).2 buffer head read content size (by simp [hp]) hall
      simp only [List.length_append, List.length_take]
      omega
  | refused hp hr => exact absurd hr (not_refused hf hst hp)
  | @refusedBody buffer head read hp herr => exact absurd herr (hst.body_not_refused hp)
  | @header head size hp hd hl =>
    obtain ⟨q, rest, hq, rfl, hsize, hbody, -, -⟩ := hf.next hp hd
    obtain ⟨read, hkeep, he⟩ :=
      onRead_of_kept hS (hst.kept_ahead hq) (c.buffer.drop size) { c with pending := [] }
    rw [he]
    refine ⟨hst.kept, _, rfl, q.content, q.body.length, ?_, ?_, hkeep⟩
    · show S.readBody q.head (c.buffer.drop size ++ c.wire) = _
      rw [hbody]
      exact q.readBody_eq (hst.kept_ahead hq).limit _
    · have hle : c.buffer.length ≤ q.bytes.length :=
        hst.inProgress hp q (by rw [hq]; rfl)
      simp only [WireRequest.bytes, List.length_append] at hle
      rw [List.length_drop]
      omega
  | @body buffer head read content size hp hd =>
    obtain ⟨es, hes, hkeep⟩ := hst.keepsAlive hp hd
    rcases onBody_cases content { c with pending := [] }
        (hs.once buffer head read (hp ▸ List.mem_cons_self)) with
      ⟨⟨e, herr⟩, -⟩ | ⟨es', w, hes', hw, he⟩
    · rw [hes] at herr; cases herr
    · rw [he]
      rw [hes, Except.ok.injEq] at hes'
      rw [← hes'] at hw
      exact ⟨hst.kept, _, rfl, hkeep w (by rw [hw]; exact List.mem_cons_self)⟩
  | @written needEof hp =>
    have hkeep : needEof = false := hst.inProgress hp
    subst hkeep
    obtain ⟨hbuf, -⟩ := hf.inProgress hp
    refine ⟨hst.kept, .readHeader, rfl, fun q _ => ?_⟩
    show c.buffer.length ≤ q.bytes.length
    rw [hbuf]
    exact Nat.zero_le _
  | @failed eof op hp => exact absurd rfl (hok.2 0 eof)

theorem inductive_steady (hS : S.handler.AnswersOnce) :
    (system S).Inductive (fun c a => Pipelined c a ∧ NoReadAhead c a)
      (fun c => Serial c ∧ Framed c ∧ Steady c) where
  base c hc := by
    cases hc
    refine ⟨serial_of_op rfl fun _ _ _ h => (by cases h), .of_op List.nil_prefix rfl rfl,
      ⟨fun q hq => absurd hq List.not_mem_nil, .readHeader, rfl, fun q hq => ?_⟩⟩
    cases hq
  keep c a c' hI hok h := by
    obtain ⟨hs, hf, hst⟩ := hI
    exact ⟨step_serial hS hs h, step_framed hS hs hf (exact_of_steady hs hf hst) h,
      step_steady hS hs hf hst hok.1 hok.2 h⟩

/-! ## The runs end, and nothing is left then -/

theorem pipelined_recv (i n : Nat) : Pipelined c (.recv i n) :=
  ⟨fun q h => (by cases h), fun i eof h => (by cases h)⟩

theorem pipelined_complete (i : Nat) : Pipelined c (.complete i) :=
  ⟨fun q h => (by cases h), fun i eof h => (by cases h)⟩

/-- A read that needs more bytes can take in one that belongs to its request. -/
theorem not_final_of_read (hf : Framed c) {op : Op} (hp : c.pending = [op]) (hw : c.wire ≠ [])
    (hop : op = .readHeader ∧ S.parser.parse c.buffer = .needMore ∨
      ∃ buffer head read, op = .readBody buffer head read ∧ S.readBody head buffer = .needMore) :
    ¬ (system S).Final (GoesOn fun c a => Pipelined c a ∧ NoReadAhead c a) c := by
  intro hfin
  have h1 : 1 ≤ c.wire.length := List.length_pos_of_ne_nil hw
  refine hfin (.recv 0 1) _ ⟨⟨pipelined_recv 0 1, ?_⟩, fun q h => (by cases h)⟩
    (Option.eq_some_of_isSome ?_)
  · rintro i n hin
    cases hin
    rw [hp, List.getElem?_cons_zero]
    rcases hop with ⟨rfl, hm⟩ | ⟨buffer, head, read, rfl, hm⟩
    · refine ⟨fun _ q hq => ?_, fun buffer head read content size h => (by cases h)⟩
      -- a buffer with the whole header would be enough
      have hsync : c.buffer ++ c.wire = wireBytes c.ahead := hf.inProgress hp
      obtain ⟨rest, hahead⟩ : ∃ rest, c.ahead = q :: rest := List.head?_eq_some_iff.mp hq
      rw [hahead, wireBytes_cons] at hsync
      have hshort : c.buffer.length < q.headBytes.length := by
        by_contra hge
        have hpre : q.headBytes <+: c.buffer :=
          List.prefix_of_prefix_length_le ⟨_, rfl⟩ ⟨_, hsync⟩ (Nat.le_of_not_lt hge)
        rw [S.parser.parse_of_headBytes hpre] at hm
        cases hm
      simp only [WireRequest.bytes, List.length_append]
      omega
    · refine ⟨fun h => (by cases h), fun buffer' head' read' content size h hall => ?_⟩
      cases h
      by_contra hge
      -- a buffer with the whole body would be enough
      obtain ⟨-, q, rfl, hw⟩ := hf.inProgress hp
      rw [hw] at hall
      have hsize := (q.readBody_unique hall List.prefix_rfl).2
      have hpre : q.body <+: buffer :=
        List.prefix_of_prefix_length_le ⟨_, rfl⟩ ⟨_, hw⟩ (by omega)
      rw [Setup.readBody, q.readBody_of_prefix hall hpre] at hm
      cases hm
  · rcases hop with ⟨rfl, hm⟩ | ⟨buffer, head, read, rfl, hm⟩
    · simp [system, step, hp, receive, hm, h1]
    · simp [system, step, hp, receive, h1, hm]

/-- An operation that can complete goes on. -/
theorem not_final_of_finish {op : Op} (hp : c.pending = [op])
    (h : (finish S (takeOp S 0 c) op).isSome = true) :
    ¬ (system S).Final (GoesOn fun c a => Pipelined c a ∧ NoReadAhead c a) c := by
  intro hfin
  refine hfin (.complete 0) _ ⟨⟨pipelined_complete 0, fun i n h => (by cases h)⟩,
    fun q h => (by cases h)⟩ (Option.eq_some_of_isSome ?_)
  simpa [system, step, hp] using h

/-- A body is read to its end. -/
theorem not_final_of_body (hf : Framed c) (hst : Steady c) {buffer : Str} {head : RequestHeader}
    {read : BodyRead} (hp : c.pending = [.readBody buffer head read]) :
    ¬ (system S).Final (GoesOn fun c a => Pipelined c a ∧ NoReadAhead c a) c := by
  cases hm : S.readBody head buffer with
  | error => exact absurd hm (hst.body_not_refused hp)
  | done content size => exact not_final_of_finish hp (by simp [finish, hm])
  | needMore =>
    refine not_final_of_read hf hp (fun hw => ?_) (.inr ⟨buffer, head, read, rfl, hm⟩)
    obtain ⟨content, size, hall, -, -⟩ := hst.inProgress hp
    rw [hw, List.append_nil, hm] at hall
    cases hall

/-- **When the run cannot go on, every request that was sent was dispatched.** -/
theorem dispatched_of_final (hf : Framed c) (hst : Steady c)
    (hfin : (system S).Final (GoesOn fun c a => Pipelined c a ∧ NoReadAhead c a) c) :
    c.dispatched = c.sent.map WireRequest.head := by
  obtain ⟨op, hp, hop⟩ := hst.busy
  cases op with
  | write needEof => exact absurd hfin (not_final_of_finish hp rfl)
  | readBody buffer head read => exact absurd hfin (not_final_of_body hf hst hp)
  | readHeader =>
    have hsync : c.buffer ++ c.wire = wireBytes c.ahead := hf.inProgress hp
    cases hm : S.parser.parse c.buffer with
    | error => exact absurd hfin (not_final_of_finish hp (by simp [finish, takeOp, hm]))
    | done head size =>
      refine absurd hfin (not_final_of_finish hp ?_)
      simp only [finish, takeOp, hm]
      split <;> rfl
    | needMore =>
      have hw : c.wire = [] := by
        by_contra hw
        exact not_final_of_read hf hp hw (.inl ⟨rfl, hm⟩) hfin
      cases hahead : c.ahead with
      | cons q rest =>
        rw [hw, List.append_nil, hahead, wireBytes_cons] at hsync
        rw [S.parser.parse_of_headBytes ⟨_, hsync.symm⟩] at hm
        cases hm
      | nil =>
        apply hf.heads.eq_of_length_le
        rw [List.length_map]
        exact List.drop_eq_nil_iff.mp hahead

/-- The steps that an operation still needs, if its bytes are there. -/
def Op.stage : Op → Nat
  | .readHeader => 0
  | .readBody _ _ _ => 2
  | .write _ => 1

/-- The bytes to read, and the steps to take without one. -/
def work (c : Of S) : Nat := c.wire.length + 3 * c.ahead.length + (c.pending.map Op.stage).sum

/-- **Each step of the connection leaves less to do.** -/
theorem step_work (hS : S.handler.AnswersOnce) (hs : Serial c) (hf : Framed c) (hst : Steady c)
    (hok : GoesOn Pipelined c a) (h : step S c a = some c') : c'.work < c.work := by
  cases moves_of_step hs.single h with
  | send q => exact absurd rfl (hok.2 q)
  | @recvHeader n hp h0 hn hm =>
    show (c.wire.drop n).length + 3 * c.ahead.length + (c.pending.map Op.stage).sum < c.work
    rw [List.length_drop, work]
    omega
  | @recvBody n buffer head read hp h0 hn hm =>
    rw [work, work, hp]
    show (c.wire.drop n).length + 3 * c.ahead.length + 2 < c.wire.length + 3 * c.ahead.length + 2
    rw [List.length_drop]
    omega
  | refused hp hr => exact absurd hr (not_refused hf hst hp)
  | refusedBody hp herr => exact absurd herr (hst.body_not_refused hp)
  | @header head size hp hd hl =>
    obtain ⟨q, rest, hq, rfl, -, -, -, hahead⟩ := hf.next hp hd
    obtain ⟨read, -, he⟩ :=
      onRead_of_kept hS (hst.kept_ahead hq) (c.buffer.drop size) { c with pending := [] }
    rw [he, work, work, hp, hq]
    show c.wire.length + 3 * (c.sent.drop (c.dispatched ++ [q.head]).length).length + 2 <
      c.wire.length + 3 * (rest.length + 1) + 0
    rw [hahead]
    omega
  | @body buffer head read content size hp hd =>
    have hsome := hs.once buffer head read (hp ▸ List.mem_cons_self)
    obtain ⟨es, hes, -⟩ := hst.keepsAlive hp hd
    rcases onBody_cases content { c with pending := [] } hsome with
      ⟨⟨e, herr⟩, -⟩ | ⟨es', w, -, -, he⟩
    · rw [hes] at herr; cases herr
    · rw [he, work, work, hp]
      show c.wire.length + 3 * c.ahead.length + 1 < c.wire.length + 3 * c.ahead.length + 2
      omega
  | @written needEof hp =>
    have hkeep : needEof = false := hst.inProgress hp
    subst hkeep
    rw [work, work, hp]
    show c.wire.length + 3 * c.ahead.length + 0 < c.wire.length + 3 * c.ahead.length + 1
    omega
  | @failed eof op hp => exact absurd rfl (hok.1.2 0 eof)

end

/-- **No request is lost when no read takes in bytes of the next one**, for every router and every
such segmentation: what was handed to the router is what was sent, in order, up to where the
connection is; it is all of it when the run cannot go on; and the run ends when no more is sent. -/
theorem dispatched_of_pipelined (env : Env) (parser : RequestParser) (r : Router) (limit : Nat)
    {c : Of (r.setup env parser limit)}
    (h : (system (r.setup env parser limit)).Reach (fun c a => Pipelined c a ∧ NoReadAhead c a) c) :
    c.dispatched <+: c.sent.map WireRequest.head ∧
      ((system (r.setup env parser limit)).Final
          (GoesOn fun c a => Pipelined c a ∧ NoReadAhead c a) c →
        c.dispatched = c.sent.map WireRequest.head) ∧
      ∀ a c', GoesOn Pipelined c a → step (r.setup env parser limit) c a = some c' →
        c'.work < c.work := by
  have hS := r.setup_answersOnce env parser limit
  obtain ⟨hs, hf, hst⟩ := (inductive_steady hS).reach h
  exact ⟨hf.heads, dispatched_of_final hf hst, fun a c' => step_work hS hs hf hst⟩

/-- The executable form of `KeptAlive`. -/
def keptAlive (S : Setup) (q : WireRequest S.parser) : Bool :=
  !S.isUpgrade q.head && q.content.length ≤ S.requestBodyLimit &&
    match S.handler.http q.head with
    | .error _ => false
    | .ok re =>
      match re.body with
      | none => false
      | some read =>
        match read.finish q.content with
        | .error _ => false
        | .ok es => (Server.writes es).all fun w => !S.needEof w

theorem keptAlive_sound {S : Setup} {q : WireRequest S.parser} (h : keptAlive S q = true) :
    KeptAlive S q := by
  simp only [keptAlive, Bool.and_eq_true, decide_eq_true_eq, Bool.not_eq_true'] at h
  obtain ⟨⟨hu, hl⟩, h⟩ := h
  split at h
  · cases h
  · rename_i re hr
    split at h
    · cases h
    · rename_i read hb
      split at h
      · cases h
      · rename_i es hes
        refine ⟨hu, hl, re, read, hr, hb, es, hes, fun w hw => ?_⟩
        simpa using List.all_eq_true.mp h w hw

/-- The executable form of `Pipelined`. -/
def pipelined {S : Setup} (_ : Of S) : Act S.parser → Bool
  | .send q => keptAlive S q
  | .fail _ _ => false
  | _ => true

theorem pipelined_sound {S : Setup} {c : Of S} {a : Act S.parser} (h : pipelined c a = true) :
    Pipelined c a := by
  refine ⟨?_, ?_⟩
  · rintro q rfl
    exact keptAlive_sound h
  · rintro i eof rfl
    cases h

/-- The executable form of `NoReadAhead`. -/
def noReadAhead {S : Setup} (c : Of S) : Act S.parser → Bool
  | .recv i n =>
    match c.pending[i]? with
    | some .readHeader => c.ahead.head?.all fun q => c.buffer.length + n ≤ q.bytes.length
    | some (.readBody buffer head _) =>
      match S.readBody head (buffer ++ c.wire) with
      | .done _ size => buffer.length + n ≤ size
      | _ => true
    | _ => true
  | _ => true

theorem noReadAhead_sound {S : Setup} {c : Of S} {a : Act S.parser} (h : noReadAhead c a = true) :
    NoReadAhead c a := by
  rintro i n rfl
  refine ⟨fun hi q hq => ?_, fun buffer head read content size hi hall => ?_⟩
  · simp only [noReadAhead, hi, Option.mem_def.mp hq, Option.all_some, decide_eq_true_eq] at h
    exact h
  · simpa [noReadAhead, hi, hall] using h

/-- A connection that waits for a header, with nothing left to read, does not go on. -/
theorem final_of_drained {S : Setup} {c : Of S} {ok : Of S → Act S.parser → Prop}
    (hok : ∀ c a, ok c a → Pipelined c a) (hp : c.pending.map Op.stage = [0])
    (hb : c.buffer = []) (hw : c.wire = []) : (system S).Final (GoesOn ok) c := by
  have hp : c.pending = [.readHeader] := by
    obtain ⟨op, hop, hstage⟩ := List.map_eq_singleton_iff.mp hp
    cases op with
    | readHeader => exact hop
    | readBody buffer head read => cases hstage
    | write needEof => cases hstage
  rintro a c' ⟨ho, hsend⟩ h
  rcases step_cases h with ⟨q, rfl, -⟩ | ⟨i, n, op, x, rfl, -, h0, hn, -, -⟩ |
    ⟨i, op, rfl, hi, hf⟩ | ⟨i, eof, op, rfl, -, -⟩
  · exact hsend q rfl
  · rw [hw, List.length_nil] at hn
    omega
  · obtain ⟨-, hop⟩ := single_cases (by simp [hp]) hi
    rw [hp, List.singleton_inj] at hop
    subst hop
    simp [finish, takeOp, hb, S.parser.parse_nil] at hf
  · exact (hok c _ ho).2 i eof rfl

/-- A router with an endpoint that reads the body of a request and keeps the connection. -/
def keepSite : Router where
  logger := true
  subRouters := []
  endpointsHttp := [.regex {
    method := .get
    resourceBase := fun target => if target = lit "/" then some [] else none
    handler := some (.plain fun _ => ok)
    writer := 0 }]
  endpointsWebsocket := []
  policies := []
  serverStr := lit "malloy"

/-- A request whose body is the text of `getRoot`, in one chunk. -/
def getChunked : WireRequest RequestParser.plain where
  head :=
    { method := .get, target := lit "/", fields := [(lit "Transfer-Encoding", lit "chunked")] }
  headBytes := lit "GET / HTTP/1.1\r\nTransfer-Encoding: chunked\r\n\r\n"
  body := lit "12\r\nGET / HTTP/1.1\r\n\r\n\r\n0\r\n\r\n"
  content := lit "GET / HTTP/1.1\r\n\r\n"
  parses := by decide
  delimits := by decide +kernel

/-- Two requests that are sent at once, and read one after the other, the first in two pieces. -/
theorem dispatched_of_pipelined_keepSite :
    ∃ c : Of (keepSite.setup Env.bare RequestParser.plain),
      c.sent.map WireRequest.head = [getChunked.head, getRoot.head] ∧
      c.dispatched = c.sent.map WireRequest.head := by
  have hrun : ((system (keepSite.setup Env.bare RequestParser.plain)).exec
      (fun c a => pipelined c a && noReadAhead c a)
      { pending := [.readHeader] } [.send getChunked, .send getRoot, .recv 0 55, .complete 0,
        .recv 0 20, .complete 0, .complete 0, .recv 0 18, .complete 0, .complete 0,
        .complete 0]).map (fun c =>
          (c.pending.map Op.stage, c.buffer, c.wire, c.sent.map WireRequest.head)) =
      some ([0], [], [], [getChunked.head, getRoot.head]) := by decide +kernel
  obtain ⟨c, hc, he⟩ := Option.map_eq_some_iff.mp hrun
  simp only [Prod.mk.injEq] at he
  obtain ⟨hp, hb, hw, hs⟩ := he
  have hreach := Lib.Sys.reach_exec (fun c a ho =>
    And.imp pipelined_sound noReadAhead_sound (Bool.and_eq_true_iff.mp ho)) _ (.init rfl) hc
  exact ⟨c, hs, (dispatched_of_pipelined Env.bare RequestParser.plain keepSite _ hreach).2.1
    (final_of_drained (fun _ _ ho => ho.1) hp hb hw)⟩

/-- Two requests that arrive in one segment: the second is lost. -/
theorem pipelined_request_is_lost :
    ¬ ∀ (env : Env) (parser : RequestParser) (r : Router) (limit : Nat)
        (c : Of (r.setup env parser limit)),
      (system (r.setup env parser limit)).Reach Pipelined c →
      (system (r.setup env parser limit)).Final (GoesOn Pipelined) c →
      c.dispatched = c.sent.map WireRequest.head := by
  intro h
  have hrun : ((system (keepSite.setup Env.bare RequestParser.plain)).exec pipelined
      { pending := [.readHeader] } [.send getRoot, .send getRoot, .recv 0 36, .complete 0,
        .complete 0, .complete 0]).map (fun c =>
          (c.pending.map Op.stage, c.buffer, c.wire, c.dispatched, c.sent.map WireRequest.head)) =
      some ([0], [], [], [getRoot.head], [getRoot.head, getRoot.head]) := by decide +kernel
  obtain ⟨c, hc, he⟩ := Option.map_eq_some_iff.mp hrun
  simp only [Prod.mk.injEq] at he
  obtain ⟨hp, hb, hw, hd, hs⟩ := he
  have hreach := Lib.Sys.reach_exec (fun _ _ => pipelined_sound) _ (.init rfl) hc
  have heq := h Env.bare RequestParser.plain keepSite _ c hreach
    (final_of_drained (fun _ _ ho => ho) hp hb hw)
  rw [hd, hs] at heq
  cases heq

end HttpConnection
end Server
end Malloy
