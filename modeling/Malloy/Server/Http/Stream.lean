import Malloy.Server.Http.Framing

/-!
# Where the requests of a connection come from

A client may send any bytes, not only requests. Whatever it sends, and however the reads cut it:

* `Streamed`: a connection, and all bytes that its client sent to it.
* `Span`: the place on the stream of a header that was dispatched. `Span.EndsBy`: the bytes that the
  connection took on behalf of the request, the header, and the body if the answer reads it, end
  before a place.
* `Traced`: every dispatched header has such a place, one behind the other, and what has not been
  read yet comes behind them. `traced_moves`: every step of the connection keeps it.
* `requests_from_stream`: so no header is taken from a body that an endpoint reads, and a body is
  what follows its header.
-/

namespace Malloy
namespace Server
namespace HttpConnection

open Http

variable {S : Setup}

/-! ## A client that sends bytes -/

/-- A connection, and the bytes that its client sent. -/
structure Streamed (S : Setup) where
  conn : Of S
  stream : Str

inductive StreamAct (P : RequestParser) where
  /-- The client sends these bytes. -/
  | send (bytes : Str)
  /-- A step of the connection. -/
  | server (a : Act P)

def streamStep (x : Streamed S) : StreamAct S.parser → Option (Streamed S)
  | .send bytes =>
    some { conn := { x.conn with wire := x.conn.wire ++ bytes }, stream := x.stream ++ bytes }
  | .server (.send _) => none
  | .server a => (step S x.conn a).map fun c => { x with conn := c }

/-- The runs of a connection with such a client. -/
def streamed (S : Setup) : Lib.Sys (Streamed S) (StreamAct S.parser) where
  init x := x = { conn := { pending := [.readHeader] }, stream := [] }
  step := streamStep

/-! ## The places of the requests -/

/-- The answer to this header reads the body. -/
def readsBody (S : Setup) (head : RequestHeader) : Bool :=
  !S.isUpgrade head &&
    match S.handler.http head with
    | .error _ => false
    | .ok re => re.body.isSome

/-- A header, and where on the stream it is. -/
structure Span where
  offset : Nat
  size : Nat
  head : RequestHeader

/-- The header has ended at this place, and so has the body if it is read, within the limit. -/
structure Span.EndsBy (S : Setup) (stream : Str) (s : Span) (k : Nat) : Prop where
  header : s.offset + s.size ≤ k
  body : readsBody S s.head = true → ∃ content n,
    S.readBody s.head (stream.drop (s.offset + s.size)) = .done content n ∧
      content.length ≤ S.requestBodyLimit ∧ s.offset + s.size + n ≤ k

/-- The header is read there, and does not say that its body is too long. -/
structure Span.Reads (S : Setup) (stream : Str) (s : Span) : Prop where
  parses : S.parser.parse (stream.drop s.offset) = .done s.head s.size
  limit : S.parser.contentLength s.head ≤ S.requestBodyLimit

/-- The headers have these places, one behind the other, from the first byte on. -/
structure Spans (S : Setup) (stream : Str) (dispatched : List RequestHeader) (spans : List Span) :
    Prop where
  heads : spans.map Span.head = dispatched
  reads : ∀ s ∈ spans, s.Reads S stream
  apart : spans.Pairwise fun s s' => s.EndsBy S stream s'.offset
  first : ∀ s, spans.head? = some s → s.offset = 0

/-- The bytes are the rest of the stream, from a place behind the requests on; before the first
request they are the whole stream. -/
def Behind (S : Setup) (stream : Str) (spans : List Span) (bytes : Str) : Prop :=
  ∃ k : Nat, k ≤ stream.length ∧ stream.drop k = bytes ∧ (∀ s ∈ spans, s.EndsBy S stream k) ∧
    (spans = [] → k = 0)

/-- What has not been read, where this operation is in progress. -/
def TracedAt (x : Streamed S) (spans : List Span) : Op → Prop
  | .readHeader => Behind S x.stream spans (x.conn.buffer ++ x.conn.wire)
  | .readBody buffer head _ => x.conn.buffer = [] ∧
    ∃ s, spans.getLast? = some s ∧ s.head = head ∧
      x.stream.drop (s.offset + s.size) = buffer ++ x.conn.wire
  | .write _ => x.conn.buffer = [] ∧ Behind S x.stream spans x.conn.wire

def Traced (x : Streamed S) : Prop :=
  ∃ spans, Spans S x.stream x.conn.dispatched spans ∧ ∀ op ∈ x.conn.pending, TracedAt x spans op

variable {x : Streamed S} {stream bytes : Str} {spans : List Span} {c c' : Of S}
  {dispatched : List RequestHeader}

theorem Span.Reads.stop_le {s : Span} (h : s.Reads S stream) :
    s.offset + s.size ≤ stream.length := by
  have hpos := S.parser.size_pos h.parses
  have hle := S.parser.size_le h.parses
  rw [List.length_drop] at hle
  omega

/-- What has ended stays where it is when the client sends more. -/
theorem Span.EndsBy.append {s : Span} {k : Nat} (h : s.EndsBy S stream k)
    (hr : s.Reads S stream) (bytes : Str) : s.EndsBy S (stream ++ bytes) k := by
  refine ⟨h.header, fun hreads => ?_⟩
  obtain ⟨content, n, hdone, hlim, hn⟩ := h.body hreads
  refine ⟨content, n, ?_, hlim, hn⟩
  rw [List.drop_append_of_le_length hr.stop_le]
  exact RequestParser.readBody_append_done bytes hdone

theorem Span.EndsBy.mono {s : Span} {k k' : Nat} (h : s.EndsBy S stream k) (hle : k ≤ k') :
    s.EndsBy S stream k' := by
  refine ⟨Nat.le_trans h.header hle, fun hreads => ?_⟩
  obtain ⟨content, n, hdone, hlim, hn⟩ := h.body hreads
  exact ⟨content, n, hdone, hlim, Nat.le_trans hn hle⟩

/-- What was read stays where it is when the client sends more. -/
theorem Spans.append (h : Spans S stream dispatched spans) (bytes : Str) :
    Spans S (stream ++ bytes) dispatched spans := by
  refine ⟨h.heads, fun s hs => ⟨?_, (h.reads s hs).limit⟩,
    h.apart.imp_of_mem fun hs _ hends => hends.append (h.reads _ hs) bytes, h.first⟩
  have hle := (h.reads s hs).stop_le
  rw [List.drop_append_of_le_length (by omega)]
  exact S.parser.done_append bytes (h.reads s hs).parses

theorem Behind.append (h : Behind S stream spans bytes) (hspans : Spans S stream dispatched spans)
    (more : Str) : Behind S (stream ++ more) spans (bytes ++ more) := by
  obtain ⟨k, hk, rfl, hends, hfirst⟩ := h
  refine ⟨k, ?_, List.drop_append_of_le_length hk,
    fun s hs => (hends s hs).append (hspans.reads s hs) more, hfirst⟩
  rw [List.length_append]
  omega

/-- What was behind a place is behind a later one. -/
theorem behind_of_drop {k : Nat} (hk : k ≤ stream.length) (hdrop : stream.drop k = bytes ++ c.wire)
    (hne : spans ≠ []) (hends : ∀ s ∈ spans, s.EndsBy S stream (k + bytes.length)) :
    Behind S stream spans c.wire := by
  have hlen := congrArg List.length hdrop
  rw [List.length_drop, List.length_append] at hlen
  refine ⟨k + bytes.length, by omega, ?_, hends, fun h => absurd h hne⟩
  rw [← List.drop_drop, hdrop, List.drop_left]

theorem traced_of_idle (spans : List Span) (h : Spans S stream c.dispatched spans)
    (hp : c.pending = []) : Traced ⟨c, stream⟩ := by
  refine ⟨spans, h, fun op hop => ?_⟩
  have hop : op ∈ c.pending := hop
  rw [hp] at hop
  cases hop

theorem traced_of_op (spans : List Span) {op : Op} (h : Spans S stream c.dispatched spans)
    (hp : c.pending = [op]) (hop : TracedAt ⟨c, stream⟩ spans op) : Traced ⟨c, stream⟩ := by
  refine ⟨spans, h, fun op' hm => ?_⟩
  have hm : op' ∈ c.pending := hm
  rw [hp, List.mem_singleton] at hm
  exact hm ▸ hop

/-- The client sends more. -/
theorem Traced.send (h : Traced ⟨c, stream⟩) (more : Str) :
    Traced ⟨{ c with wire := c.wire ++ more }, stream ++ more⟩ := by
  obtain ⟨spans, hspans, hat⟩ := h
  refine ⟨spans, hspans.append more, fun op hop => ?_⟩
  have hop := hat op hop
  cases op with
  | readHeader =>
    have hop := Behind.append hop hspans more
    simp only [List.append_assoc] at hop
    exact hop
  | readBody buffer head read =>
    obtain ⟨hb, s, hs, hhead, hdrop⟩ := hop
    refine ⟨hb, s, hs, hhead, ?_⟩
    have hle := (hspans.reads s (List.mem_of_getLast? hs)).stop_le
    show (stream ++ more).drop (s.offset + s.size) = buffer ++ (c.wire ++ more)
    rw [List.drop_append_of_le_length hle, hdrop, List.append_assoc]
  | write needEof => exact ⟨hop.1, hop.2.append hspans more⟩

/-- A header is dispatched that was found behind the others. -/
theorem Spans.dispatch (h : Spans S stream dispatched spans) {k size : Nat} {head : RequestHeader}
    (hparse : S.parser.parse (stream.drop k) = .done head size)
    (hlimit : S.parser.contentLength head ≤ S.requestBodyLimit)
    (hends : ∀ s ∈ spans, s.EndsBy S stream k) (hfirst : spans = [] → k = 0) :
    Spans S stream (dispatched ++ [head]) (spans ++ [⟨k, size, head⟩]) := by
  refine ⟨?_, fun s hs => ?_, ?_, fun s hs => ?_⟩
  · rw [List.map_append, h.heads]
    rfl
  · rcases List.mem_append.mp hs with hs | hs
    · exact h.reads s hs
    · rw [List.mem_singleton.mp hs]
      exact ⟨hparse, hlimit⟩
  · refine List.pairwise_append.mpr ⟨h.apart, List.pairwise_singleton _ _, fun s hs s' hs' => ?_⟩
    rw [List.mem_singleton.mp hs']
    exact hends s hs
  · cases spans with
    | nil =>
      cases hs
      exact hfirst rfl
    | cons _ rest =>
      cases hs
      exact h.first s rfl

/-- Where the last request has ended, all have. -/
theorem endsBy_of_getLast (h : Spans S stream dispatched spans) {s : Span} {k : Nat}
    (hlast : spans.getLast? = some s) (hends : s.EndsBy S stream k) :
    ∀ s' ∈ spans, s'.EndsBy S stream k := by
  obtain ⟨front, rfl⟩ := List.getLast?_eq_some_iff.mp hlast
  intro s' hs'
  rcases List.mem_append.mp hs' with hs' | hs'
  · have hbefore := (List.pairwise_append.mp h.apart).2.2 s' hs' s (List.mem_singleton.mpr rfl)
    exact hbefore.mono (Nat.le_trans (Nat.le_add_right _ _) hends.header)
  · rw [List.mem_singleton.mp hs']
    exact hends

/-! ## Runs -/

/-- A header has been found, and is handed over. -/
theorem traced_header (hS : S.handler.AnswersOnce) (hspans : Spans S stream c.dispatched spans)
    {head : RequestHeader} {size : Nat} (hat : Behind S stream spans (c.buffer ++ c.wire))
    (hd : S.parser.parse c.buffer = .done head size)
    (hl : S.parser.contentLength head ≤ S.requestBodyLimit) :
    Traced ⟨onRead S head (c.buffer.drop size) { c with pending := [] }, stream⟩ := by
  obtain ⟨k, hk, hdrop, hends, hfirst⟩ := hat
  have hsize := S.parser.size_le hd
  have hparse : S.parser.parse (stream.drop k) = .done head size := by
    rw [hdrop]
    exact S.parser.done_append c.wire hd
  have hspans' := hspans.dispatch hparse hl hends hfirst
  rcases onRead_cases hS head (c.buffer.drop size) { c with pending := [] } with
    ⟨u, -, he⟩ | ⟨re, w, hu, hre, hb, -, he⟩ | ⟨re, read, hu, hre, hb, -, he⟩
  · rw [he]
    exact traced_of_idle _ hspans' rfl
  · -- what the buffer held behind the header is gone
    rw [he]
    refine traced_of_op _ hspans' rfl ⟨rfl, behind_of_drop hk hdrop (by simp) fun s hs => ?_⟩
    rcases List.mem_append.mp hs with hs | hs
    · exact (hends s hs).mono (Nat.le_add_right _ _)
    · have hno : readsBody S head = false := by simp [readsBody, hu, hre, hb]
      rw [List.mem_singleton.mp hs]
      refine ⟨Nat.add_le_add_left hsize k, fun hreads => ?_⟩
      rw [hno] at hreads
      cases hreads
  · rw [he]
    refine traced_of_op _ hspans' rfl ⟨rfl, ⟨k, size, head⟩, by simp, rfl, ?_⟩
    show stream.drop (k + size) = c.buffer.drop size ++ c.wire
    rw [← List.drop_drop, hdrop, List.drop_append_of_le_length hsize]

/-- A body has been read, and the answer is written. -/
theorem traced_body (hspans : Spans S stream c.dispatched spans) {buffer content : Str}
    {head : RequestHeader} {read : BodyRead} {size : Nat}
    (hat : TracedAt ⟨c, stream⟩ spans (.readBody buffer head read))
    (honce : ∀ bytes es, read.finish bytes = .ok es → ∃ w, Server.writes es = [w])
    (hd : S.readBody head buffer = .done content size) :
    Traced ⟨onBody S content read { c with pending := [] }, stream⟩ := by
  obtain ⟨hb, s, hlast, rfl, hdrop⟩ := hat
  have hdrop : stream.drop (s.offset + s.size) = buffer ++ c.wire := hdrop
  rcases onBody_cases content { c with pending := [] } honce with ⟨-, he⟩ | ⟨es, w, -, -, he⟩
  · rw [he]
    exact traced_of_idle spans hspans rfl
  · -- what the buffer held behind the body is gone
    rw [he]
    have hmem := List.mem_of_getLast? hlast
    have hread := hspans.reads s hmem
    have hends : s.EndsBy S stream (s.offset + s.size + buffer.length) := by
      refine ⟨Nat.le_add_right _ _, fun _ => ⟨content, size, ?_, ?_, ?_⟩⟩
      · rw [hdrop]
        exact RequestParser.readBody_append_done c.wire hd
      · exact RequestParser.readBody_limit hd hread.limit
      · exact Nat.add_le_add_left (RequestParser.readBody_le hd) _
    exact traced_of_op spans hspans rfl ⟨hb, behind_of_drop hread.stop_le hdrop
      (List.ne_nil_of_mem hmem) (endsBy_of_getLast hspans hlast hends)⟩

/-- **What a step of the connection keeps.** -/
theorem traced_moves (hS : S.handler.AnswersOnce) (hs : Serial c) (ht : Traced ⟨c, stream⟩)
    {a : Act S.parser} (hne : ∀ q, a ≠ .send q) (hm : Moves S c a c') : Traced ⟨c', stream⟩ := by
  obtain ⟨spans, hspans, hat⟩ := ht
  have hinProgress : ∀ {op : Op}, c.pending = [op] → TracedAt ⟨c, stream⟩ spans op :=
    fun hp => hat _ (hp ▸ List.mem_cons_self)
  cases hm with
  | send q => exact absurd rfl (hne q)
  | @recvHeader n hp h0 hn hmore =>
    refine traced_of_op spans hspans hp ?_
    have h := hinProgress hp
    simp only [TracedAt, List.append_assoc, List.take_append_drop] at h ⊢
    exact h
  | @recvBody n buffer head read hp h0 hn hm =>
    obtain ⟨hb, s, hlast, hhead, hdrop⟩ := hinProgress hp
    refine traced_of_op spans hspans rfl ⟨hb, s, hlast, hhead, ?_⟩
    rw [List.append_assoc, List.take_append_drop]
    exact hdrop
  | refused hp hr => exact traced_of_idle spans hspans rfl
  | refusedBody hp herr => exact traced_of_idle spans hspans rfl
  | @header head size hp hd hl =>
    exact traced_header hS hspans (hinProgress hp) hd hl
  | @body buffer head read content size hp hd =>
    have honce := hs.once buffer head read (hp ▸ List.mem_cons_self)
    exact traced_body hspans (hinProgress hp) honce hd
  | @written needEof hp =>
    obtain ⟨hb, hbehind⟩ := hinProgress hp
    cases needEof with
    | true => exact traced_of_idle spans hspans rfl
    | false =>
      refine traced_of_op spans hspans (rfl : _ = [Op.readHeader]) ?_
      have hb : c.buffer = [] := hb
      show Behind S stream spans (c.buffer ++ c.wire)
      rw [hb]
      exact hbehind
  | @failed eof op hp =>
    obtain ⟨closed, he⟩ := onError_eq eof op { c with pending := [] }
    rw [he]
    exact traced_of_idle spans hspans rfl

theorem inductive_traced (hS : S.handler.AnswersOnce) :
    (streamed S).Inductive Lib.Sys.free fun x => Serial x.conn ∧ Traced x := by
  refine ⟨fun x hx => ?_, fun x a x' hI _ hst => ?_⟩
  · cases hx
    refine ⟨serial_of_op rfl fun _ _ _ h => (by cases h), traced_of_op [] ?_ rfl ?_⟩
    · exact ⟨rfl, fun s hs => absurd hs List.not_mem_nil, List.Pairwise.nil,
        fun s hs => by cases hs⟩
    · exact ⟨0, Nat.zero_le _, rfl, fun s hs => absurd hs List.not_mem_nil, fun _ => rfl⟩
  · obtain ⟨hs, ht⟩ := hI
    have hserver : ∀ b : Act S.parser, (∀ q, b ≠ .send q) →
        (step S x.conn b).map (fun c => ({ x with conn := c } : Streamed S)) = some x' →
        Serial x'.conn ∧ Traced x' := by
      intro b hb h
      obtain ⟨c', hc, rfl⟩ := Option.map_eq_some_iff.mp h
      exact ⟨step_serial hS hs hc, traced_moves hS hs ht hb (moves_of_step hs.single hc)⟩
    cases a with
    | send bytes =>
      cases hst
      exact ⟨⟨hs.single, hs.once⟩, ht.send bytes⟩
    | server b =>
      cases b with
      | send q => cases hst
      | recv i n => exact hserver _ (fun q h => by cases h) hst
      | complete i => exact hserver _ (fun q h => by cases h) hst
      | fail i eof => exact hserver _ (fun q h => by cases h) hst

/-- **No request comes from nowhere, and none from a body that is read.** Whatever bytes a client
sends, and however they are cut: each header that was handed to the router is at its own place on
the stream, the places come one behind the other, and none begins before the body has ended of an
earlier request whose answer reads it, be its length in the header or in its chunks. What is being
read of a body is what follows its header. No header says of its body that it is longer than the
limit, and no body that was read is. -/
theorem requests_from_stream (env : Env) (parser : RequestParser) (r : Router) (limit : Nat)
    {x : Streamed (r.setup env parser limit)}
    (h : (streamed (r.setup env parser limit)).Reach Lib.Sys.free x) :
    ∃ spans : List Span, spans.map Span.head = x.conn.dispatched ∧
      (∀ s ∈ spans, parser.parse (x.stream.drop s.offset) = .done s.head s.size ∧
        parser.contentLength s.head ≤ limit) ∧
      (spans.Pairwise fun s s' => s.EndsBy (r.setup env parser limit) x.stream s'.offset) ∧
      ∀ buffer head read, .readBody buffer head read ∈ x.conn.pending →
        ∃ s : Span, spans.getLast? = some s ∧ s.head = head ∧
          x.stream.drop (s.offset + s.size) = buffer ++ x.conn.wire := by
  obtain ⟨-, spans, hspans, hat⟩ :=
    (inductive_traced (r.setup_answersOnce env parser limit)).reach h
  refine ⟨spans, hspans.heads, fun s hs => ⟨(hspans.reads s hs).parses, (hspans.reads s hs).limit⟩,
    hspans.apart, fun buffer head read hm => ?_⟩
  obtain ⟨-, s, hlast, hhead, hdrop⟩ := hat _ hm
  exact ⟨s, hlast, hhead, hdrop⟩

/-- A router with an endpoint that reads the body of a `POST`. -/
def postSite : Router where
  logger := true
  subRouters := []
  endpointsHttp := [.regex {
    method := .post
    resourceBase := fun target => if target = lit "/" then some [] else none
    handler := some (.plain fun _ => ok)
    writer := 0 }]
  endpointsWebsocket := []
  policies := []
  serverStr := lit "malloy"

/-- A `POST` whose body is the text of `getRoot`, in one chunk. -/
def postChunked : WireRequest RequestParser.plain where
  head :=
    { method := .post, target := lit "/", fields := [(lit "Transfer-Encoding", lit "chunked")] }
  headBytes := lit "POST / HTTP/1.1\r\nTransfer-Encoding: chunked\r\n\r\n"
  body := lit "12\r\nGET / HTTP/1.1\r\n\r\n\r\n0\r\n\r\n"
  content := lit "GET / HTTP/1.1\r\n\r\n"
  parses := by decide
  delimits := by decide +kernel

/-- The text of a request in a chunk is read as a body, and the next request is behind it. -/
theorem requests_from_stream_postSite :
    ∃ x : Streamed (postSite.setup Env.bare RequestParser.plain),
      x.conn.dispatched = [postChunked.head, getRoot.head] ∧
      ∃ spans : List Span, spans.map Span.head = [postChunked.head, getRoot.head] ∧
        (spans.Pairwise fun s s' =>
          s.EndsBy (postSite.setup Env.bare RequestParser.plain) x.stream s'.offset) := by
  have hrun : ((streamed (postSite.setup Env.bare RequestParser.plain)).exec Lib.Sys.freeCheck
      { conn := { pending := [.readHeader] }, stream := [] }
      [.send postChunked.bytes, .server (.recv 0 47), .server (.complete 0), .server (.recv 0 29),
        .server (.complete 0), .server (.complete 0), .send getRoot.bytes, .server (.recv 0 18),
        .server (.complete 0)]).map (fun x => x.conn.dispatched) =
      some [postChunked.head, getRoot.head] := by decide +kernel
  obtain ⟨x, hx, hd⟩ := Option.map_eq_some_iff.mp hrun
  have hreach := Lib.Sys.reach_exec Lib.Sys.free_sound _ (.init rfl) hx
  obtain ⟨spans, hheads, -, hapart, -⟩ :=
    requests_from_stream Env.bare RequestParser.plain postSite _ hreach
  exact ⟨x, hd, spans, hheads.trans hd, hapart⟩

end HttpConnection
end Server
end Malloy
