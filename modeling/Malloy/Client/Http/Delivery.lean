import Malloy.Client.Http.Connection
import Malloy.Server.Http.Stream

/-!
# A request of the client at a server

`http_request()` makes a connection for one request, sets the `User-Agent` and writes the request as
it is: nothing on the way looks at the body, or says how long it is. The server hands the header on,
takes as much for the body as the header says, and looks for the next header behind it. Requests
with a `Transfer-Encoding`, whose bodies do not go out as they are, are left aside.

* `HeaderWriter`: what `async_write` makes of a header. The parser of the server reads it back.
* `write_of_call`: the request that a call writes is the one of the user, with a `User-Agent`.
* `request_delivered`: what a server has of it, in whatever pieces the bytes arrive.
-/

namespace Malloy

namespace Client

open Http Lib

variable {B : Type} {Value : B → Type} [∀ body, Inhabited (Value body)]

/-! ## The request that is written -/

/-- `make_http_connection` sets the agent of the controller, unless the user has set one. -/
def withUserAgent (cfg : HttpConfig) (head : RequestHeader) : RequestHeader :=
  if hasField head.fields (lit "User-Agent") then head
  else { head with fields := head.fields.set (lit "User-Agent") cfg.userAgent }

/-- The request of the user. -/
def HttpCall.asked (parseUri : String → Option ParsedUrl) : HttpCall → Option ClientRequest
  | .httpRequest req | .httpsRequest req => some req
  | .httpRequestUrl method url => buildRequest parseUri method url

variable {parseUri : String → Option ParsedUrl} {cfg : HttpConfig} {useTls : Bool}
  {hostname : Option ErrorCode} {req req' : ClientRequest} {call : HttpCall}
  {out : Outcomes Value} {filter : Filter Value}

theorem prepareHttpConnection_header
    (h : prepareHttpConnection cfg useTls hostname req = .ok req') :
    req'.header = withUserAgent cfg req.header := by
  unfold prepareHttpConnection at h
  unfold withUserAgent
  simp only [bind, Except.bind, throw, throwThe, MonadExceptOf.throw, pure, Except.pure] at h
  split at h
  · cases h
  · split at h
    · cases h
    · cases h
      split <;> rfl

theorem HttpCall.prepare_header (h : call.prepare parseUri cfg hostname = .ok (useTls, req)) :
    ∃ user, call.asked parseUri = some user ∧ req.header = withUserAgent cfg user.header := by
  have hmap : ∀ (tls : Bool) (user : ClientRequest),
      (prepareHttpConnection cfg tls hostname user).map (tls, ·) = .ok (useTls, req) →
      req.header = withUserAgent cfg user.header := by
    intro tls user h
    cases hprep : prepareHttpConnection cfg tls hostname user with
    | error ec => rw [hprep] at h; cases h
    | ok req' =>
      rw [hprep] at h
      cases h
      exact prepareHttpConnection_header hprep
  cases call with
  | httpRequest user => exact ⟨user, rfl, hmap false user h⟩
  | httpsRequest user => exact ⟨user, rfl, hmap true user h⟩
  | httpRequestUrl method url =>
    simp only [prepare] at h
    split at h
    · cases h
    · rename_i user huser
      exact ⟨user, huser, hmap user.useTls user h⟩

/-- A connection writes the request that it was given. -/
theorem write_of_run : ∀ e ∈ (run useTls out req filter).log, ∀ q, e = .write q → q = req := by
  have hone : ∀ {op e : HttpEvent}, (∀ q, op = .write q → q = req) → e ∈ [op] →
      ∀ q, e = .write q → q = req := fun h he => List.mem_singleton.mp he ▸ h
  unfold run
  refine Coro.forall_log_bind (fun e => hone (by rintro q ⟨⟩)) fun ec1 => ?_
  cases ec1 with
  | some ec1 => exact fun e he => absurd he List.not_mem_nil
  | none =>
    refine Coro.forall_log_bind (fun e => hone (by rintro q ⟨⟩)) fun ec2 => ?_
    cases ec2 with
    | some ec2 => exact fun e he => absurd he List.not_mem_nil
    | none =>
      refine Coro.forall_log_bind ?_ fun _ => Coro.forall_log_bind
        (fun e => hone (by rintro q ⟨⟩; rfl)) fun _ => Coro.forall_log_bind
        (fun e => hone (by rintro q ⟨⟩)) fun body => Coro.forall_log_bind ?_ fun resp =>
        Coro.forall_log_bind (fun e => hone (by rintro q ⟨⟩)) fun shutdown => ?_
      · rw [hookConnected_eq]
        cases useTls with
        | false => exact fun e he => absurd he List.not_mem_nil
        | true => exact fun e => hone (by rintro q ⟨⟩)
      · exact Coro.forall_log_bind (fun e => hone (by rintro q ⟨⟩)) fun _ =>
          Coro.forall_log_bind (fun e => hone (by rintro q ⟨⟩)) fun _ e he =>
            absurd he List.not_mem_nil
      · cases shutdown with
        | failed ec => exact fun e => hone (by rintro q ⟨⟩)
        | done => exact fun e he => absurd he List.not_mem_nil
        | notConnected => exact fun e he => absurd he List.not_mem_nil

/-- **The request that a call writes** is the one of the user, with a user agent. -/
theorem write_of_call (h : .write req ∈ (call.perform parseUri cfg out filter).log) :
    ∃ user, call.asked parseUri = some user ∧ req.header = withUserAgent cfg user.header := by
  unfold HttpCall.perform at h
  cases hprep : call.prepare parseUri cfg out.hostname with
  | error ec =>
    rw [hprep] at h
    cases h
  | ok started =>
    obtain ⟨tls, user⟩ := started
    rw [hprep] at h
    rw [write_of_run _ h req rfl]
    exact HttpCall.prepare_header hprep

/-! ## What a server has of it -/

/-- What `async_write` makes of a header, for a server with this parser. -/
structure HeaderWriter (P : Server.RequestParser) where
  bytes : RequestHeader → Str
  /-- There is no line break in the header, or the like. -/
  Writable : RequestHeader → Prop
  /-- The parser of the server reads back what was written. -/
  parses : ∀ head, Writable head → P.parse (bytes head) = .done head (bytes head).length
  /-- The body goes out as it is. -/
  unchunked : ∀ head, Writable head → hasField head.fields (lit "Transfer-Encoding") = false

section

open Server HttpConnection

variable {S : Setup} {W : HeaderWriter S.parser} {head : RequestHeader} {body : Str}
  {x : Streamed S}

/-- A body that is read behind this header is as much as the header says. -/
theorem HeaderWriter.body_eq (hw : W.Writable head) {buffer content : Str} {n : Nat}
    (h : S.readBody head buffer = .done content n) :
    n = S.parser.contentLength head ∧ content = buffer.take n :=
  RequestParser.readBody_of_unchunked (W.unchunked head hw) h

/-- The first header that a server finds is the one that was written. -/
theorem first_header (hw : W.Writable head) {stream : Str} (hsent : stream <+: W.bytes head ++ body)
    {s : Span} (hs : s.Reads S stream) (h0 : s.offset = 0) :
    s.head = head ∧ s.size = (W.bytes head).length := by
  obtain ⟨more, hmore⟩ := hsent
  have hread := S.parser.done_append more hs.parses
  rw [h0, List.drop_zero, hmore, S.parser.done_append body (W.parses head hw)] at hread
  simp only [HeaderResult.done.injEq] at hread
  exact ⟨hread.1.symm, hread.2.symm⟩

/-- The bytes of the body that the server takes for it. -/
def taken (S : Setup) (head : RequestHeader) : Nat :=
  if readsBody S head then S.parser.contentLength head else 0

/-- A body that has been read behind the first header is the start of the one that was sent. -/
theorem body_of_first (hw : W.Writable head) {stream buffer wire content : Str} {n : Nat}
    (hsent : stream <+: W.bytes head ++ body) {s : Span} (hs : s.Reads S stream)
    (h0 : s.offset = 0) (hdrop : stream.drop (s.offset + s.size) = buffer ++ wire)
    (hdone : S.readBody s.head buffer = .done content n) :
    content = body.take (S.parser.contentLength head) ∧
      content.length = S.parser.contentLength head := by
  obtain ⟨hhead, hsize⟩ := first_header hw hsent hs h0
  obtain ⟨more, hmore⟩ := hsent
  have hbody : buffer ++ (wire ++ more) = body := by
    have hrest := congrArg (List.drop (W.bytes head).length) hmore
    rw [List.drop_left, List.drop_append_of_le_length (by have := hs.stop_le; omega)] at hrest
    rw [← hrest, ← List.append_assoc, ← hdrop, h0, hsize, Nat.zero_add]
  rw [hhead] at hdone
  have hle := RequestParser.readBody_le hdone
  obtain ⟨rfl, rfl⟩ := HeaderWriter.body_eq hw hdone
  rw [← hbody, List.take_append_of_le_length hle, List.length_take]
  exact ⟨rfl, Nat.min_eq_left hle⟩

/-- A second header would lie behind the last byte. -/
theorem no_second_header (hw : W.Writable head) {stream : Str}
    (hsent : stream <+: W.bytes head ++ body) (hcover : body.length ≤ taken S head) {s s' : Span}
    (hs : s.Reads S stream) (h0 : s.offset = 0) (hs' : s'.Reads S stream)
    (hbehind : s.EndsBy S stream s'.offset) : False := by
  obtain ⟨hhead, hsize⟩ := first_header hw hsent hs h0
  have hpos := S.parser.size_pos hs'.parses
  have hin := hs'.stop_le
  have hlen := hsent.length_le
  have hheader := hbehind.header
  rw [List.length_append] at hlen
  unfold taken at hcover
  split at hcover
  · rename_i hreads
    obtain ⟨content, n, hdone, -, hn⟩ := hbehind.body (by rw [hhead]; exact hreads)
    rw [hhead] at hdone
    have hsame := (HeaderWriter.body_eq hw hdone).1
    omega
  · omega

/-- **What a server has of the bytes of one request**: its header first; of the body what the header
says; and another header only from behind that. -/
theorem served (hS : S.handler.AnswersOnce) (hw : W.Writable head)
    (hx : (streamed S).Reach Lib.Sys.free x) (hsent : x.stream <+: W.bytes head ++ body) :
    (∀ first ∈ x.conn.dispatched.head?, first = head) ∧
    (∀ buffer head' read content n, x.conn.dispatched = [head] →
      .readBody buffer head' read ∈ x.conn.pending → S.readBody head' buffer = .done content n →
      content = body.take (S.parser.contentLength head) ∧
        content.length = S.parser.contentLength head) ∧
    (body.length ≤ taken S head → x.conn.dispatched.length ≤ 1) := by
  obtain ⟨-, spans, hspans, hat⟩ := (inductive_traced hS).reach hx
  cases spans with
  | nil =>
    have hnone : x.conn.dispatched = [] := hspans.heads.symm
    rw [hnone]
    exact ⟨fun first h => (by cases h), fun buffer head' read content n h => (by cases h),
      fun _ => Nat.zero_le 1⟩
  | cons s rest =>
    have hs := hspans.reads s List.mem_cons_self
    have h0 := hspans.first s rfl
    have hhead := (first_header hw hsent hs h0).1
    have hdispatched : x.conn.dispatched = head :: rest.map Span.head := by
      rw [← hspans.heads, List.map_cons, hhead]
    refine ⟨fun first h => ?_, fun buffer head' read content n hone hm hdone => ?_,
      fun hcover => ?_⟩
    · rw [hdispatched] at h
      cases h
      rfl
    · obtain ⟨-, s', hlast, rfl, hdrop⟩ := hat _ hm
      have hrest : rest = [] := by
        rw [hdispatched] at hone
        exact List.map_eq_nil_iff.mp (List.cons.inj hone).2
      obtain rfl : s = s' := by simpa [hrest] using hlast
      exact body_of_first hw hsent hs h0 hdrop hdone
    · rw [hdispatched]
      cases rest with
      | nil => exact Nat.le_refl 1
      | cons s' rest =>
        have hbehind := (List.pairwise_cons.mp hspans.apart).1 s' List.mem_cons_self
        exact (no_second_header hw hsent hcover hs h0 (hspans.reads s' (by simp)) hbehind).elim

/-- **A request of the client at a server.** The request that a call writes is the one of the user,
with a `User-Agent`. If the parser of the server reads its header back, and the body is not chunked:
the first header that the server hands to its router is the header of this request; a body that it
has read for it is as much of the body as the `Content-Length` of the header says; and it finds no
other request in the bytes if the body is not longer than what the answer reads of it. -/
theorem request_delivered (env : Env) (parser : RequestParser) (router : Router) (limit : Nat)
    (W : HeaderWriter parser) (h : .write req ∈ (call.perform parseUri cfg out filter).log)
    (hw : W.Writable req.header) (body : Str) {x : Streamed (router.setup env parser limit)}
    (hx : (streamed (router.setup env parser limit)).Reach Lib.Sys.free x)
    (hsent : x.stream <+: W.bytes req.header ++ body) :
    (∃ user, call.asked parseUri = some user ∧ req.header = withUserAgent cfg user.header) ∧
    (∀ first ∈ x.conn.dispatched.head?, first = req.header) ∧
    (∀ buffer head read content n, x.conn.dispatched = [req.header] →
      .readBody buffer head read ∈ x.conn.pending →
      parser.readBody limit head buffer = .done content n →
      content = body.take (parser.contentLength req.header) ∧
        content.length = parser.contentLength req.header) ∧
    (body.length ≤ taken (router.setup env parser limit) req.header →
      x.conn.dispatched.length ≤ 1) :=
  ⟨write_of_call h, served (router.setup_answersOnce env parser limit) hw hx hsent⟩

end

/-! ## A server with a parser for plain headers -/

def writeHeader (head : RequestHeader) : Str :=
  head.method.toStr ++ lit " " ++ head.target ++ lit " HTTP/1.1\r\n" ++
    (head.fields.flatMap fun f => f.1 ++ lit ": " ++ f.2 ++ lit "\r\n") ++ lit "\r\n"

/-- The writer of plain headers. -/
def HeaderWriter.plain : HeaderWriter Server.RequestParser.plain where
  bytes := writeHeader
  Writable head :=
    Server.parseHeader (writeHeader head) = .done head (writeHeader head).length ∧
      hasField head.fields (lit "Transfer-Encoding") = false
  parses _ h := h.1
  unchunked _ h := h.2

def plainClient : HttpConfig where
  tlsCtx := false
  userAgent := lit "malloy"

/-- A `POST` with these fields. -/
def postRequest (fields : Fields) : ClientRequest where
  header :=
    { method := .post, target := lit "/", fields := (lit "Host", lit "localhost") :: fields }
  port := 80
  useTls := false

/-- The request as it is written. -/
def writtenRequest (fields : Fields) : ClientRequest :=
  { postRequest fields with header := withUserAgent plainClient (postRequest fields).header }

section

open Server HttpConnection

/-- A run of a server with an endpoint that reads the body of a `POST`. -/
def postRun (acts : List (StreamAct RequestParser.plain)) :
    Option (Streamed (postSite.setup Env.bare RequestParser.plain)) :=
  (streamed (postSite.setup Env.bare RequestParser.plain)).exec Lib.Sys.freeCheck
    { conn := { pending := [.readHeader] }, stream := [] } acts

/-- The request says how long its body is. -/
theorem request_delivered_postSite :
    ∃ x : Streamed (postSite.setup Env.bare RequestParser.plain),
      x.conn.dispatched.head? = some (writtenRequest [(lit "Content-Length", lit "4")]).header ∧
      x.conn.dispatched.length ≤ 1 := by
  let req := writtenRequest [(lit "Content-Length", lit "4")]
  have hrun : (postRun [.send (writeHeader req.header ++ lit "ping"), .server (.recv 0 75),
      .server (.complete 0), .server (.recv 0 4), .server (.complete 0)]).map
        (fun x => (x.conn.dispatched.head?, x.stream)) =
      some (some req.header, writeHeader req.header ++ lit "ping") := by decide +kernel
  obtain ⟨x, hx, hd⟩ := Option.map_eq_some_iff.mp hrun
  obtain ⟨hfirst, hstream⟩ := Prod.mk.inj hd
  have hwrite : HttpEvent.write req ∈ ((HttpCall.httpRequest (postRequest
      [(lit "Content-Length", lit "4")])).perform (fun _ => none) plainClient bareResponse
      defaultFilter).log := by decide +kernel
  have hdelivered := request_delivered Env.bare RequestParser.plain postSite _ HeaderWriter.plain
    hwrite ⟨by decide +kernel, by decide +kernel⟩ (lit "ping")
    (Lib.Sys.reach_exec Lib.Sys.free_sound _ (.init rfl) hx)
    (by rw [hstream]; exact List.prefix_rfl)
  exact ⟨x, hfirst, hdelivered.2.2.2 (by decide +kernel)⟩

/-- Nothing sets the `Content-Length` for the user: without one, the body is the next request. -/
example : (postRun [
    .send (writeHeader (writtenRequest []).header ++ lit "GET / HTTP/1.1\r\n\r\n"),
    .server (.recv 0 56), .server (.complete 0), .server (.complete 0), .server (.complete 0),
    .server (.recv 0 18), .server (.complete 0)]).map (fun x => x.conn.dispatched) =
    some [(writtenRequest []).header, { method := .get, target := lit "/", fields := [] }] := by
  decide +kernel

end

end Client
end Malloy
