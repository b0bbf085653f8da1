import Malloy.Client.Url
import Malloy.Lib.Coroutine

/-!
# `malloy::client::http::connection` (`client/http/connection.hpp`)

`run()` is a coroutine: it resolves the host, connects, performs the TLS handshake
(`hook_connected()` of `connection_tls`), writes the request, reads the response and shuts the
socket down. The build has `MALLOY_FEATURE_TLS`: without it there is no `https_request()`, and a URL
never asks for TLS.

* `Filter`: a response filter. `body_for` picks an alternative of its variant, `setup_body` prepares
  the value of a body.
* `Outcomes`: how each operation of a connection ends.
* `run`: it resolves with `as_tuple` and connects with `redirect_error`; the other operations are
  awaited as they are. `HttpCall.perform`: `http_request()` and `https_request()` of the controller.
* `run_result`: how a connection ends, from the first step that fails.
-/

namespace Malloy
namespace Client

open Http Lib

/-! ## Filters and outcomes -/

/-- `boost::beast::http::response_header<>`; a default one is a 200. -/
structure ResponseHeader where
  result : Nat := 200
  version : Nat := 11
  reason : Str := []
  fields : Fields := []
  deriving DecidableEq

/-- A `malloy::error_code` that is truthy. -/
structure ErrorCode where
  category : Str
  value : Nat
  deriving DecidableEq

/-- `malloy::error_code(1, boost::beast::generic_category())`. -/
def ErrorCode.generic : ErrorCode := { category := lit "generic", value := 1 }

section

-- the alternatives of the variant of bodies, and the type of the values of each
variable {B : Type} (Value : B → Type)

/-- `concepts::response_filter`. -/
structure Filter where
  bodyFor : ResponseHeader → B
  setupBody : ResponseHeader → (body : B) → Value body → Value body

/-- The variant of responses that a filter leads to. -/
structure FilterResponse where
  header : ResponseHeader
  body : B
  value : Value body

/-- What shutting the socket down gives. -/
inductive Shutdown where
  | done
  /-- `boost::beast::errc::not_connected`. -/
  | notConnected
  | failed (ec : ErrorCode)
  deriving DecidableEq

/-- How the operations of one connection end. -/
structure Outcomes where
  /-- `set_hostname()`, of a TLS connection. -/
  hostname : Option ErrorCode := none
  resolve : Option ErrorCode := none
  connect : Option ErrorCode := none
  /-- The TLS handshake. -/
  handshake : Option ErrorCode := none
  write : Option ErrorCode := none
  /-- The header of the response that the server sends. -/
  header : ResponseHeader
  /-- What `async_read` makes of it, in a parser with this value of its body. -/
  read : (body : B) → Value body → Except ErrorCode (Value body)
  shutdown : Shutdown := .done

end

/-- What a connection does. -/
inductive HttpEvent where
  | resolve (host service : Str)
  | connect
  | handshake
  | write (req : ClientRequest)
  | bodyFor (header : ResponseHeader)
  | setupBody (header : ResponseHeader)
  | read
  | shutdown
  /-- `m_logger->error("shutdown: ...")`. -/
  | logError (ec : ErrorCode)
  deriving DecidableEq

/-- A coroutine that runs the operations of a connection. -/
abbrev HttpCoro := Coro HttpEvent ErrorCode

/-- A plain `co_await` of an operation. -/
def awaitOp (op : HttpEvent) (outcome : Option ErrorCode) : HttpCoro Unit :=
  .await op (match outcome with
    | some ec => .error ec
    | none => .ok ())

/-! ## `run()` -/

variable {B : Type} {Value : B → Type} [∀ body, Inhabited (Value body)]

/-- `hook_connected()` of `connection_tls` and of `connection_plain`. -/
def hookConnected (useTls : Bool) (out : Outcomes Value) : HttpCoro Unit :=
  if useTls then awaitOp .handshake out.handshake else pure ()

/-- The coroutine that `std::visit` calls with the body that was picked. The parser takes over the
header of `m_parser`. -/
def readResponse (out : Outcomes Value) (filter : Filter Value) (parser : ResponseHeader)
    (body : B) : HttpCoro (FilterResponse Value) := do
  let value ← .redirect (.setupBody parser) (filter.setupBody parser body default)
  let value ← .await .read (out.read body value)
  return { header := out.header, body, value }

/-- `run(req, filter)`. -/
def run (useTls : Bool) (out : Outcomes Value) (req : ClientRequest) (filter : Filter Value) :
    HttpCoro (Except ErrorCode (FilterResponse Value)) := do
  -- Look up the domain name
  let host := (req.header.fields.find (lit "Host")).getD []
  match ← .redirect (.resolve host (lit (toString req.port.toNat))) out.resolve with
  | some ec1 => return .error ec1
  | none =>
    -- Make the connection
    match ← .redirect .connect out.connect with
    | some ec2 => return .error ec2
    | none =>
      hookConnected useTls out
      -- Send the HTTP request
      awaitOp (.write req) out.write
      -- Pick a body: `m_parser` has read nothing
      let parser : ResponseHeader := {}
      let body ← .redirect (.bodyFor parser) (filter.bodyFor parser)
      let resp ← readResponse out filter parser body
      -- Gracefully close the socket
      match ← .redirect .shutdown out.shutdown with
      | .failed ec => .redirect (.logError ec) (.ok resp)
      | .done | .notConnected => return .ok resp

/-! ## `http_request()` and `https_request()` -/

/-- What the controller reads of itself: whether `m_tls_ctx` is set, and the user agent. -/
structure HttpConfig where
  tlsCtx : Bool
  userAgent : Str

/-- `make_http_connection`, up to the call of `run()`: an error that it returns before, or the
request. -/
def prepareHttpConnection (cfg : HttpConfig) (useTls : Bool) (hostname : Option ErrorCode)
    (req : ClientRequest) : Except ErrorCode ClientRequest := do
  -- Check TLS context
  if useTls && !cfg.tlsCtx then throw .generic
  -- Set User-Agent header if not already set
  let fields := req.header.fields
  let req := if hasField fields (lit "User-Agent") then req else
    { req with header := { req.header with fields := fields.set (lit "User-Agent") cfg.userAgent } }
  -- Set SNI hostname
  match useTls, hostname with
  | true, some ec => throw ec
  | _, _ => return req

/-- A request of the user. -/
inductive HttpCall where
  | httpRequest (req : ClientRequest)
  | httpsRequest (req : ClientRequest)
  | httpRequestUrl (method : Method) (url : String)

section

variable (parseUri : String → Option ParsedUrl) (cfg : HttpConfig)

/-- What is run, with TLS or without (with `MALLOY_FEATURE_TLS`), unless an error is returned
before. -/
def HttpCall.prepare (hostname : Option ErrorCode) :
    HttpCall → Except ErrorCode (Bool × ClientRequest)
  | .httpRequest req => (prepareHttpConnection cfg false hostname req).map (false, ·)
  | .httpsRequest req => (prepareHttpConnection cfg true hostname req).map (true, ·)
  | .httpRequestUrl method url =>
    match buildRequest parseUri method url with
    | none => .error .generic
    | some req => (prepareHttpConnection cfg req.useTls hostname req).map (req.useTls, ·)

def HttpCall.perform (out : Outcomes Value) (filter : Filter Value) (call : HttpCall) :
    HttpCoro (Except ErrorCode (FilterResponse Value)) :=
  match call.prepare parseUri cfg out.hostname with
  | .error ec => return .error ec
  | .ok (useTls, req) => run useTls out req filter

end

/-! ## The first step that fails -/

/-- The steps whose failure is to be returned. -/
inductive HttpStep where
  | resolve | connect | handshake | write | read
  deriving DecidableEq

/-- The outcome of the step is asked for, not thrown. -/
def HttpStep.redirected : HttpStep → Bool
  | .resolve | .connect => true
  | .handshake | .write | .read => false

namespace Outcomes

variable (useTls : Bool) (out : Outcomes Value) (filter : Filter Value)

/-- What reading the response gives: the parser has the body that the filter picks for a header that
is not read yet. -/
def received : Except ErrorCode (FilterResponse Value) :=
  let body := filter.bodyFor {}
  (out.read body (filter.setupBody {} body default)).map fun value =>
    { header := out.header, body, value }

/-- The steps in their order, with their errors. -/
def failures : List (HttpStep × Option ErrorCode) :=
  [(.resolve, out.resolve), (.connect, out.connect),
    (.handshake, if useTls then out.handshake else none), (.write, out.write),
    (.read, match out.received filter with
      | .error ec => some ec
      | .ok _ => none)]

/-- The first step that fails, and its error. -/
def firstFailure : Option (HttpStep × ErrorCode) :=
  (out.failures useTls filter).findSome? fun f => f.2.map (f.1, ·)

/-- What a connection is to return: the response, or the error of the first step that fails. -/
def reported : Except ErrorCode (FilterResponse Value) :=
  match out.firstFailure useTls filter with
  | some (_, ec) => .error ec
  | none => out.received filter

/-- No step fails before one whose error is thrown. -/
def Redirected : Prop :=
  ∀ step ec, out.firstFailure useTls filter = some (step, ec) → step.redirected = true

end Outcomes

/-- The reading, with the body that is picked for a header that is not read yet. -/
theorem readResponse_eq (out : Outcomes Value) (filter : Filter Value) :
    readResponse out filter {} (filter.bodyFor {}) =
      ⟨[.setupBody {}, .read], out.received filter⟩ := by
  unfold readResponse Outcomes.received
  simp only [Coro.redirect_bind]
  cases hread : out.read (filter.bodyFor {}) (filter.setupBody {} (filter.bodyFor {}) default) with
  | ok value => rw [Coro.bind_of_ok rfl]; rfl
  | error ec => rw [Coro.bind_of_error rfl]; rfl

omit [∀ body, Inhabited (Value body)] in
theorem hookConnected_eq (useTls : Bool) (out : Outcomes Value) :
    hookConnected useTls out =
      ⟨if useTls = true then [.handshake] else [],
        match if useTls = true then out.handshake else none with
        | some ec => .error ec
        | none => .ok ()⟩ := by
  cases useTls <;> rfl

/-- **How a connection ends.** -/
theorem run_result (useTls : Bool) (out : Outcomes Value) (req : ClientRequest)
    (filter : Filter Value) :
    (run useTls out req filter).result =
      match out.firstFailure useTls filter with
      | some (step, ec) => if step.redirected then .ok (.error ec) else .error ec
      | none => (out.received filter).map .ok := by
  unfold run Outcomes.firstFailure Outcomes.failures
  simp only [Coro.redirect_bind]
  cases hr : out.resolve with
  | some ec => rfl
  | none =>
    cases hc : out.connect with
    | some ec => rfl
    | none =>
      rw [hookConnected_eq]
      cases hh : (if useTls = true then out.handshake else none) with
      | some ec =>
        rw [Coro.bind_of_error rfl]
        rfl
      | none =>
        rw [Coro.bind_of_ok rfl]
        cases hw : out.write with
        | some ec => rfl
        | none =>
          rw [Coro.bind_of_ok (show (awaitOp (.write req) none).result = .ok () from rfl),
            readResponse_eq]
          cases hres : out.received filter with
          | error ec =>
            rw [Coro.bind_of_error rfl]
            rfl
          | ok resp =>
            rw [Coro.bind_of_ok rfl]
            cases out.shutdown <;> rfl

variable {useTls : Bool} {out : Outcomes Value} {filter : Filter Value}

/-- When no step fails, the response was read. -/
theorem Outcomes.received_of_none (h : out.firstFailure useTls filter = none) :
    ∃ resp, out.received filter = .ok resp := by
  cases hres : out.received filter with
  | ok resp => exact ⟨resp, rfl⟩
  | error ec =>
    have hread := List.findSome?_eq_none_iff.mp h (.read, some ec)
      (by simp [Outcomes.failures, hres])
    cases hread

/-- A failure is returned if its step is one whose outcome is asked for. -/
theorem run_result_iff (req : ClientRequest) :
    (run useTls out req filter).result = .ok (out.reported useTls filter) ↔
      out.Redirected useTls filter := by
  rw [run_result]
  unfold Outcomes.reported Outcomes.Redirected
  cases hf : out.firstFailure useTls filter with
  | none =>
    obtain ⟨resp, hres⟩ := out.received_of_none hf
    simp [hres, Except.map]
  | some f =>
    obtain ⟨step, ec⟩ := f
    cases hs : step.redirected <;> simp [hs]

section

variable (parseUri : String → Option ParsedUrl) (cfg : HttpConfig)

/-- What a request of the user is to return. -/
def HttpCall.reported (out : Outcomes Value) (filter : Filter Value) (call : HttpCall) :
    Except ErrorCode (FilterResponse Value) :=
  match call.prepare parseUri cfg out.hostname with
  | .error ec => .error ec
  | .ok (useTls, _) => out.reported useTls filter

end

/-- **When the failures of a request are returned.** A connection, and so a request of the user,
ends with the response, or with the error of the first step that fails, if and only if this step is
the resolution or the connect: the errors of the handshake, of the writing and of the reading are
thrown. -/
theorem failures_returned_iff (useTls : Bool) (out : Outcomes Value) (filter : Filter Value) :
    (∀ req, (run useTls out req filter).result = .ok (out.reported useTls filter) ↔
      out.Redirected useTls filter) ∧
    ∀ parseUri cfg call,
      (HttpCall.perform parseUri cfg out filter call).result =
          .ok (call.reported parseUri cfg out filter) ↔
        ∀ useTls req, call.prepare parseUri cfg out.hostname = .ok (useTls, req) →
          out.Redirected useTls filter := by
  refine ⟨run_result_iff, fun parseUri cfg call => ?_⟩
  unfold HttpCall.perform HttpCall.reported
  cases hprep : call.prepare parseUri cfg out.hostname with
  | error ec => simp
  | ok started =>
    obtain ⟨tls, req⟩ := started
    dsimp only
    rw [run_result_iff req]
    constructor
    · rintro h _ _ ⟨⟩
      exact h
    · exact fun h => h tls req rfl

/-- The certificate of the server is not accepted. -/
def refusedHandshake : Outcomes fun _ : Unit => Str where
  handshake := some { category := lit "ssl", value := 1 }
  header := {}
  read _ value := .ok value

/-- `default_resp_filter`. -/
def defaultFilter : Filter fun _ : Unit => Str where
  bodyFor _ := ()
  setupBody _ _ value := value

/-- The error of the TLS handshake is thrown. -/
theorem handshake_error_thrown :
    ¬ ∀ (useTls : Bool) (out : Outcomes fun _ : Unit => Str) (req : ClientRequest)
      (filter : Filter fun _ : Unit => Str),
      (run useTls out req filter).result = .ok (out.reported useTls filter) := by
  intro h
  have hrun := h true refusedHandshake (.make .get "localhost" 443 "/" true) defaultFilter
  have hthrown : (run true refusedHandshake (.make .get "localhost" 443 "/" true)
      defaultFilter).result = .error { category := lit "ssl", value := 1 } := by
    rw [run_result]
    rfl
  rw [hthrown] at hrun
  cases hrun

/-! ## What the filter sees -/

/-- The header that the event passes to the filter. -/
def HttpEvent.header? : HttpEvent → Option ResponseHeader
  | .bodyFor header | .setupBody header => some header
  | _ => none

/-- The steps of a connection that reads a response. -/
theorem run_log (req : ClientRequest) (h : out.firstFailure useTls filter = none) :
    (run useTls out req filter).log =
      [.resolve ((req.header.fields.find (lit "Host")).getD [])
        (lit (toString req.port.toNat)), .connect] ++
      (if useTls = true then [.handshake] else []) ++
      [.write req, .bodyFor {}, .setupBody {}, .read, .shutdown] ++
      (match out.shutdown with
        | .failed ec => [.logError ec]
        | _ => []) := by
  obtain ⟨resp, hres⟩ := out.received_of_none h
  have hnone := List.findSome?_eq_none_iff.mp h
  have hr : out.resolve = none := by
    simpa using hnone (.resolve, out.resolve) (by simp [Outcomes.failures])
  have hc : out.connect = none := by
    simpa using hnone (.connect, out.connect) (by simp [Outcomes.failures])
  have hw : out.write = none := by
    simpa using hnone (.write, out.write) (by simp [Outcomes.failures])
  have hh : (if useTls = true then out.handshake else none) = none := by
    simpa only [Option.map_eq_none_iff] using
      hnone (.handshake, if useTls = true then out.handshake else none)
        (by simp [Outcomes.failures])
  unfold run
  simp only [Coro.redirect_bind, hr, hc, hookConnected_eq, hh, hw]
  rw [Coro.bind_of_ok rfl,
    Coro.bind_of_ok (show (awaitOp (.write req) none).result = .ok () from rfl),
    readResponse_eq, hres, Coro.bind_of_ok rfl]
  cases out.shutdown <;> simp [awaitOp]

/-- A response that is returned is the one that was read. -/
theorem run_returned {resp : FilterResponse Value} {req : ClientRequest}
    (h : (run useTls out req filter).result = .ok (.ok resp)) :
    out.firstFailure useTls filter = none ∧ out.received filter = .ok resp := by
  rw [run_result] at h
  cases hf : out.firstFailure useTls filter with
  | none =>
    rw [hf] at h
    refine ⟨rfl, ?_⟩
    cases hres : out.received filter with
    | error ec => rw [hres] at h; cases h
    | ok resp' => rw [hres] at h; cases h; rfl
  | some f =>
    obtain ⟨step, ec⟩ := f
    rw [hf] at h
    cases hs : step.redirected <;> simp [hs] at h

/-- What was read is the header that the server has sent, with a body that was picked without it. -/
theorem Outcomes.received_ok {resp : FilterResponse Value} (h : out.received filter = .ok resp) :
    resp.header = out.header ∧ resp.body = filter.bodyFor {} := by
  unfold received at h
  dsimp only at h
  cases hread : out.read (filter.bodyFor {}) (filter.setupBody {} (filter.bodyFor {}) default) with
  | ok value => rw [hread] at h; cases h; exact ⟨rfl, rfl⟩
  | error ec => rw [hread] at h; cases h

/-- **What a response filter sees.** When a response is returned, the headers that were passed to
the filter are the one of this response, so that its body is the one that the filter picks for it,
if and only if this header is the one of a response that is not read yet. -/
theorem filter_sees_header_iff {resp : FilterResponse Value} {req : ClientRequest}
    (h : (run useTls out req filter).result = .ok (.ok resp)) :
    ((∀ e ∈ (run useTls out req filter).log, ∀ header ∈ e.header?, header = resp.header) ∧
      resp.body = filter.bodyFor resp.header) ↔ out.header = {} := by
  obtain ⟨hnone, hres⟩ := run_returned h
  obtain ⟨hheader, hbody⟩ := out.received_ok hres
  have hlog := run_log req hnone
  constructor
  · rintro ⟨hsees, -⟩
    rw [← hheader]
    refine (hsees (.bodyFor {}) ?_ {} rfl).symm
    rw [hlog]
    simp
  · intro hdefault
    rw [hheader, hdefault, hlog]
    refine ⟨?_, hbody⟩
    cases useTls <;> cases out.shutdown <;> simp [HttpEvent.header?]

/-- A server that answers with nothing but a 200, and no reason. -/
def bareResponse : Outcomes fun _ : Unit => Str where
  header := {}
  read _ _ := .ok (lit "hello")

theorem filter_sees_header_iff_bareResponse :
    (run false bareResponse (.make .get "localhost" 80 "/" false) defaultFilter).result =
      .ok (.ok { header := {}, body := (), value := lit "hello" }) ∧
    ∀ e ∈ (run false bareResponse (.make .get "localhost" 80 "/" false) defaultFilter).log,
      ∀ header ∈ e.header?, header = {} := by
  have h : (run false bareResponse (.make .get "localhost" 80 "/" false) defaultFilter).result =
      .ok (.ok { header := {}, body := (), value := lit "hello" }) := by
    rw [run_result]
    rfl
  exact ⟨h, ((filter_sees_header_iff h).mpr rfl).1⟩

/-- A 404 whose body is a file if the filter sees a 200, and a string otherwise. -/
def notFoundResponse : Outcomes fun _ : Bool => Str where
  header := { result := 404, reason := lit "Not Found" }
  read _ _ := .ok (lit "no such page")

def downloadFilter : Filter fun _ : Bool => Str where
  bodyFor header := header.result == 200
  setupBody _ _ value := value

def downloaded : FilterResponse fun _ : Bool => Str where
  header := notFoundResponse.header
  body := true
  value := lit "no such page"

/-- The page of the error is written to the file. -/
theorem filter_sees_default_header :
    ¬ ∀ (useTls : Bool) (out : Outcomes fun _ : Bool => Str) (req : ClientRequest)
      (filter : Filter fun _ : Bool => Str) (resp : FilterResponse fun _ : Bool => Str),
      (run useTls out req filter).result = .ok (.ok resp) →
      (∀ e ∈ (run useTls out req filter).log, ∀ header ∈ e.header?, header = resp.header) ∧
        resp.body = filter.bodyFor resp.header := by
  intro h
  have hrun : (run false notFoundResponse (.make .get "localhost" 80 "/" false)
      downloadFilter).result = .ok (.ok downloaded) := by
    rw [run_result]
    rfl
  have hbody := (h _ _ _ _ _ hrun).2
  exact absurd hbody (by decide)

end Client
end Malloy
