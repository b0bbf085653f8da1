import Malloy.Core.Http.Generator

/-!
# Endpoints (`server/routing/endpoint_*.hpp`, `server/http/preflight_config.cpp`)

An endpoint tells whether it matches a request header, and handles a request: it returns a
response, or it reads the body of the request and passes a response to its writer when the body
is there.

* `Env`: what the router and its endpoints use of other code. A compiled `std::regex` is what
  `regex_match` gives for it (`Regex`): a match that gives up, with a `regex_error` for its
  complexity, is outside the model. User handlers, filters and validators are functions; a request
  is read into a string body.
* Writers, and the handler of `add_preflight`, capture the address of the router on which they
  were registered. `Env.routers` is what is at that address when the request is handled.
* `Effect`: what can be observed while a request is handled. `Reaction`: the effects up to where
  `handle_request` was left, and the body read that it started, if any.
* `Env.response`: what `send_response` makes of a response. `prepare_payload` throws for a body that
  the status does not allow (`PreparesPayload`); the exception is the last effect then.
* `EndpointHttp.raw`, `EndpointHttp.respond`: the response that an endpoint supplies, given the body,
  before and after it is sent. `handle_cases`: it returns this response and starts no read, or it
  reads the body and writes the response once, when the body is there.
-/

namespace Malloy
namespace Server

open Http

/-- A compiled regular expression: the sub-matches of a match of the whole string. -/
abbrev Regex := Str → Option (List Str)

/-- The address of a router object. -/
abbrev Addr := Nat

/-! ## Preflight requests -/

structure PreflightConfig where
  origin : Str := lit "http://127.0.0.1:8080"

def PreflightConfig.setupResponse (cfg : PreflightConfig) (resp : Response)
    (methods : List Method) : Response :=
  let methodsString := (lit ", ").intercalate (methods.map Method.toStr)
  (resp.set (lit "Access-Control-Allow-Origin") cfg.origin).set
    (lit "Access-Control-Allow-Methods") methodsString

/-! ## The types of endpoints -/

/-- The handler of a regex endpoint. -/
inductive RouteHandler where
  | plain (f : Request → Response)
  /-- A handler that wants the sub-matches. -/
  | captures (f : Request → List Str → Response)
  /-- The handler of `add_preflight`, registered on the router at `this`. -/
  | preflight (cfg : PreflightConfig) (this : Addr)

structure EndpointHttpRegex where
  method : Method
  resourceBase : Regex
  /-- `filter.setup_body`: what it makes of the empty body. -/
  setupBody : RequestHeader → Str := fun _ => []
  handler : Option RouteHandler
  writer : Addr

structure EndpointHttpFiles where
  resourceBase : Str
  basePath : Str
  cacheControl : Str
  writer : Addr

structure EndpointHttpRedirect where
  status : Nat
  resourceOld : Str
  resourceNew : Str

inductive EndpointHttp where
  | regex (ep : EndpointHttpRegex)
  | files (ep : EndpointHttpFiles)
  | redirect (ep : EndpointHttpRedirect)

structure EndpointWebsocket where
  resource : Str
  /-- `handler` is not empty. -/
  handler : Bool

/-! ## Effects -/

inductive Effect where
  /-- The validator of a policy returned a response. -/
  | denied (resp : Response)
  /-- `ep->handle()` was called. -/
  | handle (ep : EndpointHttp)
  | fs (call : FsCall)
  /-- A response was passed to the connection's `do_write()`. -/
  | doWrite (resp : Response)
  /-- `send_response` threw. -/
  | threw (e : Exn)
  /-- The handler of a websocket endpoint was called. -/
  | websocket (ep : EndpointWebsocket) (head : RequestHeader)

/-- A call of `request_generator::body`. -/
structure BodyRead where
  /-- The header of the generator, which the request read will have. -/
  header : RequestHeader
  /-- What `setup` leaves in the body before it is read. -/
  setup : Str := []
  /-- The callback, with the request read. -/
  done : Request → Except Exn (List Effect)

structure Reaction where
  effects : List Effect := []
  body : Option BodyRead := none

/-- The exception with which the effects end. -/
def Effect.thrown : Effect → Option Exn
  | threw e => some e
  | _ => none

/-- Whether the effects end with an exception. -/
def raise (es : List Effect) : Except Exn (List Effect) :=
  match es.findSome? Effect.thrown with
  | some e => .error e
  | none => .ok es

/-- The callback, when the body read gave these bytes. -/
def BodyRead.finish (b : BodyRead) (bytes : Str) : Except Exn (List Effect) :=
  (b.done ⟨b.header, b.setup ++ bytes⟩).bind raise

/-- All effects of a request whose body read gives these bytes, or fails. -/
def Reaction.run (r : Reaction) (bytes : Option Str) : Except Exn (List Effect) :=
  match r.body, bytes with
  | some b, some bytes => (b.finish bytes).map (r.effects ++ ·)
  | _, _ => raise r.effects

/-! ## The environment -/

/-- What an endpoint can read of the router whose address it captured. -/
structure RouterObj where
  serverStr : Str
  endpointsHttp : List EndpointHttp

structure Env where
  /-- The `std::regex` constructor; `none` is a `std::regex_error`. -/
  compile : Str → Option Regex
  /-- `prepare_payload()`: the fields that frame the body, or an exception. -/
  preparePayload : Response → Except Exn Response
  /-- `payload_size()`, if it is known. -/
  payloadSize : Body → Option Nat
  fs : Fs
  routers : Addr → RouterObj
  /-- `boost::beast::websocket::is_upgrade`. -/
  isUpgrade : RequestHeader → Bool
  /-- `need_eof()` of a response: the connection is closed after it. -/
  needEof : Response → Bool

namespace Env

variable (env : Env)

/-- What `send_response(req, resp, connection, server_str)` passes to `do_write()`. -/
def response (version : Nat) (resp : Response) (serverStr : Str) : Except Exn Response :=
  let resp := { resp with version := version }
  let resp := if hasField resp.fields (lit "Server") then resp
    else resp.set (lit "Server") serverStr
  env.preparePayload resp

def sendResponse (version : Nat) (resp : Response) (serverStr : Str) : Effect :=
  match env.response version resp serverStr with
  | .ok resp => .doWrite resp
  | .error e => .threw e

/-- The callback of `make_endpt_writer_callback()` on the router at `this`. -/
def writer (this : Addr) (req : Request) (resp : Response) : Effect :=
  env.sendResponse req.header.version resp (env.routers this).serverStr

/-- The response has no body, unless its status allows one. -/
def MayFrame (resp : Response) : Prop :=
  resp.bodiless = true → env.payloadSize resp.body = some 0

/-- `prepare_payload()` throws `std::invalid_argument` for a body that the status does not allow, and
otherwise returns. -/
structure PreparesPayload : Prop where
  refuses : ∀ resp, ¬ env.MayFrame resp → env.preparePayload resp = .error .invalidArgument
  accepts : ∀ resp, env.MayFrame resp → ∃ w, env.preparePayload resp = .ok w

/-- A small environment: patterns without special characters, string bodies, no files. -/
def bare : Env where
  compile pattern := some fun target => if target = pattern then some [] else none
  preparePayload resp :=
    match resp.body with
    | .string s =>
      if resp.bodiless && s ≠ [] then .error .invalidArgument
      else .ok (resp.set (lit "Content-Length") ((Nat.toDigits 10 s.length).map byte))
    | _ => if resp.bodiless then .error .invalidArgument else .ok resp
  payloadSize body :=
    match body with
    | .string s => some s.length
    | _ => none
  fs := { isRegularFile := fun _ => .ok false, openError := fun _ => none }
  routers _ := { serverStr := lit "malloy", endpointsHttp := [] }
  isUpgrade head := head.fields.find (lit "Upgrade") == some (lit "websocket")
  needEof resp := resp.fields.find (lit "Connection") == some (lit "close")

theorem bare_preparesPayload : bare.PreparesPayload where
  refuses resp h := by
    obtain ⟨hb, hs⟩ := Classical.not_imp.mp h
    simp only [bare] at hs ⊢
    cases hbody : resp.body with
    | string s =>
      rw [hbody] at hs
      have hne : s ≠ [] := by
        rintro rfl
        exact hs rfl
      simp [hb, hne]
    | file path => simp [hb]
    | other bytes => simp [hb]
  accepts resp h := by
    simp only [MayFrame, bare] at h ⊢
    cases hbody : resp.body with
    | string s =>
      rw [hbody] at h
      refine ⟨_, if_neg fun hc => ?_⟩
      obtain ⟨hb, hs⟩ := Bool.and_eq_true_iff.mp hc
      exact of_decide_eq_true hs (List.eq_nil_of_length_eq_zero (Option.some.inj (h hb)))
    | file path => exact ⟨resp, by simp [by simpa [hbody] using h]⟩
    | other bytes => exact ⟨resp, by simp [by simpa [hbody] using h]⟩

/-- The file system plays no part. -/
theorem PreparesPayload.with_fs {env : Env} (h : env.PreparesPayload) (fs : Fs) :
    PreparesPayload { env with fs := fs } := ⟨h.refuses, h.accepts⟩

end Env

/-! ## Regex endpoints -/

namespace EndpointHttpRegex

def matchesResource (ep : EndpointHttpRegex) (head : RequestHeader) : Bool :=
  (ep.resourceBase head.target).isSome

def doesMatch (ep : EndpointHttpRegex) (head : RequestHeader) : Bool :=
  ep.matchesResource head && ep.method == head.method

end EndpointHttpRegex

/-- The methods of the regex endpoints that match the resource, in registration order. -/
def preflightMethods (endpoints : List EndpointHttp) (head : RequestHeader) : List Method :=
  endpoints.filterMap fun
    | .regex ep => if ep.matchesResource head then some ep.method else none
    | _ => none

/-- The call of the handler, with the sub-matches that it may want. -/
def RouteHandler.invoke (h : RouteHandler) (env : Env) (resourceBase : Regex) (req : Request) :
    Except Exn Response :=
  match h with
  | .plain f => .ok (f req)
  | .captures f =>
    match resourceBase req.header.target with
    | some captured => .ok (f req captured)
    | none => .error (.logicError
        (lit "endpoint_http_regex passed request which does not match: " ++ req.header.target))
  | .preflight cfg this =>
    .ok (cfg.setupResponse { status := 200 }
      (preflightMethods (env.routers this).endpointsHttp req.header))

/-! ## All endpoints -/

namespace EndpointHttp

def doesMatch (head : RequestHeader) : EndpointHttp → Bool
  | regex ep => ep.doesMatch head
  | files ep => (resourceString head.target).startsWith ep.resourceBase
  | redirect ep => resourceString head.target == ep.resourceOld

/-- The callback of a file-serving endpoint. -/
def filesDone (env : Env) (ep : EndpointHttpFiles) (req : Request) : Except Exn (List Effect) := do
  let reqClone ← chopResource req.header ep.resourceBase
  -- Create response
  let (calls, resp) := file env.fs ep.basePath (resourceString reqClone.target)
  let resp := (← resp).set (lit "Cache-Control") ep.cacheControl
  -- Send
  return calls.map .fs ++ [env.writer ep.writer req resp]

/-- The callback of a regex endpoint whose handler is `h`. -/
def regexDone (env : Env) (ep : EndpointHttpRegex) (h : RouteHandler) (req : Request) :
    Except Exn (List Effect) := do
  return [env.writer ep.writer req (← h.invoke env ep.resourceBase req)]

/-- `handle(req, conn)`: what it returns, and the body read that it starts. -/
def handle (env : Env) (head : RequestHeader) : EndpointHttp → Option Response × Option BodyRead
  | regex ep =>
    match ep.handler with
    | some h =>
      (none, some { header := head, setup := ep.setupBody head, done := regexDone env ep h })
    | none => (some (serverError (lit "no valid handler available.")), none)
  | files ep => (none, some { header := head, done := filesDone env ep })
  | redirect ep => (some (Http.redirect ep.status ep.resourceNew), none)

/-- The response that the endpoint supplies, before it is sent. -/
def raw (env : Env) (head : RequestHeader) (bytes : Str) : EndpointHttp → Except Exn Response
  | regex ep =>
    match ep.handler with
    | some h => h.invoke env ep.resourceBase ⟨head, ep.setupBody head ++ bytes⟩
    | none => .ok (serverError (lit "no valid handler available."))
  | files ep => do
    let reqClone ← chopResource head ep.resourceBase
    let resp ← (file env.fs ep.basePath (resourceString reqClone.target)).2
    return resp.set (lit "Cache-Control") ep.cacheControl
  | redirect ep => .ok (Http.redirect ep.status ep.resourceNew)

/-- The router that the writer of the endpoint has captured, if it sends the response. -/
def sender : EndpointHttp → Option Addr
  | regex ep => if ep.handler.isSome then some ep.writer else none
  | files ep => some ep.writer
  | redirect _ => none

/-- The response that the endpoint supplies, as it reaches `do_write()`: one that it returns goes
through the router with this server string, the others through the writer of the endpoint. -/
def respond (env : Env) (serverStr : Str) (head : RequestHeader) (bytes : Str)
    (ep : EndpointHttp) : Except Exn Response :=
  (ep.raw env head bytes).bind fun resp => env.response head.version resp
    (match ep.sender with
    | some this => (env.routers this).serverStr
    | none => serverStr)

end EndpointHttp

/-- The `rel_path` that the location asks `generator::file` for. -/
def EndpointHttpFiles.relPath (ep : EndpointHttpFiles) (head : RequestHeader) : Str :=
  resourceString (head.target.drop ep.resourceBase.length)

/-! ## What an endpoint does -/

def Effect.written : Effect → Option Response
  | doWrite resp => some resp
  | _ => none

def Effect.handled : Effect → Option EndpointHttp
  | handle ep => some ep
  | _ => none

/-- The responses passed to `do_write()`. -/
def writes (es : List Effect) : List Response := es.filterMap Effect.written

/-- The endpoints whose `handle()` was called. -/
def handled (es : List Effect) : List EndpointHttp := es.filterMap Effect.handled

@[simp] theorem writes_nil : writes [] = [] := rfl

@[simp] theorem handled_nil : handled [] = [] := rfl

@[simp] theorem writes_cons (e : Effect) (es : List Effect) :
    writes (e :: es) = e.written.toList ++ writes es := by
  cases e <;> rfl

@[simp] theorem handled_cons (e : Effect) (es : List Effect) :
    handled (e :: es) = e.handled.toList ++ handled es := by
  cases e <;> rfl

@[simp] theorem writes_append (es es' : List Effect) :
    writes (es ++ es') = writes es ++ writes es' := List.filterMap_append

@[simp] theorem handled_append (es es' : List Effect) :
    handled (es ++ es') = handled es ++ handled es' := List.filterMap_append

@[simp] theorem writes_fs (calls : List FsCall) : writes (calls.map .fs) = [] := by
  induction calls with
  | nil => rfl
  | cons c calls ih => simpa [Effect.written] using ih

@[simp] theorem handled_fs (calls : List FsCall) : handled (calls.map .fs) = [] := by
  induction calls with
  | nil => rfl
  | cons c calls ih => simpa [Effect.handled] using ih

theorem raise_cases (es : List Effect) :
    raise es = .ok es ∨ ∃ e, raise es = .error e ∧ .threw e ∈ es := by
  unfold raise
  cases he : es.findSome? Effect.thrown with
  | none => exact .inl rfl
  | some e =>
    obtain ⟨x, hx, hxe⟩ := List.exists_of_findSome?_eq_some he
    cases x with
    | threw e' =>
      cases hxe
      exact .inr ⟨e, rfl, hx⟩
    | _ => cases hxe

namespace Env

variable {env : Env} {version : Nat} {resp : Response} {str : Str}

theorem sendResponse_of_ok {w : Response} (h : env.response version resp str = .ok w) :
    env.sendResponse version resp str = .doWrite w := by
  unfold sendResponse
  rw [h]

theorem sendResponse_of_error {e : Exn} (h : env.response version resp str = .error e) :
    env.sendResponse version resp str = .threw e := by
  unfold sendResponse
  rw [h]

theorem sendResponse_eq : (∃ w, env.sendResponse version resp str = .doWrite w) ∨
    ∃ e, env.sendResponse version resp str = .threw e := by
  cases h : env.response version resp str with
  | ok w => exact .inl ⟨w, sendResponse_of_ok h⟩
  | error e => exact .inr ⟨e, sendResponse_of_error h⟩

@[simp] theorem handle_ne_sendResponse (ep : EndpointHttp) :
    Effect.handle ep ≠ env.sendResponse version resp str := by
  rcases @sendResponse_eq env version resp str with ⟨w, h⟩ | ⟨e, h⟩ <;> simp [h]

@[simp] theorem denied_ne_sendResponse (resp' : Response) :
    Effect.denied resp' ≠ env.sendResponse version resp str := by
  rcases @sendResponse_eq env version resp str with ⟨w, h⟩ | ⟨e, h⟩ <;> simp [h]

@[simp] theorem fs_ne_sendResponse (call : FsCall) :
    Effect.fs call ≠ env.sendResponse version resp str := by
  rcases @sendResponse_eq env version resp str with ⟨w, h⟩ | ⟨e, h⟩ <;> simp [h]

/-- The response is sent: it is written, or the exception is the last effect. -/
theorem raise_sendResponse {es : List Effect} (hes : ∀ e, .threw e ∉ es) :
    (∃ w, env.response version resp str = .ok w ∧
      raise (es ++ [env.sendResponse version resp str]) = .ok (es ++ [.doWrite w])) ∨
    (∃ e, env.response version resp str = .error e ∧
      raise (es ++ [env.sendResponse version resp str]) = .error e) := by
  have hnone : es.findSome? Effect.thrown = none := by
    rw [List.findSome?_eq_none_iff]
    intro e he
    cases e with
    | threw e => exact absurd he (hes e)
    | _ => rfl
  cases hr : env.response version resp str with
  | ok w =>
    refine .inl ⟨w, rfl, ?_⟩
    rw [sendResponse_of_ok hr, raise, List.findSome?_append, hnone]
    rfl
  | error e =>
    refine .inr ⟨e, rfl, ?_⟩
    rw [sendResponse_of_error hr, raise, List.findSome?_append, hnone]
    rfl

/-- What is sent is framed, whatever the server string is. -/
theorem response_cases (henv : env.PreparesPayload) (version : Nat) (resp : Response) (str : Str) :
    (env.MayFrame resp ∧ ∃ w, env.response version resp str = .ok w) ∨
    (¬ env.MayFrame resp ∧ env.response version resp str = .error .invalidArgument) := by
  have hframe : ∀ resp' : Response, resp'.status = resp.status → resp'.body = resp.body →
      (env.MayFrame resp' ↔ env.MayFrame resp) := by
    intro resp' hs hb
    unfold MayFrame Response.bodiless
    rw [hs, hb]
  unfold response
  by_cases hm : env.MayFrame resp
  · refine .inl ⟨hm, henv.accepts _ ?_⟩
    split
    · exact (hframe _ rfl rfl).mpr hm
    · exact (hframe _ rfl rfl).mpr hm
  · refine .inr ⟨hm, henv.refuses _ fun h => hm ?_⟩
    split at h
    · exact (hframe _ rfl rfl).mp h
    · exact (hframe _ rfl rfl).mp h

theorem response_ok_iff (henv : env.PreparesPayload) :
    (∃ w, env.response version resp str = .ok w) ↔ env.MayFrame resp := by
  rcases response_cases henv version resp str with ⟨hm, hw⟩ | ⟨hm, hw⟩
  · exact iff_of_true hw hm
  · exact iff_of_false (by simp [hw]) hm

end Env

namespace EndpointHttp

variable {env : Env} {serverStr : Str} {head : RequestHeader}

/-- The callback of a body read supplies the response of the endpoint: it writes it once and calls
no endpoint, or it throws what the response throws. -/
def Supplies (env : Env) (serverStr : Str) (ep : EndpointHttp) (b : BodyRead) : Prop :=
  ∀ bytes,
    (∃ es w, b.finish bytes = .ok es ∧ ep.respond env serverStr b.header bytes = .ok w ∧
      writes es = [w] ∧ handled es = []) ∨
    (∃ e, b.finish bytes = .error e ∧ ep.respond env serverStr b.header bytes = .error e)

theorem handle_regex_supplies {ep : EndpointHttpRegex} {h : RouteHandler}
    (hh : ep.handler = some h) :
    (regex ep).Supplies env serverStr
      { header := head, setup := ep.setupBody head, done := regexDone env ep h } := by
  intro bytes
  simp only [BodyRead.finish, regexDone, respond, raw, sender, hh, Option.isSome_some, if_true]
  cases h.invoke env ep.resourceBase ⟨head, ep.setupBody head ++ bytes⟩ with
  | error e => exact .inr ⟨e, rfl, rfl⟩
  | ok resp =>
    rcases @Env.raise_sendResponse env head.version resp (env.routers ep.writer).serverStr []
      (fun e => List.not_mem_nil) with ⟨w, hw, hr⟩ | ⟨e, he, hr⟩
    · exact .inl ⟨_, w, hr, hw, rfl, rfl⟩
    · exact .inr ⟨e, hr, he⟩

theorem handle_files_supplies {ep : EndpointHttpFiles} :
    (files ep).Supplies env serverStr { header := head, done := filesDone env ep } := by
  intro bytes
  simp only [BodyRead.finish, filesDone, respond, raw, sender, bind, Except.bind]
  cases chopResource head ep.resourceBase with
  | error e => exact .inr ⟨e, rfl, rfl⟩
  | ok clone =>
    dsimp only
    generalize hf : file env.fs ep.basePath (resourceString clone.target) = f
    obtain ⟨calls, resp⟩ := f
    cases resp with
    | error e => exact .inr ⟨e, rfl, rfl⟩
    | ok resp =>
      rcases @Env.raise_sendResponse env head.version
        (resp.set (lit "Cache-Control") ep.cacheControl) (env.routers ep.writer).serverStr
        (calls.map .fs) (by simp) with ⟨w, hw, hr⟩ | ⟨e, he, hr⟩
      · refine .inl ⟨_, w, hr, hw, ?_, ?_⟩
        · simp [Effect.written]
        · simp [Effect.handled]
      · exact .inr ⟨e, hr, he⟩

/-- What an endpoint does: it returns its response, or it reads the body first. -/
theorem handle_cases (env : Env) (serverStr : Str) (head : RequestHeader) (ep : EndpointHttp) :
    (∃ resp, ep.handle env head = (some resp, none) ∧
      ∀ bytes, ep.respond env serverStr head bytes = env.response head.version resp serverStr) ∨
    (∃ b, ep.handle env head = (none, some b) ∧ b.header = head ∧
      ep.Supplies env serverStr b) := by
  cases ep with
  | regex ep =>
    cases hh : ep.handler with
    | none =>
      left
      exact ⟨serverError (lit "no valid handler available."), by simp [handle, hh],
        fun _ => by simp [respond, raw, sender, hh, Except.bind]⟩
    | some h =>
      right
      exact ⟨{ header := head, setup := ep.setupBody head, done := regexDone env ep h },
        by simp [handle, hh], rfl, handle_regex_supplies hh⟩
  | files ep =>
    right
    exact ⟨{ header := head, done := filesDone env ep }, rfl, rfl, handle_files_supplies⟩
  | redirect ep =>
    left
    exact ⟨Http.redirect ep.status ep.resourceNew, rfl, fun _ => rfl⟩

/-- The test of the file returns normally, if the endpoint makes one. -/
def TestReturns (env : Env) (head : RequestHeader) : EndpointHttp → Prop
  | files ep => Http.TestReturns env.fs ep.basePath (ep.relPath head)
  | _ => True

/-- **A matching endpoint has a response exactly if its test of the file returns.** -/
theorem raw_ok_iff {ep : EndpointHttp} (hm : ep.doesMatch head = true) (bytes : Str) :
    (∃ resp, ep.raw env head bytes = .ok resp) ↔ ep.TestReturns env head := by
  cases ep with
  | regex ep =>
    refine ⟨fun _ => trivial, fun _ => ?_⟩
    cases hh : ep.handler with
    | none => exact ⟨_, by simp only [raw, hh]; rfl⟩
    | some h =>
      simp only [raw, hh]
      cases h with
      | plain f => exact ⟨_, rfl⟩
      | preflight cfg this => exact ⟨_, rfl⟩
      | captures f =>
        simp only [doesMatch, EndpointHttpRegex.doesMatch, EndpointHttpRegex.matchesResource,
          Bool.and_eq_true] at hm
        obtain ⟨captured, hc⟩ := Option.isSome_iff_exists.mp hm.1
        exact ⟨_, by simp only [RouteHandler.invoke, hc]; rfl⟩
  | files ep =>
    simp only [doesMatch] at hm
    rw [TestReturns, EndpointHttpFiles.relPath, ← file_ok_iff]
    simp only [raw, chopResource_of_startsWith hm, bind, Except.bind]
    generalize resourceString (head.target.drop ep.resourceBase.length) = relPath
    cases (file env.fs ep.basePath relPath).2 with
    | error e => simp
    | ok resp => exact ⟨fun _ => ⟨resp, rfl⟩, fun _ => ⟨_, rfl⟩⟩
  | redirect ep => exact ⟨fun _ => trivial, fun _ => ⟨_, rfl⟩⟩

end EndpointHttp

end Server
end Malloy
