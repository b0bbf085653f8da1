import Malloy.Core.Websocket.Reporting

/-!
# `malloy::client::controller`: websocket connections (`client/controller.hpp`)

`ws_connect()` and `wss_connect()` resolve a name, make a connection and `connect()` it; the
`handler` of the user is "invoked when the connection is established (successfully or otherwise)".
This is the controller of a build with `MALLOY_FEATURE_TLS`: without it there is no `wss_connect()`,
and `ws_connect()` of a URL never uses TLS.

* `buildEndpoint`: `core/websocket/url.hpp`. `boost::urls::parse_uri` is a parameter.
* `Attempt`: what one call has started (the name resolution, then a connection), and the calls of
  the handler. A step is the completion of the resolution, or a step of the connection: what the
  user does with the connection is among them.
* `reports_step`: the callback of `connect()` is called once for each operation that leads to the
  handshake, and once more for a TLS handshake that fails. `handlerCalls_length_eq_one_iff`: when
  the handler is called exactly once.
* `Paired`: a call has a connection if and only if it has no error. Every step keeps it; a URL that
  `build_endpoint` does not take breaks it from the start (`paired_iff`).
-/

namespace Malloy
namespace Client

open Websocket

/-! ## Endpoints -/

/-- `boost::urls::scheme`, as far as `build_endpoint` distinguishes it. -/
inductive Scheme where
  | ws | wss | other
  deriving DecidableEq

/-- A parsed `boost::urls::url`. -/
structure Url where
  schemeId : Scheme
  host : String
  portNumber : UInt16
  encodedTarget : String

structure Endpoint where
  useTls : Bool := false
  host : String
  port : UInt16
  target : String
  deriving DecidableEq

/-- `build_endpoint(url)`. -/
def Url.buildEndpoint (url : Url) : Option Endpoint :=
  let endpoint (useTls : Bool) (defaultPort : UInt16) : Endpoint :=
    { useTls := useTls
      host := url.host
      port := if url.portNumber = 0 then defaultPort else url.portNumber
      target := if url.encodedTarget = "" then "/" else url.encodedTarget }
  match url.schemeId with
  | .ws => some (endpoint false 80)
  | .wss => some (endpoint true 443)
  | .other => none

/-- `build_endpoint(url)` of a string. -/
def buildEndpoint (parseUri : String → Option Url) (url : String) : Option Endpoint :=
  (parseUri url).bind Url.buildEndpoint

/-! ## The controller -/

/-- A call of the handler: with an error or without, with a connection or with `nullptr`. -/
structure Call where
  ec : Bool
  conn : Bool
  deriving DecidableEq

/-- What `make_ws_connection` passes to `async_resolve` and to its callback. -/
structure Request where
  useTls : Bool
  host : String
  port : UInt16
  resource : String
  deriving DecidableEq

structure Attempt where
  /-- `async_resolve` is in progress. -/
  resolving : Option Request := none
  conn : Option Connection := none
  /-- The calls of the handler by the controller, before there is a connection. -/
  calls : List Call := []
  deriving DecidableEq

namespace Attempt

/-- `make_ws_connection()`; `tlsCtx` says whether `m_tls_ctx` is set. -/
def makeWsConnection (tlsCtx : Bool) (req : Request) : Attempt :=
  -- Check TLS context
  if req.useTls && !tlsCtx then {} else { resolving := some req }

def wsConnect (tlsCtx : Bool) (host : String) (port : UInt16) (resource : String) : Attempt :=
  makeWsConnection tlsCtx { useTls := false, host, port, resource }

def wssConnect (tlsCtx : Bool) (host : String) (port : UInt16) (resource : String) : Attempt :=
  makeWsConnection tlsCtx { useTls := true, host, port, resource }

/-- `ws_connect(url, handler)`, with `MALLOY_FEATURE_TLS`. -/
def wsConnectUrl (parseUri : String → Option Url) (tlsCtx : Bool) (url : String) : Attempt :=
  match buildEndpoint parseUri url with
  | none => { calls := [{ ec := false, conn := false }] }
  | some ep =>
    if ep.useTls then wssConnect tlsCtx ep.host ep.port ep.target
    else wsConnect tlsCtx ep.host ep.port ep.target

/-- The callback of `async_resolve`. -/
def onResolve (ec : Bool) (req : Request) (a : Attempt) : Attempt :=
  if ec then { a with calls := a.calls ++ [{ ec := true, conn := false }] }
  else
    let conn : Connection := { isClient := true, isTls := req.useTls, called := true }
    { a with conn := some conn.connect }

/-- The calls of the handler: those of the controller, and those of the callback that it passes to
`connect()`, which hands the connection on if there was no error. -/
def handlerCalls (a : Attempt) : List Call :=
  a.calls ++ (a.conn.toList.flatMap (·.log)).filterMap fun
    | .done ec => some { ec, conn := !ec }
    | _ => none

end Attempt

/-- A call of the user. -/
inductive Entry where
  | wsConnect (host : String) (port : UInt16) (resource : String)
  | wssConnect (host : String) (port : UInt16) (resource : String)
  | wsConnectUrl (url : String)

def Entry.attempt (parseUri : String → Option Url) (tlsCtx : Bool) : Entry → Attempt
  | .wsConnect host port resource => .wsConnect tlsCtx host port resource
  | .wssConnect host port resource => .wssConnect tlsCtx host port resource
  | .wsConnectUrl url => .wsConnectUrl parseUri tlsCtx url

/-- The call asks for TLS. -/
def Entry.usesTls (parseUri : String → Option Url) : Entry → Bool
  | .wsConnect _ _ _ => false
  | .wssConnect _ _ _ => true
  | .wsConnectUrl url => (buildEndpoint parseUri url).any (·.useTls)

/-- The atomic steps: the resolution completes, or the connection takes a step. -/
inductive AttemptAct where
  | resolve (ec : Bool)
  | conn (act : Act)
  deriving DecidableEq

namespace Attempt

def step (a : Attempt) : AttemptAct → Option Attempt
  | .resolve ec => a.resolving.map fun req => { a with resolving := none }.onResolve ec req
  | .conn act => a.conn.bind fun c => (c.step act).map fun c' => { a with conn := some c' }

/-- The runs of one call. -/
def system (parseUri : String → Option Url) (tlsCtx : Bool) (entry : Entry) :
    Lib.Sys Attempt AttemptAct where
  init a := a = entry.attempt parseUri tlsCtx
  step := step

/-- The step completes a TLS handshake with an error. -/
def failsTls (a : Attempt) : AttemptAct → Bool
  | .resolve _ => false
  | .conn act => a.conn.any (·.failsTls act)

/-- Every operation that was started on the way to the connection has completed. -/
def Completed (a : Attempt) : Prop :=
  a.resolving = none ∧ ∀ c ∈ a.conn, c.openings = 0

instance (a : Attempt) : Decidable a.Completed := inferInstanceAs (Decidable (_ ∧ _))

end Attempt

namespace Attempt

variable {parseUri : String → Option Url} {tlsCtx : Bool} {entry : Entry}

/-! ## One call of the handler -/

/-- The calls that were made, and the operations that will make one. -/
def reports (a : Attempt) : Nat :=
  a.calls.length + (if a.resolving.isSome then 1 else 0) + (a.conn.map Connection.reports).getD 0

theorem handlerCalls_length (a : Attempt) :
    a.handlerCalls.length = a.calls.length +
      (a.conn.map fun c => c.log.countP Event.isDone).getD 0 := by
  have hlog : ∀ log : List Event, (log.filterMap fun
      | .done ec => some ({ ec, conn := !ec } : Call)
      | _ => none).length = log.countP Event.isDone := by
    intro log
    induction log with
    | nil => rfl
    | cons e log ih =>
      cases e with
      | done ec => rw [List.filterMap_cons, List.countP_cons, List.length_cons, ih]; rfl
      | _ => rw [List.filterMap_cons, List.countP_cons, ih]; rfl
  unfold handlerCalls
  rw [List.length_append, hlog]
  cases a.conn with
  | none => rfl
  | some c => simp

/-- When nothing is in progress, the calls that will be made have been made. -/
theorem Completed.handlerCalls_length {a : Attempt} (h : a.Completed) :
    a.handlerCalls.length = a.reports := by
  obtain ⟨hr, hc⟩ := h
  rw [Attempt.handlerCalls_length, reports, hr]
  cases hconn : a.conn with
  | none => rfl
  | some c =>
    have ho := hc c hconn
    simp [Connection.reports, ho]

/-- What holds in the runs of a call: a resolution or a connection is in progress, not both, and the
connection was `connect()`ed. -/
structure Valid (a : Attempt) : Prop where
  resolving : a.resolving.isSome → a.conn = none
  conn : ∀ c ∈ a.conn, c.Dialing

theorem step_reports {a a' : Attempt} {act : AttemptAct} (h : a.Valid) (hs : a.step act = some a') :
    a'.Valid ∧ a'.reports = a.reports + if a.failsTls act then 1 else 0 := by
  cases act with
  | resolve ec =>
    obtain ⟨req, hreq, rfl⟩ := Option.map_eq_some_iff.mp hs
    have hconn := h.resolving (by rw [hreq]; rfl)
    cases ec with
    | true =>
      refine ⟨⟨fun hr => (by cases hr), fun c hc => ?_⟩, ?_⟩
      · exact h.conn c hc
      · simp [onResolve, reports, hreq, hconn, failsTls]
    | false =>
      refine ⟨⟨fun hr => (by cases hr), fun c hc => ?_⟩, ?_⟩
      · cases hc
        exact ⟨rfl, rfl, by simp [Connection.connect, Connection.start]⟩
      · have hone : (Connection.connect
            { isClient := true, isTls := req.useTls, called := true }).reports = 1 := rfl
        simp [onResolve, reports, hreq, hconn, failsTls, hone]
  | conn act =>
    obtain ⟨c, hc, hs⟩ := Option.bind_eq_some_iff.mp hs
    obtain ⟨c', hc', rfl⟩ := Option.map_eq_some_iff.mp hs
    obtain ⟨hd, hr⟩ := Connection.dialing_step (h.conn c hc) hc'
    refine ⟨⟨fun hres => ?_, fun d hd' => ?_⟩, ?_⟩
    · rw [h.resolving hres] at hc
      cases hc
    · cases hd'
      exact hd
    · simp [reports, hc, hr, failsTls]
      omega

/-- `make_ws_connection()` returns at once if TLS is asked for and there is no context. -/
theorem makeWsConnection_eq (req : Request) :
    makeWsConnection tlsCtx req =
      if req.useTls = true ∧ tlsCtx = false then {} else { resolving := some req } := by
  unfold makeWsConnection
  exact if_congr (by simp) rfl rfl

/-- What a call has started, and reported. -/
theorem attempt_cases (parseUri : String → Option Url) (tlsCtx : Bool) (entry : Entry) :
    (entry.usesTls parseUri = true ∧ tlsCtx = false ∧ entry.attempt parseUri tlsCtx = {}) ∨
    (¬ (entry.usesTls parseUri = true ∧ tlsCtx = false) ∧
      (entry.attempt parseUri tlsCtx).Valid ∧ (entry.attempt parseUri tlsCtx).reports = 1) := by
  have hmake : ∀ req : Request, (req.useTls = true ∧ tlsCtx = false ∧
        makeWsConnection tlsCtx req = {}) ∨
      (¬ (req.useTls = true ∧ tlsCtx = false) ∧ (makeWsConnection tlsCtx req).Valid ∧
        (makeWsConnection tlsCtx req).reports = 1) := by
    intro req
    rw [makeWsConnection_eq]
    by_cases h : req.useTls = true ∧ tlsCtx = false
    · exact .inl ⟨h.1, h.2, if_pos h⟩
    · rw [if_neg h]
      exact .inr ⟨h, ⟨fun _ => rfl, fun _ hc => (by cases hc)⟩, rfl⟩
  cases entry with
  | wsConnect host port resource => exact hmake { useTls := false, host, port, resource }
  | wssConnect host port resource => exact hmake { useTls := true, host, port, resource }
  | wsConnectUrl url =>
    simp only [Entry.usesTls, Entry.attempt, wsConnectUrl]
    cases buildEndpoint parseUri url with
    | none =>
      have hv : Valid { calls := [{ ec := false, conn := false }] } :=
        ⟨fun hr => (by cases hr), fun _ hc => (by cases hc)⟩
      exact .inr ⟨fun h => (by cases h.1), hv, rfl⟩
    | some ep =>
      simp only [Option.any_some]
      cases ep.useTls with
      | true =>
        exact hmake { useTls := true, host := ep.host, port := ep.port, resource := ep.target }
      | false =>
        exact hmake { useTls := false, host := ep.host, port := ep.port, resource := ep.target }

/-- Nothing happens after a call that has started nothing. -/
theorem runs_empty {tr : List (Attempt × AttemptAct)} {a : Attempt}
    (h : (system parseUri tlsCtx entry).Runs tr a) (he : entry.attempt parseUri tlsCtx = {}) :
    a = {} := by
  induction h with
  | init hi => exact hi.trans he
  | step act _ hs ih =>
    rw [ih] at hs
    cases act with
    | resolve ec => cases hs
    | conn act => cases hs

/-- The calls that are made or due: one, and one more for each TLS handshake that fails. -/
theorem reports_run {tr : List (Attempt × AttemptAct)} {a : Attempt}
    (h : (system parseUri tlsCtx entry).Runs tr a)
    (hstart : (entry.attempt parseUri tlsCtx).Valid ∧
      (entry.attempt parseUri tlsCtx).reports = 1) :
    a.Valid ∧ a.reports = 1 + tr.countP fun x => x.1.failsTls x.2 := by
  induction h with
  | init hi =>
    rw [show _ = _ from hi]
    exact hstart
  | step act _ hs ih =>
    obtain ⟨hv, hr⟩ := step_reports ih.1 hs
    refine ⟨hv, ?_⟩
    simp only [List.countP_append, List.countP_singleton]
    rw [hr, ih.2]
    omega

/-- **When a connect attempt reports exactly once.** When everything that a call has started on the
way to the connection has completed, the handler was called exactly once if and only if there is a
TLS context where TLS was asked for, and no TLS handshake has failed. -/
theorem handlerCalls_length_eq_one_iff {tr : List (Attempt × AttemptAct)} {a : Attempt}
    (h : (system parseUri tlsCtx entry).Runs tr a) (hdone : a.Completed) :
    a.handlerCalls.length = 1 ↔
      (entry.usesTls parseUri = true → tlsCtx = true) ∧ ∀ x ∈ tr, x.1.failsTls x.2 = false := by
  rw [hdone.handlerCalls_length]
  rcases attempt_cases parseUri tlsCtx entry with ⟨htls, hctx, he⟩ | ⟨hctx, hstart⟩
  · rw [runs_empty h he]
    constructor
    · intro hone
      cases hone
    · rintro ⟨himp, -⟩
      rw [himp htls] at hctx
      cases hctx
  · rw [(reports_run h hstart).2]
    constructor
    · intro hone
      have hnone : tr.countP (fun x => x.1.failsTls x.2) = 0 := by omega
      refine ⟨fun htls => ?_, fun x hx => ?_⟩
      · by_contra hc
        exact hctx ⟨htls, by simpa using hc⟩
      · simpa using List.countP_eq_zero.mp hnone x hx
    · rintro ⟨-, hok⟩
      have hnone : tr.countP (fun x => x.1.failsTls x.2) = 0 :=
        List.countP_eq_zero.mpr fun x hx => by simp [hok x hx]
      rw [hnone]

/-- `wss_connect()`, and every operation succeeds. -/
def connectedRun : List (Attempt × AttemptAct) × Attempt :=
  (system (fun _ => none) true (.wssConnect "localhost" 443 "/")).run
    (.wssConnect true "localhost" 443 "/")
    [.resolve false, .conn (.complete 0 false false false), .conn (.complete 0 false false false),
      .conn (.complete 0 false true true)]

theorem handlerCalls_length_eq_one_iff_connectedRun : connectedRun.2.handlerCalls.length = 1 := by
  have hrun : (system (fun _ => none) true (.wssConnect "localhost" 443 "/")).Runs
      connectedRun.1 connectedRun.2 := Lib.Sys.runs_run rfl _
  have hdone : connectedRun.2.Completed := by decide
  exact (handlerCalls_length_eq_one_iff hrun hdone).mpr (by decide)

/-- `wss_connect()`, and the TLS handshake fails. -/
def refusedRun : List (Attempt × AttemptAct) × Attempt :=
  (system (fun _ => none) true (.wssConnect "localhost" 443 "/")).run
    (.wssConnect true "localhost" 443 "/")
    [.resolve false, .conn (.complete 0 false false false), .conn (.complete 0 true false false),
      .conn (.complete 0 true true true)]

/-- The handler is called for the TLS handshake, and for the websocket handshake that follows it. -/
theorem failed_tls_reports_twice :
    ¬ ∀ parseUri tlsCtx entry tr a, (system parseUri tlsCtx entry).Runs tr a → a.Completed →
      a.handlerCalls.length = 1 := by
  intro h
  have hrun : (system (fun _ => none) true (.wssConnect "localhost" 443 "/")).Runs
      refusedRun.1 refusedRun.2 := Lib.Sys.runs_run rfl _
  exact absurd (h _ _ _ _ _ hrun (by decide)) (by decide)

/-! ## A connection, or an error -/

/-- The calls with a connection are those without an error. -/
def Paired (calls : List Call) : Prop := ∀ call ∈ calls, (call.conn = true ↔ call.ec = false)

theorem paired_append {calls calls' : List Call} :
    Paired (calls ++ calls') ↔ Paired calls ∧ Paired calls' := List.forall_mem_append

/-- What the callback of `connect()` hands on is a connection or an error. -/
theorem paired_handlerCalls_iff (a : Attempt) : Paired a.handlerCalls ↔ Paired a.calls := by
  unfold handlerCalls
  rw [paired_append, and_iff_left_iff_imp]
  rintro - call hcall
  obtain ⟨e, -, he⟩ := List.mem_filterMap.mp hcall
  cases e with
  | done ec =>
    cases he
    cases ec <;> simp
  | _ => cases he

theorem paired_step {a a' : Attempt} {act : AttemptAct} (h : Paired a.calls)
    (hs : a.step act = some a') : Paired a'.calls := by
  cases act with
  | resolve ec =>
    obtain ⟨req, -, rfl⟩ := Option.map_eq_some_iff.mp hs
    cases ec with
    | true =>
      refine paired_append.mpr ⟨h, fun call hcall => ?_⟩
      rw [List.mem_singleton.mp hcall]
      simp
    | false => exact h
  | conn act =>
    obtain ⟨c, -, hs⟩ := Option.bind_eq_some_iff.mp hs
    obtain ⟨c', -, rfl⟩ := Option.map_eq_some_iff.mp hs
    exact h

theorem makeWsConnection_calls (req : Request) : (makeWsConnection tlsCtx req).calls = [] := by
  unfold makeWsConnection
  split <;> rfl

/-- A call starts with a report only for a URL that is no endpoint. -/
theorem attempt_calls (parseUri : String → Option Url) (tlsCtx : Bool) (entry : Entry) :
    (entry.attempt parseUri tlsCtx).calls = [] ∨
    ∃ url, entry = .wsConnectUrl url ∧ buildEndpoint parseUri url = none := by
  cases entry with
  | wsConnect host port resource => exact .inl (makeWsConnection_calls _)
  | wssConnect host port resource => exact .inl (makeWsConnection_calls _)
  | wsConnectUrl url =>
    simp only [Entry.attempt, wsConnectUrl]
    cases hep : buildEndpoint parseUri url with
    | none => exact .inr ⟨url, rfl, hep⟩
    | some ep =>
      refine .inl ?_
      dsimp only
      split
      · exact makeWsConnection_calls _
      · exact makeWsConnection_calls _

theorem paired_inductive (h : Paired (entry.attempt parseUri tlsCtx).calls) :
    (system parseUri tlsCtx entry).Inductive Lib.Sys.free fun a => Paired a.calls where
  base a hi := by rw [show a = _ from hi]; exact h
  keep _ _ _ ha _ hs := paired_step ha hs

/-- **When a connection comes with every call that reports no error.** In every run of a call of
`ws_connect()` or `wss_connect()`, whatever the resolution, the connect and the handshakes give: the
handler gets a connection exactly when it gets no error, unless it is called for a URL of which
`build_endpoint` makes no endpoint. -/
theorem paired_iff (parseUri : String → Option Url) (tlsCtx : Bool) (entry : Entry) :
    (∀ a, (system parseUri tlsCtx entry).Reach Lib.Sys.free a →
      ∀ call ∈ a.handlerCalls, (call.conn = true ↔ call.ec = false)) ↔
    ∀ url, entry = .wsConnectUrl url → buildEndpoint parseUri url ≠ none := by
  constructor
  · rintro h url rfl hep
    have hcalls : (Entry.attempt parseUri tlsCtx (.wsConnectUrl url)).handlerCalls =
        [{ ec := false, conn := false }] := by
      simp only [Entry.attempt, wsConnectUrl, hep]
      rfl
    have hiff := h _ (.init rfl) { ec := false, conn := false } (by
      rw [hcalls]
      exact List.mem_cons_self)
    simp at hiff
  · intro h a ha
    apply (paired_handlerCalls_iff a).mpr
    refine (paired_inductive ?_).reach ha
    rcases attempt_calls parseUri tlsCtx entry with hnil | ⟨url, hurl, hep⟩
    · rw [hnil]
      exact fun _ hcall => absurd hcall List.not_mem_nil
    · exact absurd hep (h url hurl)

/-- `ws_connect("http://localhost/", handler)`: the handler gets the error code 0 and `nullptr`. -/
theorem unknown_scheme_reports_success :
    ¬ ∀ parseUri tlsCtx entry a, (system parseUri tlsCtx entry).Reach Lib.Sys.free a →
      ∀ call ∈ a.handlerCalls, (call.conn = true ↔ call.ec = false) := by
  intro h
  let parseUri : String → Option Url := fun url =>
    if url = "http://localhost/" then
      some { schemeId := .other, host := "localhost", portNumber := 0, encodedTarget := "/" }
    else none
  have hcall := h parseUri false (.wsConnectUrl "http://localhost/") _ (.init rfl)
    { ec := false, conn := false } (by decide)
  simp at hcall

end Attempt

end Client
end Malloy
