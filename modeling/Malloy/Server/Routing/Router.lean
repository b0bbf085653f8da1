import Malloy.Server.Routing.Endpoint

/-!
# `malloy::server::router` (`server/routing/router.hpp`)

The request side of the router: policies, sub-routers, endpoints.

* `Router`: the members of the class. `subRouters` is in the iteration order of the hash map; the
  logger is whether there is one.
* `Router.handleRequest env isWebsocket`: `handle_request<isWebsocket>`. It is one structural
  recursion over the tree, mutual with the loop over the sub-routers.
* `Router.visits`: the routers that a request descends through, each with the header that it
  sees. `handleRequest_eq` is the dispatch by this list: the policies along it are asked in order,
  and the last router handles the request.
-/

namespace Malloy
namespace Server

open Http

/-! ## Policies -/

/-- A policy: its pattern, its validator, and the router that its writer captured. -/
structure PolicyStore where
  rawReg : Str
  validator : RequestHeader → Option Response
  writer : Addr

/-- `policy_store::process`: the effects with which the policy answers, if it does. The compiled
pattern is cached by the source, which changes nothing. -/
def PolicyStore.process (env : Env) (policy : PolicyStore) (head : RequestHeader) :
    Except Exn (Option (List Effect)) :=
  match env.compile policy.rawReg with
  | none => .error .regexError
  | some reg =>
    if (reg head.target).isNone then .ok none
    else
      match policy.validator head with
      | none => .ok none
      | some resp =>
        let serverStr := (env.routers policy.writer).serverStr
        .ok (some [.denied resp, env.sendResponse head.version resp serverStr])

/-- `is_handled_by_policies`: the first policy that answers, in registration order. -/
def isHandledByPolicies (env : Env) (head : RequestHeader) :
    List PolicyStore → Except Exn (Option (List Effect))
  | [] => .ok none
  | policy :: policies =>
    match policy.process env head with
    | .error e => .error e
    | .ok (some effects) => .ok (some effects)
    | .ok none => isHandledByPolicies env head policies

/-! ## Endpoints -/

/-- `handle_http_request` with the given endpoints. -/
def handleHttpRequest (env : Env) (serverStr : Str) (head : RequestHeader) :
    List EndpointHttp → Reaction
  | [] =>
    -- If we end up where we have no meaningful way of handling this request
    { effects := [env.sendResponse head.version (badRequest (lit "unknown request")) serverStr] }
  | ep :: eps =>
    if ep.doesMatch head then
      -- Generate the response for the request
      let (resp, body) := ep.handle env head
      let sent := match resp with
        | some resp => [env.sendResponse head.version resp serverStr]
        | none => []
      { effects := .handle ep :: sent, body := body }
    else handleHttpRequest env serverStr head eps

/-- The loop of `handle_ws_request`. -/
def handleWsEndpoints (head : RequestHeader) : List EndpointWebsocket → Reaction
  | [] => {}
  | ep :: eps =>
    if ep.resource ≠ resourceString head.target then handleWsEndpoints head eps
    else if !ep.handler then handleWsEndpoints head eps
    else { effects := [.websocket ep head] }

/-- `handle_ws_request`: it logs without looking whether there is a logger. -/
def handleWsRequest (logger : Bool) (eps : List EndpointWebsocket) (head : RequestHeader) :
    Except Exn Reaction :=
  if logger then .ok (handleWsEndpoints head eps) else .error .nullDeref

/-! ## The router -/

structure Router where
  logger : Bool
  subRouters : List (Str × Router)
  endpointsHttp : List EndpointHttp
  endpointsWebsocket : List EndpointWebsocket
  policies : List PolicyStore
  serverStr : Str

/-- What the router does itself, when no policy and no sub-router takes the request. -/
def Router.handleHere (env : Env) (isWebsocket : Bool) (r : Router) (head : RequestHeader) :
    Except Exn Reaction :=
  if isWebsocket then handleWsRequest r.logger r.endpointsWebsocket head
  else .ok (handleHttpRequest env r.serverStr head r.endpointsHttp)

/-- The policies are only asked about a plain request. -/
def Router.askPolicies (env : Env) (isWebsocket : Bool) (r : Router) (head : RequestHeader) :
    Except Exn (Option (List Effect)) :=
  if isWebsocket then .ok none else isHandledByPolicies env head r.policies

mutual

/-- `handle_request<isWebsocket>`. -/
def Router.handleRequest (env : Env) (isWebsocket : Bool) :
    Router → RequestHeader → Except Exn Reaction
  | .mk logger subRouters endpointsHttp endpointsWebsocket policies serverStr, head =>
    let r : Router :=
      .mk logger subRouters endpointsHttp endpointsWebsocket policies serverStr
    match r.askPolicies env isWebsocket head with
    | .error e => .error e
    | .ok (some effects) => .ok { effects := effects }
    | .ok none =>
      match handleSubRouters env isWebsocket subRouters head with
      | some reaction => reaction
      -- At this point we know that this particular router is going to handle the request.
      | none => r.handleHere env isWebsocket head

/-- The loop over the sub-routers; `none` if none of them matches. -/
def handleSubRouters (env : Env) (isWebsocket : Bool) :
    List (Str × Router) → RequestHeader → Option (Except Exn Reaction)
  | [], _ => none
  | (resourceBase, router) :: rest, head =>
    -- Check match
    if !(resourceString head.target).startsWith resourceBase then
      handleSubRouters env isWebsocket rest head
    else
      -- Chop request resource path, and let the sub-router handle things from here
      match chopResource head resourceBase with
      | .error e => some (.error e)
      | .ok head => some (router.handleRequest env isWebsocket head)

end

/-! ## The path of a request -/

mutual

/-- The routers that a request descends through, each with the header that it sees. -/
def Router.visits : Router → RequestHeader → List (Router × RequestHeader)
  | .mk logger subRouters endpointsHttp endpointsWebsocket policies serverStr, head =>
    (.mk logger subRouters endpointsHttp endpointsWebsocket policies serverStr, head) ::
      visitsSub subRouters head

def visitsSub : List (Str × Router) → RequestHeader → List (Router × RequestHeader)
  | [], _ => []
  | (resourceBase, router) :: rest, head =>
    if (resourceString head.target).startsWith resourceBase then
      router.visits { head with target := head.target.drop resourceBase.length }
    else visitsSub rest head

end

end Server
end Malloy
