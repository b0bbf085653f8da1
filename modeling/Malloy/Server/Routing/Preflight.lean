import Malloy.Server.Routing.Members
import Malloy.Server.Routing.Move

/-!
# What a preflight response lists

The handler of `add_preflight` goes over the endpoints of the router that it captured, and takes
those whose pattern matches the resource. The dispatch goes over the endpoints of the router that
handles the request, and takes the first one that matches the resource and the method.

* `methodsString`: the loop of `preflight_config::setup_response`. `methodsString_eq`: what it makes
  is the methods with commas between them.
* `PreflightsOf`: the preflight handlers of the router at an address have captured that address.
* `preflight_lists_routable_methods`: the methods in the response are those with which a request for
  the target is dispatched to an endpoint.
-/

namespace Malloy
namespace Server

open Http Lib

/-! ## The list of methods -/

/-- The loop of `setup_response` from the method at index `i` on. The method is the last one if its
address is, so that one which is there twice is the last one only once. -/
def appendMethods (last : Nat) (methodsString : Str) : Nat → List Method → Str
  | _, [] => methodsString
  | i, method :: methods =>
    let methodsString := methodsString ++ method.toStr
    let methodsString := if i ≠ last then methodsString ++ lit ", " else methodsString
    appendMethods last methodsString (i + 1) methods

/-- The string with all supported methods. -/
def methodsString (methods : List Method) : Str := appendMethods (methods.length - 1) [] 0 methods

theorem appendMethods_eq {last i : Nat} {s : Str} {m : Method} {ms : List Method}
    (h : i + ms.length = last) :
    appendMethods last s i (m :: ms) =
      s ++ (lit ", ").intercalate ((m :: ms).map Method.toStr) := by
  induction ms generalizing i s m with
  | nil =>
    have hi : i = last := h
    simp [appendMethods, hi]
  | cons m' ms ih =>
    have hi : i ≠ last := by
      rw [List.length_cons] at h
      omega
    rw [appendMethods, if_pos hi, ih (by rw [List.length_cons] at h; omega)]
    simp [List.intercalate_cons_of_ne_nil]

/-- The loop puts a comma after each method but the last. -/
theorem methodsString_eq (ms : List Method) :
    methodsString ms = (lit ", ").intercalate (ms.map Method.toStr) := by
  cases ms with
  | nil => rfl
  | cons m ms =>
    unfold methodsString
    rw [appendMethods_eq (by simp), List.nil_append]

theorem setupResponse_eq (cfg : PreflightConfig) (resp : Response) (methods : List Method) :
    cfg.setupResponse resp methods =
      (resp.set (lit "Access-Control-Allow-Origin") cfg.origin).set
        (lit "Access-Control-Allow-Methods") (methodsString methods) := by
  rw [methodsString_eq]
  rfl

/-! ## The router that a handler has captured -/

/-- The preflight handlers of the router, if it is at `a`, were registered on it. -/
def PlacedRouter.PreflightsOf (a : Addr) (q : PlacedRouter) : Prop :=
  q.this = a → ∀ e, .regex e ∈ q.endpointsHttp →
    ∀ cfg x, e.handler = some (.preflight cfg x) → x = a

/-- The call does not move a router to the address. -/
def NotMovedTo (a : Addr) (w : World) (act : AssembleAct) : Prop := act.movesTo w ≠ some a

instance (a : Addr) (w : World) (act : AssembleAct) : Decidable (NotMovedTo a w act) :=
  inferInstanceAs (Decidable (_ ≠ _))

/-- A preflight handler that a registration adds has captured the router. -/
theorem Registration.preflight_captures {compile : Str → Option Regex} {reg : Registration}
    {q : PlacedRouter} {e : EndpointHttpRegex} {cfg : PreflightConfig} {x : Addr}
    (he : .regex e ∈ (reg.apply compile q).endpointsHttp)
    (hh : e.handler = some (.preflight cfg x)) : .regex e ∈ q.endpointsHttp ∨ x = q.this := by
  have hdoes := reg.apply_does compile q
  generalize reg.apply compile q = q' at hdoes he
  cases hdoes with
  | endpoint ep hep =>
    rcases List.mem_append.mp he with he | he
    · exact .inl he
    · refine .inr (hep x ?_)
      rw [← List.mem_singleton.mp he]
      simp [EndpointHttp.captured, hh]
  | _ => exact .inl he

/-- The preflight handlers of a router to which nothing has been moved since it had no endpoints
were registered on it. -/
theorem preflightsOf_onward {compile : Str → Option Regex} {w₀ w : World} {a : Addr}
    (h₀ : (assembling compile).Reach Sys.free w₀)
    (hnone : ∀ q, w₀.routerAt a = some q → q.endpointsHttp = [])
    (h : ((assembling compile).onward w₀).Reach (NotMovedTo a) w) {r : PlacedRouter}
    (hr : w.routerAt a = some r) : r.PreflightsOf a := by
  refine own_onward (P := PlacedRouter.PreflightsOf a) ?_ ?_ ?_ h₀ ?_ h r.own
    (World.mem_owns_of_mem_all (World.mem_of_routerAt hr))
  · exact fun b _ e he => absurd he List.not_mem_nil
  · intro w b reg q _ _ hold hthis e he cfg x hh
    have hqa : q.this = a := (World.this_apply compile reg q).symm.trans hthis
    rcases Registration.preflight_captures he hh with he | hx
    · exact hold hqa e he cfg x hh
    · exact hx.trans hqa
  · -- what is moved is at another address
    intro w act q c hok hto _ hthis
    exact absurd (hto.trans (congrArg some hthis)) hok
  · intro q hq hthis e he
    have hw₀ := distinct_reach h₀
    obtain ⟨r, hr, hqr⟩ := List.mem_flatMap.mp hq
    obtain ⟨q', hq', rfl⟩ := List.mem_map.mp hqr
    have hat := hw₀.routerAt_of_mem (List.mem_flatMap.mpr ⟨r, hr, hq'⟩)
    have hempty := hnone q' (by rwa [show q'.this = a from hthis] at hat)
    have he : EndpointHttp.regex e ∈ q'.endpointsHttp := he
    rw [hempty] at he
    cases he

/-! ## What is at the address -/

theorem PlacedRouter.objects_eq_tree (r : PlacedRouter) :
    r.objects = r.tree.map fun q => (q.this, q.object) := by
  induction r using PlacedRouter.induction_sub with
  | h r ih =>
    rw [objects_eq, tree_eq, List.map_cons, List.map_flatMap]
    congr 1
    exact List.flatMap_congr ih

/-- A lambda that captured a router finds it at its address. -/
theorem World.Distinct.routers_of_mem {w : World} (hw : w.Distinct) {r : PlacedRouter}
    (hr : r ∈ w.all) : w.routers r.this = r.object := by
  obtain ⟨x, hx, hrx⟩ := List.mem_flatMap.mp hr
  refine World.routers_of_mem hw.nodup (List.mem_flatMap.mpr ⟨x, hx, ?_⟩)
  rw [PlacedRouter.objects_eq_tree]
  exact List.mem_map.mpr ⟨r, hrx, rfl⟩

/-! ## A router that handles the request itself -/

/-- No sub-router matches. -/
theorem visitsSub_eq_nil {subs : List (Str × Router)} {head : RequestHeader}
    (h : ∀ x ∈ subs, (resourceString head.target).startsWith x.1 = false) :
    visitsSub subs head = [] := by
  induction subs with
  | nil => rw [visitsSub]
  | cons x subs ih =>
    obtain ⟨base, sub⟩ := x
    have hx : (resourceString head.target).startsWith base = false := h _ List.mem_cons_self
    rw [visitsSub, hx, if_neg (by decide)]
    exact ih fun y hy => h y (List.mem_cons_of_mem _ hy)

theorem Router.visits_here {r : Router} {head : RequestHeader}
    (h : ∀ x ∈ r.subRouters, (resourceString head.target).startsWith x.1 = false) :
    r.visits head = [(r, head)] := by
  obtain ⟨logger, subs, eps, wss, policies, serverStr⟩ := r
  rw [Router.visits, visitsSub_eq_nil h]

theorem Router.lastVisit_here {r : Router} {head : RequestHeader}
    (h : ∀ x ∈ r.subRouters, (resourceString head.target).startsWith x.1 = false) :
    r.lastVisit head = (r, head) := by
  unfold Router.lastVisit
  simp only [Router.visits_here h, List.getLast_singleton]

theorem Router.policiesAlong_here {r : Router} {head : RequestHeader}
    (h : ∀ x ∈ r.subRouters, (resourceString head.target).startsWith x.1 = false) :
    r.policiesAlong head = r.policies.map fun p => (p, head) := by
  unfold Router.policiesAlong
  rw [Router.visits_here h, List.flatMap_singleton]

/-- The methods of all endpoints whose pattern matches the target, in registration order. -/
def matchingMethods (eps : List EndpointHttpRegex) (target : Str) : List Method :=
  (eps.filter fun e => (e.resourceBase target).isSome).map EndpointHttpRegex.method

/-- The methods that the preflight handler finds. -/
theorem preflightMethods_eq (eps : List EndpointHttpRegex) (head : RequestHeader) :
    preflightMethods (eps.map .regex) head = matchingMethods eps head.target := by
  unfold preflightMethods matchingMethods
  induction eps with
  | nil => rfl
  | cons e eps ih =>
    rw [List.map_cons, List.filterMap_cons, List.filter_cons, ih]
    unfold EndpointHttpRegex.matchesResource
    dsimp only
    split <;> simp_all

/-- The methods with which the dispatch finds an endpoint. -/
theorem exists_doesMatch_iff (eps : List EndpointHttpRegex) (head : RequestHeader) :
    (∃ ep ∈ eps.map EndpointHttp.regex, ep.doesMatch head = true) ↔
      head.method ∈ matchingMethods eps head.target := by
  unfold matchingMethods
  rw [List.mem_map]
  simp only [List.mem_map, exists_exists_and_eq_and]
  refine exists_congr fun e => ?_
  rw [List.mem_filter, and_assoc]
  refine and_congr_right fun _ => ?_
  simp [EndpointHttp.doesMatch, EndpointHttpRegex.doesMatch, EndpointHttpRegex.matchesResource]

/-! ## The response -/

/-- The plain request is handed to the handler of an `add_preflight`. -/
def AnsweredByPreflight (env : Env) (r : Router) (head : RequestHeader) : Prop :=
  ∃ re, r.handleRequest env false head = .ok re ∧
    ∃ e cfg x, Effect.handle (.regex e) ∈ re.effects ∧ e.handler = some (.preflight cfg x)

section

variable {env : Env}

/-- An endpoint that is called is the one that answers. -/
theorem Answer.of_handle_mem {a : Answer} {ep : EndpointHttp}
    (h : Effect.handle ep ∈ (a.reaction env).effects) : ∃ r head, a = .endpoint ep r head := by
  cases a with
  | policy p head resp => simp [Answer.reaction, Answer.denial] at h
  | unknown r head => simp [Answer.reaction] at h
  | endpoint ep' r head =>
    rcases List.mem_cons.mp h with h | h
    · cases h
      exact ⟨r, head, rfl⟩
    · obtain ⟨resp, -, he⟩ : ∃ resp, (ep'.handle env head).1 = some resp ∧
          env.sendResponse head.version resp r.serverStr = .handle ep := by simpa using h
      exact absurd he.symm (Env.handle_ne_sendResponse ep)

theorem Router.ownAnswer_eq_endpoint {v : Router × RequestHeader} {ep : EndpointHttp} {r : Router}
    {head : RequestHeader} (h : Router.ownAnswer v = .endpoint ep r head) :
    ep ∈ v.1.endpointsHttp ∧ head = v.2 := by
  unfold Router.ownAnswer at h
  split at h
  · rename_i ep' hep
    cases h
    exact ⟨List.mem_of_find?_eq_some hep, rfl⟩
  · cases h

theorem AnsweredByPreflight.byEndpoint {r : Router} {head : RequestHeader}
    (h : AnsweredByPreflight env r head) : AnsweredByEndpoint env r head := by
  obtain ⟨re, hre, e, cfg, x, he, -⟩ := h
  exact ⟨re, hre, _, he⟩

/-- The preflight handler is that of an endpoint of the last router. -/
theorem AnsweredByPreflight.answered {r : Router} {head : RequestHeader}
    (h : AnsweredByPreflight env r head) :
    ∃ e cfg x r', .regex e ∈ (r.lastVisit head).1.endpointsHttp ∧
      e.handler = some (.preflight cfg x) ∧
      r.answered env head = .ok (.endpoint (.regex e) r' (r.lastVisit head).2) := by
  have hpass := firstDenial_eq_none_iff.mpr (answeredByEndpoint_iff.mp h.byEndpoint).1
  have hown : r.answered env head = .ok (Router.ownAnswer (r.lastVisit head)) := by
    unfold Router.answered
    rw [hpass]
    rfl
  obtain ⟨re, hre, e, cfg, x, he, hh⟩ := h
  rw [Router.handleRequest_eq_answered, hown] at hre
  cases hre
  obtain ⟨r', head', ha⟩ := Answer.of_handle_mem he
  obtain ⟨hmem, rfl⟩ := Router.ownAnswer_eq_endpoint ha
  exact ⟨e, cfg, x, r', hmem, hh, by rw [hown, ha]⟩

/-- The response of a preflight handler that finds these endpoints where it looks for them. -/
theorem AnsweredByPreflight.serve (henv : env.FramesOnly) {r : Router} {head : RequestHeader}
    (h : AnsweredByPreflight env r head) {methods : List Method}
    (hms : ∀ e cfg x, .regex e ∈ (r.lastVisit head).1.endpointsHttp →
      e.handler = some (.preflight cfg x) →
        preflightMethods (env.routers x).endpointsHttp (r.lastVisit head).2 = methods)
    (bytes : Str) :
    ∃ v, r.serve env head bytes = .ok [v] ∧
      v.allowMethods = some ((lit ", ").intercalate (methods.map Method.toStr)) := by
  obtain ⟨e, cfg, x, r', hmem, hh, hans⟩ := h.answered
  obtain ⟨w, hw⟩ : ∃ w, env.response (r.lastVisit head).2.version
      (cfg.setupResponse { status := 200 } methods) (env.routers e.writer).serverStr = .ok w :=
    (Env.response_ok_iff henv.toPreparesPayload).mpr fun h => absurd h (by
      simp [PreflightConfig.setupResponse, Response.set, Response.bodiless])
  rw [Router.serve_eq, hans]
  refine ⟨view w, ?_, ?_⟩
  · simp only [Except.bind, Answer.response_endpoint, EndpointHttp.respond, EndpointHttp.raw,
      EndpointHttp.sender, hh, RouteHandler.invoke, Option.isSome_some, if_true,
      hms e cfg x hmem hh, hw, Except.map]
  · rw [(view_response henv hw).2, setupResponse_eq, ← methodsString_eq]
    exact Fields.find_set_self _ _ _

end

/-- **A preflight response lists the methods that are routed.** Nothing has been moved to the router
since it had no endpoints, and all of its endpoints are regex endpoints, which `add` and
`add_preflight` add; no policy and no sub-router matches the target, and a preflight handler answers
for it. -/
theorem preflight_lists_routable_methods {env : Env} (henv : env.FramesOnly) {w₀ w : World}
    {a : Addr} (h₀ : (assembling env.compile).Reach Sys.free w₀)
    (hnone : ∀ q, w₀.routerAt a = some q → q.endpointsHttp = [])
    (h : ((assembling env.compile).onward w₀).Reach (NotMovedTo a) w) {r : PlacedRouter}
    (hr : w.routerAt a = some r) {eps : List EndpointHttpRegex}
    (heps : r.endpointsHttp = eps.map .regex) {head : RequestHeader}
    (hpol : ∀ p ∈ r.policies, ∀ reg, env.compile p.rawReg = some reg → reg head.target = none)
    (hsub : ∀ x ∈ r.subRouters, (resourceString head.target).startsWith x.1 = false)
    (hans : AnsweredByPreflight (w.env env) r.router head) :
    (∀ bytes, ∃ v, r.router.serve (w.env env) head bytes = .ok [v] ∧
      v.allowMethods =
        some ((lit ", ").intercalate ((matchingMethods eps head.target).map Method.toStr))) ∧
    ∀ head' : RequestHeader, head'.target = head.target →
      (AnsweredByEndpoint (w.env env) r.router head' ↔
        head'.method ∈ matchingMethods eps head.target) := by
  have hw := distinct_reach (h₀.onward (h.mono fun _ _ _ => trivial))
  have hthis : r.this = a := World.this_of_routerAt hr
  have hobject : (w.env env).routers a = r.object := by
    rw [← hthis]
    exact hw.routers_of_mem (World.mem_of_routerAt hr)
  have hsubs : ∀ x ∈ r.router.subRouters, (resourceString head.target).startsWith x.1 = false := by
    rw [PlacedRouter.router_eq]
    intro x hx
    obtain ⟨y, hy, rfl⟩ := List.mem_map.mp hx
    exact hsub y hy
  have heps' : r.router.endpointsHttp = eps.map .regex := by
    rw [PlacedRouter.router_eq]
    exact heps
  constructor
  · have henv' : (w.env env).FramesOnly := ⟨⟨henv.refuses, henv.accepts⟩, henv.fields⟩
    refine hans.serve henv' fun e cfg x he hh => ?_
    rw [Router.lastVisit_here hsubs] at he ⊢
    have hx : x = a := by
      refine preflightsOf_onward h₀ hnone h hr hthis e ?_ cfg x hh
      rw [heps, ← heps']
      exact he
    rw [hx, hobject]
    show preflightMethods r.endpointsHttp head = _
    rw [heps, preflightMethods_eq]
  · intro head' ht
    have hpass := (answeredByEndpoint_iff.mp hans.byEndpoint).1
    rw [Router.policiesAlong_here hsubs] at hpass
    rw [← ht] at hsubs
    rw [answeredByEndpoint_iff, Router.policiesAlong_here hsubs, Router.lastVisit_here hsubs,
      heps', exists_doesMatch_iff, ht]
    refine and_iff_right fun x hx => ?_
    obtain ⟨p, hp, rfl⟩ := List.mem_map.mp hx
    have hvalid := (passes_iff.mp (hpass (p, head) (List.mem_map.mpr ⟨p, hp, rfl⟩))).1
    obtain ⟨reg, hreg⟩ := Option.isSome_iff_exists.mp hvalid
    rw [PlacedRouter.router_eq] at hp
    refine passes_iff.mpr ⟨hvalid, ?_⟩
    have hnone := hpol p hp reg hreg
    rw [← ht] at hnone
    unfold PolicyStore.answer
    rw [hreg, Option.bind_some, if_pos (Option.isNone_iff_eq_none.mpr hnone)]

/-- A router with two endpoints and a preflight endpoint for `/x`, and an endpoint for `/y`. -/
def noteRouter : List AssembleAct :=
  let handler := some (.plain fun _ => { status := 200 })
  [.build (.construct true (lit "malloy")),
   .build (.register 0 (.add .get (lit "/x") handler fun _ => [])),
   .build (.register 0 (.addPreflight (lit "/x") {})),
   .build (.register 0 (.add .put (lit "/y") handler fun _ => [])),
   .build (.register 0 (.add .post (lit "/x") handler fun _ => []))]

def noteRouterWorld : World := (((assembling Env.bare.compile).onward {}).run {} noteRouter).2

theorem preflight_lists_routable_methods_noteRouter :
    ∃ r, noteRouterWorld.routerAt 0 = some r ∧
      (∀ bytes, ∃ v, r.router.serve (noteRouterWorld.env Env.bare)
          { method := .options, target := lit "/x" } bytes = .ok [v] ∧
        v.allowMethods = some (lit "GET, OPTIONS, POST")) ∧
      ∀ head, head.target = lit "/x" →
        (AnsweredByEndpoint (noteRouterWorld.env Env.bare) r.router head ↔
          head.method ∈ [Method.get, .options, .post]) := by
  have hrun := Sys.runs_run (S := (assembling Env.bare.compile).onward {}) rfl noteRouter
  have hreach : ((assembling Env.bare.compile).onward {}).Reach (NotMovedTo 0) noteRouterWorld :=
    hrun.reach (by decide +kernel)
  refine ⟨_, rfl, ?_⟩
  exact preflight_lists_routable_methods bare_framesOnly (.init rfl) (fun q hq => by cases hq)
    hreach rfl (rfl : _ = [_, _, _, _].map EndpointHttp.regex) (fun p hp => by cases hp)
    (fun x hx => by cases hx) ⟨_, rfl, _, _, _, List.mem_cons_self, rfl⟩

end Server
end Malloy
