import Malloy.Lib.KeyMap
import Malloy.Server.Routing.Registration

/-!
# Moving a router

`start` moves the top-level router, and `add_subrouter(resource, router&&)` moves the one that it is
given. The endpoints and the policies go along, but the lambdas in them have captured the address
of the router that they were registered on, where the move leaves a router without endpoints and
with the server string of that moment.

* `DifferAt`: two states of the router objects. Of these an answer reads the endpoints that a
  preflight handler lists, and the server string of a captured router.
* `World.serve`: the responses of the router at an address, of each its status, its body and the
  fields `Server` and `Access-Control-Allow-Methods`.
* `moved_serve_iff`: which requests a router answers as before when it has been moved, and which
  ones a parent answers alike with a sub-router that it was given as an object or by a pointer.
-/

namespace Malloy
namespace Server

open Http Lib

/-! ## What a client sees -/

/-- The parts of a response that are compared. -/
structure View where
  status : Nat
  body : Body
  server : Option Str
  allowMethods : Option Str
  deriving DecidableEq

def view (resp : Response) : View where
  status := resp.status
  body := resp.body
  server := resp.fields.find (lit "Server")
  allowMethods := resp.fields.find (lit "Access-Control-Allow-Methods")

/-- The responses to a plain request whose body read gives these bytes. -/
def Router.serve (env : Env) (r : Router) (head : RequestHeader) (bytes : Str) :
    Except Exn (List View) := do
  let re ← r.handleRequest env false head
  return (writes (← re.run (some bytes))).map view

/-- The responses of the router at `a`. -/
def World.serve (w : World) (env : Env) (a : Addr) (head : RequestHeader) (bytes : Str) :
    Option (Except Exn (List View)) :=
  (w.root a).map fun r => r.router.serve (w.env env) head bytes

/-- `prepare_payload()` sets the fields that frame the body, and no other. -/
structure Env.FramesOnly (env : Env) : Prop extends env.PreparesPayload where
  fields : ∀ resp w name, env.preparePayload resp = .ok w →
    lowerStr name ≠ lowerStr (lit "Content-Length") →
      lowerStr name ≠ lowerStr (lit "Transfer-Encoding") → w.fields.find name = resp.fields.find name

section

variable {env : Env}

theorem Router.serve_eq (r : Router) (head : RequestHeader) (bytes : Str) :
    r.serve env head bytes =
      (r.answered env head).bind fun a => (a.response env bytes).map fun resp => [view resp] := by
  unfold Router.serve
  rw [Router.handleRequest_eq_answered]
  cases r.answered env head with
  | error e => rfl
  | ok a =>
    show ((a.reaction env).run (some bytes)).bind (fun es => .ok ((writes es).map view)) =
      (a.response env bytes).map fun resp => [view resp]
    rcases @Answer.reaction_run env a bytes with ⟨es, w, hrun, hresp, hw, -⟩ | ⟨e, hrun, hresp⟩
    · rw [hrun, hresp]
      exact congrArg (fun ws => Except.ok (ws.map view)) hw
    · rw [hrun, hresp]
      rfl

/-- The server string is in the response, unless the response has a `Server` field already. -/
theorem view_response (henv : env.FramesOnly) {version : Nat} {resp w : Response} {str : Str}
    (hw : env.response version resp str = .ok w) :
    (view w).server =
        (if hasField resp.fields (lit "Server") then resp.fields.find (lit "Server")
          else some str) ∧
      (view w).allowMethods = resp.fields.find (lit "Access-Control-Allow-Methods") := by
  have hs := henv.fields _ _ (lit "Server") hw (by decide) (by decide)
  have ha := henv.fields _ _ (lit "Access-Control-Allow-Methods") hw (by decide) (by decide)
  unfold view
  simp only [hs, ha]
  by_cases hf : hasField resp.fields (lit "Server") = true
  · simp [hf]
  · rw [if_neg hf, if_neg hf]
    exact ⟨Fields.find_set_self _ _ _, Fields.find_set_of_ne _ _ (by decide)⟩

theorem view_response_eq_iff (henv : env.FramesOnly) (version : Nat) (resp : Response)
    (str str' : Str) :
    (env.response version resp str).map (fun w => [view w]) =
        (env.response version resp str').map (fun w => [view w]) ↔
      str = str' ∨ (env.MayFrame resp → hasField resp.fields (lit "Server") = true) := by
  by_cases hf : hasField resp.fields (lit "Server") = true
  · refine iff_of_true ?_ (.inr fun _ => hf)
    simp only [Env.response, hf, if_true]
  · rcases Env.response_cases henv.toPreparesPayload version resp str with ⟨hm, w, hw⟩ | ⟨hm, hw⟩ <;>
    rcases Env.response_cases henv.toPreparesPayload version resp str' with
      ⟨hm', w', hw'⟩ | ⟨hm', hw'⟩
    · rw [hw, hw']
      constructor
      · intro he
        simp only [Except.map, Except.ok.injEq, List.cons.injEq, and_true] at he
        have hserver := congrArg View.server he
        rw [(view_response henv hw).1, (view_response henv hw').1, if_neg hf, if_neg hf] at hserver
        exact .inl (Option.some.inj hserver)
      · rintro (rfl | h)
        · rw [hw, Except.ok.injEq] at hw'
          rw [hw']
        · exact absurd (h hm) hf
    · exact absurd hm hm'
    · exact absurd hm' hm
    · rw [hw, hw']
      exact iff_of_true rfl (.inr fun h => absurd h hm)

theorem methodsString_ne_nil {ms : List Method} (h : ms ≠ []) :
    (lit ", ").intercalate (ms.map Method.toStr) ≠ [] := by
  obtain ⟨m, ms, rfl⟩ := List.exists_cons_of_ne_nil h
  rw [List.map_cons]
  cases ms with
  | nil =>
    rw [List.map_nil, List.intercalate_singleton]
    exact Method.toStr_ne_nil m
  | cons m' ms =>
    rw [List.intercalate_cons_of_ne_nil (by simp)]
    simp [Method.toStr_ne_nil]

/-- What a preflight handler answers. -/
theorem find_setupResponse (cfg : PreflightConfig) (ms : List Method) :
    (cfg.setupResponse { status := 200 } ms).fields.find (lit "Access-Control-Allow-Methods") =
      some ((lit ", ").intercalate (ms.map Method.toStr)) :=
  Fields.find_set_self _ _ _

end

/-! ## Two states of the router objects -/

/-- The addresses that the policy or the endpoint that answers has captured. -/
def Answer.captured : Answer → List Addr
  | policy p _ _ => [p.writer]
  | endpoint ep _ _ => ep.captured
  | unknown _ _ => []

/-- The answer is that of a preflight handler that was registered on the router at `this`, and
there are endpoints among `endpoints` for it to list. -/
def Answer.ListsMethodsOf (this : Addr) (endpoints : List EndpointHttp) : Answer → Prop
  | endpoint (.regex ep) _ head =>
    (∃ cfg, ep.handler = some (.preflight cfg this)) ∧ preflightMethods endpoints head ≠ []
  | _ => False

/-- What the handler or the policy returns has a `Server` field already, if it does not throw and
its response can be sent. -/
def Answer.NamesServer (env : Env) (bytes : Str) (a : Answer) : Prop :=
  ∀ resp, a.raw env bytes = .ok resp → env.MayFrame resp →
    hasField resp.fields (lit "Server") = true

section

variable {env : Env}

theorem firstDenial_routers (routers : Addr → RouterObj)
    (xs : List (PolicyStore × RequestHeader)) :
    firstDenial { env with routers := routers } xs = firstDenial env xs := by
  induction xs with
  | nil => rfl
  | cons x xs ih =>
    unfold firstDenial
    rw [ih]
    rfl

/-- Who answers does not depend on the router objects that were captured. -/
theorem Router.answered_routers (r : Router) (routers : Addr → RouterObj) (head : RequestHeader) :
    r.answered { env with routers := routers } head = r.answered env head := by
  unfold Router.answered
  rw [firstDenial_routers]

/-- What answers is part of the tree. -/
theorem Router.captured_of_answered {r : Router} {head : RequestHeader} {a : Answer}
    (h : r.answered env head = .ok a) {x : Addr} (hx : x ∈ a.captured) : x ∈ r.captured := by
  have hown : ∀ v ∈ r.visits head, x ∈ v.1.ownCaptured → x ∈ r.captured := fun v hv hxv =>
    List.mem_flatMap.mpr ⟨v.1, r.mem_tree_of_mem_visits head hv, hxv⟩
  unfold Router.answered at h
  cases hd : firstDenial env (r.policiesAlong head) with
  | error e => rw [hd] at h; cases h
  | ok d =>
    rw [hd] at h
    cases d with
    | some d =>
      cases h
      obtain ⟨p, head', resp, hp, rfl⟩ := firstDenial_policy hd
      obtain ⟨v, hv, hpv⟩ := List.mem_flatMap.mp hp
      obtain ⟨q, hq, he⟩ := List.mem_map.mp hpv
      cases he
      refine hown v hv (List.mem_append_right _ (List.mem_map.mpr ⟨p, hq, ?_⟩))
      exact (List.mem_singleton.mp hx).symm
    | none =>
      cases h
      have hlast : r.lastVisit head ∈ r.visits head := List.getLast_mem _
      change x ∈ (Router.ownAnswer (r.lastVisit head)).captured at hx
      unfold Router.ownAnswer at hx
      split at hx
      · rename_i ep hep
        refine hown _ hlast (List.mem_append_left _ (List.mem_flatMap.mpr ⟨ep, ?_, hx⟩))
        exact List.mem_of_find?_eq_some hep
      · cases hx

theorem Answer.sender_mem_captured {a : Answer} {x : Addr} (h : a.sender = some x) :
    x ∈ a.captured := by
  cases a with
  | policy p head resp => cases h; exact List.mem_cons_self
  | unknown r head => cases h
  | endpoint ep r head =>
    cases ep with
    | files ep => cases h; exact List.mem_cons_self
    | redirect ep => cases h
    | regex ep =>
      simp only [sender, EndpointHttp.sender] at h
      split at h
      · cases h
        simp only [captured, EndpointHttp.captured]
        split <;> exact List.mem_cons_self
      · cases h

theorem Answer.ListsMethodsOf.mem_captured {a : Answer} {x : Addr} {endpoints : List EndpointHttp}
    (h : a.ListsMethodsOf x endpoints) : x ∈ a.captured := by
  cases a with
  | policy p head resp => cases h
  | unknown r head => cases h
  | endpoint ep r head =>
    cases ep with
    | files ep => cases h
    | redirect ep => cases h
    | regex ep =>
      obtain ⟨⟨cfg, hh⟩, -⟩ := h
      simp [captured, EndpointHttp.captured, hh]

/-- Two states of the router objects that differ, for what this answer has captured, at `this`
alone: there the one has the endpoints `endpoints`, the other has none. -/
structure DifferAt (R₁ R₂ : Addr → RouterObj) (a : Answer) (this : Addr)
    (endpoints : List EndpointHttp) : Prop where
  same : ∀ x ∈ a.captured, x ≠ this → R₁ x = R₂ x
  listed : (R₁ this).endpointsHttp = endpoints
  empty : (R₂ this).endpointsHttp = []

variable {R₁ R₂ : Addr → RouterObj} {a : Answer} {this : Addr} {endpoints : List EndpointHttp}

theorem DifferAt.raw_eq (h : DifferAt R₁ R₂ a this endpoints)
    (hl : ¬ a.ListsMethodsOf this endpoints) (bytes : Str) :
    a.raw { env with routers := R₁ } bytes = a.raw { env with routers := R₂ } bytes := by
  cases a with
  | policy p head resp => rfl
  | unknown r head => rfl
  | endpoint ep r head =>
    cases ep with
    | files ep => rfl
    | redirect ep => rfl
    | regex ep =>
      simp only [Answer.raw, EndpointHttp.raw]
      cases hh : ep.handler with
      | none => rfl
      | some handler =>
        cases handler with
        | plain f => rfl
        | captures f => rfl
        | preflight cfg x =>
          have hms : preflightMethods (R₁ x).endpointsHttp head =
              preflightMethods (R₂ x).endpointsHttp head := by
            by_cases hx : x = this
            · subst hx
              rw [h.listed, h.empty]
              by_contra hne
              exact hl ⟨⟨cfg, hh⟩, hne⟩
            · rw [h.same x ?_ hx]
              simp [Answer.captured, EndpointHttp.captured, hh]
          simp only [RouteHandler.invoke, hms]

theorem DifferAt.serverStr_eq (h : DifferAt R₁ R₂ a this endpoints)
    (hs : a.sender = some this → (R₁ this).serverStr = (R₂ this).serverStr) :
    a.serverStr { env with routers := R₁ } = a.serverStr { env with routers := R₂ } := by
  unfold Answer.serverStr
  cases hx : a.sender with
  | none => rfl
  | some x =>
    by_cases hxt : x = this
    · subst hxt
      exact hs hx
    · exact congrArg RouterObj.serverStr (h.same x (Answer.sender_mem_captured hx) hxt)

/-- The list of methods is empty in one of the two responses. -/
theorem DifferAt.ne_of_listsMethodsOf (henv : env.FramesOnly) (h : DifferAt R₁ R₂ a this endpoints)
    (hl : a.ListsMethodsOf this endpoints) (bytes : Str) :
    ((a.response { env with routers := R₂ } bytes).map fun resp => [view resp]) ≠
      ((a.response { env with routers := R₁ } bytes).map fun resp => [view resp]) := by
  cases a with
  | policy p head resp => cases hl
  | unknown r head => cases hl
  | endpoint ep r head =>
    cases ep with
    | files ep => cases hl
    | redirect ep => cases hl
    | regex ep =>
      obtain ⟨⟨cfg, hh⟩, hms⟩ := hl
      -- a preflight response has no body, so it is sent
      have hsent : ∀ R ms, ∃ w, env.response head.version (cfg.setupResponse { status := 200 } ms)
          ((Answer.endpoint (.regex ep) r head).serverStr { env with routers := R }) = .ok w :=
        fun _ _ => (Env.response_ok_iff henv.toPreparesPayload).mpr fun h => absurd h (by
          simp [PreflightConfig.setupResponse, Response.set, Response.bodiless])
      obtain ⟨w₁, hw₁⟩ := hsent R₁ (preflightMethods endpoints head)
      obtain ⟨w₂, hw₂⟩ := hsent R₂ (preflightMethods [] head)
      have hresponse : ∀ R ms w, (R this).endpointsHttp = ms → env.response head.version
          (cfg.setupResponse { status := 200 } (preflightMethods ms head))
          ((Answer.endpoint (.regex ep) r head).serverStr { env with routers := R }) = .ok w →
          (Answer.endpoint (.regex ep) r head).response { env with routers := R } bytes = .ok w := by
        rintro R ms w rfl hw
        simp only [Answer.response, Answer.raw, EndpointHttp.raw, hh, RouteHandler.invoke,
          Except.bind]
        exact hw
      rw [hresponse R₁ _ w₁ h.listed hw₁, hresponse R₂ _ w₂ h.empty hw₂]
      intro he
      simp only [Except.map, Except.ok.injEq, List.cons.injEq, and_true] at he
      have hallow := congrArg View.allowMethods he
      rw [(view_response henv hw₁).2, (view_response henv hw₂).2, find_setupResponse,
        find_setupResponse] at hallow
      exact methodsString_ne_nil hms (Option.some.inj hallow).symm

/-- **When the response to a client is the same**: no methods are lost, and the server string is
the same where it is sent. -/
theorem DifferAt.view_eq_iff (henv : env.FramesOnly) (h : DifferAt R₁ R₂ a this endpoints)
    (bytes : Str) :
    ((a.response { env with routers := R₂ } bytes).map fun resp => [view resp]) =
        ((a.response { env with routers := R₁ } bytes).map fun resp => [view resp]) ↔
      ¬ a.ListsMethodsOf this endpoints ∧
        (a.sender = some this → (R₁ this).serverStr = (R₂ this).serverStr ∨
          a.NamesServer { env with routers := R₁ } bytes) := by
  by_cases hl : a.ListsMethodsOf this endpoints
  · exact iff_of_false (h.ne_of_listsMethodsOf henv hl bytes) fun hc => hc.1 hl
  · unfold Answer.NamesServer Answer.response
    rw [and_iff_right hl, h.raw_eq hl bytes]
    cases a.raw { env with routers := R₂ } bytes with
    | error e => exact iff_of_true rfl fun _ => .inr fun resp hc => by cases hc
    | ok resp =>
      simp only [Except.ok.injEq, forall_eq']
      refine (view_response_eq_iff henv _ _ _ _).trans ?_
      by_cases hs : a.sender = some this
      · rw [Answer.serverStr_of_sender hs, Answer.serverStr_of_sender hs, forall_prop_of_true hs,
          eq_comm]
        rfl
      · refine iff_of_true (.inl ?_) fun hs' => absurd hs' hs
        exact (h.serverStr_eq fun hs' => absurd hs' hs).symm

end

/-! ## Worlds before and after a move -/

namespace World

variable {w w₁ w₂ : World} {a b x : Addr}

/-- What is at the address of an object. -/
theorem routers_of_mem (hnd : (addresses w.roots).Nodup) {o : RouterObj}
    (h : (x, o) ∈ w.objects) : w.routers x = o := by
  rw [← map_objects] at hnd
  unfold routers
  rw [lookup_of_mem hnd h]
  rfl

theorem WF.routers_of_mem (hw : w.WF) {o : RouterObj} (h : (x, o) ∈ w.objects) :
    w.routers x = o := World.routers_of_mem hw.nodup h

/-- What is at an address is what the objects say. -/
theorem WF.routers_congr (hw₁ : w₁.WF) (hw₂ : w₂.WF)
    (h : ∀ o, (x, o) ∈ w₁.objects ↔ (x, o) ∈ w₂.objects) : w₁.routers x = w₂.routers x := by
  cases h₁ : w₁.objects.lookup x with
  | some o =>
    have hm : (x, o) ∈ w₁.objects := by
      obtain ⟨l₁, l₂, hl, -⟩ := List.lookup_eq_some_iff.mp h₁
      rw [hl]
      exact List.mem_append_right _ List.mem_cons_self
    rw [hw₁.routers_of_mem hm, hw₂.routers_of_mem ((h o).mp hm)]
  | none =>
    have h₂ : w₂.objects.lookup x = none := by
      rw [List.lookup_eq_none_iff] at h₁ ⊢
      intro p hp
      rw [bne_iff_ne]
      rintro rfl
      have := h₁ p ((h p.2).mpr hp)
      simp at this
    unfold routers
    rw [h₁, h₂]

theorem mem_objects {o : RouterObj} : (x, o) ∈ w.objects ↔ ∃ r ∈ w.roots, (x, o) ∈ r.objects :=
  List.mem_flatMap

/-- The object of a root is at its address. -/
theorem WF.routers_root (hw : w.WF) {r : PlacedRouter} (h : r ∈ w.roots) :
    w.routers r.this = r.object := by
  refine hw.routers_of_mem (mem_objects.mpr ⟨r, h, ?_⟩)
  rw [PlacedRouter.objects_eq]
  exact List.mem_cons_self

/-- The same tree at another address. -/
theorem mem_objects_this {r : PlacedRouter} {c : Addr} {o : RouterObj} (hx : x ≠ r.this)
    (hc : x ≠ c) : (x, o) ∈ PlacedRouter.objects { r with this := c } ↔ (x, o) ∈ r.objects := by
  rw [PlacedRouter.objects_eq, PlacedRouter.objects_eq r]
  simp [hx, hc]

theorem router_this (r : PlacedRouter) (c : Addr) :
    PlacedRouter.router { r with this := c } = r.router := by
  rw [PlacedRouter.router_eq, PlacedRouter.router_eq r]

theorem mem_objects_movedFrom {r : PlacedRouter} {o : RouterObj} (hx : x ≠ r.this) :
    (x, o) ∉ r.movedFrom.objects := by
  rw [PlacedRouter.objects_eq]
  intro h
  rcases List.mem_cons.mp h with h | h
  · exact hx (Prod.mk.inj h).1
  · cases h

/-! ### A router that is moved -/

/-- A move leaves what is at the other addresses, and an empty router at its own. -/
theorem WF.routers_moveConstruct (hw : w.WF) {r : PlacedRouter} (hr : w.root b = some r)
    (h : w.moveConstruct b = some w₁) :
    w₁.root w.next = some { r with this := w.next } ∧ w₁.routers b = r.movedFrom.object ∧
      ∀ x, x ≠ b → x < w.next → w.routers x = w₁.routers x := by
  have hw₁ := hw.moveConstruct h
  have hroots := hw.roots_moveConstruct hr h
  have hb : r.this = b := this_of_root hr
  refine ⟨hw₁.root_of_mem ((hroots _).mpr (.inl rfl)) rfl, ?_, fun x hx hlt => ?_⟩
  · rw [← hb]
    exact hw₁.routers_root ((hroots r.movedFrom).mpr (.inr (.inl rfl)))
  · have hxr : x ≠ r.this := fun he => hx (he.trans hb)
    refine hw.routers_congr hw₁ fun o => ?_
    rw [mem_objects, mem_objects]
    constructor
    · rintro ⟨q, hq, ho⟩
      by_cases hqb : q.this = b
      · cases hr.symm.trans (hw.root_of_mem hq hqb)
        exact ⟨_, (hroots _).mpr (.inl rfl), (mem_objects_this hxr hlt.ne).mpr ho⟩
      · exact ⟨q, (hroots q).mpr (.inr (.inr ⟨hq, hqb⟩)), ho⟩
    · rintro ⟨q, hq, ho⟩
      rcases (hroots q).mp hq with rfl | rfl | ⟨hq, -⟩
      · exact ⟨r, mem_of_root hr, (mem_objects_this hxr hlt.ne).mp ho⟩
      · exact absurd ho (mem_objects_movedFrom hxr)
      · exact ⟨q, hq, ho⟩

/-- **A moved router** answers as before, unless a preflight handler of its own answers. -/
theorem WF.serve_moveConstruct_iff (hw : w.WF) {env : Env} (henv : env.FramesOnly)
    {r : PlacedRouter} (hr : w.root b = some r) (h : w.moveConstruct b = some w₁)
    (head : RequestHeader) (bytes : Str) :
    w₁.serve env w.next head bytes = w.serve env b head bytes ↔
      ∀ ans, r.router.answered env head = .ok ans → ¬ ans.ListsMethodsOf b r.endpointsHttp := by
  obtain ⟨hroot, hempty, hsame⟩ := hw.routers_moveConstruct hr h
  have hself : w.routers b = r.object := by
    rw [← this_of_root hr]
    exact hw.routers_root (mem_of_root hr)
  unfold serve
  rw [hroot, hr, Option.map_some, Option.map_some, Option.some.injEq, router_this,
    Router.serve_eq, Router.serve_eq]
  unfold World.env
  rw [Router.answered_routers _ w₁.routers head, Router.answered_routers _ w.routers head]
  cases hans : r.router.answered env head with
  | error e => exact iff_of_true rfl fun ans hc => by cases hc
  | ok ans =>
    have hdiff : DifferAt w.routers w₁.routers ans b r.endpointsHttp := by
      refine ⟨fun x hx hxb => hsame x hxb ?_, by rw [hself]; rfl, by rw [hempty]; rfl⟩
      exact hw.captured r (mem_of_root hr) x (Router.captured_of_answered hans hx)
    refine (hdiff.view_eq_iff henv bytes).trans ⟨fun hc ans' he => ?_, fun hc => ⟨hc ans rfl, ?_⟩⟩
    · cases he
      exact hc.1
    · rw [hself, hempty]
      exact fun _ => .inl rfl

/-! ### A router that is mounted -/

theorem adopt_with_this (p r : PlacedRouter) (c : Addr) :
    p.adopt { r with this := c } = { p.adopt r with this := c } := by
  unfold PlacedRouter.adopt
  split <;>
  · rw [PlacedRouter.setServerString_eq, PlacedRouter.setServerString_eq]
    simp only [PlacedRouter.setLogger]
    split <;> rfl

theorem this_adopt (p r : PlacedRouter) : (p.adopt r).this = r.this := by
  unfold PlacedRouter.adopt
  rw [PlacedRouter.setServerString_eq]
  split <;> split <;> rfl

/-- The parent is the same router, wherever its sub-router is. -/
theorem mount_router (p r : PlacedRouter) (c : Addr) (resource : Str) (order : List Str) :
    (p.mount resource { r with this := c } order).router = (p.mount resource r order).router := by
  have hmap : ∀ entries : List (Str × PlacedRouter),
      (arrange order entries).map (fun x => (x.1, x.2.router)) =
        arrange order (entries.map fun x => (x.1, x.2.router)) := fun entries =>
    List.map_insertionSort _ _ _ _ fun _ _ _ _ => Iff.rfl
  unfold PlacedRouter.mount
  rw [PlacedRouter.router_eq, PlacedRouter.router_eq, hmap, hmap, List.map_cons, List.map_cons,
    adopt_with_this, router_this]

theorem adopt_object (p r : PlacedRouter) :
    (p.adopt r).object = { serverStr := p.serverStr, endpointsHttp := r.endpointsHttp } := by
  have hset : ∀ q : PlacedRouter, (q.setServerString p.serverStr).object =
      { serverStr := p.serverStr, endpointsHttp := q.endpointsHttp } := by
    intro q
    rw [PlacedRouter.setServerString_eq]
    split
    · rename_i hs
      rw [hs]
      rfl
    · rfl
  unfold PlacedRouter.adopt
  rw [hset]
  split <;> rfl

theorem mem_objects_mount {p r : PlacedRouter} {resource : Str} {order : List Str} {o : RouterObj} :
    (x, o) ∈ (p.mount resource r order).objects ↔
      (x, o) ∈ p.objects ∨ (x, o) ∈ (p.adopt r).objects := by
  rw [PlacedRouter.objects_eq, PlacedRouter.objects_eq p]
  show (x, o) ∈ (p.this, p.object) :: _ ↔ _
  rw [List.mem_cons, List.mem_cons, List.mem_flatMap, List.mem_flatMap, or_assoc]
  refine or_congr_right ?_
  constructor
  · rintro ⟨y, hy, ho⟩
    rcases List.mem_cons.mp (PlacedRouter.mem_arrange.mp hy) with rfl | hy
    · exact .inr ho
    · exact .inl ⟨y, hy, ho⟩
  · rintro (⟨y, hy, ho⟩ | ho)
    · exact ⟨y, PlacedRouter.mem_arrange.mpr (List.mem_cons_of_mem _ hy), ho⟩
    · exact ⟨_, PlacedRouter.mem_arrange.mpr List.mem_cons_self, ho⟩

/-- The router objects after a mount. -/
theorem WF.mem_objects_addSubrouter (hw : w.WF) {p r : PlacedRouter} {resource : Str}
    {order : List Str} (hp : w.root a = some p) (hr : w.root b = some r)
    (h : w.addSubrouter a resource b order = some w₁) (x : Addr) (o : RouterObj) :
    (x, o) ∈ w₁.objects ↔ (x, o) ∈ (p.addSubrouter resource (some r) order).2.objects ∨
      ∃ q ∈ w.roots, q.this ≠ a ∧ q.this ≠ b ∧ (x, o) ∈ q.objects := by
  rw [mem_objects]
  constructor
  · rintro ⟨q, hq, ho⟩
    rcases (hw.roots_addSubrouter hp hr h q).mp hq with rfl | ⟨hq, hqa, hqb⟩
    · exact .inl ho
    · exact .inr ⟨q, hq, hqa, hqb, ho⟩
  · rintro (ho | ⟨q, hq, hqa, hqb, ho⟩)
    · exact ⟨_, (hw.roots_addSubrouter hp hr h _).mpr (.inl rfl), ho⟩
    · exact ⟨q, (hw.roots_addSubrouter hp hr h q).mpr (.inr ⟨hq, hqa, hqb⟩), ho⟩

/-- The parent keeps its address. -/
theorem addSubrouter_this (p r : PlacedRouter) (resource : Str) (order : List Str) :
    (p.addSubrouter resource (some r) order).2.this = p.this := by
  rcases p.addSubrouter_cases r resource order with he | he <;> rw [he]
  rfl

theorem WF.root_addSubrouter (hw : w.WF) {p r : PlacedRouter} {resource : Str} {order : List Str}
    (hp : w.root a = some p) (hr : w.root b = some r)
    (h : w.addSubrouter a resource b order = some w₁) :
    w₁.root a = some (p.addSubrouter resource (some r) order).2 := by
  refine (hw.addSubrouter h).root_of_mem ((hw.roots_addSubrouter hp hr h _).mpr (.inl rfl)) ?_
  rw [addSubrouter_this]
  exact this_of_root hp

theorem mem_objects_mounted_this {p r : PlacedRouter} {resource : Str} {order : List Str}
    {c : Addr} {o : RouterObj} (hx : x ≠ r.this) (hc : x ≠ c) :
    (x, o) ∈ (p.addSubrouter resource (some { r with this := c }) order).2.objects ↔
      (x, o) ∈ (p.addSubrouter resource (some r) order).2.objects := by
  by_cases hm : p.CanMount resource
  · rw [PlacedRouter.addSubrouter_of_canMount hm, PlacedRouter.addSubrouter_of_canMount hm,
      mem_objects_mount, mem_objects_mount, adopt_with_this, mem_objects_this _ hc]
    rwa [this_adopt]
  · rw [PlacedRouter.addSubrouter_of_not_canMount hm, PlacedRouter.addSubrouter_of_not_canMount hm]

/-- The parent with a sub-router that was moved, and with one that was not: the router that was
moved has left an empty one, and what is at the other addresses is the same. -/
theorem WF.routers_moveSubrouter (hw : w.WF) {p r : PlacedRouter} {resource : Str}
    {order : List Str} (hp : w.root a = some p) (hr : w.root b = some r)
    (h₁ : w.addSubrouter a resource b order = some w₁)
    (h₂ : w.moveSubrouter a resource b order = some w₂) :
    w₂.root a = some (p.addSubrouter resource (some { r with this := w.next }) order).2 ∧
      w₂.routers b = r.movedFrom.object ∧
        ∀ x, x ≠ b → x < w.next → w₁.routers x = w₂.routers x := by
  obtain ⟨w', hm, h₂⟩ := Option.bind_eq_some_iff.mp h₂
  obtain ⟨-, -, -, -, -, -, hab, -⟩ := addSubrouter_eq_some hw.nodup h₁
  have ha : p.this = a := this_of_root hp
  have hb : r.this = b := this_of_root hr
  have hlt : ∀ q ∈ w.roots, q.this < w.next := fun q hq => hw.lt _ (this_mem_addresses hq)
  have hw' := hw.moveConstruct hm
  have hroots := hw.roots_moveConstruct hr hm
  have hr' := (hw.routers_moveConstruct hr hm).1
  have hp' : w'.root a = some p :=
    hw'.root_of_mem ((hroots p).mpr (.inr (.inr ⟨mem_of_root hp, by rwa [ha]⟩))) ha
  refine ⟨hw'.root_addSubrouter hp' hr' h₂, ?_, fun x hx hxlt => ?_⟩
  · rw [← hb]
    refine (hw'.addSubrouter h₂).routers_root (r := r.movedFrom) ?_
    have hleft : r.movedFrom ∈ w'.roots := (hroots _).mpr (.inr (.inl rfl))
    refine (hw'.roots_addSubrouter hp' hr' h₂ _).mpr (.inr ⟨hleft, ?_, ?_⟩)
    · exact fun he => hab (he.symm.trans hb)
    · exact (hlt r (mem_of_root hr)).ne
  · have hxr : x ≠ r.this := fun he => hx (he.trans hb)
    refine (hw.addSubrouter h₁).routers_congr (hw'.addSubrouter h₂) fun o => ?_
    rw [hw.mem_objects_addSubrouter hp hr h₁, hw'.mem_objects_addSubrouter hp' hr' h₂,
      mem_objects_mounted_this hxr hxlt.ne]
    refine or_congr_right ⟨?_, ?_⟩
    · rintro ⟨q, hq, hqa, hqb, ho⟩
      exact ⟨q, (hroots q).mpr (.inr (.inr ⟨hq, hqb⟩)), hqa, (hlt q hq).ne, ho⟩
    · rintro ⟨q, hq, hqa, hqn, ho⟩
      rcases (hroots q).mp hq with rfl | rfl | ⟨hq, hqb⟩
      · exact absurd rfl hqn
      · exact absurd ho (mem_objects_movedFrom hxr)
      · exact ⟨q, hq, hqa, hqb, ho⟩

section

variable {env : Env} {p r : PlacedRouter} {resource : Str} {order : List Str}

/-- **A sub-router that was moved into its parent** answers like one that was not, unless a
preflight handler of its own answers, or its former server string is sent. -/
theorem WF.serve_moveSubrouter_iff (hw : w.WF) (henv : env.FramesOnly)
    (hp : w.root a = some p) (hr : w.root b = some r) (hm : p.CanMount resource)
    (h₁ : w.addSubrouter a resource b order = some w₁)
    (h₂ : w.moveSubrouter a resource b order = some w₂) (head : RequestHeader) (bytes : Str) :
    w₂.serve env a head bytes = w₁.serve env a head bytes ↔
      ∀ ans, (p.mount resource r order).router.answered env head = .ok ans →
        ¬ ans.ListsMethodsOf b r.endpointsHttp ∧
          (ans.sender = some b →
            p.serverStr = r.serverStr ∨ ans.NamesServer (w₁.env env) bytes) := by
  have hw₁ := hw.addSubrouter h₁
  obtain ⟨-, -, -, -, -, -, -, -, -, hnext⟩ := addSubrouter_eq_some hw.nodup h₁
  obtain ⟨hroot₂, hempty, hsame⟩ := hw.routers_moveSubrouter hp hr h₁ h₂
  have hroot₁ := hw.root_addSubrouter hp hr h₁
  have hmounted := mem_of_root hroot₁
  rw [PlacedRouter.addSubrouter_of_canMount hm] at hroot₁ hroot₂ hmounted
  have hself : w₁.routers b = { serverStr := p.serverStr, endpointsHttp := r.endpointsHttp } := by
    rw [← adopt_object, ← this_of_root hr, ← this_adopt p r]
    refine hw₁.routers_of_mem (mem_objects.mpr ⟨_, hmounted, mem_objects_mount.mpr (.inr ?_)⟩)
    rw [PlacedRouter.objects_eq]
    exact List.mem_cons_self
  unfold serve
  rw [hroot₂, hroot₁, Option.map_some, Option.map_some, Option.some.injEq, mount_router,
    Router.serve_eq, Router.serve_eq]
  unfold World.env
  rw [Router.answered_routers _ w₂.routers head, Router.answered_routers _ w₁.routers head]
  cases hans : (p.mount resource r order).router.answered env head with
  | error e => exact iff_of_true rfl fun ans hc => by cases hc
  | ok ans =>
    have hdiff : DifferAt w₁.routers w₂.routers ans b r.endpointsHttp := by
      refine ⟨fun x hx hxb => hsame x hxb ?_, by rw [hself], by rw [hempty]; rfl⟩
      rw [← hnext]
      exact hw₁.captured _ hmounted x (Router.captured_of_answered hans hx)
    have hiff := hdiff.view_eq_iff henv bytes
    rw [hself, hempty] at hiff
    refine hiff.trans ⟨fun hc ans' he => ?_, fun hc => hc ans rfl⟩
    cases he
    exact hc

/-- A sub-router that the parent does not take makes no difference, unless the parent has an
endpoint or a policy that was registered on it. -/
theorem WF.serve_moveSubrouter_rejected (hw : w.WF) (henv : env.FramesOnly)
    (hp : w.root a = some p) (hr : w.root b = some r) (hm : ¬ p.CanMount resource)
    (hb : b ∉ p.router.captured) (h₁ : w.addSubrouter a resource b order = some w₁)
    (h₂ : w.moveSubrouter a resource b order = some w₂) (head : RequestHeader) (bytes : Str) :
    w₂.serve env a head bytes = w₁.serve env a head bytes := by
  obtain ⟨hroot₂, hempty, hsame⟩ := hw.routers_moveSubrouter hp hr h₁ h₂
  have hroot₁ := hw.root_addSubrouter hp hr h₁
  rw [PlacedRouter.addSubrouter_of_not_canMount hm] at hroot₁ hroot₂
  unfold serve
  rw [hroot₂, hroot₁, Option.map_some, Option.map_some, Option.some.injEq, Router.serve_eq,
    Router.serve_eq]
  unfold World.env
  rw [Router.answered_routers _ w₂.routers head, Router.answered_routers _ w₁.routers head]
  cases hans : p.router.answered env head with
  | error e => rfl
  | ok ans =>
    have hbans : b ∉ ans.captured := fun hx => hb (Router.captured_of_answered hans hx)
    have hdiff : DifferAt w₁.routers w₂.routers ans b (w₁.routers b).endpointsHttp := by
      refine ⟨fun x hx hxb => hsame x hxb ?_, rfl, by rw [hempty]; rfl⟩
      exact hw.captured p (mem_of_root hp) x (Router.captured_of_answered hans hx)
    refine (hdiff.view_eq_iff henv bytes).mpr ⟨fun hl => hbans hl.mem_captured, fun hs => ?_⟩
    exact absurd (Answer.sender_mem_captured hs) hbans

end

end World

/-! ## In every world that a program builds -/

/-- **When a moved router serves the same.** `start` moves the router at `b`; the router at `a` is
given the one at `b` as an object (`w₂`) or by a pointer (`w₁`). -/
theorem moved_serve_iff {env : Env} (henv : env.FramesOnly) {w : World}
    (hw : (building env.compile).Reach Sys.free w) {b : Addr} {r : PlacedRouter}
    (hr : w.root b = some r) (head : RequestHeader) (bytes : Str) :
    (∀ w₁, w.moveConstruct b = some w₁ →
      (w₁.serve env w.next head bytes = w.serve env b head bytes ↔
        ∀ ans, r.router.answered env head = .ok ans → ¬ ans.ListsMethodsOf b r.endpointsHttp)) ∧
    (∀ a p resource order w₁ w₂, w.root a = some p →
      w.addSubrouter a resource b order = some w₁ → w.moveSubrouter a resource b order = some w₂ →
      (p.CanMount resource →
        (w₂.serve env a head bytes = w₁.serve env a head bytes ↔
          ∀ ans, (p.mount resource r order).router.answered env head = .ok ans →
            ¬ ans.ListsMethodsOf b r.endpointsHttp ∧
              (ans.sender = some b →
                p.serverStr = r.serverStr ∨ ans.NamesServer (w₁.env env) bytes))) ∧
      (¬ p.CanMount resource → b ∉ p.router.captured →
        w₂.serve env a head bytes = w₁.serve env a head bytes)) := by
  have hwf := wf_reach hw
  refine ⟨fun w₁ h => hwf.serve_moveConstruct_iff henv hr h head bytes, ?_⟩
  intro a p resource order w₁ w₂ hp h₁ h₂
  exact ⟨fun hm => hwf.serve_moveSubrouter_iff henv hp hr hm h₁ h₂ head bytes,
    fun hm hb => hwf.serve_moveSubrouter_rejected henv hp hr hm hb h₁ h₂ head bytes⟩

theorem bare_framesOnly : Env.bare.FramesOnly where
  toPreparesPayload := Env.bare_preparesPayload
  fields resp w name h hname _ := by
    unfold Env.bare at h
    dsimp only at h
    split at h <;> split at h <;> cases h
    · exact Fields.find_set_of_ne _ _ hname
    · rfl

/-- The router of a routing context with its agent string, and a router that was constructed
without one. Each has an endpoint for `/x`; the second one has a preflight endpoint for it too. -/
def twoRouters : List BuildAct :=
  [.construct true (lit "malloy"),
   .register 0 (.add .get (lit "/x") (some (.plain fun _ => { status := 200 })) fun _ => []),
   .construct false [],
   .register 1 (.add .get (lit "/x") (some (.plain fun _ => { status := 200 })) fun _ => []),
   .register 1 (.addPreflight (lit "/x") {})]

def twoRoutersWorld : World := ((building Env.bare.compile).run {} twoRouters).2

theorem twoRouters_reach : (building Env.bare.compile).Reach Sys.free twoRoutersWorld :=
  (Sys.runs_run rfl twoRouters).reach fun _ _ => trivial

/-- `GET /x` gets the same response from the second router when that has been moved, and
`GET /api/y` from the first one, however that is given the second one. -/
theorem moved_serve_iff_twoRouters :
    (∃ w₁, twoRoutersWorld.moveConstruct 1 = some w₁ ∧
      w₁.serve Env.bare 2 { method := .get, target := lit "/x" } [] =
        twoRoutersWorld.serve Env.bare 1 { method := .get, target := lit "/x" } []) ∧
    (∃ w₁ w₂, twoRoutersWorld.addSubrouter 0 (lit "/api") 1 [] = some w₁ ∧
      twoRoutersWorld.moveSubrouter 0 (lit "/api") 1 [] = some w₂ ∧
      w₂.serve Env.bare 0 { method := .get, target := lit "/api/y" } [] =
        w₁.serve Env.bare 0 { method := .get, target := lit "/api/y" } []) := by
  constructor
  · refine ⟨_, rfl, ?_⟩
    have hiff := moved_serve_iff bare_framesOnly twoRouters_reach (b := 1) rfl
    refine ((hiff _ _).1 _ rfl).mpr fun ans h => ?_
    cases h
    exact fun hl => by obtain ⟨⟨cfg, hc⟩, -⟩ := hl; cases hc
  · refine ⟨_, _, rfl, rfl, ?_⟩
    have hiff := moved_serve_iff bare_framesOnly twoRouters_reach (b := 1) rfl
    refine (((hiff _ _).2 0 _ (lit "/api") [] _ _ rfl rfl rfl).1
      ⟨by decide, fun x hx => absurd hx List.not_mem_nil⟩).mpr fun ans h => ?_
    cases h
    exact ⟨fun hl => hl, fun hs => by cases hs⟩

/-- A router that was moved answers a preflight request without any method, and a router that
was given to its parent as an object sends its former server string, here none. -/
theorem moved_router_serves_otherwise :
    (¬ ∀ (env : Env) (w w₁ : World) (b : Addr) (head : RequestHeader) (bytes : Str),
      env.FramesOnly → (building env.compile).Reach Sys.free w → w.moveConstruct b = some w₁ →
        w₁.serve env w.next head bytes = w.serve env b head bytes) ∧
    (¬ ∀ (env : Env) (w w₁ w₂ : World) (a b : Addr) (resource : Str) (order : List Str)
        (head : RequestHeader) (bytes : Str),
      env.FramesOnly → (building env.compile).Reach Sys.free w →
        w.addSubrouter a resource b order = some w₁ → w.moveSubrouter a resource b order = some w₂ →
          w₂.serve env a head bytes = w₁.serve env a head bytes) := by
  constructor
  · intro h
    have he := h Env.bare twoRoutersWorld _ 1 { method := .options, target := lit "/x" } []
      bare_framesOnly twoRouters_reach rfl
    have hms := congrArg (fun o => o.map fun e => e.toOption.map fun vs =>
      vs.map View.allowMethods) he
    revert hms
    decide +kernel
  · intro h
    have he := h Env.bare twoRoutersWorld _ _ 0 1 (lit "/api") []
      { method := .get, target := lit "/api/x" } [] bare_framesOnly twoRouters_reach rfl rfl
    have hs := congrArg (fun o => o.map fun e => e.toOption.map fun vs => vs.map View.server) he
    revert hs
    decide +kernel

end Server
end Malloy
