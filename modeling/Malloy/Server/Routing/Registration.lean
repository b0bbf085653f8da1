import Mathlib.Data.List.Sort
import Malloy.Lib.Sys
import Malloy.Server.Routing.Policy

/-!
# Building routers (`server/routing/router.cpp`, `router.hpp`)

A router is built by calls of its member functions. Several of them store a lambda that captures
`this`, so where a router object is matters: a `PlacedRouter` is a router with its address.

* `PlacedRouter.add`, `addPreflight`, .. `addSubrouter`: the member functions, with what they
  return.
* `World`: the routers that a program holds (in a variable, or by a `std::unique_ptr`), each with
  the sub-routers that it owns. A router that was moved from stays where it was.
* `World.routers`: what is at an address, for the lambdas that captured it. A router of the world
  answers requests in `World.env`.
* `building`: the runs of these calls. `World.WF` is their invariant: no two objects have one
  address, and what the lambdas have captured is older than the next object (`wf_reach`).
-/

namespace Malloy
namespace Server

open Http Lib

/-! ## Router objects -/

structure PlacedRouter where
  this : Addr
  logger : Bool := false
  subRouters : List (Str × PlacedRouter) := []
  endpointsHttp : List EndpointHttp := []
  endpointsWebsocket : List EndpointWebsocket := []
  policies : List PolicyStore := []
  serverStr : Str := []

/-- A handler that a program passes to `add`. -/
inductive UserHandler where
  | plain (f : Request → Response)
  | captures (f : Request → List Str → Response)

def UserHandler.toRoute : UserHandler → RouteHandler
  | plain f => .plain f
  | captures f => .captures f

/-- The entries of a hash map after an insertion. In which order it iterates over its keys from
then on is up to the map. -/
def arrange {β : Type} (order : List Str) (entries : List (Str × β)) : List (Str × β) :=
  entries.insertionSort fun x y => order.idxOf x.1 ≤ order.idxOf y.1

mutual

def PlacedRouter.setServerString (str : Str) : PlacedRouter → PlacedRouter
  | .mk this logger subRouters endpointsHttp endpointsWebsocket policies serverStr =>
    -- Nothing to do if the string is the same
    if str = serverStr then
      .mk this logger subRouters endpointsHttp endpointsWebsocket policies serverStr
    -- Assign to this router and propagate through all sub-routers
    else
      .mk this logger (setServerStringSub str subRouters) endpointsHttp endpointsWebsocket policies
        str

def setServerStringSub (str : Str) : List (Str × PlacedRouter) → List (Str × PlacedRouter)
  | [] => []
  | (resource, sub) :: rest =>
    (resource, sub.setServerString str) :: setServerStringSub str rest

end

namespace PlacedRouter

variable (compile : Str → Option Regex) (r : PlacedRouter)

/-- `add_http_endpoint`. -/
def addHttpEndpoint (ep : EndpointHttp) : Bool × PlacedRouter :=
  (true, { r with endpointsHttp := r.endpointsHttp ++ [ep] })

/-- `add_regex_endpoint`. -/
def addRegexEndpoint (method : Method) (target : Str) (handler : Option RouteHandler)
    (setupBody : RequestHeader → Str) : Bool × PlacedRouter :=
  match compile target with
  | none => (false, r)
  | some regex =>
    -- Check handler
    match handler with
    | none => (false, r)
    | some handler =>
      r.addHttpEndpoint (.regex
        { method := method, resourceBase := regex, setupBody := setupBody, handler := some handler
          writer := r.this })

def add (method : Method) (target : Str) (handler : Option UserHandler)
    (setupBody : RequestHeader → Str) : Bool × PlacedRouter :=
  r.addRegexEndpoint compile method target (handler.map UserHandler.toRoute) setupBody

def addPreflight (target : Str) (cfg : PreflightConfig) : Bool × PlacedRouter :=
  r.addRegexEndpoint compile .options target (some (.preflight cfg r.this)) fun _ => []

def addFileServing (resource storageBasePath cacheControl : Str) : Bool × PlacedRouter :=
  r.addHttpEndpoint (.files
    { resourceBase := resource, basePath := storageBasePath, cacheControl := cacheControl
      writer := r.this })

def addRedirect (status : Nat) (resourceOld resourceNew : Str) : Bool × PlacedRouter :=
  -- Sanity check status
  if status < 300 ∨ status ≥ 400 then (false, r)
  else if !resourceOld.startsWith (lit "/") then (false, r)
  else if !resourceNew.startsWith (lit "/") then (false, r)
  else
    r.addHttpEndpoint (.redirect
      { status := status, resourceOld := resourceOld, resourceNew := resourceNew })

/-- `handler` is whether the handler is not empty. -/
def addWebsocket (resource : Str) (handler : Bool) : Bool × PlacedRouter :=
  if !handler then (false, r)
  else
    (true, { r with
      endpointsWebsocket :=
        r.endpointsWebsocket ++ [{ resource := resource, handler := handler }] })

def addPolicy (resource : Str) (policy : RequestHeader → Option Response) : PlacedRouter :=
  { r with
    policies := r.policies ++ [{ rawReg := resource, validator := policy, writer := r.this }] }

def setLogger (logger : Bool) : PlacedRouter :=
  { r with
    logger := logger
    subRouters := r.subRouters.map fun x =>
      (x.1, if !x.2.logger then { x.2 with logger := logger } else x.2) }

/-- `add_subrouter(resource, std::unique_ptr<router>)`. -/
def addSubrouter (resource : Str) (subRouter : Option PlacedRouter) (order : List Str) :
    Bool × PlacedRouter :=
  if resource = [] then (false, r)
  else
    match subRouter with
    | none => (false, r)
    | some sub =>
      let sub := if r.logger then sub.setLogger true else sub
      let sub := sub.setServerString r.serverStr
      -- `try_emplace`: the sub-router is lost if there is one for the resource
      if r.subRouters.any fun x => x.1 == resource then (true, r)
      else (true, { r with subRouters := arrange order ((resource, sub) :: r.subRouters) })

/-- What a move leaves: the string is a view, which a move copies. -/
def movedFrom : PlacedRouter := { this := r.this, serverStr := r.serverStr }

end PlacedRouter

/-! ## What is at an address -/

mutual

/-- The router, as it handles requests. -/
def PlacedRouter.router : PlacedRouter → Router
  | .mk _ logger subRouters endpointsHttp endpointsWebsocket policies serverStr =>
    .mk logger (routersSub subRouters) endpointsHttp endpointsWebsocket policies serverStr

def routersSub : List (Str × PlacedRouter) → List (Str × Router)
  | [] => []
  | (resource, sub) :: rest => (resource, sub.router) :: routersSub rest

end

mutual

/-- The router objects of the tree, by address. -/
def PlacedRouter.objects : PlacedRouter → List (Addr × RouterObj)
  | .mk this _ subRouters endpointsHttp _ _ serverStr =>
    (this, { serverStr := serverStr, endpointsHttp := endpointsHttp }) :: objectsSub subRouters

def objectsSub : List (Str × PlacedRouter) → List (Addr × RouterObj)
  | [] => []
  | (_, sub) :: rest => sub.objects ++ objectsSub rest

end

structure World where
  roots : List PlacedRouter := []
  next : Addr := 0

namespace World

variable (w : World)

/-- The router that the program holds at this address. -/
def root (a : Addr) : Option PlacedRouter := w.roots.find? fun r => r.this == a

def objects : List (Addr × RouterObj) := w.roots.flatMap PlacedRouter.objects

def routers (a : Addr) : RouterObj :=
  (w.objects.lookup a).getD { serverStr := [], endpointsHttp := [] }

/-- Requests are handled with the router objects of this world. -/
def env (env : Env) : Env := { env with routers := w.routers }

def update (a : Addr) (f : PlacedRouter → PlacedRouter) : Option World :=
  if (w.root a).isSome then
    some { w with roots := w.roots.map fun r => if r.this = a then f r else r }
  else none

/-- `router(logger)`, or the router of a routing context with its agent string. -/
def construct (logger : Bool) (serverStr : Str) : World where
  roots := w.roots ++ [{ this := w.next, logger := logger, serverStr := serverStr }]
  next := w.next + 1

/-- `router(router&&)` from the router at `b`. -/
def moveConstruct (b : Addr) : Option World :=
  (w.root b).map fun r =>
    { roots := (w.roots.map fun x => if x.this = b then x.movedFrom else x) ++
        [{ r with this := w.next }]
      next := w.next + 1 }

/-- `add_subrouter` on the router at `a`, with the pointer to the router at `b`. -/
def addSubrouter (a : Addr) (resource : Str) (b : Addr) (order : List Str) : Option World :=
  match w.root b with
  | none => none
  | some sub =>
    { w with roots := w.roots.filter fun r => r.this ≠ b }.update a fun r =>
      (r.addSubrouter resource (some sub) order).2

/-- `add_subrouter(resource, router&&)`. -/
def moveSubrouter (a : Addr) (resource : Str) (b : Addr) (order : List Str) : Option World :=
  (w.moveConstruct b).bind fun w' => w'.addSubrouter a resource w.next order

end World

/-! ## Building -/

/-- The calls of a router's member functions that add something else than a router. -/
inductive Registration where
  | add (method : Method) (target : Str) (handler : Option UserHandler)
    (setupBody : RequestHeader → Str)
  | addPreflight (target : Str) (cfg : PreflightConfig)
  | addFileServing (resource storageBasePath cacheControl : Str)
  | addRedirect (status : Nat) (resourceOld resourceNew : Str)
  | addWebsocket (resource : Str) (handler : Bool)
  | addPolicy (resource : Str) (policy : RequestHeader → Option Response)
  | setLogger (logger : Bool)

/-- The router after the call. -/
def Registration.apply (compile : Str → Option Regex) (r : PlacedRouter) :
    Registration → PlacedRouter
  | add method target handler setupBody => (r.add compile method target handler setupBody).2
  | addPreflight target cfg => (r.addPreflight compile target cfg).2
  | addFileServing resource storageBasePath cacheControl =>
    (r.addFileServing resource storageBasePath cacheControl).2
  | addRedirect status resourceOld resourceNew => (r.addRedirect status resourceOld resourceNew).2
  | addWebsocket resource handler => (r.addWebsocket resource handler).2
  | addPolicy resource policy => r.addPolicy resource policy
  | setLogger logger => r.setLogger logger

inductive BuildAct where
  | construct (logger : Bool) (serverStr : Str)
  | register (a : Addr) (reg : Registration)
  | addSubrouter (a : Addr) (resource : Str) (b : Addr) (order : List Str)
  | moveSubrouter (a : Addr) (resource : Str) (b : Addr) (order : List Str)
  | moveConstruct (b : Addr)

/-- The runs of a program that builds routers. -/
def building (compile : Str → Option Regex) : Sys World BuildAct where
  init := fun w => w = {}
  step := fun w act =>
    match act with
    | .construct logger serverStr => some (w.construct logger serverStr)
    | .register a reg => w.update a fun r => reg.apply compile r
    | .addSubrouter a resource b order => w.addSubrouter a resource b order
    | .moveSubrouter a resource b order => w.moveSubrouter a resource b order
    | .moveConstruct b => w.moveConstruct b

/-! ## Trees of routers -/

/-- The addresses that the endpoint has captured. -/
def EndpointHttp.captured : EndpointHttp → List Addr
  | regex ep =>
    match ep.handler with
    | some (.preflight _ this) => [ep.writer, this]
    | _ => [ep.writer]
  | files ep => [ep.writer]
  | redirect _ => []

/-- The addresses that the endpoints and the policies of the router itself have captured. -/
def Router.ownCaptured (r : Router) : List Addr :=
  r.endpointsHttp.flatMap EndpointHttp.captured ++ r.policies.map PolicyStore.writer

/-- The addresses that the endpoints and the policies of the tree have captured. -/
def Router.captured (r : Router) : List Addr := r.tree.flatMap Router.ownCaptured

mutual

/-- The induction over the sub-routers. -/
theorem PlacedRouter.induction_sub {P : PlacedRouter → Prop}
    (h : ∀ r : PlacedRouter, (∀ x ∈ r.subRouters, P x.2) → P r) : ∀ r, P r
  | .mk _ _ subs _ _ _ _ => h _ (PlacedRouter.induction_subs h subs)

theorem PlacedRouter.induction_subs {P : PlacedRouter → Prop}
    (h : ∀ r : PlacedRouter, (∀ x ∈ r.subRouters, P x.2) → P r) :
    ∀ subs : List (Str × PlacedRouter), ∀ x ∈ subs, P x.2
  | [], _, hx => absurd hx List.not_mem_nil
  | (_, sub) :: rest, x, hx => by
    rcases List.mem_cons.mp hx with rfl | hx
    · exact PlacedRouter.induction_sub h sub
    · exact PlacedRouter.induction_subs h rest x hx

end

theorem routersSub_eq (subs : List (Str × PlacedRouter)) :
    routersSub subs = subs.map fun x => (x.1, x.2.router) := by
  induction subs with
  | nil => rfl
  | cons x subs ih =>
    unfold routersSub
    rw [ih]
    rfl

theorem objectsSub_eq (subs : List (Str × PlacedRouter)) :
    objectsSub subs = subs.flatMap fun x => x.2.objects := by
  induction subs with
  | nil => rfl
  | cons x subs ih =>
    unfold objectsSub
    rw [ih]
    rfl

theorem setServerStringSub_eq (str : Str) (subs : List (Str × PlacedRouter)) :
    setServerStringSub str subs = subs.map fun x => (x.1, x.2.setServerString str) := by
  induction subs with
  | nil => rfl
  | cons x subs ih =>
    unfold setServerStringSub
    rw [ih]
    rfl

theorem treeSub_eq (subs : List (Str × Router)) :
    treeSub subs = subs.flatMap fun x => x.2.tree := by
  induction subs with
  | nil => rfl
  | cons x subs ih =>
    unfold treeSub
    rw [ih]
    rfl

theorem Router.tree_eq (r : Router) : r.tree = r :: r.subRouters.flatMap fun x => x.2.tree := by
  obtain ⟨logger, subs, eps, wss, policies, serverStr⟩ := r
  rw [Router.tree, treeSub_eq]

theorem Router.captured_eq (r : Router) :
    r.captured = r.ownCaptured ++ r.subRouters.flatMap fun x => x.2.captured := by
  unfold Router.captured
  rw [Router.tree_eq, List.flatMap_cons, List.flatMap_assoc]

namespace PlacedRouter

variable (r : PlacedRouter)

theorem router_eq : r.router =
    { logger := r.logger, subRouters := r.subRouters.map fun x => (x.1, x.2.router)
      endpointsHttp := r.endpointsHttp, endpointsWebsocket := r.endpointsWebsocket
      policies := r.policies, serverStr := r.serverStr } := by
  obtain ⟨this, logger, subs, eps, wss, policies, serverStr⟩ := r
  rw [router, routersSub_eq]

/-- What a lambda reads of the router. -/
def object : RouterObj := { serverStr := r.serverStr, endpointsHttp := r.endpointsHttp }

theorem objects_eq :
    r.objects = (r.this, r.object) :: r.subRouters.flatMap fun x => x.2.objects := by
  obtain ⟨this, logger, subs, eps, wss, policies, serverStr⟩ := r
  rw [objects, objectsSub_eq]
  rfl

theorem setServerString_eq (str : Str) :
    r.setServerString str =
      if str = r.serverStr then r
      else
        { r with
          subRouters := r.subRouters.map fun x => (x.1, x.2.setServerString str)
          serverStr := str } := by
  obtain ⟨this, logger, subs, eps, wss, policies, serverStr⟩ := r
  rw [setServerString, setServerStringSub_eq]

/-- The addresses of the tree. -/
def addresses : List Addr := r.objects.map Prod.fst

theorem addresses_eq :
    r.addresses = r.this :: r.subRouters.flatMap fun x => x.2.addresses := by
  unfold addresses
  rw [objects_eq, List.map_cons, List.map_flatMap]

theorem captured_eq :
    r.router.captured =
      r.router.ownCaptured ++ r.subRouters.flatMap fun x => x.2.router.captured := by
  rw [Router.captured_eq, router_eq, List.flatMap_map]

end PlacedRouter

/-- The same router objects, with the same captured addresses. -/
structure SameObjects (r r' : PlacedRouter) : Prop where
  addresses : r'.addresses = r.addresses
  captured : r'.router.captured = r.router.captured

theorem sameObjects_of_subs {r : PlacedRouter} {f : PlacedRouter → PlacedRouter}
    (hf : ∀ x ∈ r.subRouters, SameObjects x.2 (f x.2)) (logger : Bool) (serverStr : Str) :
    SameObjects r { r with
      logger := logger, subRouters := r.subRouters.map fun x => (x.1, f x.2)
      serverStr := serverStr } where
  addresses := by
    rw [PlacedRouter.addresses_eq, PlacedRouter.addresses_eq, List.flatMap_map]
    congr 1
    exact List.flatMap_congr fun x hx => (hf x hx).addresses
  captured := by
    rw [PlacedRouter.captured_eq, PlacedRouter.captured_eq, List.flatMap_map]
    congr 1
    · rw [PlacedRouter.router_eq, PlacedRouter.router_eq]
      rfl
    · exact List.flatMap_congr fun x hx => (hf x hx).captured

theorem sameObjects_refl (r : PlacedRouter) : SameObjects r r := ⟨rfl, rfl⟩

theorem sameObjects_setServerString (str : Str) (r : PlacedRouter) :
    SameObjects r (r.setServerString str) := by
  induction r using PlacedRouter.induction_sub with
  | h r ih =>
    rw [PlacedRouter.setServerString_eq]
    split
    · exact sameObjects_refl r
    · exact sameObjects_of_subs (f := fun x => x.setServerString str) ih r.logger str

theorem sameObjects_logger (r : PlacedRouter) (logger : Bool) :
    SameObjects r { r with logger := logger } where
  addresses := by rw [PlacedRouter.addresses_eq, PlacedRouter.addresses_eq]
  captured := by
    rw [PlacedRouter.captured_eq, PlacedRouter.captured_eq, PlacedRouter.router_eq,
      PlacedRouter.router_eq]
    rfl

theorem sameObjects_setLogger (r : PlacedRouter) (logger : Bool) :
    SameObjects r (r.setLogger logger) := by
  refine sameObjects_of_subs
    (f := fun x => if !x.logger then { x with logger := logger } else x) (fun x _ => ?_) logger
    r.serverStr
  split
  · exact sameObjects_logger x.2 logger
  · exact sameObjects_refl x.2

theorem SameObjects.trans {r r' r'' : PlacedRouter} (h : SameObjects r r')
    (h' : SameObjects r' r'') : SameObjects r r'' :=
  ⟨h'.addresses.trans h.addresses, h'.captured.trans h.captured⟩

/-! ## The invariant -/

namespace World

/-- The addresses of all router objects. -/
def addresses (roots : List PlacedRouter) : List Addr := roots.flatMap PlacedRouter.addresses

/-- No two objects have one address, and what the lambdas have captured is older than the next
object. -/
structure WF (w : World) : Prop where
  nodup : (addresses w.roots).Nodup
  lt : ∀ x ∈ addresses w.roots, x < w.next
  captured : ∀ r ∈ w.roots, ∀ x ∈ r.router.captured, x < w.next

variable {w w' : World} {a b : Addr}

theorem addresses_append (rs rs' : List PlacedRouter) :
    addresses (rs ++ rs') = addresses rs ++ addresses rs' := List.flatMap_append

theorem addresses_cons (r : PlacedRouter) (rs : List PlacedRouter) :
    addresses (r :: rs) = r.addresses ++ addresses rs := List.flatMap_cons

theorem map_objects (w : World) : w.objects.map Prod.fst = addresses w.roots := List.map_flatMap

theorem this_mem_addresses {r : PlacedRouter} {rs : List PlacedRouter} (h : r ∈ rs) :
    r.this ∈ addresses rs := by
  refine List.mem_flatMap.mpr ⟨r, h, ?_⟩
  rw [PlacedRouter.addresses_eq]
  exact List.mem_cons_self

/-- The program holds one router at an address. -/
theorem split_roots (hw : (addresses w.roots).Nodup) {p : PlacedRouter} (h : w.root a = some p) :
    ∃ L R, w.roots = L ++ p :: R ∧ p.this = a ∧ ∀ x ∈ L ++ R, x.this ≠ a := by
  obtain ⟨hp, L, R, hroots, hL⟩ := List.find?_eq_some_iff_append.mp h
  have ha : p.this = a := eq_of_beq hp
  refine ⟨L, R, hroots, ha, fun x hx hxa => ?_⟩
  rcases List.mem_append.mp hx with hx | hx
  · have := hL x hx
    simp [hxa] at this
  · rw [hroots, addresses_append, addresses_cons, PlacedRouter.addresses_eq] at hw
    have hnd := (List.nodup_append.mp hw).2.1
    rw [List.cons_append, List.nodup_cons] at hnd
    apply hnd.1
    rw [ha, ← hxa]
    exact List.mem_append_right _ (this_mem_addresses hx)

section

variable {L R : List PlacedRouter} {p : PlacedRouter} (ha : p.this = a)
  (hne : ∀ x ∈ L ++ R, x.this ≠ a)
include ha hne

theorem map_split (f : PlacedRouter → PlacedRouter) :
    (L ++ p :: R).map (fun r => if r.this = a then f r else r) = L ++ f p :: R := by
  have hid : ∀ rs : List PlacedRouter, (∀ x ∈ rs, x.this ≠ a) →
      rs.map (fun r => if r.this = a then f r else r) = rs := by
    intro rs hrs
    refine (List.map_congr_left fun x hx => ?_).trans (List.map_id rs)
    exact if_neg (hrs x hx)
  rw [List.map_append, List.map_cons, hid L fun x hx => hne x (List.mem_append_left _ hx),
    hid R fun x hx => hne x (List.mem_append_right _ hx), if_pos ha]

theorem filter_split : (L ++ p :: R).filter (fun r => decide (r.this ≠ a)) = L ++ R := by
  have hid : ∀ rs : List PlacedRouter, (∀ x ∈ rs, x.this ≠ a) →
      rs.filter (fun r => decide (r.this ≠ a)) = rs :=
    fun rs hrs => List.filter_eq_self.mpr fun x hx => decide_eq_true (hrs x hx)
  rw [List.filter_append, List.filter_cons_of_neg (by simp [ha]),
    hid L fun x hx => hne x (List.mem_append_left _ hx),
    hid R fun x hx => hne x (List.mem_append_right _ hx)]

end

/-! What the calls do to the roots, up to their order. -/

/-- `update` changes the router at the address. -/
theorem update_eq_some {f : PlacedRouter → PlacedRouter} (hw : (addresses w.roots).Nodup)
    (h : w.update a f = some w') :
    ∃ p rest, w.roots.Perm (p :: rest) ∧ p.this = a ∧ (∀ q ∈ rest, q.this ≠ a) ∧
      w'.roots.Perm (f p :: rest) ∧ w'.next = w.next := by
  unfold update at h
  split at h
  · rename_i hs
    obtain ⟨p, hp⟩ := Option.isSome_iff_exists.mp hs
    obtain ⟨L, R, hroots, ha, hne⟩ := split_roots hw hp
    cases h
    refine ⟨p, L ++ R, ?_, ha, hne, ?_, rfl⟩
    · rw [hroots]
      exact List.perm_middle
    · show (w.roots.map _).Perm _
      rw [hroots, map_split ha hne]
      exact List.perm_middle
  · cases h

/-- A move adds the new router, and leaves an empty one. -/
theorem moveConstruct_eq_some (hw : (addresses w.roots).Nodup) (h : w.moveConstruct b = some w') :
    ∃ p rest, w.roots.Perm (p :: rest) ∧ p.this = b ∧ (∀ q ∈ rest, q.this ≠ b) ∧
      w'.roots.Perm ({ p with this := w.next } :: p.movedFrom :: rest) ∧
      w'.next = w.next + 1 := by
  obtain ⟨p, hp, rfl⟩ := Option.map_eq_some_iff.mp h
  obtain ⟨L, R, hroots, hb, hne⟩ := split_roots hw hp
  refine ⟨p, L ++ R, ?_, hb, hne, ?_, rfl⟩
  · rw [hroots]
    exact List.perm_middle
  · show (w.roots.map _ ++ [_]).Perm _
    rw [hroots, map_split hb hne]
    exact (List.perm_append_singleton _ _).trans (List.perm_middle.cons _)

/-- The pointer is taken out of the roots, and the sub-router put into the router at `a`. -/
theorem addSubrouter_eq_some (hw : (addresses w.roots).Nodup) {resource : Str} {order : List Str}
    (h : w.addSubrouter a resource b order = some w') :
    ∃ sub p rest, w.roots.Perm (sub :: p :: rest) ∧ sub.this = b ∧ p.this = a ∧ a ≠ b ∧
      (∀ q ∈ rest, q.this ≠ a ∧ q.this ≠ b) ∧
      w'.roots.Perm ((p.addSubrouter resource (some sub) order).2 :: rest) ∧
      w'.next = w.next := by
  unfold addSubrouter at h
  split at h
  · cases h
  · rename_i sub hsub
    obtain ⟨L, R, hroots, hb, hne⟩ := split_roots hw hsub
    rw [hroots, filter_split hb hne] at h
    have hnd : (addresses (L ++ R)).Nodup := by
      rw [hroots, addresses_append, addresses_cons] at hw
      rw [addresses_append]
      exact hw.sublist ((List.sublist_append_right _ _).append_left _)
    obtain ⟨p, rest, hperm, ha, hnea, hroots', hnext⟩ := update_eq_some hnd h
    refine ⟨sub, p, rest, ?_, hb, ha, ?_, fun q hq => ⟨hnea q hq, hne q ?_⟩, hroots', hnext⟩
    · rw [hroots]
      exact List.perm_middle.trans (hperm.cons _)
    · rw [← ha]
      exact hne p (hperm.mem_iff.mpr List.mem_cons_self)
    · exact hperm.mem_iff.mpr (List.mem_cons_of_mem _ hq)

theorem this_of_root {p : PlacedRouter} (hp : w.root a = some p) : p.this = a :=
  eq_of_beq (List.find?_some (p := fun r : PlacedRouter => r.this == a) hp)

theorem mem_of_root {r : PlacedRouter} (hr : w.root a = some r) : r ∈ w.roots :=
  List.mem_of_find?_eq_some hr

theorem WF.root_of_mem (hw : w.WF) {r : PlacedRouter} (h : r ∈ w.roots) (ha : r.this = a) :
    w.root a = some r := by
  cases hf : w.root a with
  | none =>
    have := List.find?_eq_none.mp hf r h
    simp [ha] at this
  | some r' =>
    obtain ⟨L, R, hroots, -, hne⟩ := split_roots hw.nodup hf
    rw [hroots] at h
    rcases List.mem_append.mp h with h | h
    · exact absurd ha (hne r (List.mem_append_left _ h))
    · rcases List.mem_cons.mp h with rfl | h
      · rfl
      · exact absurd ha (hne r (List.mem_append_right _ h))

/-- The roots after a move: the new router, what is left of the old one, and the other ones. -/
theorem WF.roots_moveConstruct (hw : w.WF) {r : PlacedRouter} (hr : w.root b = some r)
    (h : w.moveConstruct b = some w') (q : PlacedRouter) :
    q ∈ w'.roots ↔
      q = { r with this := w.next } ∨ q = r.movedFrom ∨ q ∈ w.roots ∧ q.this ≠ b := by
  obtain ⟨p, rest, hperm, hb, hne, hroots, -⟩ := moveConstruct_eq_some hw.nodup h
  have hp : w.root b = some p := hw.root_of_mem (hperm.mem_iff.mpr List.mem_cons_self) hb
  cases hr.symm.trans hp
  rw [hroots.mem_iff, List.mem_cons, List.mem_cons, hperm.mem_iff, List.mem_cons]
  refine or_congr_right (or_congr_right ⟨fun hq => ⟨.inr hq, hne q hq⟩, ?_⟩)
  rintro ⟨rfl | hq, hqb⟩
  · exact absurd hb hqb
  · exact hq

/-- The roots after a mount: the parent with its sub-router, and the other ones. -/
theorem WF.roots_addSubrouter (hw : w.WF) {p r : PlacedRouter} {resource : Str} {order : List Str}
    (hp : w.root a = some p) (hr : w.root b = some r)
    (h : w.addSubrouter a resource b order = some w') (q : PlacedRouter) :
    q ∈ w'.roots ↔ q = (p.addSubrouter resource (some r) order).2 ∨
      q ∈ w.roots ∧ q.this ≠ a ∧ q.this ≠ b := by
  obtain ⟨sub, p', rest, hperm, hb, ha, -, hne, hroots, -⟩ := addSubrouter_eq_some hw.nodup h
  have hmem : ∀ q, q ∈ w.roots ↔ q = sub ∨ q = p' ∨ q ∈ rest := by
    intro q
    rw [hperm.mem_iff, List.mem_cons, List.mem_cons]
  cases hr.symm.trans (hw.root_of_mem ((hmem sub).mpr (.inl rfl)) hb)
  cases hp.symm.trans (hw.root_of_mem ((hmem p').mpr (.inr (.inl rfl))) ha)
  rw [hroots.mem_iff, List.mem_cons, hmem]
  refine or_congr_right ⟨fun hq => ⟨.inr (.inr hq), hne q hq⟩, ?_⟩
  rintro ⟨rfl | rfl | hq, hqa, hqb⟩
  · exact absurd hb hqb
  · exact absurd ha hqa
  · exact hq

/-! Each call keeps the invariant. -/

theorem WF.construct (hw : w.WF) (logger : Bool) (serverStr : Str) :
    (w.construct logger serverStr).WF := by
  have hadd : addresses (w.construct logger serverStr).roots = addresses w.roots ++ [w.next] := by
    show addresses (w.roots ++ [_]) = _
    rw [addresses_append, addresses_cons, PlacedRouter.addresses_eq]
    rfl
  refine ⟨?_, ?_, ?_⟩
  · rw [hadd, List.nodup_append]
    refine ⟨hw.nodup, List.nodup_singleton _, fun x hx y hy => ?_⟩
    rw [List.mem_singleton.mp hy]
    exact (hw.lt x hx).ne
  · rw [hadd]
    intro x hx
    show x < w.next + 1
    rcases List.mem_append.mp hx with hx | hx
    · exact Nat.lt_succ_of_lt (hw.lt x hx)
    · rw [List.mem_singleton.mp hx]
      exact Nat.lt_succ_self _
  · intro r hr x hx
    show x < w.next + 1
    rcases List.mem_append.mp hr with hr | hr
    · exact Nat.lt_succ_of_lt (hw.captured r hr x hx)
    · rw [List.mem_singleton.mp hr, PlacedRouter.captured_eq, PlacedRouter.router_eq] at hx
      cases hx

end World

/-! ## What the calls do to the addresses -/

/-- The members that are not sub-routers change, and capture no other router than their own. -/
theorem mem_captured_of_members {r : PlacedRouter} {eps : List EndpointHttp}
    {wss : List EndpointWebsocket} {ps : List PolicyStore} {x : Addr}
    (heps : ∀ ep ∈ eps, ep ∈ r.endpointsHttp ∨ ∀ y ∈ ep.captured, y = r.this)
    (hps : ∀ p ∈ ps, p ∈ r.policies ∨ p.writer = r.this)
    (hx : x ∈ (PlacedRouter.router { r with
      endpointsHttp := eps, endpointsWebsocket := wss, policies := ps }).captured) :
    x ∈ r.router.captured ∨ x = r.this := by
  rw [PlacedRouter.captured_eq, PlacedRouter.router_eq] at hx
  rw [PlacedRouter.captured_eq, PlacedRouter.router_eq]
  rcases List.mem_append.mp hx with hx | hx
  · rcases List.mem_append.mp hx with hx | hx
    · obtain ⟨ep, hep, hxe⟩ := List.mem_flatMap.mp hx
      rcases heps ep hep with hep | hep
      · left
        exact List.mem_append_left _ (List.mem_append_left _ (List.mem_flatMap.mpr ⟨ep, hep, hxe⟩))
      · exact .inr (hep x hxe)
    · obtain ⟨p, hp, rfl⟩ := List.mem_map.mp hx
      rcases hps p hp with hp | hp
      · left
        exact List.mem_append_left _ (List.mem_append_right _ (List.mem_map.mpr ⟨p, hp, rfl⟩))
      · exact .inr hp
  · exact .inl (List.mem_append_right _ hx)

theorem mem_captured_of_endpoint {r : PlacedRouter} {ep : EndpointHttp} {x : Addr}
    (hep : ∀ y ∈ ep.captured, y = r.this) (hx : x ∈ (r.addHttpEndpoint ep).2.router.captured) :
    x ∈ r.router.captured ∨ x = r.this := by
  refine mem_captured_of_members (fun e he => ?_) (fun p hp => .inl hp) hx
  rcases List.mem_append.mp he with he | he
  · exact .inl he
  · rw [List.mem_singleton.mp he]
    exact .inr hep

namespace Registration

variable {compile : Str → Option Regex} {reg : Registration} {r : PlacedRouter} {x : Addr}

/-- What a call can do to a router: nothing, or it adds something, whose lambdas capture the
router. -/
inductive Does (r : PlacedRouter) : Registration → PlacedRouter → Prop
  | nothing {reg : Registration} : Does r reg r
  | endpoint {reg : Registration} (ep : EndpointHttp) (hep : ∀ y ∈ ep.captured, y = r.this) :
    Does r reg (r.addHttpEndpoint ep).2
  | websocket {reg : Registration} (eps : List EndpointWebsocket) :
    Does r reg { r with endpointsWebsocket := eps }
  | policy (resource : Str) (policy : RequestHeader → Option Response) :
    Does r (.addPolicy resource policy) (r.addPolicy resource policy)
  | logger (logger : Bool) : Does r (.setLogger logger) (r.setLogger logger)

theorem addRegexEndpoint_does {method : Method} {target : Str} {handler : Option RouteHandler}
    {setupBody : RequestHeader → Str}
    (hh : ∀ cfg this, handler = some (.preflight cfg this) → this = r.this) :
    Does r reg (r.addRegexEndpoint compile method target handler setupBody).2 := by
  unfold PlacedRouter.addRegexEndpoint
  split
  · exact .nothing
  · split
    · exact .nothing
    · rename_i h
      refine .endpoint _ fun y hy => ?_
      cases h with
      | plain f => exact List.mem_singleton.mp hy
      | captures f => exact List.mem_singleton.mp hy
      | preflight cfg this =>
        rcases List.mem_cons.mp hy with hy | hy
        · exact hy
        · rw [List.mem_singleton.mp hy]
          exact hh cfg this rfl

theorem apply_does (compile : Str → Option Regex) (reg : Registration) (r : PlacedRouter) :
    Does r reg (reg.apply compile r) := by
  cases reg with
  | add method target handler setupBody =>
    refine addRegexEndpoint_does fun cfg this h => ?_
    obtain ⟨f, -, hf⟩ := Option.map_eq_some_iff.mp h
    cases f <;> cases hf
  | addPreflight target cfg =>
    refine addRegexEndpoint_does fun cfg' this h => ?_
    cases h
    rfl
  | addFileServing resource storageBasePath cacheControl =>
    exact .endpoint _ fun y hy => List.mem_singleton.mp hy
  | addRedirect status resourceOld resourceNew =>
    simp only [apply, PlacedRouter.addRedirect]
    split
    · exact .nothing
    · split
      · exact .nothing
      · split
        · exact .nothing
        · exact .endpoint _ fun y hy => absurd hy List.not_mem_nil
  | addWebsocket resource handler =>
    simp only [apply, PlacedRouter.addWebsocket]
    split
    · exact .nothing
    · exact .websocket _
  | addPolicy resource policy => exact .policy resource policy
  | setLogger logger => exact .logger logger

theorem addresses_apply : (reg.apply compile r).addresses = r.addresses := by
  have h := reg.apply_does compile r
  generalize reg.apply compile r = r' at h ⊢
  cases h with
  | nothing => rfl
  | logger logger => exact (sameObjects_setLogger r logger).addresses
  | endpoint ep hep =>
    rw [PlacedRouter.addresses_eq, PlacedRouter.addresses_eq]
    rfl
  | websocket eps => rw [PlacedRouter.addresses_eq, PlacedRouter.addresses_eq]
  | policy resource policy =>
    rw [PlacedRouter.addresses_eq, PlacedRouter.addresses_eq]
    rfl

/-- Every lambda that a call installs captures the router that it is called on. -/
theorem mem_captured_apply (hx : x ∈ (reg.apply compile r).router.captured) :
    x ∈ r.router.captured ∨ x = r.this := by
  have h := reg.apply_does compile r
  generalize reg.apply compile r = r' at h hx
  cases h with
  | nothing => exact .inl hx
  | endpoint ep hep => exact mem_captured_of_endpoint hep hx
  | websocket eps => exact mem_captured_of_members (fun e he => .inl he) (fun p hp => .inl hp) hx
  | policy resource policy =>
    refine mem_captured_of_members (fun e he => .inl he) (fun p hp => ?_) hx
    rcases List.mem_append.mp hp with hp | hp
    · exact .inl hp
    · rw [List.mem_singleton.mp hp]
      exact .inr rfl
  | logger logger =>
    rw [(sameObjects_setLogger r logger).captured] at hx
    exact .inl hx

end Registration

namespace PlacedRouter

variable {p sub : PlacedRouter} {resource : Str} {order : List Str}

/-- The sub-router with the logger and the server string of its parent. -/
def adopt (p sub : PlacedRouter) : PlacedRouter :=
  (if p.logger then sub.setLogger true else sub).setServerString p.serverStr

/-- The parent with the sub-router in its map. -/
def mount (p : PlacedRouter) (resource : Str) (sub : PlacedRouter) (order : List Str) :
    PlacedRouter :=
  { p with subRouters := arrange order ((resource, p.adopt sub) :: p.subRouters) }

theorem sameObjects_adopt : SameObjects sub (p.adopt sub) := by
  unfold adopt
  split
  · exact (sameObjects_setLogger sub true).trans (sameObjects_setServerString _ _)
  · exact sameObjects_setServerString _ _

/-- The resource is one that a sub-router can be mounted at. -/
def CanMount (p : PlacedRouter) (resource : Str) : Prop :=
  resource ≠ [] ∧ ∀ x ∈ p.subRouters, x.1 ≠ resource

theorem addSubrouter_of_canMount (h : p.CanMount resource) :
    (p.addSubrouter resource (some sub) order).2 = p.mount resource sub order := by
  have hany : (p.subRouters.any fun x => x.1 == resource) = false := by
    rw [List.any_eq_false]
    intro x hx
    simpa using h.2 x hx
  unfold addSubrouter
  rw [if_neg h.1]
  simp only [hany]
  rfl

theorem addSubrouter_of_not_canMount (h : ¬ p.CanMount resource) :
    (p.addSubrouter resource (some sub) order).2 = p := by
  unfold addSubrouter
  split
  · rfl
  · rename_i hne
    have hany : (p.subRouters.any fun x => x.1 == resource) = true := by
      by_contra hany
      refine h ⟨hne, fun x hx he => hany ?_⟩
      exact List.any_eq_true.mpr ⟨x, hx, by simp [he]⟩
    simp [hany]

theorem addSubrouter_cases (p sub : PlacedRouter) (resource : Str) (order : List Str) :
    (p.addSubrouter resource (some sub) order).2 = p ∨
      (p.addSubrouter resource (some sub) order).2 = p.mount resource sub order := by
  by_cases h : p.CanMount resource
  · exact .inr (addSubrouter_of_canMount h)
  · exact .inl (addSubrouter_of_not_canMount h)

theorem arrange_perm {β : Type} (order : List Str) (entries : List (Str × β)) :
    (arrange order entries).Perm entries := List.perm_insertionSort _ _

theorem mem_arrange {β : Type} {order : List Str} {entries : List (Str × β)} {x : Str × β} :
    x ∈ arrange order entries ↔ x ∈ entries := (arrange_perm order entries).mem_iff

theorem mount_addresses :
    (p.mount resource sub order).addresses.Perm (p.addresses ++ sub.addresses) := by
  rw [addresses_eq, addresses_eq p, List.cons_append]
  refine List.Perm.cons _ (((arrange_perm order _).flatMap_right _).trans ?_)
  rw [List.flatMap_cons, sameObjects_adopt.addresses]
  exact List.perm_append_comm

theorem mem_captured_mount {x : Addr} (hx : x ∈ (p.mount resource sub order).router.captured) :
    x ∈ p.router.captured ∨ x ∈ sub.router.captured := by
  rw [captured_eq] at hx
  rcases List.mem_append.mp hx with hx | hx
  · left
    rw [captured_eq]
    rw [router_eq] at hx ⊢
    exact List.mem_append_left _ hx
  · obtain ⟨y, hy, hxy⟩ := List.mem_flatMap.mp hx
    rcases List.mem_cons.mp (mem_arrange.mp hy) with rfl | hy
    · right
      rwa [sameObjects_adopt.captured] at hxy
    · left
      rw [captured_eq]
      exact List.mem_append_right _ (List.mem_flatMap.mpr ⟨y, hy, hxy⟩)

end PlacedRouter

/-! ## Every run -/

namespace World

variable {w w' : World} {a b : Addr}

theorem addresses_perm {rs rs' : List PlacedRouter} (h : rs.Perm rs') :
    (addresses rs).Perm (addresses rs') := h.flatMap_right _

/-- Other routers of no new address, whose captured addresses are not new either. -/
theorem WF.of_subperm (hw : w.WF) (hadd : (addresses w'.roots).Subperm (addresses w.roots))
    (hcap : ∀ r ∈ w'.roots, ∀ x ∈ r.router.captured, x < w.next) (hnext : w'.next = w.next) :
    w'.WF where
  nodup := by
    obtain ⟨l, hl, hsub⟩ := hadd
    exact hl.nodup_iff.mp (hw.nodup.sublist hsub)
  lt := by
    rw [hnext]
    exact fun x hx => hw.lt x (hadd.subset hx)
  captured := by
    rw [hnext]
    exact hcap

theorem WF.register (hw : w.WF) {compile : Str → Option Regex} {reg : Registration}
    (h : w.update a (fun r => reg.apply compile r) = some w') : w'.WF := by
  obtain ⟨p, rest, hperm, -, -, hroots, hnext⟩ := update_eq_some hw.nodup h
  refine hw.of_subperm ?_ (fun r hr x hx => ?_) hnext
  · refine List.Perm.subperm ((addresses_perm hroots).trans ?_)
    rw [addresses_cons, Registration.addresses_apply, ← addresses_cons]
    exact (addresses_perm hperm).symm
  · have hp : p ∈ w.roots := hperm.mem_iff.mpr List.mem_cons_self
    rcases List.mem_cons.mp (hroots.mem_iff.mp hr) with rfl | hr
    · rcases Registration.mem_captured_apply hx with hx | rfl
      · exact hw.captured p hp x hx
      · exact hw.lt _ (this_mem_addresses hp)
    · exact hw.captured r (hperm.mem_iff.mpr (List.mem_cons_of_mem _ hr)) x hx

theorem WF.addSubrouter (hw : w.WF) {resource : Str} {order : List Str}
    (h : w.addSubrouter a resource b order = some w') : w'.WF := by
  obtain ⟨sub, p, rest, hperm, -, -, -, -, hroots, hnext⟩ := addSubrouter_eq_some hw.nodup h
  refine hw.of_subperm ?_ (fun r hr x hx => ?_) hnext
  · have hadd : (addresses w.roots).Perm (sub.addresses ++ (p.addresses ++ addresses rest)) :=
      addresses_perm hperm
    refine (addresses_perm hroots).subperm.trans (List.Subperm.trans ?_ hadd.symm.subperm)
    rw [addresses_cons]
    rcases p.addSubrouter_cases sub resource order with he | he
    · rw [he]
      exact (List.sublist_append_right _ _).subperm
    · rw [he]
      refine ((PlacedRouter.mount_addresses.append_right _).trans ?_).subperm
      rw [← List.append_assoc]
      exact List.perm_append_comm.append_right _
  · have hold : ∀ r ∈ sub :: p :: rest, ∀ x ∈ r.router.captured, x < w.next := fun r hr =>
      hw.captured r (hperm.mem_iff.mpr hr)
    rcases List.mem_cons.mp (hroots.mem_iff.mp hr) with rfl | hr
    · rcases p.addSubrouter_cases sub resource order with he | he
      · rw [he] at hx
        exact hold p (by simp) x hx
      · rw [he] at hx
        rcases PlacedRouter.mem_captured_mount hx with hx | hx
        · exact hold p (by simp) x hx
        · exact hold sub (by simp) x hx
    · exact hold r (by simp [hr]) x hx

theorem WF.moveConstruct (hw : w.WF) (h : w.moveConstruct b = some w') : w'.WF := by
  obtain ⟨p, rest, hperm, -, -, hroots, hnext⟩ := moveConstruct_eq_some hw.nodup h
  have hadd : (addresses w'.roots).Perm (w.next :: addresses w.roots) := by
    refine (addresses_perm hroots).trans (List.Perm.trans ?_ ((addresses_perm hperm).symm.cons _))
    rw [addresses_cons, addresses_cons, addresses_cons, PlacedRouter.addresses_eq,
      PlacedRouter.addresses_eq p.movedFrom, PlacedRouter.addresses_eq p]
    exact List.perm_middle.cons _
  have hnew : w.next ∉ addresses w.roots := fun hx => (hw.lt _ hx).ne rfl
  refine ⟨?_, fun x hx => ?_, fun r hr x hx => ?_⟩
  · exact hadd.nodup_iff.mpr (List.nodup_cons.mpr ⟨hnew, hw.nodup⟩)
  · rw [hnext]
    rcases List.mem_cons.mp (hadd.mem_iff.mp hx) with rfl | hx
    · exact Nat.lt_succ_self _
    · exact Nat.lt_succ_of_lt (hw.lt x hx)
  · rw [hnext]
    apply Nat.lt_succ_of_lt
    have hold : ∀ r ∈ p :: rest, ∀ x ∈ r.router.captured, x < w.next := fun r hr =>
      hw.captured r (hperm.mem_iff.mpr hr)
    rcases List.mem_cons.mp (hroots.mem_iff.mp hr) with rfl | hr
    · refine hold p List.mem_cons_self x ?_
      rw [PlacedRouter.router_eq] at hx ⊢
      exact hx
    · rcases List.mem_cons.mp hr with rfl | hr
      · rw [PlacedRouter.captured_eq, PlacedRouter.router_eq] at hx
        cases hx
      · exact hold r (List.mem_cons_of_mem _ hr) x hx

end World

/-- **The invariant holds in every world that a program builds.** -/
theorem wf_reach {compile : Str → Option Regex} {w : World}
    (h : (building compile).Reach Sys.free w) : w.WF := by
  induction h with
  | init hi =>
    cases hi
    exact ⟨List.nodup_nil, fun x hx => absurd hx List.not_mem_nil,
      fun r hr => absurd hr List.not_mem_nil⟩
  | step act _ _ hst ih =>
    cases act with
    | construct logger serverStr =>
      cases hst
      exact ih.construct logger serverStr
    | register a reg => exact ih.register hst
    | addSubrouter a resource b order => exact ih.addSubrouter hst
    | moveSubrouter a resource b order =>
      obtain ⟨w', hm, ha⟩ := Option.bind_eq_some_iff.mp hst
      exact (ih.moveConstruct hm).addSubrouter ha
    | moveConstruct b => exact ih.moveConstruct hst

end Server
end Malloy
