import Mathlib.Data.List.Forall2
import Malloy.Server.Routing.Members
import Malloy.Server.Routing.Move

/-!
# The first registration wins

`handle_request` takes the first endpoint that matches, and the calls that add endpoints put them
behind the others. So a program can go on with its routers, also with the mounted ones, and the
requests that were answered are answered as before.

* `PlacedRouter.Grew`: the second router is the first one with more endpoints behind its own, and so
  in the sub-routers. `Grew.visits`: a request takes the same path through both.
* `World.Grew`: so are the routers that the program holds, and what it has constructed since then
  is newer. `captured_lt`: no lambda has captured what is newer.
* `AddsOnly`: the calls that add no policy, mount nothing and move nothing. `grew_onward`: their
  runs.
* `first_registration_wins`: the reaction to a request that was answered does not change.
-/

namespace Malloy
namespace Server

open Http Lib

/-! ## Routers with more endpoints -/

/-- The router itself has more endpoints, behind its own, and the same policies. -/
structure PlacedRouter.GrewHere (r r' : PlacedRouter) : Prop where
  this : r'.this = r.this
  logger : r.logger = true → r'.logger = true
  endpointsHttp : r.endpointsHttp <+: r'.endpointsHttp
  endpointsWebsocket : r.endpointsWebsocket <+: r'.endpointsWebsocket
  policies : r'.policies = r.policies
  serverStr : r'.serverStr = r.serverStr

mutual

def PlacedRouter.Grew : PlacedRouter → PlacedRouter → Prop
  | .mk this logger subRouters endpointsHttp endpointsWebsocket policies serverStr, r' =>
    PlacedRouter.GrewHere
      (.mk this logger subRouters endpointsHttp endpointsWebsocket policies serverStr) r' ∧
    GrewSubs subRouters r'.subRouters

def GrewSubs : List (Str × PlacedRouter) → List (Str × PlacedRouter) → Prop
  | [], subs' => subs' = []
  | (base, sub) :: rest, subs' =>
    ∃ sub' rest', subs' = (base, sub') :: rest' ∧ sub.Grew sub' ∧ GrewSubs rest rest'

end

theorem grewSubs_iff {subs subs' : List (Str × PlacedRouter)} :
    GrewSubs subs subs' ↔ List.Forall₂ (fun x y => x.1 = y.1 ∧ x.2.Grew y.2) subs subs' := by
  induction subs generalizing subs' with
  | nil =>
    unfold GrewSubs
    exact List.forall₂_nil_left_iff.symm
  | cons x rest ih =>
    obtain ⟨base, sub⟩ := x
    unfold GrewSubs
    rw [List.forall₂_cons_left_iff]
    constructor
    · rintro ⟨sub', rest', rfl, hs, hrest⟩
      exact ⟨(base, sub'), rest', ⟨rfl, hs⟩, ih.mp hrest, rfl⟩
    · rintro ⟨⟨base', sub'⟩, rest', ⟨hb, hs⟩, hrest, rfl⟩
      cases hb
      exact ⟨sub', rest', rfl, hs, ih.mpr hrest⟩

namespace PlacedRouter

variable {r r' r'' : PlacedRouter} {a : Addr} {f : PlacedRouter → PlacedRouter}

theorem GrewHere.refl (r : PlacedRouter) : r.GrewHere r where
  this := rfl
  logger := id
  endpointsHttp := List.prefix_rfl
  endpointsWebsocket := List.prefix_rfl
  policies := rfl
  serverStr := rfl

theorem GrewHere.trans (h : r.GrewHere r') (h' : r'.GrewHere r'') : r.GrewHere r'' where
  this := h'.this.trans h.this
  logger hl := h'.logger (h.logger hl)
  endpointsHttp := h.endpointsHttp.trans h'.endpointsHttp
  endpointsWebsocket := h.endpointsWebsocket.trans h'.endpointsWebsocket
  policies := h'.policies.trans h.policies
  serverStr := h'.serverStr.trans h.serverStr

theorem grew_iff :
    r.Grew r' ↔ r.GrewHere r' ∧
      List.Forall₂ (fun x y => x.1 = y.1 ∧ x.2.Grew y.2) r.subRouters r'.subRouters := by
  obtain ⟨this, logger, subs, eps, wss, policies, serverStr⟩ := r
  rw [Grew, grewSubs_iff]

theorem Grew.refl (r : PlacedRouter) : r.Grew r := by
  induction r using PlacedRouter.induction_sub with
  | h r ih => exact grew_iff.mpr ⟨.refl r, List.forall₂_same.mpr fun x hx => ⟨rfl, ih x hx⟩⟩

/-- A change of the router itself. -/
theorem GrewHere.grew (h : r.GrewHere r') (hs : r'.subRouters = r.subRouters) : r.Grew r' := by
  refine grew_iff.mpr ⟨h, ?_⟩
  rw [hs]
  exact List.forall₂_same.mpr fun x _ => ⟨rfl, .refl x.2⟩

theorem Grew.trans (h : r.Grew r') (h' : r'.Grew r'') : r.Grew r'' := by
  induction r using PlacedRouter.induction_sub generalizing r' r'' with
  | h r ih =>
    obtain ⟨hh, hs⟩ := grew_iff.mp h
    obtain ⟨hh', hs'⟩ := grew_iff.mp h'
    refine grew_iff.mpr ⟨hh.trans hh', ?_⟩
    -- along the sub-routers of the first router
    generalize r.subRouters = xs, r'.subRouters = ys, r''.subRouters = zs at ih hs hs'
    induction hs generalizing zs with
    | nil => exact hs'
    | @cons x y xs ys hxy _ ihs =>
      obtain ⟨z, zs, hyz, hyzs, rfl⟩ := List.forall₂_cons_left_iff.mp hs'
      refine .cons ⟨hxy.1.trans hyz.1, ih x List.mem_cons_self hxy.2 hyz.2⟩ ?_
      exact ihs zs (fun x hx => ih x (List.mem_cons_of_mem _ hx)) hyzs

/-- The router at an address of the tree has grown. -/
theorem Grew.modify (hf : ∀ q ∈ r.tree, q.this = a → q.Grew (f q)) : r.Grew (r.modify a f) := by
  induction r using PlacedRouter.induction_sub with
  | h r ih =>
    rw [modify_eq]
    split
    · rename_i ha
      exact hf r r.mem_tree_self ha
    · have hhere : r.GrewHere
          { r with subRouters := r.subRouters.map fun x => (x.1, x.2.modify a f) } :=
        ⟨rfl, id, List.prefix_rfl, List.prefix_rfl, rfl, rfl⟩
      refine grew_iff.mpr ⟨hhere, List.forall₂_map_right_iff.mpr ?_⟩
      refine List.forall₂_same.mpr fun x hx => ⟨rfl, ih x hx fun q hq => ?_⟩
      exact hf q (mem_tree.mpr (.inr ⟨x, hx, hq⟩))

end PlacedRouter

/-! ## The calls that add endpoints -/

/-- The call adds no policy, and takes no logger away. -/
def Registration.addsOnly : Registration → Bool
  | addPolicy _ _ => false
  | setLogger logger => logger
  | _ => true

section

variable {compile : Str → Option Regex} {r : PlacedRouter}

theorem grew_addHttpEndpoint (r : PlacedRouter) (ep : EndpointHttp) :
    r.Grew (r.addHttpEndpoint ep).2 :=
  PlacedRouter.GrewHere.grew
    ⟨rfl, id, List.prefix_append _ _, List.prefix_rfl, rfl, rfl⟩ rfl

theorem grew_addRegexEndpoint (method : Method) (target : Str) (handler : Option RouteHandler)
    (setupBody : RequestHeader → Str) :
    r.Grew (r.addRegexEndpoint compile method target handler setupBody).2 := by
  unfold PlacedRouter.addRegexEndpoint
  split
  · exact .refl r
  · split
    · exact .refl r
    · exact grew_addHttpEndpoint r _

theorem grew_addRedirect (status : Nat) (resourceOld resourceNew : Str) :
    r.Grew (r.addRedirect status resourceOld resourceNew).2 := by
  unfold PlacedRouter.addRedirect
  split_ifs
  · exact .refl r
  · exact .refl r
  · exact .refl r
  · exact grew_addHttpEndpoint r _

theorem grew_addWebsocket (resource : Str) (handler : Bool) :
    r.Grew (r.addWebsocket resource handler).2 := by
  unfold PlacedRouter.addWebsocket
  split
  · exact .refl r
  · exact PlacedRouter.GrewHere.grew
      ⟨rfl, id, List.prefix_rfl, List.prefix_append _ _, rfl, rfl⟩ rfl

/-- A logger is set here and in the sub-routers that have none. -/
theorem grew_setLogger (r : PlacedRouter) : r.Grew (r.setLogger true) := by
  refine PlacedRouter.grew_iff.mpr
    ⟨⟨rfl, fun _ => rfl, List.prefix_rfl, List.prefix_rfl, rfl, rfl⟩, ?_⟩
  refine List.forall₂_map_right_iff.mpr (List.forall₂_same.mpr fun x _ => ⟨rfl, ?_⟩)
  split
  · exact PlacedRouter.GrewHere.grew
      ⟨rfl, fun _ => rfl, List.prefix_rfl, List.prefix_rfl, rfl, rfl⟩ rfl
  · exact .refl x.2

theorem Registration.grew_apply {reg : Registration} (h : reg.addsOnly = true)
    (r : PlacedRouter) : r.Grew (reg.apply compile r) := by
  cases reg with
  | add method target handler setupBody => exact grew_addRegexEndpoint _ _ _ _
  | addPreflight target cfg => exact grew_addRegexEndpoint _ _ _ _
  | addFileServing resource storageBasePath cacheControl => exact grew_addHttpEndpoint r _
  | addRedirect status resourceOld resourceNew => exact grew_addRedirect _ _ _
  | addWebsocket resource handler => exact grew_addWebsocket _ _
  | addPolicy resource policy => cases h
  | setLogger logger =>
    cases h
    exact grew_setLogger r

end

/-! ## The path of a request -/

/-- The visit of a router, and of the one that has grown, with the same header. -/
structure LaterVisit (v v' : Router × RequestHeader) : Prop where
  head : v'.2 = v.2
  logger : v.1.logger = true → v'.1.logger = true
  endpointsHttp : v.1.endpointsHttp <+: v'.1.endpointsHttp
  endpointsWebsocket : v.1.endpointsWebsocket <+: v'.1.endpointsWebsocket
  policies : v'.1.policies = v.1.policies
  serverStr : v'.1.serverStr = v.1.serverStr

namespace PlacedRouter

variable {r r' : PlacedRouter}

/-- A request takes the same path. -/
theorem Grew.visits (h : r.Grew r') (head : RequestHeader) :
    List.Forall₂ LaterVisit (r.router.visits head) (r'.router.visits head) := by
  induction r using PlacedRouter.induction_sub generalizing r' head with
  | h r ih =>
    obtain ⟨hh, hs⟩ := grew_iff.mp h
    rw [router_eq, router_eq, Router.visits, Router.visits]
    refine .cons ⟨rfl, hh.logger, hh.endpointsHttp, hh.endpointsWebsocket, hh.policies,
      hh.serverStr⟩ ?_
    generalize r.subRouters = xs, r'.subRouters = ys at ih hs
    induction hs with
    | nil => exact .nil
    | @cons x y xs ys hxy _ ihs =>
      rw [List.map_cons, List.map_cons, visitsSub, visitsSub, ← hxy.1]
      split
      · exact ih x List.mem_cons_self hxy.2 _
      · exact ihs fun x hx => ih x (List.mem_cons_of_mem _ hx)

/-- The same policies are asked. -/
theorem Grew.policiesAlong (h : r.Grew r') (head : RequestHeader) :
    r'.router.policiesAlong head = r.router.policiesAlong head := by
  have hv := h.visits head
  unfold Router.policiesAlong
  generalize r.router.visits head = vs, r'.router.visits head = vs' at hv
  induction hv with
  | nil => rfl
  | cons hvv' _ ih => rw [List.flatMap_cons, List.flatMap_cons, ih, hvv'.policies, hvv'.head]

/-- And the request ends at the same router. -/
theorem Grew.lastVisit (h : r.Grew r') (head : RequestHeader) :
    LaterVisit (r.router.lastVisit head) (r'.router.lastVisit head) := by
  have hlast : ∀ (vs vs' : List (Router × RequestHeader)) (hvs : vs ≠ []) (hvs' : vs' ≠ []),
      List.Forall₂ LaterVisit vs vs' → LaterVisit (vs.getLast hvs) (vs'.getLast hvs') := by
    intro vs vs' hvs hvs' hf
    induction hf with
    | nil => exact absurd rfl hvs
    | @cons v v' vs vs' hv hf ih =>
      cases hf with
      | nil => exact hv
      | cons hv₂ hf₂ => exact ih (List.cons_ne_nil _ _) (List.cons_ne_nil _ _)
  exact hlast _ _ _ _ (h.visits head)

/-- **Who answers a plain request**: the same policy, or the same endpoint, or a new endpoint of
the router that did not know the request. -/
theorem Grew.answered (h : r.Grew r') (env : Env) (head : RequestHeader) :
    r'.router.answered env head = r.router.answered env head ∨
      (∃ ep q q' hd, r.router.answered env head = .ok (.endpoint ep q hd) ∧
        r'.router.answered env head = .ok (.endpoint ep q' hd) ∧ q'.serverStr = q.serverStr) ∨
      ∃ q hd, r.router.answered env head = .ok (.unknown q hd) := by
  unfold Router.answered
  rw [h.policiesAlong]
  cases firstDenial env (r.router.policiesAlong head) with
  | error e => exact .inl rfl
  | ok d =>
    cases d with
    | some a => exact .inl rfl
    | none =>
      have hl := h.lastVisit head
      refine .inr ?_
      simp only [Except.map, Option.getD_none]
      unfold Router.ownAnswer
      rw [hl.head]
      cases hf : (r.router.lastVisit head).1.endpointsHttp.find?
          (EndpointHttp.doesMatch (r.router.lastVisit head).2) with
      | none => exact .inr ⟨_, _, rfl⟩
      | some ep =>
        rw [hl.endpointsHttp.find?_eq_some hf]
        exact .inl ⟨ep, _, _, _, rfl, rfl, hl.serverStr⟩

end PlacedRouter

/-! ## Worlds with more endpoints -/

/-- The call adds endpoints or constructs a router (module doc). -/
def AssembleAct.addsOnly : AssembleAct → Bool
  | .build (.construct _ _) => true
  | .build (.register _ reg) => reg.addsOnly
  | _ => false

def AddsOnly (_ : World) (act : AssembleAct) : Prop := act.addsOnly = true

instance (w : World) (act : AssembleAct) : Decidable (AddsOnly w act) :=
  inferInstanceAs (Decidable (_ = true))

theorem PlacedRouter.Grew.objects {r r' : PlacedRouter} (h : r.Grew r') :
    List.Forall₂ (fun x y => x.1 = y.1 ∧ y.2.serverStr = x.2.serverStr) r.objects r'.objects := by
  induction r using PlacedRouter.induction_sub generalizing r' with
  | h r ih =>
    obtain ⟨hh, hs⟩ := grew_iff.mp h
    rw [objects_eq, objects_eq]
    refine .cons ⟨hh.this.symm, hh.serverStr⟩ ?_
    generalize r.subRouters = xs, r'.subRouters = ys at ih hs
    induction hs with
    | nil => exact .nil
    | @cons x y xs ys hxy _ ihs =>
      rw [List.flatMap_cons, List.flatMap_cons]
      exact List.rel_append (ih x List.mem_cons_self hxy.2)
        (ihs fun x hx => ih x (List.mem_cons_of_mem _ hx))

theorem PlacedRouter.Grew.addresses {r r' : PlacedRouter} (h : r.Grew r') :
    r'.addresses = r.addresses := by
  have ho := h.objects
  unfold PlacedRouter.addresses
  generalize r.objects = os, r'.objects = os' at ho
  induction ho with
  | nil => rfl
  | cons hxy _ ih => rw [List.map_cons, List.map_cons, ih, hxy.1]

namespace World

variable {w₀ w w' : World} {compile : Str → Option Regex} {a : Addr}

/-- The routers that the program held have grown, and those that it has constructed since then are
newer. -/
structure Grew (w w' : World) : Prop where
  next_le : w.next ≤ w'.next
  roots : ∃ rs new, w'.roots = rs ++ new ∧ List.Forall₂ PlacedRouter.Grew w.roots rs ∧
    ∀ x ∈ World.addresses new, w.next ≤ x

theorem Grew.refl (w : World) : w.Grew w where
  next_le := le_rfl
  roots := ⟨w.roots, [], (List.append_nil _).symm, List.forall₂_same.mpr fun r _ => .refl r,
    fun _ hx => absurd hx List.not_mem_nil⟩

theorem Grew.construct (h : w₀.Grew w) (logger : Bool) (serverStr : Str) :
    w₀.Grew (w.construct logger serverStr) := by
  obtain ⟨rs, new, hroots, hrs, hnew⟩ := h.roots
  refine ⟨Nat.le_succ_of_le h.next_le, rs,
    new ++ [{ this := w.next, logger := logger, serverStr := serverStr }], ?_, hrs, ?_⟩
  · rw [← List.append_assoc, ← hroots]
    rfl
  · intro x hx
    rw [addresses_append] at hx
    rcases List.mem_append.mp hx with hx | hx
    · exact hnew x hx
    · rw [show x = w.next from List.mem_singleton.mp hx]
      exact h.next_le

/-- A change at an address that only adds. -/
theorem Grew.updateAt (h : w₀.Grew w) {f : PlacedRouter → PlacedRouter}
    (hf : ∀ q : PlacedRouter, q.Grew (f q)) (hst : w.updateAt a f = some w') : w₀.Grew w' := by
  unfold World.updateAt at hst
  split at hst
  · cases hst
    obtain ⟨rs, new, hroots, hrs, hnew⟩ := h.roots
    have hmod : ∀ r : PlacedRouter, r.Grew (r.modify a f) := fun r => .modify fun q _ _ => hf q
    refine ⟨h.next_le, rs.map (PlacedRouter.modify a f), new.map (PlacedRouter.modify a f), ?_,
      ?_, ?_⟩
    · rw [← List.map_append, ← hroots]
    · exact List.forall₂_map_right_iff.mpr (hrs.imp fun _ _ hr => hr.trans (hmod _))
    · unfold World.addresses
      rw [List.flatMap_map, List.flatMap_congr fun r _ => (hmod r).addresses]
      exact hnew
  · cases hst

/-- **The runs that only add endpoints.** -/
theorem grew_onward (h : ((assembling compile).onward w₀).Reach AddsOnly w) : w₀.Grew w := by
  induction h with
  | init hi =>
    cases hi
    exact .refl w₀
  | step act _ hok hst ih =>
    cases act with
    | moveAssign a b => cases hok
    | build act =>
      cases act with
      | construct logger serverStr =>
        cases hst
        exact ih.construct logger serverStr
      | register a reg => exact ih.updateAt (Registration.grew_apply hok) hst
      | _ => cases hok

theorem Grew.root (h : w₀.Grew w) {r₀ : PlacedRouter} (hr : w₀.root a = some r₀) :
    ∃ r, w.root a = some r ∧ r₀.Grew r := by
  obtain ⟨rs, new, hroots, hrs, -⟩ := h.roots
  have hfind : ∃ r, (rs.find? fun r => r.this == a) = some r ∧ r₀.Grew r := by
    unfold World.root at hr
    clear hroots
    generalize w₀.roots = xs at hr hrs
    induction hrs with
    | nil => cases hr
    | @cons x y xs ys hxy _ ih =>
      have hthis : y.this = x.this := (PlacedRouter.grew_iff.mp hxy).1.this
      rw [List.find?_cons] at hr ⊢
      rw [hthis]
      split at hr
      · cases hr
        exact ⟨y, rfl, hxy⟩
      · exact ih hr
  obtain ⟨r, hr, hg⟩ := hfind
  refine ⟨r, ?_, hg⟩
  unfold World.root
  rw [hroots, List.find?_append, hr]
  rfl

/-- The router objects that a lambda may have captured have kept their server strings. -/
theorem Grew.routers (h : w₀.Grew w) {x : Addr} (hx : x < w₀.next) :
    (w.routers x).serverStr = (w₀.routers x).serverStr := by
  obtain ⟨rs, new, hroots, hrs, hnew⟩ := h.roots
  have hobjs : List.Forall₂ (fun x y => x.1 = y.1 ∧ y.2.serverStr = x.2.serverStr) w₀.objects
      (rs.flatMap PlacedRouter.objects) := by
    unfold objects
    clear hroots
    generalize w₀.roots = xs at hrs
    induction hrs with
    | nil => exact .nil
    | cons hxy _ ih => exact List.rel_append hxy.objects ih
  have hnone : (new.flatMap PlacedRouter.objects).lookup x = none := by
    refine List.lookup_eq_none_iff.mpr fun o ho => ?_
    have hge : w₀.next ≤ o.1 := by
      refine hnew o.1 ?_
      obtain ⟨r, hr, hor⟩ := List.mem_flatMap.mp ho
      exact List.mem_flatMap.mpr ⟨r, hr, List.mem_map_of_mem hor⟩
    exact bne_iff_ne.mpr (Nat.ne_of_lt (Nat.lt_of_lt_of_le hx hge))
  have hall : w.objects.lookup x = (rs.flatMap PlacedRouter.objects).lookup x := by
    unfold objects
    rw [hroots, List.flatMap_append, List.lookup_append, hnone, Option.or_none]
  unfold World.routers
  rw [hall]
  generalize w₀.objects = os, rs.flatMap PlacedRouter.objects = os' at hobjs
  induction hobjs with
  | nil => rfl
  | @cons o o' os os' ho _ ih =>
    rw [List.lookup_cons, List.lookup_cons, ← ho.1]
    split
    · exact ho.2
    · exact ih

end World

/-! ## What the lambdas have captured is old -/

namespace World

variable {compile : Str → Option Regex} {ok : World → AssembleAct → Prop} {w w' : World}

theorem next_le_of_step (hw : w.Distinct) {act : AssembleAct}
    (hst : (assembling compile).step w act = some w') : w.next ≤ w'.next := by
  cases act with
  | build act =>
    cases act with
    | construct logger serverStr =>
      cases hst
      exact Nat.le_succ _
    | register a reg =>
      obtain ⟨-, -, -, -, -, hn⟩ := owns_register hw hst
      exact hn.ge
    | addSubrouter a resource b order => exact (owns_addSubrouterAt hw hst).2.ge
    | moveSubrouter a resource b order =>
      obtain ⟨w₁, hm, ha⟩ := Option.bind_eq_some_iff.mp hst
      obtain ⟨-, -, -, -, -, hn⟩ := owns_moveConstructAt hw hm
      rw [(owns_addSubrouterAt (hw.moveConstructAt hm) ha).2, hn]
      exact Nat.le_succ _
    | moveConstruct b =>
      obtain ⟨-, -, -, -, -, hn⟩ := owns_moveConstructAt hw hst
      rw [hn]
      exact Nat.le_succ _
  | moveAssign a b =>
    obtain ⟨-, -, -, -, -, -, -, hn⟩ := owns_moveAssign hw hst
    exact hn.ge

end World

theorem PlacedRouter.ownCaptured_eq (r : PlacedRouter) :
    r.router.ownCaptured =
      r.endpointsHttp.flatMap EndpointHttp.captured ++ r.policies.map PolicyStore.writer := by
  rw [router_eq]
  rfl

/-- What a registration captures is the router that it is made on. -/
theorem Registration.mem_ownCaptured_apply {compile : Str → Option Regex} {reg : Registration}
    {q : PlacedRouter} {x : Addr} (hx : x ∈ (reg.apply compile q).own.router.ownCaptured) :
    x ∈ q.own.router.ownCaptured ∨ x = q.this := by
  have h := reg.apply_does compile q
  generalize reg.apply compile q = q' at h hx
  rw [PlacedRouter.ownCaptured_eq] at hx ⊢
  cases h with
  | nothing => exact .inl hx
  | websocket eps => exact .inl hx
  | logger logger => exact .inl hx
  | endpoint ep hep =>
    rcases List.mem_append.mp hx with hx | hx
    · obtain ⟨e, he, hxe⟩ := List.mem_flatMap.mp hx
      rcases List.mem_append.mp he with he | he
      · exact .inl (List.mem_append_left _ (List.mem_flatMap.mpr ⟨e, he, hxe⟩))
      · rw [List.mem_singleton.mp he] at hxe
        exact .inr (hep x hxe)
    · exact .inl (List.mem_append_right _ hx)
  | policy resource policy =>
    rcases List.mem_append.mp hx with hx | hx
    · exact .inl (List.mem_append_left _ hx)
    · obtain ⟨p, hp, rfl⟩ := List.mem_map.mp hx
      rcases List.mem_append.mp hp with hp | hp
      · exact .inl (List.mem_append_right _ (List.mem_map_of_mem hp))
      · rw [List.mem_singleton.mp hp]
        exact .inr rfl

/-- No lambda has captured an address that the next router may get. -/
theorem captured_lt {compile : Str → Option Regex} {ok : World → AssembleAct → Prop} {w : World}
    (h : (assembling compile).Reach ok w) :
    ∀ q ∈ w.owns, ∀ x ∈ q.router.ownCaptured, x < w.next := by
  induction h with
  | init hi =>
    cases hi
    exact fun q hq => absurd hq List.not_mem_nil
  | @step v v' act hr ho hst ih =>
    have hw := distinct_reach hr
    have hnext := World.next_le_of_step hw hst
    refine @own_keep compile (fun u b => (assembling compile).step u b = some v' ∧ u = v)
      (fun q => ∀ x ∈ q.router.ownCaptured, x < v'.next) ?_ ?_ ?_ v v' act hw ⟨hst, rfl⟩ hst
      fun q hq x hx => Nat.lt_of_lt_of_le (ih q hq x hx) hnext
    · exact fun a x hx => absurd hx List.not_mem_nil
    · rintro u a reg q ⟨hu, rfl⟩ ha hq x hx
      rcases Registration.mem_ownCaptured_apply hx with hx | rfl
      · exact hq x hx
      · obtain ⟨p, -, hp, hpa, -⟩ := World.owns_updateAt hw hu
        have hlt := hw.lt p.this (World.addresses_eq_all _ ▸
          List.mem_map_of_mem (World.mem_of_routerAt hp))
        rw [hpa, ← ha] at hlt
        exact Nat.lt_of_lt_of_le hlt hnext
    · intro u act q c _ _ hq x hx
      refine hq x ?_
      rw [PlacedRouter.ownCaptured_eq] at hx ⊢
      exact hx

theorem captured_lt_of_root {compile : Str → Option Regex} {w : World} {a x : Addr}
    (h : (assembling compile).Reach Sys.free w) {r : PlacedRouter} (hr : w.root a = some r)
    (hx : x ∈ r.router.captured) : x < w.next := by
  unfold Router.captured at hx
  rw [PlacedRouter.router_tree, List.flatMap_map] at hx
  obtain ⟨q, hq, hxq⟩ := List.mem_flatMap.mp hx
  have hall : q ∈ w.all := List.mem_flatMap.mpr ⟨r, World.mem_of_root hr, hq⟩
  refine captured_lt h q.own (World.mem_owns_of_mem_all hall) x ?_
  rw [PlacedRouter.ownCaptured_eq] at hxq ⊢
  exact hxq

/-! ## The reaction to a request -/

/-- A policy answers, or an endpoint other than that of `add_preflight`. -/
def Answer.fixed : Answer → Bool
  | policy _ _ _ => true
  | endpoint (.regex ep) _ _ =>
    match ep.handler with
    | some (.preflight _ _) => false
    | _ => true
  | endpoint _ _ _ => true
  | unknown _ _ => false

section

variable {env : Env} {R : Addr → RouterObj}

/-- Such an endpoint reads the server string of the router that it captured, and nothing else of
the router objects. -/
theorem EndpointHttp.handle_routers {ep : EndpointHttp} {r : Router} {head : RequestHeader}
    (hf : (Answer.endpoint ep r head).fixed = true)
    (hs : ∀ x ∈ ep.captured, (R x).serverStr = (env.routers x).serverStr) :
    ep.handle { env with routers := R } head = ep.handle env head := by
  cases ep with
  | redirect ep => rfl
  | files ep =>
    have hw := hs ep.writer List.mem_cons_self
    have hdone : filesDone { env with routers := R } ep = filesDone env ep := by
      funext req
      simp only [filesDone, Env.writer, hw]
      rfl
    simp only [handle, hdone]
  | regex ep =>
    cases hh : ep.handler with
    | none => simp only [handle, hh]
    | some h =>
      have hw : (R ep.writer).serverStr = (env.routers ep.writer).serverStr := by
        refine hs ep.writer ?_
        simp only [captured, hh]
        split <;> exact List.mem_cons_self
      have hdone : regexDone { env with routers := R } ep h = regexDone env ep h := by
        funext req
        cases h with
        | preflight cfg this => simp [Answer.fixed, hh] at hf
        | plain f => simp only [regexDone, Env.writer, hw]; rfl
        | captures f => simp only [regexDone, Env.writer, hw]; rfl
      simp only [handle, hh, hdone]

theorem Answer.reaction_routers {a : Answer} (hf : a.fixed = true)
    (hs : ∀ x ∈ a.captured, (R x).serverStr = (env.routers x).serverStr) :
    a.reaction { env with routers := R } = a.reaction env := by
  cases a with
  | unknown r head => rfl
  | policy p head resp =>
    simp only [reaction, denial, hs p.writer List.mem_cons_self]
    rfl
  | endpoint ep r head =>
    simp only [reaction, EndpointHttp.handle_routers hf hs]
    rfl

end

/-- **The first registration wins.** Whatever a program adds to its routers later, mounted or not,
as long as it adds no policy, mounts nothing and moves nothing: a plain request for which a policy or
an endpoint answered gets the same reaction as before, and so does an upgrade request that reached a
websocket endpoint. Only the endpoints of `add_preflight` look at what is added. -/
theorem first_registration_wins {env : Env} {w₀ w : World} {a : Addr} {r₀ : PlacedRouter}
    (h₀ : (assembling env.compile).Reach Sys.free w₀) (hr₀ : w₀.root a = some r₀)
    (h : ((assembling env.compile).onward w₀).Reach AddsOnly w) :
    ∃ r, w.root a = some r ∧
      (∀ head, (∀ x, r₀.router.answered env head = .ok x → x.fixed = true) →
        r.router.handleRequest (w.env env) false head =
          r₀.router.handleRequest (w₀.env env) false head) ∧
      ∀ head re, r₀.router.handleRequest (w₀.env env) true head = .ok re → re.effects ≠ [] →
        r.router.handleRequest (w.env env) true head = .ok re := by
  have hgrew := World.grew_onward h
  obtain ⟨r, hr, hg⟩ := hgrew.root hr₀
  refine ⟨r, hr, fun head hfixed => ?_, fun head re hre hne => ?_⟩
  · have hanswered : ∀ v : World, ∀ q : Router,
        q.answered (v.env env) head = q.answered env head := fun v q => q.answered_routers _ head
    rw [Router.handleRequest_eq_answered, Router.handleRequest_eq_answered, hanswered, hanswered]
    -- what answers has captured old routers only
    have hsame : ∀ x, r₀.router.answered env head = .ok x →
        x.reaction (w.env env) = x.reaction (w₀.env env) := fun x hx =>
      @Answer.reaction_routers (w₀.env env) w.routers x (hfixed x hx) fun y hy =>
        hgrew.routers (captured_lt_of_root h₀ hr₀ (Router.captured_of_answered hx hy))
    rcases hg.answered env head with he | ⟨ep, q, q', hd, ha, ha', hs⟩ | ⟨q, hd, ha⟩
    · rw [he]
      cases hx : r₀.router.answered env head with
      | error e => rfl
      | ok x => exact congrArg Except.ok (hsame x hx)
    · rw [ha, ha']
      refine congrArg Except.ok (Eq.trans ?_ (hsame _ ha))
      simp only [Answer.reaction, hs]
    · cases hfixed _ ha
  · rw [handleRequest_websocket, handleWsRequest] at hre ⊢
    have hl := hg.lastVisit head
    split at hre
    · rename_i hlog
      cases hre
      rw [if_pos (hl.logger hlog), handleWsEndpoints_eq, handleWsEndpoints_eq, hl.head]
      rw [handleWsEndpoints_eq] at hne
      -- the endpoint that was found is found again
      cases hf : (r₀.router.lastVisit head).1.endpointsWebsocket.find? fun ep =>
          ep.resource == resourceString (r₀.router.lastVisit head).2.target && ep.handler with
      | none =>
        rw [hf] at hne
        exact absurd rfl hne
      | some ep => rw [hl.endpointsWebsocket.find?_eq_some hf]
    · cases hre

/-- A policy, a route on a mounted router, and the preflight of the parent. -/
def servingRouter : List AssembleAct :=
  [.build (.construct true (lit "malloy")), .build (.construct false []),
   .build (.register 1 (.add .get (lit "/x") (some (.plain fun _ => { status := 200 }))
    fun _ => [])),
   .build (.register 0 (.addPolicy (lit "/secret") fun _ => some { status := 401 })),
   .build (.register 0 (.addWebsocket (lit "/chat") true)),
   .build (.addSubrouter 0 (lit "/a") 1 [])]

def servingRouterWorld : World := ((assembling Env.bare.compile).run {} servingRouter).2

/-- The same route once more, with another handler, on the mounted router, and one for all methods of
the denied target; then another router. -/
def laterRoutes : List AssembleAct :=
  [.build (.register 1 (.add .get (lit "/x") (some (.plain fun _ => { status := 404 }))
    fun _ => [])),
   .build (.register 0 (.addFileServing (lit "/secret") (lit "/srv") [])),
   .build (.register 0 (.addWebsocket (lit "/chat") true)),
   .build (.construct false [])]

theorem first_registration_wins_laterRoutes :
    let w := (((assembling Env.bare.compile).onward servingRouterWorld).run servingRouterWorld
      laterRoutes).2
    ∃ r₀ r, servingRouterWorld.root 0 = some r₀ ∧ w.root 0 = some r ∧
      r.router.handleRequest (w.env Env.bare) false { method := .get, target := lit "/a/x" } =
        r₀.router.handleRequest (servingRouterWorld.env Env.bare) false
          { method := .get, target := lit "/a/x" } ∧
      r.router.handleRequest (w.env Env.bare) false { method := .get, target := lit "/secret" } =
        r₀.router.handleRequest (servingRouterWorld.env Env.bare) false
          { method := .get, target := lit "/secret" } := by
  intro w
  have h₀ : (assembling Env.bare.compile).Reach Sys.free servingRouterWorld :=
    (Sys.runs_run rfl servingRouter).reach fun _ _ => trivial
  have h : ((assembling Env.bare.compile).onward servingRouterWorld).Reach AddsOnly w :=
    (Sys.runs_run rfl laterRoutes).reach (by decide)
  obtain ⟨r, hr, hplain, -⟩ := first_registration_wins (a := 0) h₀ rfl h
  refine ⟨_, r, rfl, hr, hplain _ ?_, hplain _ ?_⟩
  · intro x hx
    cases hx
    rfl
  · intro x hx
    cases hx
    rfl

end Server
end Malloy
