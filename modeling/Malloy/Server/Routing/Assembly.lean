import Mathlib.Data.List.Flatten
import Malloy.Server.Routing.Registration

/-!
# Trees of routers, assembled in any order

A program can keep the address of a router that it has mounted (`auto* sub = sub_sm.get()`), and go
on with it: add endpoints and sub-routers, move from it, assign to it. Here a call is made on the
router at an address, wherever in the trees it is.

* `PlacedRouter.tree`, `PlacedRouter.modify`: the routers of a tree, and the tree with a change of
  the router at an address. `World.routerAt`, `updateAt`, .. `moveAssign`: the calls.
* `assembling`: the runs of these calls. `reach_assembling`: a program that only builds with the
  routers that it holds (`building`) is one of them.
* `Licensed R`: the labels (logger and server string) of each router and of each of its sub-routers
  are related by `R`. `licensed_updateAt`: what a change must keep.
-/

namespace Malloy
namespace Server

open Http Lib

/-! ## Routers of a tree -/

mutual

/-- The routers of the tree. -/
def PlacedRouter.tree : PlacedRouter → List PlacedRouter
  | .mk this logger subRouters endpointsHttp endpointsWebsocket policies serverStr =>
    .mk this logger subRouters endpointsHttp endpointsWebsocket policies serverStr ::
      placedTreeSub subRouters

def placedTreeSub : List (Str × PlacedRouter) → List PlacedRouter
  | [] => []
  | (_, sub) :: rest => sub.tree ++ placedTreeSub rest

end

mutual

/-- The tree with `f` applied to the router at the address. -/
def PlacedRouter.modify (a : Addr) (f : PlacedRouter → PlacedRouter) : PlacedRouter → PlacedRouter
  | .mk this logger subRouters endpointsHttp endpointsWebsocket policies serverStr =>
    if this = a then
      f (.mk this logger subRouters endpointsHttp endpointsWebsocket policies serverStr)
    else
      .mk this logger (modifySub a f subRouters) endpointsHttp endpointsWebsocket policies serverStr

def modifySub (a : Addr) (f : PlacedRouter → PlacedRouter) :
    List (Str × PlacedRouter) → List (Str × PlacedRouter)
  | [] => []
  | (resource, sub) :: rest => (resource, sub.modify a f) :: modifySub a f rest

end

/-! ## The calls -/

namespace World

variable (w : World)

/-- The routers of all trees. -/
def all : List PlacedRouter := w.roots.flatMap PlacedRouter.tree

/-- The sub-routers of all trees. -/
def attached : List PlacedRouter :=
  w.roots.flatMap fun r => r.subRouters.flatMap fun x => x.2.tree

/-- The router at the address. -/
def routerAt (a : Addr) : Option PlacedRouter := w.all.find? fun r => r.this == a

def updateAt (a : Addr) (f : PlacedRouter → PlacedRouter) : Option World :=
  if (w.routerAt a).isSome then some { w with roots := w.roots.map fun r => r.modify a f }
  else none

/-- `router(router&&)` from the router at `b`. -/
def moveConstructAt (b : Addr) : Option World :=
  (w.routerAt b).map fun r =>
    { roots := (w.roots.map fun x => x.modify b PlacedRouter.movedFrom) ++
        [{ r with this := w.next }]
      next := w.next + 1 }

/-- `add_subrouter` on the router at `a`, with the pointer to the router at `b`, which the program
holds. -/
def addSubrouterAt (a : Addr) (resource : Str) (b : Addr) (order : List Str) : Option World :=
  match w.root b with
  | none => none
  | some sub =>
    { w with roots := w.roots.filter fun r => r.this ≠ b }.updateAt a fun r =>
      (r.addSubrouter resource (some sub) order).2

/-- `add_subrouter(resource, router&&)`. -/
def moveSubrouterAt (a : Addr) (resource : Str) (b : Addr) (order : List Str) : Option World :=
  (w.moveConstructAt b).bind fun w' => w'.addSubrouterAt a resource w.next order

/-- `operator=(router&&)` of the router at `a`, from the router at `b`. Assigning from a router to
one that owns it, to one that it owns, or to itself, is undefined. -/
def moveAssign (a b : Addr) : Option World :=
  match w.routerAt a, w.routerAt b with
  | some p, some r =>
    if a ∈ r.addresses ∨ b ∈ p.addresses then none
    else
      some { w with
        roots := w.roots.map fun x =>
          (x.modify a fun q => { r with this := q.this }).modify b PlacedRouter.movedFrom }
  | _, _ => none

end World

/-! ## Runs -/

/-- A call that builds routers, or an assignment. -/
inductive AssembleAct where
  | build (act : BuildAct)
  | moveAssign (a b : Addr)

/-- The runs of a program that builds routers, and keeps the addresses of the mounted ones. -/
def assembling (compile : Str → Option Regex) : Sys World AssembleAct where
  init := fun w => w = {}
  step := fun w act =>
    match act with
    | .build (.construct logger serverStr) => some (w.construct logger serverStr)
    | .build (.register a reg) => w.updateAt a fun r => reg.apply compile r
    | .build (.addSubrouter a resource b order) => w.addSubrouterAt a resource b order
    | .build (.moveSubrouter a resource b order) => w.moveSubrouterAt a resource b order
    | .build (.moveConstruct b) => w.moveConstructAt b
    | .moveAssign a b => w.moveAssign a b

/-! ## Trees and their changes -/

theorem placedTreeSub_eq (subs : List (Str × PlacedRouter)) :
    placedTreeSub subs = subs.flatMap fun x => x.2.tree := by
  induction subs with
  | nil => rfl
  | cons x subs ih =>
    unfold placedTreeSub
    rw [ih]
    rfl

theorem modifySub_eq (a : Addr) (f : PlacedRouter → PlacedRouter)
    (subs : List (Str × PlacedRouter)) :
    modifySub a f subs = subs.map fun x => (x.1, x.2.modify a f) := by
  induction subs with
  | nil => rfl
  | cons x subs ih =>
    unfold modifySub
    rw [ih]
    rfl

namespace PlacedRouter

variable {a : Addr} {f : PlacedRouter → PlacedRouter}

theorem tree_eq (r : PlacedRouter) : r.tree = r :: r.subRouters.flatMap fun x => x.2.tree := by
  obtain ⟨this, logger, subs, eps, wss, policies, serverStr⟩ := r
  rw [tree, placedTreeSub_eq]

theorem mem_tree_self (r : PlacedRouter) : r ∈ r.tree := by
  rw [tree_eq]
  exact List.mem_cons_self

theorem mem_tree {r q : PlacedRouter} : q ∈ r.tree ↔ q = r ∨ ∃ x ∈ r.subRouters, q ∈ x.2.tree := by
  rw [tree_eq, List.mem_cons, List.mem_flatMap]

theorem modify_eq (r : PlacedRouter) :
    r.modify a f =
      if r.this = a then f r
      else { r with subRouters := r.subRouters.map fun x => (x.1, x.2.modify a f) } := by
  obtain ⟨this, logger, subs, eps, wss, policies, serverStr⟩ := r
  rw [modify, modifySub_eq]

/-- The routers of a tree are those of its sub-trees. -/
theorem mem_tree_trans {r q p : PlacedRouter} (hp : p ∈ q.tree) (hq : q ∈ r.tree) : p ∈ r.tree := by
  induction r using PlacedRouter.induction_sub with
  | h r ih =>
    rcases mem_tree.mp hq with rfl | ⟨x, hx, hq⟩
    · exact hp
    · exact mem_tree.mpr (.inr ⟨x, hx, ih x hx hq⟩)

theorem addresses_eq_tree (r : PlacedRouter) : r.addresses = r.tree.map PlacedRouter.this := by
  induction r using PlacedRouter.induction_sub with
  | h r ih =>
    rw [addresses_eq, tree_eq, List.map_cons, List.map_flatMap]
    congr 1
    exact List.flatMap_congr ih

/-- A change that changes none of the routers at the address. -/
theorem modify_eq_self {r : PlacedRouter} (h : ∀ q ∈ r.tree, q.this = a → f q = q) :
    r.modify a f = r := by
  induction r using PlacedRouter.induction_sub with
  | h r ih =>
    rw [modify_eq]
    split
    · rename_i ha
      exact h r r.mem_tree_self ha
    · have hmap : (r.subRouters.map fun x => (x.1, x.2.modify a f)) = r.subRouters := by
        refine (List.map_congr_left fun x hx => ?_).trans (List.map_id _)
        rw [ih x hx fun q hq => h q (mem_tree.mpr (.inr ⟨x, hx, hq⟩))]
        rfl
      rw [hmap]
      cases r
      rfl

theorem modify_of_not_mem {r : PlacedRouter} (h : a ∉ r.addresses) : r.modify a f = r := by
  rw [addresses_eq_tree] at h
  exact modify_eq_self fun q hq ha => absurd (List.mem_map.mpr ⟨q, hq, ha⟩) h

/-- The tree that handles requests. -/
theorem router_tree (r : PlacedRouter) : r.router.tree = r.tree.map router := by
  induction r using PlacedRouter.induction_sub with
  | h r ih =>
    rw [Router.tree_eq, tree_eq, List.map_cons, List.map_flatMap]
    congr 1
    rw [router_eq, List.flatMap_map]
    exact List.flatMap_congr ih

end PlacedRouter

/-! ## Licensed trees -/

/-- What a router hands on to its sub-routers: whether it has a logger, and its server string. -/
def PlacedRouter.label (r : PlacedRouter) : Bool × Str := (r.logger, r.serverStr)

/-- Each router of the tree and each of its sub-routers are related. -/
def PlacedRouter.Licensed (R : Bool × Str → Bool × Str → Prop) (r : PlacedRouter) : Prop :=
  ∀ q ∈ r.tree, ∀ x ∈ q.subRouters, R q.label x.2.label

namespace PlacedRouter

variable {R : Bool × Str → Bool × Str → Prop} {a : Addr} {f : PlacedRouter → PlacedRouter}

theorem licensed_iff {r : PlacedRouter} :
    r.Licensed R ↔ ∀ x ∈ r.subRouters, R r.label x.2.label ∧ x.2.Licensed R := by
  constructor
  · intro h x hx
    exact ⟨h r r.mem_tree_self x hx, fun q hq => h q (mem_tree.mpr (.inr ⟨x, hx, hq⟩))⟩
  · intro h q hq x hx
    rcases mem_tree.mp hq with rfl | ⟨y, hy, hq⟩
    · exact (h x hx).1
    · exact (h y hy).2 q hq x hx

theorem Licensed.of_mem_tree {r q : PlacedRouter} (h : r.Licensed R) (hq : q ∈ r.tree) :
    q.Licensed R :=
  fun _ hp => h _ (mem_tree_trans hp hq)

/-- A router without sub-routers. -/
theorem licensed_of_subRouters_eq_nil {r : PlacedRouter} (h : r.subRouters = []) :
    r.Licensed R := by
  refine licensed_iff.mpr fun x hx => ?_
  rw [h] at hx
  cases hx

/-- Changes of the members that nothing is handed on from. -/
theorem Licensed.congr {r r' : PlacedRouter} (h : r.Licensed R)
    (hs : r'.subRouters = r.subRouters) (hl : r'.label = r.label) : r'.Licensed R := by
  refine licensed_iff.mpr fun x hx => ?_
  rw [hl]
  rw [hs] at hx
  exact licensed_iff.mp h x hx

/-- The change of a router of the tree must keep its tree licensed; and if the router has a parent,
its label must be one that the parent may hand on. -/
theorem Licensed.modify {r : PlacedRouter} (h : r.Licensed R)
    (hf : ∀ q ∈ r.tree, q.this = a → (f q).Licensed R)
    (hl : ∀ x ∈ r.subRouters, ∀ q ∈ x.2.tree, q.this = a → ∀ l, R l q.label → R l (f q).label) :
    (r.modify a f).Licensed R := by
  induction r using PlacedRouter.induction_sub with
  | h r ih =>
    rw [modify_eq]
    split
    · rename_i ha
      exact hf r r.mem_tree_self ha
    · refine licensed_iff.mpr fun x hx => ?_
      obtain ⟨y, hy, rfl⟩ := List.mem_map.mp hx
      obtain ⟨hry, hys⟩ := licensed_iff.mp h y hy
      constructor
      · show R r.label (y.2.modify a f).label
        rw [modify_eq]
        split
        · rename_i ha
          exact hl y hy y.2 y.2.mem_tree_self ha _ hry
        · exact hry
      · refine ih y hy hys (fun q hq => hf q (mem_tree.mpr (.inr ⟨y, hy, hq⟩))) ?_
        intro z hz q hq
        exact hl y hy q (mem_tree.mpr (.inr ⟨z, hz, hq⟩))

end PlacedRouter

namespace World

variable {R : Bool × Str → Bool × Str → Prop} {w w' : World} {a b : Addr}
  {f : PlacedRouter → PlacedRouter}

/-- Every tree is licensed. -/
def Licensed (R : Bool × Str → Bool × Str → Prop) (w : World) : Prop :=
  ∀ r ∈ w.roots, r.Licensed R

theorem Licensed.all (hw : w.Licensed R) {q : PlacedRouter} (hq : q ∈ w.all) : q.Licensed R := by
  obtain ⟨r, hr, hq⟩ := List.mem_flatMap.mp hq
  exact (hw r hr).of_mem_tree hq

theorem mem_all_of_mem_roots {r : PlacedRouter} (hr : r ∈ w.roots) : r ∈ w.all :=
  List.mem_flatMap.mpr ⟨r, hr, r.mem_tree_self⟩

theorem mem_attached {r q : PlacedRouter} {x : Str × PlacedRouter} (hr : r ∈ w.roots)
    (hx : x ∈ r.subRouters) (hq : q ∈ x.2.tree) : q ∈ w.attached :=
  List.mem_flatMap.mpr ⟨r, hr, List.mem_flatMap.mpr ⟨x, hx, hq⟩⟩

theorem this_of_routerAt {q : PlacedRouter} (h : w.routerAt a = some q) : q.this = a :=
  eq_of_beq (List.find?_some (p := fun r : PlacedRouter => r.this == a) h)

theorem mem_of_routerAt {q : PlacedRouter} (h : w.routerAt a = some q) : q ∈ w.all :=
  List.mem_of_find?_eq_some h

theorem Licensed.map_modify (hw : w.Licensed R)
    (hf : ∀ q ∈ w.all, q.this = a → (f q).Licensed R)
    (hl : ∀ q ∈ w.attached, q.this = a → ∀ l, R l q.label → R l (f q).label) :
    ∀ r ∈ w.roots.map fun r => r.modify a f, r.Licensed R := by
  intro r' hr'
  obtain ⟨r, hr, rfl⟩ := List.mem_map.mp hr'
  refine (hw r hr).modify (fun q hq => hf q (List.mem_flatMap.mpr ⟨r, hr, hq⟩)) ?_
  exact fun x hx q hq => hl q (mem_attached hr hx hq)

/-- **What a change must keep**, for every tree to stay licensed. -/
theorem Licensed.updateAt (hw : w.Licensed R) (h : w.updateAt a f = some w')
    (hf : ∀ q ∈ w.all, q.this = a → (f q).Licensed R)
    (hl : ∀ q ∈ w.attached, q.this = a → ∀ l, R l q.label → R l (f q).label) :
    w'.Licensed R := by
  unfold World.updateAt at h
  split at h
  · cases h
    exact hw.map_modify hf hl
  · cases h

theorem Licensed.construct (hw : w.Licensed R) (logger : Bool) (serverStr : Str) :
    (w.construct logger serverStr).Licensed R := by
  intro r hr
  rcases List.mem_append.mp hr with hr | hr
  · exact hw r hr
  · rw [List.mem_singleton.mp hr]
    exact PlacedRouter.licensed_of_subRouters_eq_nil rfl

/-- What is moved keeps its sub-routers; what is left has none, and no logger. -/
theorem Licensed.moveConstructAt (hw : w.Licensed R) (h : w.moveConstructAt b = some w')
    (hl : ∀ q ∈ w.attached, q.this = b → ∀ l, R l q.label → R l (false, q.serverStr)) :
    w'.Licensed R := by
  obtain ⟨p, hp, rfl⟩ := Option.map_eq_some_iff.mp h
  intro r hr
  rcases List.mem_append.mp hr with hr | hr
  · exact hw.map_modify (fun q _ _ => PlacedRouter.licensed_of_subRouters_eq_nil rfl) hl r hr
  · rw [List.mem_singleton.mp hr]
    exact (hw.all (mem_of_routerAt hp)).congr rfl rfl

/-- The parent keeps its sub-routers and its label, and gets a sub-router that it may hand its label
on to. -/
theorem Licensed.addSubrouterAt (hw : w.Licensed R) {resource : Str} {order : List Str}
    (h : w.addSubrouterAt a resource b order = some w')
    (hadd : ∀ p ∈ w.all, p.this = a → ∀ sub, w.root b = some sub → p.CanMount resource →
      R p.label (p.adopt sub).label ∧ (p.adopt sub).Licensed R) : w'.Licensed R := by
  unfold World.addSubrouterAt at h
  split at h
  · cases h
  · rename_i sub hsub
    have hsubset : ∀ r ∈ w.roots.filter fun r => decide (r.this ≠ b), r ∈ w.roots :=
      fun r hr => (List.mem_filter.mp hr).1
    have hw' : World.Licensed R { w with roots := w.roots.filter fun r => decide (r.this ≠ b) } :=
      fun r hr => hw r (hsubset r hr)
    refine hw'.updateAt h (fun p hp ha => ?_) fun p _ _ l hl => ?_
    · have hp : p ∈ w.all := by
        obtain ⟨r, hr, hpr⟩ := List.mem_flatMap.mp hp
        exact List.mem_flatMap.mpr ⟨r, hsubset r hr, hpr⟩
      by_cases hcan : p.CanMount resource
      · rw [PlacedRouter.addSubrouter_of_canMount hcan]
        refine PlacedRouter.licensed_iff.mpr fun x hx => ?_
        rcases List.mem_cons.mp (PlacedRouter.mem_arrange.mp hx) with rfl | hx
        · exact hadd p hp ha sub hsub hcan
        · exact PlacedRouter.licensed_iff.mp (hw.all hp) x hx
      · rw [PlacedRouter.addSubrouter_of_not_canMount hcan]
        exact hw.all hp
    · rcases p.addSubrouter_cases sub resource order with he | he <;> rw [he] <;> exact hl

/-- The router at `a` gets what the router at `b` has, which must be what its parent may hand on. -/
theorem Licensed.moveAssign (hw : w.Licensed R) (h : w.moveAssign a b = some w')
    (ha : ∀ r, w.routerAt b = some r → ∀ q ∈ w.attached, q.this = a →
      ∀ l, R l q.label → R l r.label)
    (hb : ∀ l logger str, R l (logger, str) → R l (false, str)) : w'.Licensed R := by
  unfold World.moveAssign at h
  split at h
  · rename_i p r hp hr
    split at h
    · cases h
    · cases h
      have hassign : ∀ x ∈ w.roots.map fun x => x.modify a fun q => { r with this := q.this },
          x.Licensed R :=
        hw.map_modify (fun q _ _ => (hw.all (mem_of_routerAt hr)).congr rfl rfl) (ha r hr)
      have hw' : World.Licensed R
          { w with roots := w.roots.map fun x => x.modify a fun q => { r with this := q.this } } :=
        hassign
      have hmove := hw'.map_modify (a := b) (f := PlacedRouter.movedFrom)
        (fun q _ _ => PlacedRouter.licensed_of_subRouters_eq_nil rfl)
        fun q _ _ l hl => hb l _ _ hl
      rwa [List.map_map] at hmove
  · cases h

/-! ## Building with the routers that the program holds -/

theorem addresses_eq_all (w : World) : addresses w.roots = w.all.map PlacedRouter.this := by
  rw [all, List.map_flatMap]
  exact List.flatMap_congr fun r _ => r.addresses_eq_tree

theorem WF.routerAt_of_root (hw : w.WF) {r : PlacedRouter} (h : w.root a = some r) :
    w.routerAt a = some r := by
  have hr : r ∈ w.all := mem_all_of_mem_roots (mem_of_root h)
  have hnd := hw.nodup
  rw [addresses_eq_all] at hnd
  cases hq : w.routerAt a with
  | none =>
    have := List.find?_eq_none.mp hq r hr
    simp [this_of_root h] at this
  | some q =>
    have hthis : q.this = r.this := (this_of_routerAt hq).trans (this_of_root h).symm
    rw [List.inj_on_of_nodup_map hnd (mem_of_routerAt hq) hr hthis]

/-- A change at the address of a router that the program holds. -/
theorem WF.map_modify (hw : w.WF) {p : PlacedRouter} (h : w.root a = some p) :
    (w.roots.map fun r => r.modify a f) = w.roots.map fun r => if r.this = a then f r else r := by
  obtain ⟨L, R, hroots, ha, hne⟩ := split_roots hw.nodup h
  have hnot : ∀ r ∈ L ++ R, a ∉ r.addresses := by
    intro r hr hm
    have hnd := hw.nodup
    rw [hroots] at hnd
    have hperm : (addresses (L ++ p :: R)).Perm (p.addresses ++ addresses (L ++ R)) := by
      rw [← addresses_cons]
      exact List.Perm.flatMap_right _ List.perm_middle
    have hdisj := (List.nodup_append.mp (hperm.nodup_iff.mp hnd)).2.2
    have hp : a ∈ p.addresses := by
      rw [PlacedRouter.addresses_eq, ha]
      exact List.mem_cons_self
    exact hdisj a hp a (List.mem_flatMap.mpr ⟨r, hr, hm⟩) rfl
  refine List.map_congr_left fun r hr => ?_
  by_cases hra : r.this = a
  · rw [PlacedRouter.modify_eq, if_pos hra, if_pos hra]
  · rw [if_neg hra]
    refine PlacedRouter.modify_of_not_mem (hnot r ?_)
    rw [hroots] at hr
    rcases List.mem_append.mp hr with hr | hr
    · exact List.mem_append_left _ hr
    · rcases List.mem_cons.mp hr with rfl | hr
      · exact absurd ha hra
      · exact List.mem_append_right _ hr

theorem WF.updateAt_of_update (hw : w.WF) (h : w.update a f = some w') :
    w.updateAt a f = some w' := by
  unfold update at h
  split at h
  · rename_i hs
    obtain ⟨p, hp⟩ := Option.isSome_iff_exists.mp hs
    cases h
    unfold World.updateAt
    rw [hw.routerAt_of_root hp, hw.map_modify hp]
    rfl
  · cases h

theorem WF.moveConstructAt_of_moveConstruct (hw : w.WF) (h : w.moveConstruct b = some w') :
    w.moveConstructAt b = some w' := by
  obtain ⟨p, hp, rfl⟩ := Option.map_eq_some_iff.mp h
  unfold World.moveConstructAt
  rw [hw.routerAt_of_root hp, hw.map_modify hp]
  rfl

theorem WF.filter (hw : w.WF) (P : PlacedRouter → Bool) :
    WF { w with roots := w.roots.filter P } where
  nodup := hw.nodup.sublist (List.filter_sublist.flatMap _)
  lt x hx := hw.lt x ((List.filter_sublist.flatMap _).subset hx)
  captured r hr := hw.captured r (List.mem_filter.mp hr).1

theorem WF.addSubrouterAt_of_addSubrouter (hw : w.WF) {resource : Str} {order : List Str}
    (h : w.addSubrouter a resource b order = some w') :
    w.addSubrouterAt a resource b order = some w' := by
  unfold World.addSubrouter at h
  unfold World.addSubrouterAt
  cases hb : w.root b with
  | none =>
    rw [hb] at h
    cases h
  | some sub =>
    rw [hb] at h
    exact (hw.filter _).updateAt_of_update h

end World

/-- **A program that builds with the routers that it holds** is one that assembles them. -/
theorem reach_assembling {compile : Str → Option Regex} {w : World}
    (h : (building compile).Reach Sys.free w) : (assembling compile).Reach Sys.free w := by
  induction h with
  | init hi => exact .init hi
  | step act hr _ hst ih =>
    have hw := wf_reach hr
    refine .step (.build act) ih trivial ?_
    cases act with
    | construct logger serverStr => exact hst
    | register a reg => exact hw.updateAt_of_update hst
    | addSubrouter a resource b order => exact hw.addSubrouterAt_of_addSubrouter hst
    | moveSubrouter a resource b order =>
      obtain ⟨w', hm, ha⟩ := Option.bind_eq_some_iff.mp hst
      exact Option.bind_eq_some_iff.mpr ⟨w', hw.moveConstructAt_of_moveConstruct hm,
        (hw.moveConstruct hm).addSubrouterAt_of_addSubrouter ha⟩
    | moveConstruct b => exact hw.moveConstructAt_of_moveConstruct hst

end Server
end Malloy
