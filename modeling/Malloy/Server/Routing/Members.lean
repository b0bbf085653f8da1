import Mathlib.Data.List.Perm.Basic
import Malloy.Server.Routing.Inheritance

/-!
# What each router has registered, in any assembly

The calls that assemble routers move what is registered on them around, or lose it; only a
registration changes it.

* `PlacedRouter.own`: the address, the endpoints and the policies of the router itself, without its
  sub-routers and its label. `owns`: those of a tree, and of a world.
* `modify_owns`: a change of the router at an address changes what is below it, and no other router.
* `World.Distinct`: no two router objects have one address. `distinct_reach`: it holds in every run.
* `owns_construct`, .. `owns_moveAssign`: what the calls do. `own_reach`: a property of what is
  registered holds in every run, if the registrations and the moves keep it. `own_onward`: the same
  from any moment on.
-/

namespace Malloy
namespace Server

open Http Lib

/-! ## The own part of a router -/

namespace PlacedRouter

variable {r p sub : PlacedRouter}

/-- What the router has registered (module doc). -/
def own (r : PlacedRouter) : PlacedRouter :=
  { r with logger := false, subRouters := [], serverStr := [] }

def owns (r : PlacedRouter) : List PlacedRouter := r.tree.map own

theorem owns_eq (r : PlacedRouter) : r.owns = r.own :: r.subRouters.flatMap fun x => x.2.owns := by
  unfold owns
  rw [tree_eq, List.map_cons, List.map_flatMap]

theorem addresses_eq_owns (r : PlacedRouter) : r.addresses = r.owns.map this := by
  rw [addresses_eq_tree, owns, List.map_map]
  rfl

/-- The same at another address. -/
def ownAt (r : PlacedRouter) (c : Addr) : PlacedRouter := { r.own with this := c }

/-- The sub-routers are changed, but not what they have registered. -/
theorem owns_of_subs {f : PlacedRouter → PlacedRouter}
    (hf : ∀ x ∈ r.subRouters, (f x.2).owns = x.2.owns) (logger : Bool) (serverStr : Str) :
    PlacedRouter.owns { r with
      logger := logger, subRouters := r.subRouters.map fun x => (x.1, f x.2)
      serverStr := serverStr } = r.owns := by
  rw [owns_eq, owns_eq r, List.flatMap_map]
  congr 1
  exact List.flatMap_congr hf

theorem owns_setServerString (r : PlacedRouter) (str : Str) :
    (r.setServerString str).owns = r.owns := by
  induction r using PlacedRouter.induction_sub with
  | h r ih =>
    rw [setServerString_eq]
    split
    · rfl
    · exact owns_of_subs (f := fun x => x.setServerString str) ih r.logger str

theorem owns_setLogger (r : PlacedRouter) (logger : Bool) : (r.setLogger logger).owns = r.owns := by
  refine owns_of_subs (f := fun x => if !x.logger then { x with logger := logger } else x)
    (fun x _ => ?_) logger r.serverStr
  split
  · rw [owns_eq, owns_eq x.2]
    rfl
  · rfl

theorem owns_adopt (p sub : PlacedRouter) : (p.adopt sub).owns = sub.owns := by
  unfold adopt
  rw [owns_setServerString]
  split
  · exact owns_setLogger sub true
  · rfl

theorem owns_mount (p : PlacedRouter) (resource : Str) (sub : PlacedRouter) (order : List Str) :
    (p.mount resource sub order).owns.Perm (p.owns ++ sub.owns) := by
  rw [owns_eq, owns_eq p, List.cons_append]
  refine List.Perm.cons _ (((arrange_perm order _).flatMap_right _).trans ?_)
  rw [List.flatMap_cons, owns_adopt]
  exact List.perm_append_comm

/-- A sub-router is mounted, or lost. -/
theorem owns_addSubrouter (p : PlacedRouter) (resource : Str) (sub : PlacedRouter)
    (order : List Str) :
    (p.addSubrouter resource (some sub) order).2.owns.Subperm (p.owns ++ sub.owns) := by
  rcases p.addSubrouter_cases sub resource order with h | h
  · rw [h]
    exact (List.sublist_append_left _ _).subperm
  · rw [h]
    exact (owns_mount p resource sub order).subperm

/-! ## A change of one router -/

variable {a : Addr} {f : PlacedRouter → PlacedRouter} {q : PlacedRouter}

theorem this_mem_of_mem_tree (h : q ∈ r.tree) : q.this ∈ r.addresses := by
  rw [addresses_eq_tree]
  exact List.mem_map_of_mem h

/-- A change of the router at an address, in a list of routers among which it is once. -/
theorem flatMap_modify_owns {rs : List PlacedRouter}
    (hc : (rs.flatMap addresses).count a ≤ 1) (hq : q ∈ rs.flatMap tree) (ha : q.this = a)
    (ih : ∀ r ∈ rs, r.addresses.count a ≤ 1 → q ∈ r.tree →
      ∃ rest, r.owns.Perm (q.owns ++ rest) ∧ (r.modify a f).owns.Perm ((f q).owns ++ rest)) :
    ∃ rest, (rs.flatMap owns).Perm (q.owns ++ rest) ∧
      ((rs.map (modify a f)).flatMap owns).Perm ((f q).owns ++ rest) := by
  induction rs with
  | nil => cases hq
  | cons r rs ihrs =>
    rw [List.flatMap_cons, List.count_append] at hc
    rw [List.flatMap_cons] at hq
    simp only [List.flatMap_cons, List.map_cons]
    rcases List.mem_append.mp hq with hq | hq
    · -- the other routers do not change
      have hr : 0 < r.addresses.count a := List.count_pos_iff.mpr (ha ▸ this_mem_of_mem_tree hq)
      have hnot : a ∉ rs.flatMap addresses := List.count_eq_zero.mp (by omega)
      have hrs : rs.map (modify a f) = rs := by
        refine (List.map_congr_left fun x hx => ?_).trans (List.map_id rs)
        exact modify_of_not_mem fun h => hnot (List.mem_flatMap.mpr ⟨x, hx, h⟩)
      obtain ⟨rest, hold, hnew⟩ := ih r List.mem_cons_self (by omega) hq
      refine ⟨rest ++ rs.flatMap owns, ?_, ?_⟩
      · rw [← List.append_assoc]
        exact hold.append_right _
      · rw [hrs, ← List.append_assoc]
        exact hnew.append_right _
    · have hq' : a ∈ rs.flatMap addresses := by
        obtain ⟨x, hx, hqx⟩ := List.mem_flatMap.mp hq
        exact List.mem_flatMap.mpr ⟨x, hx, ha ▸ this_mem_of_mem_tree hqx⟩
      have hpos := List.count_pos_iff.mpr hq'
      have hr : r.modify a f = r := modify_of_not_mem (List.count_eq_zero.mp (by omega))
      obtain ⟨rest, hold, hnew⟩ := ihrs (by omega) hq fun x hx => ih x (List.mem_cons_of_mem _ hx)
      refine ⟨r.owns ++ rest, ?_, ?_⟩
      · exact (hold.append_left _).trans (List.perm_append_comm_assoc _ _ _)
      · rw [hr]
        exact (hnew.append_left _).trans (List.perm_append_comm_assoc _ _ _)

/-- The change of a router changes what is below it, and no other router. -/
theorem modify_owns (hc : r.addresses.count a ≤ 1) (hq : q ∈ r.tree) (ha : q.this = a) :
    ∃ rest, r.owns.Perm (q.owns ++ rest) ∧ (r.modify a f).owns.Perm ((f q).owns ++ rest) := by
  induction r using PlacedRouter.induction_sub with
  | h r ih =>
    have hsubs : (r.subRouters.map Prod.snd).flatMap addresses =
        r.subRouters.flatMap fun x => x.2.addresses := List.flatMap_map ..
    rw [addresses_eq, List.count_cons, ← hsubs] at hc
    rw [modify_eq]
    rcases mem_tree.mp hq with rfl | ⟨x, hx, hqx⟩
    · rw [if_pos ha]
      exact ⟨[], by simp, by simp⟩
    · have hmem : q ∈ (r.subRouters.map Prod.snd).flatMap tree :=
        List.mem_flatMap.mpr ⟨x.2, List.mem_map_of_mem hx, hqx⟩
      have hpos : 0 < ((r.subRouters.map Prod.snd).flatMap addresses).count a :=
        List.count_pos_iff.mpr (List.mem_flatMap.mpr
          ⟨x.2, List.mem_map_of_mem hx, ha ▸ this_mem_of_mem_tree hqx⟩)
      have hne : r.this ≠ a := by
        rintro rfl
        simp at hc
        omega
      rw [if_neg hne]
      obtain ⟨rest, hold, hnew⟩ := flatMap_modify_owns (f := f) (by omega) hmem ha fun r' hr' => by
        obtain ⟨y, hy, rfl⟩ := List.mem_map.mp hr'
        exact fun hc' hq' => ih y hy hc' hq'
      rw [List.flatMap_map] at hold
      rw [List.map_map, List.flatMap_map] at hnew
      refine ⟨r.own :: rest, ?_, ?_⟩
      · rw [owns_eq]
        exact (hold.cons _).trans List.perm_middle.symm
      · rw [owns_eq, List.flatMap_map]
        exact (hnew.cons _).trans List.perm_middle.symm

/-- A router of the tree is there after a change too, itself changed, unless it is below the router
that was. -/
theorem modify_mem_tree_or {x : PlacedRouter} (hq : q ∈ x.tree) :
    q.modify a f ∈ (x.modify a f).tree ∨
      ∃ p ∈ x.tree, p.this = a ∧ ∃ y ∈ p.subRouters, q ∈ y.2.tree := by
  induction x using PlacedRouter.induction_sub with
  | h x ih =>
    rcases mem_tree.mp hq with rfl | ⟨y, hy, hqy⟩
    · exact .inl (q.modify a f).mem_tree_self
    · by_cases hx : x.this = a
      · exact .inr ⟨x, x.mem_tree_self, hx, y, hy, hqy⟩
      · rcases ih y hy hqy with h | ⟨p, hp, h⟩
        · left
          rw [modify_eq x, if_neg hx]
          exact mem_tree.mpr (.inr ⟨(y.1, y.2.modify a f), List.mem_map_of_mem hy, h⟩)
        · exact .inr ⟨p, mem_tree.mpr (.inr ⟨y, hy, hp⟩), h⟩

/-- A router stays in the tree when another one is changed that does not own it, and that it does
not own. -/
theorem mem_tree_modify {x : PlacedRouter} (hq : q ∈ x.tree) (ha : a ∉ q.addresses)
    (hout : ∀ p ∈ x.tree, p.this = a → q ∉ p.tree) : q ∈ (x.modify a f).tree := by
  rcases modify_mem_tree_or (f := f) hq with h | ⟨p, hp, hpa, y, hy, hqy⟩
  · rwa [modify_of_not_mem ha] at h
  · exact absurd (mem_tree.mpr (.inr ⟨y, hy, hqy⟩)) (hout p hp hpa)

end PlacedRouter

/-! ## The calls -/

namespace World

variable {w w' : World} {a b : Addr} {f : PlacedRouter → PlacedRouter}

/-- What the routers of all trees have registered. -/
def owns (w : World) : List PlacedRouter := w.roots.flatMap PlacedRouter.owns

/-- No two router objects have one address. -/
structure Distinct (w : World) : Prop where
  nodup : (addresses w.roots).Nodup
  lt : ∀ x ∈ addresses w.roots, x < w.next

theorem addresses_eq_owns (w : World) : addresses w.roots = w.owns.map PlacedRouter.this := by
  unfold addresses owns
  rw [List.map_flatMap]
  exact List.flatMap_congr fun r _ => r.addresses_eq_owns

theorem mem_owns_of_mem_all {q : PlacedRouter} (h : q ∈ w.all) : q.own ∈ w.owns := by
  obtain ⟨r, hr, hq⟩ := List.mem_flatMap.mp h
  exact List.mem_flatMap.mpr ⟨r, hr, List.mem_map_of_mem hq⟩

/-- The change of the router at an address that no other router has. -/
theorem modify_owns (hc : (addresses w.roots).count a ≤ 1) {q : PlacedRouter} (hq : q ∈ w.all)
    (ha : q.this = a) :
    ∃ rest, w.owns.Perm (q.owns ++ rest) ∧
      ((w.roots.map (PlacedRouter.modify a f)).flatMap PlacedRouter.owns).Perm
        ((f q).owns ++ rest) :=
  PlacedRouter.flatMap_modify_owns hc hq ha fun _ _ hcr hqr => PlacedRouter.modify_owns hcr hqr ha

theorem Distinct.count_le (hw : w.Distinct) (a : Addr) : (addresses w.roots).count a ≤ 1 :=
  List.nodup_iff_count_le_one.mp hw.nodup a

theorem owns_updateAt (hw : w.Distinct) (h : w.updateAt a f = some w') :
    ∃ q rest, w.routerAt a = some q ∧ q.this = a ∧ w.owns.Perm (q.owns ++ rest) ∧
      w'.owns.Perm ((f q).owns ++ rest) ∧ w'.next = w.next := by
  unfold updateAt at h
  split at h
  · rename_i hs
    obtain ⟨q, hq⟩ := Option.isSome_iff_exists.mp hs
    have ha := this_of_routerAt hq
    obtain ⟨rest, hold, hnew⟩ :=
      modify_owns (f := f) (hw.count_le a) (mem_of_routerAt hq) ha
    cases h
    exact ⟨q, rest, hq, ha, hold, hnew, rfl⟩
  · cases h

theorem owns_construct (w : World) (logger : Bool) (serverStr : Str) :
    (w.construct logger serverStr).owns = w.owns ++ [{ this := w.next }] := by
  unfold construct owns
  rw [List.flatMap_append]
  rfl

/-- A registration changes the router that it is made on. -/
theorem owns_register (hw : w.Distinct) {compile : Str → Option Regex} {reg : Registration}
    (h : w.updateAt a (fun r => reg.apply compile r) = some w') :
    ∃ (q : PlacedRouter) (rest : List PlacedRouter), q.this = a ∧ w.owns.Perm (q.own :: rest) ∧
      w'.owns.Perm ((reg.apply compile q).own :: rest) ∧ w'.next = w.next := by
  obtain ⟨q, rest, -, ha, hold, hnew, hnext⟩ := owns_updateAt hw h
  refine ⟨q, (q.subRouters.flatMap fun x => x.2.owns) ++ rest, ha, ?_, ?_, hnext⟩
  · rwa [PlacedRouter.owns_eq] at hold
  · rcases Registration.apply_eq_setLogger_or compile reg q with ⟨logger, rfl⟩ | ⟨hsubs, -⟩
    · have hset : (Registration.setLogger logger).apply compile q = q.setLogger logger := rfl
      rw [hset] at hnew ⊢
      rwa [PlacedRouter.owns_setLogger, PlacedRouter.owns_eq] at hnew
    · rwa [PlacedRouter.owns_eq, hsubs] at hnew

/-- The old router keeps its address, and nothing else. -/
theorem owns_moveConstructAt (hw : w.Distinct) (h : w.moveConstructAt b = some w') :
    ∃ (q : PlacedRouter) (rest : List PlacedRouter), q.this = b ∧ w.owns.Perm (q.own :: rest) ∧
      w'.owns.Perm (q.ownAt w.next :: { this := b } :: rest) ∧ w'.next = w.next + 1 := by
  obtain ⟨q, hq, rfl⟩ := Option.map_eq_some_iff.mp h
  have hb := this_of_routerAt hq
  obtain ⟨rest, hold, hnew⟩ :=
    modify_owns (f := PlacedRouter.movedFrom) (hw.count_le b) (mem_of_routerAt hq) hb
  refine ⟨q, (q.subRouters.flatMap fun x => x.2.owns) ++ rest, hb, ?_, ?_, rfl⟩
  · rwa [PlacedRouter.owns_eq] at hold
  · unfold owns
    rw [List.flatMap_append, List.flatMap_singleton, PlacedRouter.owns_eq { q with this := w.next }]
    refine (List.perm_append_comm).trans (List.Perm.cons _ ?_)
    have hleft : q.movedFrom.owns = [{ this := b }] := by rw [← hb]; rfl
    rw [hleft] at hnew
    exact (hnew.append_left _).trans List.perm_middle

theorem Distinct.of_addresses (hw : w.Distinct)
    (h : (w'.owns.map PlacedRouter.this).Subperm (w.owns.map PlacedRouter.this))
    (hnext : w.next ≤ w'.next) : w'.Distinct := by
  rw [← addresses_eq_owns, ← addresses_eq_owns] at h
  obtain ⟨l, hl, hsub⟩ := h
  exact ⟨hl.nodup_iff.mp (hw.nodup.sublist hsub), fun x hx =>
    Nat.lt_of_lt_of_le (hw.lt x (hsub.subset (hl.mem_iff.mpr hx))) hnext⟩

theorem Distinct.of_owns (hw : w.Distinct) (h : w'.owns.Subperm w.owns) (hnext : w.next ≤ w'.next) :
    w'.Distinct := by
  obtain ⟨l, hl, hsub⟩ := h
  exact hw.of_addresses ⟨l.map PlacedRouter.this, hl.map _, hsub.map _⟩ hnext

/-- The roots without the one that the program hands over. -/
theorem owns_filter (hw : w.Distinct) {sub : PlacedRouter} (h : w.root b = some sub) :
    w.owns.Perm (sub.owns ++
      (w.roots.filter fun r => decide (r.this ≠ b)).flatMap PlacedRouter.owns) := by
  obtain ⟨L, R, hroots, hb, hne⟩ := split_roots hw.nodup h
  unfold owns
  rw [hroots, filter_split hb hne, List.flatMap_append, List.flatMap_append, List.flatMap_cons]
  exact List.perm_append_comm_assoc _ _ _

/-- A sub-router is mounted, or lost. -/
theorem owns_addSubrouterAt (hw : w.Distinct) {resource : Str} {order : List Str}
    (h : w.addSubrouterAt a resource b order = some w') :
    w'.owns.Subperm w.owns ∧ w'.next = w.next := by
  unfold addSubrouterAt at h
  split at h
  · cases h
  · rename_i sub hsub
    have hperm := owns_filter hw hsub
    have hw₀ : Distinct { w with roots := w.roots.filter fun r => decide (r.this ≠ b) } :=
      hw.of_owns ((List.sublist_append_right _ _).subperm.trans hperm.symm.subperm) le_rfl
    obtain ⟨q, rest, -, -, hold, hnew, hnext⟩ := owns_updateAt hw₀ h
    refine ⟨?_, hnext⟩
    have hadd := (List.subperm_append_right rest).mpr
      (PlacedRouter.owns_addSubrouter q resource sub order)
    refine hnew.subperm.trans (hadd.trans (List.Perm.subperm ?_))
    rw [List.append_assoc]
    refine (List.perm_append_comm_assoc _ _ _).trans ?_
    exact (hold.symm.append_left sub.owns).trans hperm.symm

/-- The router at an address. -/
theorem Distinct.eq_of_this (hw : w.Distinct) {q q' : PlacedRouter} (hq : q ∈ w.all)
    (hq' : q' ∈ w.all) (h : q.this = q'.this) : q = q' := by
  have hnd := hw.nodup
  rw [addresses_eq_all] at hnd
  exact List.inj_on_of_nodup_map hnd hq hq' h

/-- A router is not among its sub-routers. -/
theorem Distinct.this_not_mem (hw : w.Distinct) {q : PlacedRouter} (hq : q ∈ w.all) :
    q.this ∉ (q.subRouters.flatMap fun x => x.2.owns).map PlacedRouter.this := by
  obtain ⟨rest, hold, -⟩ := modify_owns (f := id) (hw.count_le q.this) hq rfl
  have hnd := hw.nodup
  rw [addresses_eq_owns] at hnd
  have hnd' := (hold.map PlacedRouter.this).nodup_iff.mp hnd
  rw [PlacedRouter.owns_eq, List.cons_append, List.map_cons, List.map_append, List.nodup_cons,
    List.mem_append, not_or] at hnd'
  exact hnd'.1.1

/-- The routers that the program holds, and those that are mounted. -/
theorem roots_append_attached (w : World) : (w.roots ++ w.attached).Perm w.all := by
  have hcons : w.all =
      w.roots.flatMap fun r => r :: r.subRouters.flatMap fun x => x.2.tree := by
    unfold all
    exact List.flatMap_congr fun r _ => r.tree_eq
  have hperm := List.map_append_flatMap_perm w.roots id
    fun r => r.subRouters.flatMap fun x => x.2.tree
  rw [List.map_id] at hperm
  rw [hcons]
  exact hperm

theorem sub_mem_attached {q : PlacedRouter} (hq : q ∈ w.all) {x : Str × PlacedRouter}
    (hx : x ∈ q.subRouters) : x.2 ∈ w.attached := by
  obtain ⟨r, hr, hqr⟩ := List.mem_flatMap.mp hq
  rcases PlacedRouter.mem_tree.mp hqr with rfl | ⟨y, hy, hqy⟩
  · exact mem_attached hr hx x.2.mem_tree_self
  · refine mem_attached hr hy (PlacedRouter.mem_tree_trans ?_ hqy)
    exact PlacedRouter.mem_tree.mpr (.inr ⟨x, hx, x.2.mem_tree_self⟩)

/-- A router that the program holds is not mounted. -/
theorem Distinct.this_ne_of_attached (hw : w.Distinct) {s q : PlacedRouter} (hs : s ∈ w.roots)
    (hq : q ∈ w.attached) : q.this ≠ s.this := by
  have hnd := hw.nodup
  rw [addresses_eq_all, ← ((roots_append_attached w).map PlacedRouter.this).nodup_iff,
    List.map_append, List.nodup_append] at hnd
  exact (hnd.2.2 _ (List.mem_map_of_mem hs) _ (List.mem_map_of_mem hq)).symm

theorem Distinct.routerAt_of_mem (hw : w.Distinct) {q : PlacedRouter} (hq : q ∈ w.all) :
    w.routerAt q.this = some q := by
  cases hr : w.routerAt q.this with
  | none =>
    have hne := List.find?_eq_none.mp hr q hq
    simp at hne
  | some r => rw [hw.eq_of_this (mem_of_routerAt hr) hq (this_of_routerAt hr)]

/-- What is registered on a router that another one does not own is not among what that one owns. -/
theorem exists_rest {p r : PlacedRouter} {rest : List PlacedRouter} (hr : r ∈ w.all)
    (hold : w.owns.Perm (p.owns ++ rest)) (hout : r.this ∉ p.addresses) :
    ∃ rest', rest.Perm (r.own :: rest') := by
  rcases List.mem_append.mp (hold.mem_iff.mp (mem_owns_of_mem_all hr)) with hin | hin
  · obtain ⟨q, hq, hqr⟩ := List.mem_map.mp hin
    have hthis : q.own.this = r.own.this := by rw [hqr]
    have hmem := PlacedRouter.this_mem_of_mem_tree hq
    rw [show q.this = r.this from hthis] at hmem
    exact absurd hmem hout
  · obtain ⟨l₁, l₂, rfl⟩ := List.append_of_mem hin
    exact ⟨l₁ ++ l₂, List.perm_middle⟩

/-- The routers when the router at `a` has been assigned `r`, which is not emptied yet. -/
def assigned (w : World) (a : Addr) (r : PlacedRouter) : World :=
  { w with roots := w.roots.map (PlacedRouter.modify a fun q => { r with this := q.this }) }

/-- The assignment copies what `r` owns to the address of `p`, whose own members are lost. -/
theorem owns_assigned (hw : w.Distinct) {p r : PlacedRouter} (hp : p ∈ w.all) (hr : r ∈ w.all)
    (hrp : r.this ∉ p.addresses) :
    ∃ rest, w.owns.Perm (p.owns ++ r.own :: rest) ∧ (w.assigned p.this r).owns.Perm
      (r.ownAt p.this :: (r.subRouters.flatMap fun x => x.2.owns) ++ r.own :: rest) := by
  obtain ⟨rest₁, hold, hnew⟩ :=
    modify_owns (f := fun q => { r with this := q.this }) (hw.count_le p.this) hp rfl
  obtain ⟨rest, hrest⟩ := exists_rest hr hold hrp
  rw [PlacedRouter.owns_eq { r with this := p.this }] at hnew
  exact ⟨rest, hold.trans (hrest.append_left _), hnew.trans (hrest.append_left _)⟩

/-- The router that is assigned from is still there, and alone at its address. -/
theorem mem_assigned (hw : w.Distinct) {p r : PlacedRouter} (hp : p ∈ w.all) (hr : r ∈ w.all)
    (hpr : p.this ∉ r.addresses) (hrp : r.this ∉ p.addresses) :
    r ∈ (w.assigned p.this r).all ∧ (addresses (w.assigned p.this r).roots).count r.this ≤ 1 := by
  constructor
  · obtain ⟨x, hx, hrx⟩ := List.mem_flatMap.mp hr
    refine List.mem_flatMap.mpr ⟨_, List.mem_map_of_mem hx, ?_⟩
    refine PlacedRouter.mem_tree_modify hrx hpr fun q hq hqp hrq => ?_
    rw [hw.eq_of_this (List.mem_flatMap.mpr ⟨x, hx, hq⟩) hp hqp] at hrq
    exact hrp (PlacedRouter.this_mem_of_mem_tree hrq)
  · obtain ⟨rest, hold, hnew⟩ := owns_assigned hw hp hr hrp
    have hcount := hw.count_le r.this
    have hsubs := List.count_eq_zero.mpr (hw.this_not_mem hr)
    have hne : (r.ownAt p.this).this ≠ r.this := by
      intro (he : p.this = r.this)
      rw [he] at hpr
      exact hpr (PlacedRouter.this_mem_of_mem_tree r.mem_tree_self)
    rw [addresses_eq_owns, (hold.map _).count_eq, List.map_append, List.count_append] at hcount
    rw [addresses_eq_owns, (hnew.map _).count_eq, List.map_append, List.count_append,
      List.map_cons, List.count_cons_of_ne hne, hsubs]
    omega

/-- The router at `a` gets what the router at `b` has registered, and loses what it had. -/
theorem owns_moveAssign (hw : w.Distinct) (h : w.moveAssign a b = some w') :
    ∃ (p r : PlacedRouter) (rest : List PlacedRouter), p.this = a ∧ r.this = b ∧
      w.owns.Perm (r.own :: p.own :: rest) ∧
      w'.owns.Subperm (r.ownAt a :: { this := b } :: rest) ∧ w'.next = w.next := by
  unfold moveAssign at h
  split at h
  · rename_i p r hpat hrat
    split at h
    · cases h
    · rename_i hapart
      cases h
      have hp := mem_of_routerAt hpat
      have hr := mem_of_routerAt hrat
      obtain rfl : p.this = a := this_of_routerAt hpat
      obtain rfl : r.this = b := this_of_routerAt hrat
      obtain ⟨hpr, hrp⟩ := not_or.mp hapart
      obtain ⟨rest, hold, hassigned⟩ := owns_assigned hw hp hr hrp
      obtain ⟨hr₁, hcount⟩ := mem_assigned hw hp hr hpr hrp
      -- the old router is emptied
      obtain ⟨rest₂, hold₂, hnew⟩ :=
        modify_owns (f := PlacedRouter.movedFrom) hcount hr₁ rfl
      have hrest₂ : rest₂.Perm (r.ownAt p.this :: rest) := by
        have hsame := hold₂.symm.trans hassigned
        rw [PlacedRouter.owns_eq, List.cons_append, List.cons_append] at hsame
        have hswap := hsame.trans ((List.perm_middle.cons _).trans (List.Perm.swap _ _ _))
        refine (List.perm_append_left_iff _).mp ((List.perm_cons _).mp hswap |>.trans ?_)
        exact List.perm_middle.symm
      refine ⟨p, r, (p.subRouters.flatMap fun x => x.2.owns) ++ rest, rfl, rfl, ?_, ?_, rfl⟩
      · rw [PlacedRouter.owns_eq] at hold
        exact hold.trans ((List.perm_middle.cons _).trans (List.Perm.swap _ _ _))
      · have hleft : r.movedFrom.owns = [{ this := r.this }] := rfl
        have hroots : (w.assigned p.this r).roots.map
            (PlacedRouter.modify r.this PlacedRouter.movedFrom) =
              w.roots.map fun x => (x.modify p.this fun q => { r with this := q.this }).modify
                r.this PlacedRouter.movedFrom := List.map_map ..
        rw [hleft, hroots] at hnew
        refine (hnew.trans ((hrest₂.cons _).trans (List.Perm.swap _ _ _))).subperm.trans ?_
        exact ((List.sublist_append_right _ _).cons_cons _ |>.cons_cons _).subperm
  · cases h

/-! ## Every run -/

theorem Distinct.cons_next (hw : w.Distinct)
    (h : (w'.owns.map PlacedRouter.this).Perm (w.next :: w.owns.map PlacedRouter.this))
    (hnext : w'.next = w.next + 1) : w'.Distinct := by
  rw [← addresses_eq_owns, ← addresses_eq_owns] at h
  have hnew : w.next ∉ addresses w.roots := fun hx => (hw.lt _ hx).ne rfl
  refine ⟨h.nodup_iff.mpr (List.nodup_cons.mpr ⟨hnew, hw.nodup⟩), fun x hx => ?_⟩
  rw [hnext]
  rcases List.mem_cons.mp (h.mem_iff.mp hx) with rfl | hx
  · exact Nat.lt_succ_self _
  · exact Nat.lt_succ_of_lt (hw.lt x hx)

theorem Distinct.construct (hw : w.Distinct) (logger : Bool) (serverStr : Str) :
    (w.construct logger serverStr).Distinct := by
  refine hw.cons_next ?_ rfl
  rw [owns_construct, List.map_append]
  exact List.perm_append_comm

theorem this_apply (compile : Str → Option Regex) (reg : Registration) (q : PlacedRouter) :
    (reg.apply compile q).this = q.this := by
  have h := @Registration.addresses_apply compile reg q
  rw [PlacedRouter.addresses_eq, PlacedRouter.addresses_eq q] at h
  exact (List.cons.inj h).1

theorem Distinct.register (hw : w.Distinct) {compile : Str → Option Regex} {reg : Registration}
    (h : w.updateAt a (fun r => reg.apply compile r) = some w') : w'.Distinct := by
  obtain ⟨q, rest, -, hold, hnew, hnext⟩ := owns_register hw h
  refine hw.of_addresses (List.Perm.subperm ?_) hnext.ge
  have hthis : (reg.apply compile q).own.this = q.own.this := this_apply compile reg q
  refine (hnew.map _).trans (List.Perm.trans ?_ (hold.map _).symm)
  rw [List.map_cons, List.map_cons, hthis]

theorem Distinct.moveConstructAt (hw : w.Distinct) (h : w.moveConstructAt b = some w') :
    w'.Distinct := by
  obtain ⟨q, rest, hb, hold, hnew, hnext⟩ := owns_moveConstructAt hw h
  refine hw.cons_next ((hnew.map _).trans (List.Perm.cons _ ?_)) hnext
  have hthis : q.own.this = b := hb
  refine List.Perm.trans ?_ (hold.map _).symm
  rw [List.map_cons, List.map_cons, hthis]

/-- The router at an address when another one has been moved: the move changes the sub-routers of a
router that owns the old one. -/
theorem Distinct.routerAt_moveConstructAt (hw : w.Distinct) (h : w.moveConstructAt b = some w')
    {p : PlacedRouter} (hp : w.routerAt a = some p) :
    w'.routerAt a = some (p.modify b PlacedRouter.movedFrom) := by
  have hw' := hw.moveConstructAt h
  obtain ⟨q, hq, rfl⟩ := Option.map_eq_some_iff.mp h
  have hpall := mem_of_routerAt hp
  have hthis : (p.modify b PlacedRouter.movedFrom).this = a := by
    rw [PlacedRouter.modify_eq, ← this_of_routerAt hp]
    split <;> rfl
  rw [← hthis]
  refine hw'.routerAt_of_mem (List.mem_flatMap.mpr ?_)
  obtain ⟨r, hr, hpr⟩ := List.mem_flatMap.mp hpall
  rcases PlacedRouter.modify_mem_tree_or (f := PlacedRouter.movedFrom) (a := b) hpr with
    hin | ⟨s, hs, hsb, y, hy, hpy⟩
  · exact ⟨_, List.mem_append_left _ (List.mem_map_of_mem hr), hin⟩
  · -- it is below the router that is moved, and goes with it
    have hsq : s = q := hw.eq_of_this (List.mem_flatMap.mpr ⟨r, hr, hs⟩) (mem_of_routerAt hq)
      (hsb.trans (this_of_routerAt hq).symm)
    subst hsq
    have hb : b ∉ p.addresses := by
      intro hmem
      refine hw.this_not_mem (mem_of_routerAt hq) (List.mem_map.mpr ?_)
      rw [PlacedRouter.addresses_eq_tree, List.mem_map] at hmem
      obtain ⟨z, hz, hzb⟩ := hmem
      refine ⟨z.own, List.mem_flatMap.mpr ⟨y, hy, List.mem_map_of_mem ?_⟩, hzb.trans hsb.symm⟩
      exact PlacedRouter.mem_tree_trans hz hpy
    rw [PlacedRouter.modify_of_not_mem hb]
    refine ⟨_, List.mem_append_right _ List.mem_cons_self, ?_⟩
    exact PlacedRouter.mem_tree.mpr (.inr ⟨y, hy, hpy⟩)

theorem Distinct.addSubrouterAt (hw : w.Distinct) {resource : Str} {order : List Str}
    (h : w.addSubrouterAt a resource b order = some w') : w'.Distinct :=
  hw.of_owns (owns_addSubrouterAt hw h).1 (owns_addSubrouterAt hw h).2.ge

theorem Distinct.moveAssign (hw : w.Distinct) (h : w.moveAssign a b = some w') : w'.Distinct := by
  obtain ⟨p, r, rest, ha, hb, hold, hnew, hnext⟩ := owns_moveAssign hw h
  refine hw.of_addresses ?_ hnext.ge
  obtain ⟨l, hl, hsub⟩ := hnew
  have hra : (r.ownAt a).this = p.own.this := ha.symm
  have hrb : r.own.this = b := hb
  refine List.Subperm.trans ⟨_, hl.map _, hsub.map _⟩ (List.Perm.subperm ?_)
  refine List.Perm.trans ?_ (hold.map _).symm
  rw [List.map_cons, List.map_cons, List.map_cons, List.map_cons, hra, hrb]
  exact List.Perm.swap _ _ _

end World

/-- **No two router objects have one address**, in whatever way a program assembles its routers. -/
theorem distinct_reach {compile : Str → Option Regex} {ok : World → AssembleAct → Prop} {w : World}
    (h : (assembling compile).Reach ok w) : w.Distinct := by
  induction h with
  | init hi =>
    cases hi
    exact ⟨List.nodup_nil, fun x hx => absurd hx List.not_mem_nil⟩
  | step act _ _ hst ih =>
    cases act with
    | build act =>
      cases act with
      | construct logger serverStr =>
        cases hst
        exact ih.construct logger serverStr
      | register a reg => exact ih.register hst
      | addSubrouter a resource b order => exact ih.addSubrouterAt hst
      | moveSubrouter a resource b order =>
        obtain ⟨w', hm, ha⟩ := Option.bind_eq_some_iff.mp hst
        exact (ih.moveConstructAt hm).addSubrouterAt ha
      | moveConstruct b => exact ih.moveConstructAt hst
    | moveAssign a b => exact ih.moveAssign hst

/-- The address to which the call moves what is registered on a router. -/
def AssembleAct.movesTo (w : World) : AssembleAct → Option Addr
  | .build (.moveSubrouter _ _ _ _) => some w.next
  | .build (.moveConstruct _) => some w.next
  | .moveAssign a _ => some a
  | _ => none

section

variable {compile : Str → Option Regex} {ok : World → AssembleAct → Prop} {P : PlacedRouter → Prop}

/-- A call keeps what the registrations and the moves keep. -/
theorem own_keep (hempty : ∀ a, P { this := a })
    (hreg : ∀ w a reg (q : PlacedRouter), ok w (.build (.register a reg)) → q.this = a → P q.own →
      P (reg.apply compile q).own)
    (hmove : ∀ w act (q : PlacedRouter) c, ok w act → act.movesTo w = some c → P q.own →
      P (q.ownAt c))
    {w w' : World} {act : AssembleAct} (hw : w.Distinct) (ho : ok w act)
    (hst : (assembling compile).step w act = some w') (h : ∀ q ∈ w.owns, P q) :
    ∀ q ∈ w'.owns, P q := by
  -- a move, up to what it does to the router that is moved from
  have hmoved : ∀ {w'' : World} {b : Addr}, w.moveConstructAt b = some w'' →
      act.movesTo w = some w.next → ∀ q ∈ w''.owns, P q := by
    intro w'' b hm hto q hq
    obtain ⟨r, rest, -, hold, hnew, -⟩ := World.owns_moveConstructAt hw hm
    rcases List.mem_cons.mp (hnew.mem_iff.mp hq) with rfl | hq
    · exact hmove w act r _ ho hto (h _ (hold.mem_iff.mpr List.mem_cons_self))
    · rcases List.mem_cons.mp hq with rfl | hq
      · exact hempty b
      · exact h q (hold.mem_iff.mpr (List.mem_cons_of_mem _ hq))
  intro q hq
  cases act with
  | build act =>
    cases act with
    | construct logger serverStr =>
      cases hst
      rw [World.owns_construct] at hq
      rcases List.mem_append.mp hq with hq | hq
      · exact h q hq
      · rw [List.mem_singleton.mp hq]
        exact hempty _
    | register a reg =>
      obtain ⟨r, rest, ha, hold, hnew, -⟩ := World.owns_register hw hst
      rcases List.mem_cons.mp (hnew.mem_iff.mp hq) with rfl | hq
      · exact hreg w a reg r ho ha (h _ (hold.mem_iff.mpr List.mem_cons_self))
      · exact h q (hold.mem_iff.mpr (List.mem_cons_of_mem _ hq))
    | addSubrouter a resource b order =>
      exact h q ((World.owns_addSubrouterAt hw hst).1.subset hq)
    | moveSubrouter a resource b order =>
      obtain ⟨w'', hm, ha⟩ := Option.bind_eq_some_iff.mp hst
      exact hmoved hm rfl q ((World.owns_addSubrouterAt (hw.moveConstructAt hm) ha).1.subset hq)
    | moveConstruct b => exact hmoved hst rfl q hq
  | moveAssign a b =>
    obtain ⟨p, r, rest, -, -, hold, hnew, -⟩ := World.owns_moveAssign hw hst
    rcases List.mem_cons.mp (hnew.subset hq) with rfl | hq
    · exact hmove w _ r a ho rfl (h _ (hold.mem_iff.mpr List.mem_cons_self))
    · rcases List.mem_cons.mp hq with rfl | hq
      · exact hempty b
      · refine h q (hold.mem_iff.mpr ?_)
        exact List.mem_cons_of_mem _ (List.mem_cons_of_mem _ hq)

/-- **What is registered on each router**, in a run that goes on with calls that meet `ok`: what the
registrations and the moves keep. -/
theorem own_onward (hempty : ∀ a, P { this := a })
    (hreg : ∀ w a reg (q : PlacedRouter), ok w (.build (.register a reg)) → q.this = a → P q.own →
      P (reg.apply compile q).own)
    (hmove : ∀ w act (q : PlacedRouter) c, ok w act → act.movesTo w = some c → P q.own →
      P (q.ownAt c))
    {w₀ w : World} (h₀ : (assembling compile).Reach Sys.free w₀) (hP : ∀ q ∈ w₀.owns, P q)
    (h : ((assembling compile).onward w₀).Reach ok w) : ∀ q ∈ w.owns, P q := by
  induction h with
  | init hi =>
    cases hi
    exact hP
  | step act hr ho hst ih =>
    have hw := distinct_reach (h₀.onward (hr.mono fun _ _ _ => trivial))
    exact own_keep hempty hreg hmove hw ho hst ih

/-- The same in every run whose calls all meet `ok`. -/
theorem own_reach (hempty : ∀ a, P { this := a })
    (hreg : ∀ w a reg (q : PlacedRouter), ok w (.build (.register a reg)) → q.this = a → P q.own →
      P (reg.apply compile q).own)
    (hmove : ∀ w act (q : PlacedRouter) c, ok w act → act.movesTo w = some c → P q.own →
      P (q.ownAt c))
    {w : World} (h : (assembling compile).Reach ok w) : ∀ q ∈ w.owns, P q := by
  have h₀ : (assembling compile).Reach Sys.free {} := .init rfl
  exact own_onward hempty hreg hmove h₀ (fun q hq => absurd hq List.not_mem_nil) h

end

end Server
end Malloy
