import Malloy.Server.Routing.Members
import Malloy.Server.Routing.Move

/-!
# What `add_subrouter` returns

`add_subrouter` returns "whether adding the sub-router was successful". It checks the resource and
the pointer, and leaves the rest to `try_emplace`, which inserts nothing where the resource is
taken, and does not say so.

* `PlacedRouter.leftOver`: what the parameter holds when the function returns.
* `TellsTruth`: what the returned value is to say.
* `addSubrouter_truthful_iff`: when it does, for both overloads. The one for a router moves it into
  a new one before anything is checked.
-/

namespace Malloy
namespace Server

open Http Lib

/-! ## One call -/

namespace PlacedRouter

variable {p sub : PlacedRouter} {resource : Str} {order : List Str}

/-- What the parameter `sub_router` holds when `add_subrouter` returns: `try_emplace` takes the
pointer only where it inserts it. -/
def leftOver (p : PlacedRouter) (resource : Str) (subRouter : Option PlacedRouter) :
    Option PlacedRouter :=
  if resource = [] then subRouter
  else
    match subRouter with
    | none => none
    | some sub => if p.subRouters.any fun x => x.1 == resource then some (p.adopt sub) else none

/-- The check of the resource is the only one that a sub-router does not pass. -/
theorem addSubrouter_returns (p sub : PlacedRouter) (resource : Str) (order : List Str) :
    (p.addSubrouter resource (some sub) order).1 = true ↔ resource ≠ [] := by
  unfold addSubrouter
  split
  · simp [*]
  · dsimp only
    split <;> simp [*]

/-- The sub-router under the resource is the one at this address. -/
def Registers (p : PlacedRouter) (resource : Str) (a : Addr) : Prop :=
  ∃ x ∈ p.subRouters, x.1 = resource ∧ x.2.this = a

/-- A sub-router that is not one of the router's own is registered by the call exactly if it can be
mounted. -/
theorem registers_addSubrouter_iff (hown : ∀ x ∈ p.subRouters, x.2.this ≠ sub.this) :
    (p.addSubrouter resource (some sub) order).2.Registers resource sub.this ↔
      p.CanMount resource := by
  by_cases h : p.CanMount resource
  · rw [addSubrouter_of_canMount h]
    refine iff_of_true ⟨(resource, p.adopt sub), ?_, rfl, World.this_adopt p sub⟩ h
    exact mem_arrange.mpr List.mem_cons_self
  · rw [addSubrouter_of_not_canMount h]
    refine iff_of_false ?_ h
    rintro ⟨x, hx, -, hthis⟩
    exact hown x hx hthis

/-- What a call that returned `ret` is to say: the sub-router is registered under the resource if
and only if it returned true, and otherwise the sub-routers are as before, and `kept` holds of the
one that was supplied. -/
structure TellsTruth (ret : Bool) (before after : PlacedRouter) (resource : Str)
    (supplied : Option Addr) (kept : Prop) : Prop where
  registered : ret = true ↔ ∃ a ∈ supplied, after.Registers resource a
  rejected : ret = false → after.subRouters = before.subRouters ∧ kept

/-- **The call with a sub-router**, on a router that had the sub-routers of `before`. -/
theorem tellsTruth_some_iff {before : PlacedRouter} {kept : Prop}
    (hown : ∀ x ∈ p.subRouters, x.2.this ≠ sub.this) :
    TellsTruth (p.addSubrouter resource (some sub) order).1 before
        (p.addSubrouter resource (some sub) order).2 resource (some sub.this) kept ↔
      if resource = [] then p.subRouters = before.subRouters ∧ kept
      else ∀ x ∈ p.subRouters, x.1 ≠ resource := by
  have hret := addSubrouter_returns p sub resource order
  have hreg := @registers_addSubrouter_iff p sub resource order hown
  split
  · rename_i hnil
    have hcannot : ¬ p.CanMount resource := fun hc => hc.1 hnil
    have hfalse : (p.addSubrouter resource (some sub) order).1 = false := by
      rw [← Bool.not_eq_true, hret, not_not]
      exact hnil
    constructor
    · intro h
      have hrejected := h.rejected hfalse
      rwa [addSubrouter_of_not_canMount hcannot] at hrejected
    · intro h
      refine ⟨?_, fun _ => ?_⟩
      · rw [hret]
        refine iff_of_false (not_not_intro hnil) ?_
        rintro ⟨a, ha, hr⟩
        cases ha
        exact hcannot (hreg.mp hr)
      · rwa [addSubrouter_of_not_canMount hcannot]
  · rename_i hne
    have htrue : (p.addSubrouter resource (some sub) order).1 = true := hret.mpr hne
    constructor
    · intro h
      obtain ⟨a, ha, hr⟩ := h.registered.mp htrue
      cases ha
      exact (hreg.mp hr).2
    · intro h
      refine ⟨iff_of_true htrue ⟨sub.this, rfl, hreg.mpr ⟨hne, h⟩⟩, fun hfalse => ?_⟩
      rw [htrue] at hfalse
      cases hfalse

/-- **The call with a pointer.** -/
theorem tellsTruth_iff {subRouter : Option PlacedRouter}
    (hown : ∀ s ∈ subRouter, ∀ x ∈ p.subRouters, x.2.this ≠ s.this) :
    TellsTruth (p.addSubrouter resource subRouter order).1 p
        (p.addSubrouter resource subRouter order).2 resource (subRouter.map this)
        (p.leftOver resource subRouter = subRouter) ↔
      resource = [] ∨ subRouter = none ∨ ∀ x ∈ p.subRouters, x.1 ≠ resource := by
  cases subRouter with
  | none =>
    have hcall : p.addSubrouter resource none order = (false, p) := by
      unfold addSubrouter
      split <;> rfl
    rw [hcall]
    refine iff_of_true ⟨by simp, fun _ => ⟨rfl, ?_⟩⟩ (.inr (.inl rfl))
    unfold leftOver
    split <;> rfl
  | some s =>
    refine (tellsTruth_some_iff (hown s rfl)).trans ?_
    by_cases hnil : resource = []
    · rw [if_pos hnil]
      exact iff_of_true ⟨rfl, if_pos hnil⟩ (.inl hnil)
    · rw [if_neg hnil, or_iff_right hnil, or_iff_right (by simp)]

end PlacedRouter

/-! ## Every router that a program can reach -/

open PlacedRouter

/-- The sub-routers of a router are not held by the program. -/
theorem World.Distinct.sub_this_ne {w : World} (hw : w.Distinct) {p s : PlacedRouter}
    (hp : p ∈ w.all) (hs : s ∈ w.roots) : ∀ x ∈ p.subRouters, x.2.this ≠ s.this :=
  fun _ hx => hw.this_ne_of_attached hs (World.sub_mem_attached hp hx)

/-- A move leaves the resources of the other routers as they are. -/
theorem modify_movedFrom_free_iff {p : PlacedRouter} {b : Addr} {resource : Str} :
    (∀ x ∈ (p.modify b movedFrom).subRouters, x.1 ≠ resource) ↔
      p.this = b ∨ ∀ x ∈ p.subRouters, x.1 ≠ resource := by
  rw [modify_eq]
  split
  · rename_i hb
    exact iff_of_true (fun x hx => absurd hx List.not_mem_nil) (.inl hb)
  · rename_i hb
    rw [or_iff_right hb]
    exact List.forall_mem_map

/-- **The call with a router**, which constructs a new one from it first. -/
theorem tellsTruth_move_iff {w w₁ : World} (hw : w.Distinct) {a b : Addr} {p p₁ q : PlacedRouter}
    {resource : Str} {order : List Str} (hp : w.routerAt a = some p) (hq : w.routerAt b = some q)
    (hm : w.moveConstructAt b = some w₁) (hp₁ : w₁.routerAt a = some p₁) :
    TellsTruth (p₁.addSubrouter resource (some { q with this := w.next }) order).1 p
        (p₁.addSubrouter resource (some { q with this := w.next }) order).2 resource
        (some w.next) (w₁.routerAt b = some q) ↔
      if resource = [] then q.movedFrom = q else a = b ∨ ∀ x ∈ p.subRouters, x.1 ≠ resource := by
  have hmoved := hw.routerAt_moveConstructAt hm hp
  have hleft := hw.routerAt_moveConstructAt hm hq
  rw [modify_eq, if_pos (World.this_of_routerAt hq)] at hleft
  have hnew : ({ q with this := w.next } : PlacedRouter) ∈ w₁.roots := by
    obtain ⟨q', hq', rfl⟩ := Option.map_eq_some_iff.mp hm
    cases hq'.symm.trans hq
    exact List.mem_append_right _ List.mem_cons_self
  have hown := (hw.moveConstructAt hm).sub_this_ne (World.mem_of_routerAt hp₁) hnew
  cases hp₁.symm.trans hmoved
  refine (tellsTruth_some_iff hown).trans ?_
  by_cases hnil : resource = []
  · rw [if_pos hnil, if_pos hnil, hleft, Option.some.injEq]
    refine ⟨And.right, fun hempty => ⟨?_, hempty⟩⟩
    -- the old router was empty, and nothing has changed
    rw [modify_eq_self fun x hx hxb => ?_]
    obtain ⟨r, hr, hpr⟩ := List.mem_flatMap.mp (World.mem_of_routerAt hp)
    have hxall : x ∈ w.all := List.mem_flatMap.mpr ⟨r, hr, mem_tree_trans hx hpr⟩
    rw [hw.eq_of_this hxall (World.mem_of_routerAt hq)
      (hxb.trans (World.this_of_routerAt hq).symm), hempty]
  · rw [if_neg hnil, if_neg hnil, modify_movedFrom_free_iff, World.this_of_routerAt hp]

/-- **When `add_subrouter` tells the truth**, on any router in any assembly: the first part is about
the overload for a pointer, the second one about that for a router. -/
theorem addSubrouter_truthful_iff {compile : Str → Option Regex} {w : World}
    (h : (assembling compile).Reach Sys.free w) {a : Addr} {p : PlacedRouter}
    (hp : w.routerAt a = some p) (resource : Str) (order : List Str) :
    (∀ subRouter : Option PlacedRouter, (∀ s ∈ subRouter, w.root s.this = some s) →
      (TellsTruth (p.addSubrouter resource subRouter order).1 p
          (p.addSubrouter resource subRouter order).2 resource (subRouter.map this)
          (p.leftOver resource subRouter = subRouter) ↔
        resource = [] ∨ subRouter = none ∨ ∀ x ∈ p.subRouters, x.1 ≠ resource)) ∧
    (∀ b q w₁ p₁, w.routerAt b = some q → w.moveConstructAt b = some w₁ →
      w₁.routerAt a = some p₁ →
      (TellsTruth (p₁.addSubrouter resource (some { q with this := w.next }) order).1 p
          (p₁.addSubrouter resource (some { q with this := w.next }) order).2 resource
          (some w.next) (w₁.routerAt b = some q) ↔
        if resource = [] then q.movedFrom = q
        else a = b ∨ ∀ x ∈ p.subRouters, x.1 ≠ resource)) := by
  have hw := distinct_reach h
  constructor
  · intro subRouter hsub
    refine tellsTruth_iff fun s hs => ?_
    exact hw.sub_this_ne (World.mem_of_routerAt hp) (World.mem_of_root (hsub s hs))
  · intro b q w₁ p₁ hq hm hp₁
    exact tellsTruth_move_iff hw hp hq hm hp₁

/-- A router with a sub-router, and two more routers, one of them with an endpoint. -/
def mountedRouter : List AssembleAct :=
  [.build (.construct true (lit "malloy")), .build (.construct false []),
   .build (.addSubrouter 0 (lit "/a") 1 []), .build (.construct false []),
   .build (.construct false []),
   .build (.register 3 (.add .get (lit "/x") (some (.plain fun _ => { status := 200 }))
    fun _ => []))]

def mountedRouterWorld : World := ((assembling Env.bare.compile).run {} mountedRouter).2

theorem mountedRouter_reach : (assembling Env.bare.compile).Reach Sys.free mountedRouterWorld :=
  (Sys.runs_run rfl mountedRouter).reach fun _ _ => trivial

/-- The two calls for a free resource. -/
theorem addSubrouter_truthful_iff_mountedRouter :
    ∃ p s q w₁ p₁, mountedRouterWorld.routerAt 0 = some p ∧ mountedRouterWorld.root 2 = some s ∧
      TellsTruth (p.addSubrouter (lit "/b") (some s) []).1 p
        (p.addSubrouter (lit "/b") (some s) []).2 (lit "/b") (some s.this)
        (p.leftOver (lit "/b") (some s) = some s) ∧
      mountedRouterWorld.moveConstructAt 3 = some w₁ ∧ w₁.routerAt 0 = some p₁ ∧
      TellsTruth (p₁.addSubrouter (lit "/b") (some { q with this := 4 }) []).1 p
        (p₁.addSubrouter (lit "/b") (some { q with this := 4 }) []).2 (lit "/b") (some 4)
        (w₁.routerAt 3 = some q) := by
  have hiff := addSubrouter_truthful_iff mountedRouter_reach (a := 0) rfl (lit "/b") []
  refine ⟨_, _, _, _, _, rfl, rfl, (hiff.1 (some _) ?_).mpr (.inr (.inr ?_)), rfl, rfl,
    (hiff.2 3 _ _ _ rfl rfl rfl).mpr ?_⟩
  · intro s hs
    cases hs
    rfl
  · decide +kernel
  · rw [if_neg (by decide)]
    exact .inr (by decide +kernel)

/-- A second sub-router for the resource `/a` is reported as added, and is not. A router that is
handed over for the empty resource is rejected, and has lost its endpoint. -/
theorem second_subrouter_reported_as_added :
    (¬ ∀ (compile : Str → Option Regex) (w : World), (assembling compile).Reach Sys.free w →
      ∀ a p s resource order, w.routerAt a = some p → w.root s.this = some s →
        TellsTruth (p.addSubrouter resource (some s) order).1 p
          (p.addSubrouter resource (some s) order).2 resource (some s.this)
          (p.leftOver resource (some s) = some s)) ∧
    (¬ ∀ (compile : Str → Option Regex) (w : World), (assembling compile).Reach Sys.free w →
      ∀ a b p q w₁ p₁ resource order, w.routerAt a = some p → w.routerAt b = some q →
        w.moveConstructAt b = some w₁ → w₁.routerAt a = some p₁ →
        TellsTruth (p₁.addSubrouter resource (some { q with this := w.next }) order).1 p
          (p₁.addSubrouter resource (some { q with this := w.next }) order).2 resource
          (some w.next) (w₁.routerAt b = some q)) := by
  constructor
  · intro h
    have htruth := h _ _ mountedRouter_reach 0 _ { this := 2 } (lit "/a") [] rfl rfl
    obtain ⟨x, hx, y, hy, hya, hyx⟩ := htruth.registered.mp rfl
    cases hx
    revert y
    decide +kernel
  · intro h
    have htruth := h _ _ mountedRouter_reach 0 3 _ _ _ _ [] [] rfl rfl rfl rfl
    have hkept := (htruth.rejected rfl).2
    have heps := congrArg (fun o => o.map fun q => q.endpointsHttp.length) hkept
    revert heps
    decide +kernel

end Server
end Malloy
