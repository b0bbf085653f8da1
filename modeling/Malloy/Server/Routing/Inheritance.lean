import Malloy.Server.Routing.Assembly

/-!
# What sub-routers inherit

A router that is mounted gets the server string and a logger of its parent. `set_server_string`
goes down the whole tree, and stops at a router that has the string already; `set_logger` reaches
the router and its sub-routers, and no further.

* `SameServerStr`: `serverStr_of_root` says when all routers of a tree have the server string of its
  root.
* `HandsLogger`, `LoggersBelow`: what `set_logger` needs below the routers that it reaches.
  `logger_of_root`: when all routers of a tree whose root has a logger have one, and upgrade
  requests do not go through a null pointer.
-/

namespace Malloy
namespace Server

open Http Lib

/-! ## The label after the calls -/

namespace PlacedRouter

variable {r : PlacedRouter} {str : Str} {R : Bool × Str → Bool × Str → Prop}

theorem setServerString_label (r : PlacedRouter) (str : Str) :
    (r.setServerString str).label = (r.logger, str) := by
  rw [setServerString_eq]
  split
  · rename_i h
    rw [label, h]
  · rfl

/-- The sub-routers are related if they were, and to routers with the new string. -/
theorem Licensed.setServerString (h : r.Licensed R)
    (hR : ∀ l m, R l m → R (l.1, str) (m.1, str)) : (r.setServerString str).Licensed R := by
  induction r using PlacedRouter.induction_sub with
  | h r ih =>
    rw [setServerString_eq]
    split
    · exact h
    · refine licensed_iff.mpr fun x hx => ?_
      obtain ⟨y, hy, rfl⟩ := List.mem_map.mp hx
      obtain ⟨hry, hys⟩ := licensed_iff.mp h y hy
      refine ⟨?_, ih y hy hys⟩
      rw [setServerString_label]
      exact hR _ _ hry

end PlacedRouter

/-- The calls that add something else than a router leave the label and the sub-routers alone. -/
theorem Registration.apply_eq_setLogger_or (compile : Str → Option Regex) (reg : Registration)
    (r : PlacedRouter) :
    (∃ logger, reg = .setLogger logger) ∨
      ((reg.apply compile r).subRouters = r.subRouters ∧
        (reg.apply compile r).label = r.label) := by
  have h := reg.apply_does compile r
  generalize reg.apply compile r = r' at h ⊢
  cases h with
  | logger logger => exact .inl ⟨logger, rfl⟩
  | _ => exact .inr ⟨rfl, rfl⟩

/-! ## The server string -/

/-- The sub-router has the server string of its parent. -/
def SameServerStr (l m : Bool × Str) : Prop := m.2 = l.2

namespace PlacedRouter

variable {r p sub : PlacedRouter} {str : Str}

/-- All routers of the tree have the server string of its root. -/
theorem Licensed.serverStr_of_mem_tree (h : r.Licensed SameServerStr) :
    ∀ q ∈ r.tree, q.serverStr = r.serverStr := by
  induction r using PlacedRouter.induction_sub with
  | h r ih =>
    intro q hq
    rcases mem_tree.mp hq with rfl | ⟨x, hx, hq⟩
    · rfl
    · obtain ⟨hrx, hxs⟩ := licensed_iff.mp h x hx
      exact (ih x hx hxs q hq).trans hrx

/-- `set_logger` does not touch the server strings. -/
theorem Licensed.setLogger_sameServerStr (h : r.Licensed SameServerStr) (logger : Bool) :
    (r.setLogger logger).Licensed SameServerStr := by
  refine licensed_iff.mpr fun x hx => ?_
  obtain ⟨y, hy, rfl⟩ := List.mem_map.mp hx
  obtain ⟨hry, hys⟩ := licensed_iff.mp h y hy
  dsimp only
  split
  · exact ⟨hry, licensed_iff.mpr fun z hz => licensed_iff.mp hys z hz⟩
  · exact ⟨hry, hys⟩

theorem adopt_sameServerStr (p : PlacedRouter) (h : sub.Licensed SameServerStr) :
    SameServerStr p.label (p.adopt sub).label ∧ (p.adopt sub).Licensed SameServerStr := by
  unfold adopt
  constructor
  · rw [setServerString_label]
    rfl
  · refine Licensed.setServerString ?_ fun _ _ _ => rfl
    split
    · exact h.setLogger_sameServerStr true
    · exact h

end PlacedRouter

/-- A sub-router is only assigned a router with its own server string. -/
def AssignsServerStr (w : World) (act : AssembleAct) : Prop :=
  ∀ a b, act = .moveAssign a b → ∀ r, w.routerAt b = some r → ∀ q ∈ w.attached, q.this = a →
    q.serverStr = r.serverStr

theorem inductive_sameServerStr (compile : Str → Option Regex) :
    (assembling compile).Inductive AssignsServerStr (World.Licensed SameServerStr) where
  base w hw := by
    cases hw
    exact fun r hr => absurd hr List.not_mem_nil
  keep w act w' h hok hst := by
    have hadd : ∀ {w w' : World} {a resource b order}, w.Licensed SameServerStr →
        w.addSubrouterAt a resource b order = some w' → w'.Licensed SameServerStr :=
      fun h hst => h.addSubrouterAt hst fun p _ _ sub hsub _ =>
        PlacedRouter.adopt_sameServerStr p (h sub (World.mem_of_root hsub))
    have hmove : ∀ {w' b}, w.moveConstructAt b = some w' → w'.Licensed SameServerStr :=
      fun hst => h.moveConstructAt hst fun _ _ _ _ hl => hl
    match act, hst with
    | .build (.construct logger serverStr), hst =>
      cases hst
      exact h.construct logger serverStr
    | .build (.register a reg), hst =>
      refine h.updateAt hst (fun q hq _ => ?_) fun q _ _ l hl => ?_
      · rcases reg.apply_eq_setLogger_or compile q with ⟨logger, rfl⟩ | ⟨hs, hl⟩
        · exact (h.all hq).setLogger_sameServerStr logger
        · exact (h.all hq).congr hs hl
      · rcases reg.apply_eq_setLogger_or compile q with ⟨logger, rfl⟩ | ⟨-, he⟩
        · exact hl
        · rw [he]
          exact hl
    | .build (.addSubrouter a resource b order), hst => exact hadd h hst
    | .build (.moveSubrouter a resource b order), hst =>
      obtain ⟨w₁, hm, ha⟩ := Option.bind_eq_some_iff.mp hst
      exact hadd (hmove hm) ha
    | .build (.moveConstruct b), hst => exact hmove hst
    | .moveAssign a b, hst =>
      refine h.moveAssign hst (fun r hr q hq ha l hl => ?_) fun _ _ _ hl => hl
      have := hok a b rfl r hr q hq ha
      exact this.symm.trans hl

/-- **The routers of a tree have the server string of its root**, and so each sub-router has that
of its parent, in whatever order the tree was assembled, if a router that is mounted was only
assigned routers with its own server string. -/
theorem serverStr_of_root {compile : Str → Option Regex} {w : World}
    (h : (assembling compile).Reach AssignsServerStr w) :
    ∀ r ∈ w.roots, ∀ q ∈ r.tree,
      q.serverStr = r.serverStr ∧ ∀ x ∈ q.subRouters, x.2.serverStr = q.serverStr := by
  have hw : w.Licensed SameServerStr := (inductive_sameServerStr compile).reach h
  exact fun r hr q hq => ⟨(hw r hr).serverStr_of_mem_tree q hq, hw r hr q hq⟩

/-- A sub-tree that is built first and mounted later, and a router that is added to it then. -/
def mountedTree : List AssembleAct :=
  [.build (.construct true (lit "malloy")), .build (.construct false []),
   .build (.construct false []), .build (.addSubrouter 1 (lit "/b") 2 []),
   .build (.addSubrouter 0 (lit "/a") 1 []), .build (.construct false (lit "other")),
   .build (.moveSubrouter 2 (lit "/c") 3 [])]

def mountedTreeWorld : World := ((assembling Env.bare.compile).run {} mountedTree).2

theorem serverStr_of_root_mountedTree :
    ∃ r ∈ mountedTreeWorld.roots, r.tree.length = 4 ∧ ∀ q ∈ r.tree,
      q.serverStr = r.serverStr ∧ ∀ x ∈ q.subRouters, x.2.serverStr = q.serverStr := by
  have hrun := Sys.runs_run (S := assembling Env.bare.compile) rfl mountedTree
  have hreach : (assembling Env.bare.compile).Reach AssignsServerStr mountedTreeWorld :=
    hrun.reach fun x hx a b he => by
    have hmem := Sys.mem_of_mem_run hx
    rw [he] at hmem
    simp [mountedTree] at hmem
  exact ⟨_, List.mem_cons_self, by decide +kernel, serverStr_of_root hreach _ List.mem_cons_self⟩

/-- A router is mounted, and then assigned a router that was constructed without a server. -/
def assignedRouter : List AssembleAct :=
  [.build (.construct true (lit "malloy")), .build (.construct false []),
   .build (.addSubrouter 0 (lit "/a") 1 []), .build (.construct false []), .moveAssign 1 2]

/-- The assignment replaces the server string that the sub-router had from its parent. -/
theorem assigned_subrouter_loses_string :
    ¬ ∀ (compile : Str → Option Regex) (w : World), (assembling compile).Reach Sys.free w →
      ∀ r ∈ w.roots, ∀ q ∈ r.tree, ∀ x ∈ q.subRouters, x.2.serverStr = q.serverStr := by
  intro h
  have hrun := Sys.runs_run (S := assembling Env.bare.compile) rfl assignedRouter
  exact absurd (h _ _ (hrun.reach fun _ _ => trivial)) (by decide +kernel)

/-! ## The logger -/

/-- If the router has a logger, so has its sub-router. -/
def HandsLogger (l m : Bool × Str) : Prop := l.1 = true → m.1 = true

namespace PlacedRouter

variable {r p sub : PlacedRouter} {str : Str}

/-- All routers of a tree whose root has a logger have one. -/
theorem Licensed.logger_of_mem_tree (h : r.Licensed HandsLogger) (hr : r.logger = true) :
    ∀ q ∈ r.tree, q.logger = true := by
  induction r using PlacedRouter.induction_sub with
  | h r ih =>
    intro q hq
    rcases mem_tree.mp hq with rfl | ⟨x, hx, hq⟩
    · exact hr
    · obtain ⟨hrx, hxs⟩ := licensed_iff.mp h x hx
      exact ih x hx hxs (hrx hr) q hq

/-- The routers below those that `set_logger` reaches have loggers. -/
def LoggersBelow (r : PlacedRouter) : Prop :=
  ∀ x ∈ r.subRouters, ∀ y ∈ x.2.subRouters, y.2.logger = true

instance (r : PlacedRouter) : Decidable r.LoggersBelow := inferInstanceAs (Decidable (∀ _ ∈ _, _))

/-- **What `set_logger` needs**: it reaches the router and its sub-routers, so below these there
must be loggers already. -/
theorem licensed_setLogger_iff (h : r.Licensed HandsLogger) :
    (r.setLogger true).Licensed HandsLogger ↔ r.LoggersBelow := by
  have hlogger : ∀ x : PlacedRouter,
      (if !x.logger then { x with logger := true } else x).logger = true := by
    intro x
    cases hx : x.logger with
    | true => simpa using hx
    | false => rfl
  have hsubs : ∀ x : PlacedRouter,
      (if !x.logger then { x with logger := true } else x).subRouters = x.subRouters := by
    intro x
    split <;> rfl
  constructor
  · intro hset x hx y hy
    have hx' := (licensed_iff.mp hset _ (List.mem_map.mpr ⟨x, hx, rfl⟩)).2
    refine (licensed_iff.mp hx' y ?_).1 (hlogger x.2)
    dsimp only
    rw [hsubs]
    exact hy
  · intro hbelow
    refine licensed_iff.mpr fun x hx => ?_
    obtain ⟨y, hy, rfl⟩ := List.mem_map.mp hx
    refine ⟨fun _ => hlogger y.2, licensed_iff.mpr fun z hz => ⟨fun _ => ?_, ?_⟩⟩
    · dsimp only at hz
      rw [hsubs] at hz
      exact hbelow y hy z hz
    · dsimp only at hz
      rw [hsubs] at hz
      exact (licensed_iff.mp (licensed_iff.mp h y hy).2 z hz).2

theorem adopt_handsLogger (hsub : sub.Licensed HandsLogger)
    (hbelow : p.logger = true → sub.LoggersBelow) :
    HandsLogger p.label (p.adopt sub).label ∧ (p.adopt sub).Licensed HandsLogger := by
  unfold adopt
  constructor
  · intro hp
    have hp : p.logger = true := hp
    rw [setServerString_label, if_pos hp]
    rfl
  · refine Licensed.setServerString ?_ fun _ _ hl => hl
    split
    · rename_i hp
      exact (licensed_setLogger_iff hsub).mpr (hbelow hp)
    · exact hsub

end PlacedRouter

namespace World

/-- A router that the program holds and that is mounted on a router with a logger gets a logger
only where `set_logger` reaches. -/
def MountsLoggersBelow (w : World) (a : Addr) (resource : Str) (b : Addr) : Prop :=
  ∀ p ∈ w.all, p.this = a → p.logger = true → p.CanMount resource →
    ∀ sub ∈ w.root b, sub.LoggersBelow

instance (p : PlacedRouter) (resource : Str) : Decidable (p.CanMount resource) :=
  inferInstanceAs (Decidable (_ ∧ ∀ _ ∈ _, _))

instance (w : World) (a : Addr) (resource : Str) (b : Addr) :
    Decidable (w.MountsLoggersBelow a resource b) := inferInstanceAs (Decidable (∀ _ ∈ _, _))

/-- `set_logger` is called with a logger, by the program or by `add_subrouter`, where there are
loggers below the routers that it reaches; and a router that is mounted is not moved from. -/
def HandsLoggers (w : World) : AssembleAct → Prop
  | .build (.register a (.setLogger logger)) =>
    logger = true ∧ ∀ q ∈ w.all, q.this = a → q.LoggersBelow
  | .build (.addSubrouter a resource b _) => w.MountsLoggersBelow a resource b
  | .build (.moveSubrouter a resource b _) =>
    (∀ q ∈ w.attached, q.this ≠ b) ∧
      ∀ w' ∈ w.moveConstructAt b, w'.MountsLoggersBelow a resource w.next
  | .build (.moveConstruct b) => ∀ q ∈ w.attached, q.this ≠ b
  | .moveAssign _ _ => False
  | _ => True

instance (w : World) (act : AssembleAct) : Decidable (w.HandsLoggers act) :=
  match act with
  | .build (.register _ (.setLogger _)) => inferInstanceAs (Decidable (_ ∧ _))
  | .build (.addSubrouter a resource b _) =>
    inferInstanceAs (Decidable (w.MountsLoggersBelow a resource b))
  | .build (.moveSubrouter _ _ _ _) => inferInstanceAs (Decidable (_ ∧ _))
  | .build (.moveConstruct _) => inferInstanceAs (Decidable (∀ _ ∈ _, _))
  | .moveAssign _ _ => .isFalse id
  | .build (.construct _ _) => .isTrue trivial
  | .build (.register _ (.add _ _ _ _)) => .isTrue trivial
  | .build (.register _ (.addPreflight _ _)) => .isTrue trivial
  | .build (.register _ (.addFileServing _ _ _)) => .isTrue trivial
  | .build (.register _ (.addRedirect _ _ _)) => .isTrue trivial
  | .build (.register _ (.addWebsocket _ _)) => .isTrue trivial
  | .build (.register _ (.addPolicy _ _)) => .isTrue trivial

end World

theorem inductive_handsLogger (compile : Str → Option Regex) :
    (assembling compile).Inductive World.HandsLoggers (World.Licensed HandsLogger) where
  base w hw := by
    cases hw
    exact fun r hr => absurd hr List.not_mem_nil
  keep w act w' h hok hst := by
    have hadd : ∀ {w w' : World} {a resource b order}, w.Licensed HandsLogger →
        w.MountsLoggersBelow a resource b → w.addSubrouterAt a resource b order = some w' →
        w'.Licensed HandsLogger :=
      fun h hm hst => h.addSubrouterAt hst fun p hp ha sub hsub hcan =>
        PlacedRouter.adopt_handsLogger (h sub (World.mem_of_root hsub))
          fun hl => hm p hp ha hl hcan sub hsub
    have hmove : ∀ {w' b}, (∀ q ∈ w.attached, q.this ≠ b) → w.moveConstructAt b = some w' →
        w'.Licensed HandsLogger :=
      fun hb hst => h.moveConstructAt hst fun q hq ha => absurd ha (hb q hq)
    match act, hok, hst with
    | .build (.construct logger serverStr), _, hst =>
      cases hst
      exact h.construct logger serverStr
    | .build (.register a reg), hok, hst =>
      refine h.updateAt hst (fun q hq ha => ?_) fun q _ _ l hl => ?_
      · rcases reg.apply_eq_setLogger_or compile q with ⟨logger, rfl⟩ | ⟨hs, hl⟩
        · obtain ⟨rfl, hbelow⟩ := hok
          exact (PlacedRouter.licensed_setLogger_iff (h.all hq)).mpr (hbelow q hq ha)
        · exact (h.all hq).congr hs hl
      · rcases reg.apply_eq_setLogger_or compile q with ⟨logger, rfl⟩ | ⟨-, he⟩
        · obtain ⟨rfl, -⟩ := hok
          exact fun _ => rfl
        · rw [he]
          exact hl
    | .build (.addSubrouter a resource b order), hok, hst => exact hadd h hok hst
    | .build (.moveSubrouter a resource b order), ⟨hb, hm⟩, hst =>
      obtain ⟨w₁, hw₁, ha⟩ := Option.bind_eq_some_iff.mp hst
      exact hadd (hmove hb hw₁) (hm w₁ hw₁) ha
    | .build (.moveConstruct b), hok, hst => exact hmove hok hst
    | .moveAssign a b, hok, hst => exact hok.elim

/-- **The routers of a tree whose root has a logger have one**, if `set_logger` is only called where
there are loggers below the routers that it reaches; and then an upgrade request is handled without
going through a null pointer, whatever router it ends at. -/
theorem logger_of_root {compile : Str → Option Regex} {w : World}
    (h : (assembling compile).Reach World.HandsLoggers w) {r : PlacedRouter} (hr : r ∈ w.roots)
    (hl : r.logger = true) :
    (∀ q ∈ r.tree, q.logger = true) ∧
      ∀ env head, ∃ reaction, r.router.handleRequest env true head = .ok reaction := by
  have hw : w.Licensed HandsLogger := (inductive_handsLogger compile).reach h
  have hall := (hw r hr).logger_of_mem_tree hl
  refine ⟨hall, fun env head => ?_⟩
  have hlast : (r.router.lastVisit head).1 ∈ r.router.tree :=
    r.router.mem_tree_of_mem_visits head (List.getLast_mem _)
  rw [PlacedRouter.router_tree] at hlast
  obtain ⟨q, hq, hqr⟩ := List.mem_map.mp hlast
  have hlogger : (r.router.lastVisit head).1.logger = true := by
    rw [← hqr, PlacedRouter.router_eq]
    exact hall q hq
  rw [handleRequest_websocket, hlogger]
  exact ⟨_, rfl⟩

/-- Each router is mounted on one that has a logger already. -/
def loggedTree : List AssembleAct :=
  [.build (.construct true (lit "malloy")), .build (.construct false []),
   .build (.construct false []), .build (.construct false []),
   .build (.addSubrouter 0 (lit "/a") 1 []), .build (.addSubrouter 1 (lit "/b") 2 []),
   .build (.moveSubrouter 2 (lit "/c") 3 []), .build (.register 0 (.setLogger true))]

def loggedTreeWorld : World := ((assembling Env.bare.compile).run {} loggedTree).2

theorem logger_of_root_loggedTree :
    ∃ r ∈ loggedTreeWorld.roots, r.logger = true ∧ (∀ q ∈ r.tree, q.logger = true) ∧
      ∀ env head, ∃ reaction, r.router.handleRequest env true head = .ok reaction := by
  have hrun := Sys.runs_run (S := assembling Env.bare.compile) rfl loggedTree
  have hreach : (assembling Env.bare.compile).Reach World.HandsLoggers loggedTreeWorld :=
    hrun.reach (by decide +kernel)
  exact ⟨_, List.mem_cons_self, rfl, logger_of_root hreach List.mem_cons_self rfl⟩

/-- The call constructs a router, sets a logger, or adds a sub-router. -/
def AssembleAct.isAssembly : AssembleAct → Bool
  | .build (.construct _ _) => true
  | .build (.register _ (.setLogger logger)) => logger
  | .build (.addSubrouter _ _ _ _) => true
  | _ => false

/-- Three routers without a logger, one mounted on the other, are mounted on one with a logger. -/
def deepTree : List AssembleAct :=
  [.build (.construct true (lit "malloy")), .build (.construct false []),
   .build (.construct false []), .build (.construct false []),
   .build (.addSubrouter 2 (lit "/c") 3 []), .build (.addSubrouter 1 (lit "/b") 2 []),
   .build (.addSubrouter 0 (lit "/a") 1 [])]

/-- `set_logger` does not reach the last router, and an upgrade request that it handles goes
through its null pointer. -/
theorem deep_subrouter_without_logger :
    (¬ ∀ (compile : Str → Option Regex) (w : World),
      (assembling compile).Reach (fun _ act => act.isAssembly = true) w →
      ∀ r ∈ w.roots, r.logger = true → ∀ q ∈ r.tree, q.logger = true) ∧
    (¬ ∀ (compile : Str → Option Regex) (w : World),
      (assembling compile).Reach (fun _ act => act.isAssembly = true) w →
      ∀ r ∈ w.roots, r.logger = true →
        ∀ env head, r.router.handleRequest env true head ≠ .error .nullDeref) := by
  have hrun := Sys.runs_run (S := assembling Env.bare.compile) rfl deepTree
  have hreach : (assembling Env.bare.compile).Reach (fun _ act => act.isAssembly = true) _ :=
    hrun.reach fun x hx => by
    have hmem := Sys.mem_of_mem_run hx
    revert hmem
    simp only [deepTree, List.mem_cons, List.not_mem_nil, or_false]
    rintro (h | h | h | h | h | h | h) <;> rw [h] <;> rfl
  constructor
  · intro h
    exact absurd (h _ _ hreach) (by decide +kernel)
  · intro h
    exact h _ _ hreach _ List.mem_cons_self rfl Env.bare
      { method := .get, target := lit "/a/b/c/x" } rfl

end Server
end Malloy
