import Malloy.Server.Routing.Members

/-!
# Patterns that are no regular expressions

The pattern of a route is compiled when the route is added, and `add_regex_endpoint` returns false
for one that is no regular expression. `add_policy` stores the string: it is compiled when the
policy is asked, in `policy_store::matches`, where nothing catches the `std::regex_error`.

* `Registration.pattern`, `Registration.returns`: the pattern of a call, and what the call returns.
  `rejects_iff`: which calls reject a pattern.
* `handleRequest_regexError_iff`: the requests that raise a `std::regex_error`.
* `patterns_rejected_at_registration`: in a program whose policies have valid patterns, no request
  does.
-/

namespace Malloy
namespace Server

open Http Lib

/-! ## Registering a pattern -/

namespace Registration

/-- The string that the call registers as a pattern. -/
def pattern : Registration → Option Str
  | add _ target _ _ => some target
  | addPreflight target _ => some target
  | addPolicy resource _ => some resource
  | _ => none

/-- What the call returns, if it returns something. -/
def returns (compile : Str → Option Regex) (r : PlacedRouter) : Registration → Option Bool
  | add method target handler setupBody => some (r.add compile method target handler setupBody).1
  | addPreflight target cfg => some (r.addPreflight compile target cfg).1
  | addFileServing resource storageBasePath cacheControl =>
    some (r.addFileServing resource storageBasePath cacheControl).1
  | addRedirect status resourceOld resourceNew =>
    some (r.addRedirect status resourceOld resourceNew).1
  | addWebsocket resource handler => some (r.addWebsocket resource handler).1
  | addPolicy _ _ => none
  | setLogger _ => none

/-- The call adds a policy. -/
def isPolicy : Registration → Bool
  | addPolicy _ _ => true
  | _ => false

variable {compile : Str → Option Regex} {reg : Registration} {s : Str}

/-- **Which calls reject a pattern** that is no regular expression: they return false, and leave the
router as it is. -/
theorem rejects_iff (hs : reg.pattern = some s) (hc : compile s = none) (q : PlacedRouter) :
    (reg.returns compile q = some false ∧ reg.apply compile q = q) ↔ reg.isPolicy = false := by
  have hregex : ∀ method handler setupBody,
      q.addRegexEndpoint compile method s handler setupBody = (false, q) := by
    intro method handler setupBody
    unfold PlacedRouter.addRegexEndpoint
    rw [hc]
  cases reg with
  | add method target handler setupBody =>
    cases hs
    refine iff_of_true ?_ rfl
    simp only [returns, apply, PlacedRouter.add, hregex, and_self]
  | addPreflight target cfg =>
    cases hs
    refine iff_of_true ?_ rfl
    simp only [returns, apply, PlacedRouter.addPreflight, hregex, and_self]
  | addPolicy resource policy => exact iff_of_false (fun h => by cases h.1) (by simp [isPolicy])
  | addFileServing resource storageBasePath cacheControl => cases hs
  | addRedirect status resourceOld resourceNew => cases hs
  | addWebsocket resource handler => cases hs
  | setLogger logger => cases hs

/-- The policies after a call. -/
theorem mem_policies_apply {q : PlacedRouter} {p : PolicyStore}
    (h : p ∈ (reg.apply compile q).policies) :
    p ∈ q.policies ∨ reg.isPolicy = true ∧ reg.pattern = some p.rawReg := by
  have hdoes := reg.apply_does compile q
  generalize reg.apply compile q = q' at hdoes h
  cases hdoes with
  | policy resource policy =>
    rcases List.mem_append.mp h with h | h
    · exact .inl h
    · rw [List.mem_singleton.mp h]
      exact .inr ⟨rfl, rfl⟩
  | _ => exact .inl h

end Registration

/-! ## Handling a request -/

section

variable {env : Env}

/-- An exception is that of a pattern which is reached, as all policies before let the request
pass. -/
theorem firstDenial_error_iff {xs : List (PolicyStore × RequestHeader)} {e : Exn} :
    firstDenial env xs = .error e ↔ e = .regexError ∧ ∃ ys x zs, xs = ys ++ x :: zs ∧
      (∀ y ∈ ys, Passes env y) ∧ ¬ x.1.Valid env := by
  constructor
  · intro h
    induction xs with
    | nil => cases h
    | cons x xs ih =>
      obtain ⟨p, head⟩ := x
      unfold firstDenial at h
      split at h
      · rename_i hc
        cases h
        exact ⟨rfl, [], (p, head), xs, rfl, by simp, by simp [PolicyStore.Valid, hc]⟩
      · rename_i reg hc
        split at h
        · cases h
        · rename_i ha
          obtain ⟨rfl, ys, y, zs, rfl, hys, hy⟩ := ih h
          refine ⟨rfl, (p, head) :: ys, y, zs, rfl, List.forall_mem_cons.mpr ⟨?_, hys⟩, hy⟩
          exact passes_iff.mpr ⟨by simp [PolicyStore.Valid, hc], ha⟩
  · rintro ⟨rfl, ys, x, zs, rfl, hys, hx⟩
    rw [firstDenial_append, firstDenial_eq_none_iff.mpr hys]
    obtain ⟨p, head⟩ := x
    have hc : env.compile p.rawReg = none := Option.not_isSome_iff_eq_none.mp hx
    simp only [firstDenial, hc]

/-- **Which requests raise a `std::regex_error`**: the plain ones for which a policy is asked whose
pattern is no regular expression. -/
theorem handleRequest_regexError_iff {r : Router} {ws : Bool} {head : RequestHeader} :
    r.handleRequest env ws head = .error .regexError ↔
      ws = false ∧ ∃ ys x zs, r.policiesAlong head = ys ++ x :: zs ∧
        (∀ y ∈ ys, Passes env y) ∧ ¬ x.1.Valid env := by
  cases ws with
  | true =>
    rw [handleRequest_websocket]
    refine iff_of_false (fun h => ?_) fun h => by cases h.1
    unfold handleWsRequest at h
    split at h <;> cases h
  | false =>
    rw [Router.handleRequest_eq_answered, Router.answered]
    have herr := @firstDenial_error_iff env (r.policiesAlong head) .regexError
    rw [eq_self, true_and] at herr
    rw [eq_self, true_and, ← herr]
    cases firstDenial env (r.policiesAlong head) with
    | error e => simp [Except.map]
    | ok a => simp [Except.map]

end

/-! ## Every program whose policies have valid patterns -/

/-- A policy is only added for a pattern that is a regular expression. -/
def PoliciesCompile (compile : Str → Option Regex) (_ : World) (act : AssembleAct) : Prop :=
  ∀ a resource policy, act = .build (.register a (.addPolicy resource policy)) →
    (compile resource).isSome = true

/-- The patterns of the policies are regular expressions. -/
theorem policies_valid {env : Env} {w : World}
    (h : (assembling env.compile).Reach (PoliciesCompile env.compile) w) {q : PlacedRouter}
    (hq : q ∈ w.all) : ∀ p ∈ q.policies, p.Valid env := by
  refine own_reach (P := fun q => ∀ p ∈ q.policies, p.Valid env) ?_ ?_ ?_ h q.own
    (World.mem_owns_of_mem_all hq)
  · exact fun a p hp => absurd hp List.not_mem_nil
  · intro w a reg q hok _ hold p hp
    rcases Registration.mem_policies_apply hp with hp | ⟨hpol, hpat⟩
    · exact hold p hp
    · cases reg with
      | addPolicy resource policy =>
        cases hpat
        exact hok a _ policy rfl
      | _ => cases hpol
  · exact fun w act q c _ _ hold => hold

/-- **Invalid patterns do not surface at a request**, in any assembly whose policies have valid
patterns: no request on any of its routers raises a `std::regex_error`, and a further call that
registers a string that is no regular expression returns false and changes nothing. -/
theorem patterns_rejected_at_registration {env : Env} {w : World}
    (h : (assembling env.compile).Reach (PoliciesCompile env.compile) w) :
    (∀ q ∈ w.all, ∀ isWebsocket head,
      q.router.handleRequest (w.env env) isWebsocket head ≠ .error .regexError) ∧
    ∀ a reg s, PoliciesCompile env.compile w (.build (.register a reg)) →
      reg.pattern = some s → env.compile s = none →
      ∀ q, w.routerAt a = some q → reg.returns env.compile q = some false ∧
        (assembling env.compile).step w (.build (.register a reg)) = some w := by
  constructor
  · intro q hq isWebsocket head herr
    obtain ⟨-, ys, x, zs, hpath, -, hx⟩ := handleRequest_regexError_iff.mp herr
    have hmem : x ∈ q.router.policiesAlong head := by
      rw [hpath]
      exact List.mem_append_right _ List.mem_cons_self
    obtain ⟨v, hv, hp, -⟩ := Router.mem_policiesAlong.mp hmem
    have hvtree := q.router.mem_tree_of_mem_visits head hv
    rw [PlacedRouter.router_tree] at hvtree
    obtain ⟨q', hq', hqv⟩ := List.mem_map.mp hvtree
    obtain ⟨r, hr, hqr⟩ := List.mem_flatMap.mp hq
    have hall : q' ∈ w.all := List.mem_flatMap.mpr ⟨r, hr, PlacedRouter.mem_tree_trans hq' hqr⟩
    rw [← hqv, PlacedRouter.router_eq] at hp
    exact hx (policies_valid h hall x.1 hp)
  · intro a reg s hok hs hc q hq
    have hpol : reg.isPolicy = false := by
      cases reg with
      | addPolicy resource policy =>
        cases hs
        have hvalid := hok a _ policy rfl
        rw [hc] at hvalid
        cases hvalid
      | _ => rfl
    refine ⟨((Registration.rejects_iff hs hc q).mpr hpol).1, ?_⟩
    have hsame : (w.roots.map fun r => r.modify a fun r => reg.apply env.compile r) = w.roots := by
      refine (List.map_congr_left fun r _ => ?_).trans (List.map_id _)
      exact PlacedRouter.modify_eq_self fun q _ _ =>
        ((Registration.rejects_iff hs hc q).mpr hpol).2
    show w.updateAt a _ = some w
    unfold World.updateAt
    rw [hq, hsame]
    rfl

/-- The string `[` is no regular expression. -/
def strictEnv : Env :=
  { Env.bare with compile := fun s => if s = lit "[" then none else Env.bare.compile s }

/-- A router with a policy, and a route that is rejected. -/
def checkedRouter : List AssembleAct :=
  [.build (.construct true (lit "malloy")),
   .build (.register 0 (.addPolicy (lit "/admin") fun _ => some { status := 401 })),
   .build (.register 0 (.add .get (lit "[") (some (.plain fun _ => { status := 200 }))
    fun _ => []))]

def checkedRouterWorld : World := ((assembling strictEnv.compile).run {} checkedRouter).2

theorem patterns_rejected_at_registration_checkedRouter :
    (∃ q, checkedRouterWorld.routerAt 0 = some q ∧ q.policies.length = 1 ∧
      ∀ isWebsocket head,
        q.router.handleRequest (checkedRouterWorld.env strictEnv) isWebsocket head ≠
          .error .regexError) ∧
    (assembling strictEnv.compile).step checkedRouterWorld
      (.build (.register 0 (.addPreflight (lit "[") {}))) = some checkedRouterWorld := by
  have hrun := Sys.runs_run (S := assembling strictEnv.compile) rfl checkedRouter
  have hreach : (assembling strictEnv.compile).Reach (PoliciesCompile strictEnv.compile)
      checkedRouterWorld := hrun.reach fun x hx a resource policy he => by
    have hmem := Sys.mem_of_mem_run hx
    rw [he] at hmem
    simp only [checkedRouter, List.mem_cons, List.not_mem_nil, or_false, reduceCtorEq, false_or,
      AssembleAct.build.injEq, BuildAct.register.injEq, Registration.addPolicy.injEq, and_false]
      at hmem
    obtain ⟨rfl, rfl, rfl⟩ := hmem
    decide
  have hboth := patterns_rejected_at_registration hreach
  refine ⟨⟨_, rfl, rfl, fun isWebsocket head => hboth.1 _ List.mem_cons_self isWebsocket head⟩, ?_⟩
  exact (hboth.2 0 (.addPreflight (lit "[") {}) (lit "[") (fun _ _ _ he => by cases he) rfl
    (by decide) _ rfl).2

/-- A policy for `[`. -/
def uncheckedRouter : List AssembleAct :=
  [.build (.construct true (lit "malloy")),
   .build (.register 0 (.addPolicy (lit "[") fun _ => some { status := 401 }))]

/-- `add_policy` takes the string, and `GET /` raises a `std::regex_error`. -/
theorem invalid_policy_surfaces :
    (¬ ∀ (env : Env) (w : World), (assembling env.compile).Reach Sys.free w →
      ∀ q ∈ w.all, ∀ isWebsocket head,
        q.router.handleRequest (w.env env) isWebsocket head ≠ .error .regexError) ∧
    (¬ ∀ (env : Env) (w w' : World), (assembling env.compile).Reach Sys.free w →
      ∀ a reg s, reg.pattern = some s → env.compile s = none →
        (assembling env.compile).step w (.build (.register a reg)) = some w' → w' = w) := by
  constructor
  · intro h
    have hrun := Sys.runs_run (S := assembling strictEnv.compile) rfl uncheckedRouter
    exact h strictEnv _ (hrun.reach fun _ _ => trivial) _ List.mem_cons_self false
      { method := .get, target := lit "/" } rfl
  · intro h
    have hrun := Sys.runs_run (S := assembling strictEnv.compile) rfl
      [.build (.construct true (lit "malloy"))]
    have hsame := h strictEnv _ _ (hrun.reach fun _ _ => trivial) 0
      (.addPolicy (lit "[") fun _ => some { status := 401 }) (lit "[") rfl (by decide) rfl
    have hpolicies := congrArg (fun w => w.roots.map fun q => q.policies.length) hsame
    revert hpolicies
    decide +kernel

end Server
end Malloy
