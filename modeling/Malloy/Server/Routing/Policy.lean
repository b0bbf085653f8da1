import Malloy.Server.Routing.Dispatch

/-!
# Access policies

`add_policy` documents that a policy allows restricting access to any resource registered on the
router. What a policy sees is not what the other parts of the router see:

* A policy matches the raw target, while sub-routers, file locations and redirects use the
  resource string. `denial_survives_suffix_iff` says when a query or a fragment after a denied
  target leaves it denied, and `query_bypasses_policy` is a site where it does not.
* `handle_request<true>` asks no policy. `upgrade_ignores_policies` says what an upgrade request
  does instead, and `denied_resource_upgrades` is a site where it reaches a denied resource.

`answeredByEndpoint_iff` and `answeredByPolicy_iff` are in terms of the policies along the path of
the request (`policiesAlong`).
-/

namespace Malloy
namespace Server

open Http

/-! ## What a request is answered by -/

/-- The plain request is answered by a policy. -/
def AnsweredByPolicy (env : Env) (r : Router) (head : RequestHeader) : Prop :=
  ∃ re, r.handleRequest env false head = .ok re ∧ ∃ resp, Effect.denied resp ∈ re.effects

/-- The plain request is handed to an endpoint. -/
def AnsweredByEndpoint (env : Env) (r : Router) (head : RequestHeader) : Prop :=
  ∃ re, r.handleRequest env false head = .ok re ∧ ∃ ep, Effect.handle ep ∈ re.effects

section

variable {env : Env}

/-- The last router hands the request to an endpoint exactly if one matches. -/
theorem handle_mem_ownAnswer {v : Router × RequestHeader} :
    (∃ ep, Effect.handle ep ∈ ((Router.ownAnswer v).reaction env).effects) ↔
      ∃ ep ∈ v.1.endpointsHttp, ep.doesMatch v.2 = true := by
  unfold Router.ownAnswer
  cases hf : v.1.endpointsHttp.find? (EndpointHttp.doesMatch v.2) with
  | some ep =>
    have hmem := List.mem_of_find?_eq_some hf
    have hmatch := List.find?_some hf
    exact ⟨fun _ => ⟨ep, hmem, hmatch⟩, fun _ => ⟨ep, List.mem_cons_self⟩⟩
  | none =>
    have hno := List.find?_eq_none.mp hf
    constructor
    · rintro ⟨ep, hep⟩
      simp [Answer.reaction] at hep
    · rintro ⟨ep, hmem, hmatch⟩
      exact absurd hmatch (hno ep hmem)

/-- A request that is handled gets the reaction of what answers. -/
theorem Router.exists_handled_iff {r : Router} {head : RequestHeader} {P : Reaction → Prop} :
    (∃ re, r.handleRequest env false head = .ok re ∧ P re) ↔
      ∃ a, r.answered env head = .ok a ∧ P (a.reaction env) := by
  rw [Router.handleRequest_eq_answered]
  cases r.answered env head with
  | error e => simp [Except.map]
  | ok a => simp [Except.map]

/-- **When an endpoint answers**: every policy along the path lets the request pass, and an
endpoint of the last router matches. -/
theorem answeredByEndpoint_iff {r : Router} {head : RequestHeader} :
    AnsweredByEndpoint env r head ↔
      (∀ x ∈ r.policiesAlong head, Passes env x) ∧
      ∃ ep ∈ (r.lastVisit head).1.endpointsHttp, ep.doesMatch (r.lastVisit head).2 = true := by
  unfold AnsweredByEndpoint
  rw [Router.exists_handled_iff, ← @handle_mem_ownAnswer env, ← firstDenial_eq_none_iff]
  unfold Router.answered
  cases hd : firstDenial env (r.policiesAlong head) with
  | error e => simp [Except.map]
  | ok d =>
    cases d with
    | none => simp [Except.map]
    | some a =>
      -- the reaction of a policy has no endpoint in it
      obtain ⟨p, head', resp, -, rfl⟩ := firstDenial_policy hd
      simp [Except.map, Answer.reaction, Answer.denial]

theorem denied_not_mem_ownAnswer {v : Router × RequestHeader} {resp : Response} :
    Effect.denied resp ∉ ((Router.ownAnswer v).reaction env).effects := by
  unfold Router.ownAnswer
  split
  · rename_i ep he
    rcases EndpointHttp.handle_cases env v.1.serverStr v.2 ep with ⟨x, hx, -⟩ | ⟨b, hx, -⟩ <;>
      simp [Answer.reaction, hx]
  · simp [Answer.reaction]

/-- Where all patterns along the path are valid, a policy answers exactly if one does not let the
request pass. -/
theorem answeredByPolicy_iff {r : Router} {head : RequestHeader}
    (hps : ∀ x ∈ r.policiesAlong head, x.1.Valid env) :
    AnsweredByPolicy env r head ↔ ∃ x ∈ r.policiesAlong head, ¬ Passes env x := by
  have hne : (∃ x ∈ r.policiesAlong head, ¬ Passes env x) ↔
      firstDenial env (r.policiesAlong head) ≠ .ok none := by
    rw [Ne, firstDenial_eq_none_iff]
    push Not
    rfl
  unfold AnsweredByPolicy
  rw [Router.exists_handled_iff, hne]
  unfold Router.answered
  cases hd : firstDenial env (r.policiesAlong head) with
  | error e =>
    rw [firstDenial_of_valid hps] at hd
    cases hd
  | ok d =>
    cases d with
    | some a =>
      obtain ⟨p, head', resp, -, rfl⟩ := firstDenial_policy hd
      exact iff_of_true ⟨_, rfl, resp, List.mem_cons_self⟩ (by simp)
    | none =>
      refine iff_of_false ?_ fun h => h rfl
      rintro ⟨a, ha, resp, hm⟩
      cases ha
      exact denied_not_mem_ownAnswer hm

end

/-! ## A query after a denied target -/

/-- The same request with `q` after its target. -/
def withSuffix (q : Str) (head : RequestHeader) : RequestHeader :=
  { head with target := head.target ++ q }

/-- A target without a query or a fragment. -/
def IsResource (target : Str) : Prop := ∀ b ∈ target, endsResource b = false

instance (target : Str) : Decidable (IsResource target) :=
  List.decidableBAll (fun b => endsResource b = false) target

/-- A query or a fragment. -/
def IsSuffix (q : Str) : Prop := ∃ b, q.head? = some b ∧ endsResource b = true

/-- No endpoint of the tree is a regex endpoint. -/
def Router.NoRegex (r : Router) : Prop :=
  ∀ r' ∈ r.tree, ∀ ep ∈ r'.endpointsHttp, ∀ e, ep ≠ .regex e

/-- No validator of the tree looks at the target. -/
def Router.TargetBlind (r : Router) : Prop :=
  ∀ r' ∈ r.tree, ∀ p ∈ r'.policies, ∀ head target,
    p.validator { head with target := target } = p.validator head

/-- The policy stops the request with `q` after the target `head.target`: its validator returns a
response for these fields, and its pattern matches the target with `q`. (A pattern that is no
regular expression stops every request.) -/
def PolicyStore.StopsSuffix (env : Env) (p : PolicyStore) (head : RequestHeader) (q : Str) : Prop :=
  match env.compile p.rawReg with
  | none => True
  | some reg => (reg (head.target ++ q)).isSome = true ∧ (p.validator head).isSome = true

theorem resourceString_withSuffix {head : RequestHeader} {q : Str} (ht : IsResource head.target)
    (hq : IsSuffix q) :
    resourceString (withSuffix q head).target = resourceString head.target := by
  obtain ⟨b, hb, hbe⟩ := hq
  rw [resourceString_eq ht]
  refine resourceString_append ht fun c hc => ?_
  rw [hb] at hc
  cases hc
  exact hbe

mutual

/-- The path does not depend on the query. -/
theorem Router.visits_withSuffix {q : Str} (hq : IsSuffix q) :
    ∀ (r : Router) (head : RequestHeader), IsResource head.target → r.visits (withSuffix q head) =
      (r.visits head).map fun v => (v.1, withSuffix q v.2)
  | .mk logger subs eps wss policies serverStr, head, ht => by
    unfold Router.visits
    rw [visitsSub_withSuffix hq subs head ht]
    rfl

theorem visitsSub_withSuffix {q : Str} (hq : IsSuffix q) :
    ∀ (subs : List (Str × Router)) (head : RequestHeader), IsResource head.target →
      visitsSub subs (withSuffix q head) =
        (visitsSub subs head).map fun v => (v.1, withSuffix q v.2)
  | [], head, _ => by unfold visitsSub; rfl
  | (base, router) :: rest, head, ht => by
    unfold visitsSub
    rw [resourceString_withSuffix ht hq]
    by_cases hb : (resourceString head.target).startsWith base = true
    · rw [if_pos hb, if_pos hb]
      have hle : base.length ≤ head.target.length :=
        ((Str.startsWith_iff.mp hb).trans (resourceString_prefix_target _)).length_le
      have hdrop : (withSuffix q head).target.drop base.length =
          head.target.drop base.length ++ q := List.drop_append_of_le_length hle
      rw [hdrop]
      exact Router.visits_withSuffix hq router { head with target := head.target.drop base.length }
        fun b hm => ht b (List.mem_of_mem_drop hm)
    · rw [if_neg hb, if_neg hb]
      exact visitsSub_withSuffix hq rest head ht

end

/-- The headers that the routers of the path see have no query either. -/
theorem Router.isResource_of_mem_visits {r : Router} {head : RequestHeader}
    {v : Router × RequestHeader} (ht : IsResource head.target) (hv : v ∈ r.visits head) :
    IsResource v.2.target := by
  obtain ⟨n, hn⟩ := r.header_of_mem_visits head hv
  rw [hn]
  exact fun b hb => ht b (List.mem_of_mem_drop hb)

theorem Router.policiesAlong_withSuffix {q : Str} (hq : IsSuffix q) {r : Router}
    {head : RequestHeader} (ht : IsResource head.target) :
    r.policiesAlong (withSuffix q head) =
      (r.policiesAlong head).map fun x => (x.1, withSuffix q x.2) := by
  unfold policiesAlong
  rw [Router.visits_withSuffix hq r head ht, List.flatMap_map, List.map_flatMap]
  simp only [List.map_map]
  rfl

theorem Router.lastVisit_withSuffix {q : Str} (hq : IsSuffix q) {r : Router}
    {head : RequestHeader} (ht : IsResource head.target) :
    r.lastVisit (withSuffix q head) =
      ((r.lastVisit head).1, withSuffix q (r.lastVisit head).2) := by
  unfold lastVisit
  simp only [Router.visits_withSuffix hq r head ht, List.getLast_map]

section

variable {env : Env}

theorem passes_withSuffix_iff {p : PolicyStore} {head : RequestHeader} {q : Str}
    (hblind : ∀ head target, p.validator { head with target := target } = p.validator head) :
    Passes env (p, withSuffix q head) ↔ ¬ p.StopsSuffix env head q := by
  have hb : p.validator (withSuffix q head) = p.validator head := hblind head _
  have ht : (withSuffix q head).target = head.target ++ q := rfl
  rw [passes_iff]
  unfold PolicyStore.Valid PolicyStore.answer PolicyStore.StopsSuffix
  rw [hb, ht]
  cases hc : env.compile p.rawReg with
  | none => simp
  | some reg => cases hr : reg (head.target ++ q) <;> cases hv : p.validator head <;> simp [hr]

theorem Router.mem_policiesAlong {r : Router} {head : RequestHeader}
    {x : PolicyStore × RequestHeader} :
    x ∈ r.policiesAlong head ↔ ∃ v ∈ r.visits head, x.1 ∈ v.1.policies ∧ x.2 = v.2 := by
  simp only [policiesAlong, List.mem_flatMap, List.mem_map]
  constructor
  · rintro ⟨v, hv, p, hp, rfl⟩
    exact ⟨v, hv, hp, rfl⟩
  · rintro ⟨v, hv, hp, he⟩
    exact ⟨v, hv, x.1, hp, by rw [← he]⟩

/-- Endpoints other than regex endpoints do not see the query. -/
theorem doesMatch_withSuffix {ep : EndpointHttp} (hreg : ∀ e, ep ≠ .regex e) {head : RequestHeader}
    {q : Str} (ht : IsResource head.target) (hq : IsSuffix q) :
    ep.doesMatch (withSuffix q head) = ep.doesMatch head := by
  cases ep with
  | regex e => exact absurd rfl (hreg e)
  | files e => simp only [EndpointHttp.doesMatch, resourceString_withSuffix ht hq]
  | redirect e => simp only [EndpointHttp.doesMatch, resourceString_withSuffix ht hq]

theorem answeredByEndpoint_withSuffix_iff {r : Router} {head : RequestHeader} {q : Str}
    (hreg : r.NoRegex) (hblind : r.TargetBlind) (ht : IsResource head.target) (hq : IsSuffix q) :
    AnsweredByEndpoint env r (withSuffix q head) ↔
      (∀ x ∈ r.policiesAlong head, ¬ x.1.StopsSuffix env x.2 q) ∧
      ∃ ep ∈ (r.lastVisit head).1.endpointsHttp, ep.doesMatch (r.lastVisit head).2 = true := by
  have hlast : r.lastVisit head ∈ r.visits head := List.getLast_mem _
  rw [answeredByEndpoint_iff, Router.policiesAlong_withSuffix hq ht,
    Router.lastVisit_withSuffix hq ht, List.forall_mem_map]
  refine and_congr (forall₂_congr fun x hx => ?_)
    (exists_congr fun ep => and_congr_right fun he => ?_)
  · obtain ⟨v, hv, hp, -⟩ := Router.mem_policiesAlong.mp hx
    exact passes_withSuffix_iff (hblind v.1 (r.mem_tree_of_mem_visits head hv) x.1 hp)
  · rw [doesMatch_withSuffix (hreg _ (r.mem_tree_of_mem_visits head hlast) ep he)
      (Router.isResource_of_mem_visits ht hlast) hq]

/-- **When a query or a fragment cannot bypass a denial**: exactly if no policy along the path
answers the bare target, or some policy along the path also stops the target with the suffix, or
no endpoint of the last router matches. -/
theorem denial_survives_suffix_iff {r : Router} {head : RequestHeader} {q : Str}
    (hreg : r.NoRegex) (hblind : r.TargetBlind) (ht : IsResource head.target) (hq : IsSuffix q) :
    (AnsweredByPolicy env r head → ¬ AnsweredByEndpoint env r (withSuffix q head)) ↔
      (∀ x ∈ r.policiesAlong head, x.1.answer env x.2 = none) ∨
      (∃ x ∈ r.policiesAlong head, x.1.StopsSuffix env x.2 q) ∨
      (∀ ep ∈ (r.lastVisit head).1.endpointsHttp, ep.doesMatch (r.lastVisit head).2 = false) := by
  rw [answeredByEndpoint_withSuffix_iff hreg hblind ht hq]
  by_cases hstop : ∃ x ∈ r.policiesAlong head, x.1.StopsSuffix env x.2 q
  · obtain ⟨x, hx, hs⟩ := hstop
    exact ⟨fun _ => .inr (.inl ⟨x, hx, hs⟩), fun _ _ h => h.1 x hx hs⟩
  · have hnone : ∀ x ∈ r.policiesAlong head, ¬ x.1.StopsSuffix env x.2 q :=
      fun x hx hs => hstop ⟨x, hx, hs⟩
    -- a pattern that is no regular expression would stop the request
    have hval : ∀ x ∈ r.policiesAlong head, x.1.Valid env := by
      intro x hx
      by_contra hv
      rw [PolicyStore.Valid, Option.not_isSome_iff_eq_none] at hv
      exact hnone x hx (by simp [PolicyStore.StopsSuffix, hv])
    rw [answeredByPolicy_iff hval]
    constructor
    · intro h
      by_cases ha : ∀ x ∈ r.policiesAlong head, x.1.answer env x.2 = none
      · exact .inl ha
      · refine .inr (.inr fun ep he => ?_)
        obtain ⟨x, hx, hxa⟩ : ∃ x ∈ r.policiesAlong head, x.1.answer env x.2 ≠ none := by
          simpa using ha
        by_contra hm
        exact h ⟨x, hx, fun hp => hxa (passes_iff.mp hp).2⟩
          ⟨hnone, ep, he, by simpa using hm⟩
    · rintro (ha | hs | hm) ⟨x, hx, hp⟩ ⟨-, ep, he, hem⟩
      · exact hp (passes_iff.mpr ⟨hval x hx, ha x hx⟩)
      · exact hstop hs
      · rw [hm ep he] at hem
        cases hem

/-- `/admin?x` is no more served than `/admin` is. -/
theorem denial_survives_suffix_guardedSite :
    AnsweredByPolicy Env.bare guardedSite { method := .get, target := lit "/admin" } ∧
      ¬ AnsweredByEndpoint Env.bare guardedSite
        (withSuffix (lit "?x") { method := .get, target := lit "/admin" }) := by
  have hdenied :
      AnsweredByPolicy Env.bare guardedSite { method := .get, target := lit "/admin" } :=
    ⟨_, rfl, _, List.mem_cons_self⟩
  refine ⟨hdenied, (denial_survives_suffix_iff ?_ ?_ ?_ ?_).mpr (.inr (.inr ?_)) hdenied⟩
  · simp [Router.NoRegex, guardedSite, fileSite, Router.tree, treeSub]
  · simp [Router.TargetBlind, guardedSite, fileSite, Router.tree, treeSub]
  · decide
  · exact ⟨byte '?', by decide, by decide⟩
  · intro ep hep
    have he : ep = .redirect
        { status := 301, resourceOld := lit "/", resourceNew := lit "/files" } :=
      List.mem_singleton.mp hep
    subst he
    decide

/-- A file location with a policy for one of its files. -/
def secretSite : Router :=
  { fileSite with
    policies :=
      [{ rawReg := lit "/secret.txt", validator := fun _ => some { status := 401 }, writer := 1 }] }

/-- The policy of `/secret.txt` does not match `/secret.txt?x`, which names the same file. -/
theorem query_bypasses_policy :
    ¬ ∀ (env : Env) (r : Router) (head : RequestHeader) (q : Str), r.NoRegex → r.TargetBlind →
      IsResource head.target → IsSuffix q → AnsweredByPolicy env r head →
      ¬ AnsweredByEndpoint env r (withSuffix q head) := by
  intro h
  refine h Env.bare secretSite { method := .get, target := lit "/secret.txt" } (lit "?x")
    ?_ ?_ ?_ ?_ ?_ ?_
  · simp [Router.NoRegex, secretSite, fileSite, Router.tree, treeSub]
  · simp [Router.TargetBlind, secretSite, fileSite, Router.tree, treeSub]
  · decide
  · exact ⟨byte '?', by decide, by decide⟩
  · exact ⟨_, rfl, _, List.mem_cons_self⟩
  · exact ⟨_, rfl, _, List.mem_cons_self⟩

end

/-! ## Upgrade requests -/

mutual

/-- The same tree, in which no router has a policy. -/
def Router.withoutPolicies : Router → Router
  | .mk logger subRouters endpointsHttp endpointsWebsocket _ serverStr =>
    .mk logger (withoutPoliciesSub subRouters) endpointsHttp endpointsWebsocket [] serverStr

def withoutPoliciesSub : List (Str × Router) → List (Str × Router)
  | [] => []
  | (resourceBase, router) :: rest =>
    (resourceBase, router.withoutPolicies) :: withoutPoliciesSub rest

end

mutual

/-- The path does not depend on the policies. -/
theorem Router.visits_withoutPolicies : ∀ (r : Router) (head : RequestHeader),
    r.withoutPolicies.visits head = (r.visits head).map fun v => (v.1.withoutPolicies, v.2)
  | .mk logger subs eps wss policies serverStr, head => by
    have hw : Router.withoutPolicies (.mk logger subs eps wss policies serverStr) =
        .mk logger (withoutPoliciesSub subs) eps wss [] serverStr := by
      unfold Router.withoutPolicies; rfl
    rw [hw]
    unfold Router.visits
    rw [visitsSub_withoutPolicies subs head, List.map_cons, hw]

theorem visitsSub_withoutPolicies : ∀ (subs : List (Str × Router)) (head : RequestHeader),
    visitsSub (withoutPoliciesSub subs) head =
      (visitsSub subs head).map fun v => (v.1.withoutPolicies, v.2)
  | [], _ => by unfold withoutPoliciesSub visitsSub; rfl
  | (base, router) :: rest, head => by
    unfold withoutPoliciesSub visitsSub
    by_cases hb : (resourceString head.target).startsWith base = true
    · rw [if_pos hb, if_pos hb]
      exact Router.visits_withoutPolicies router _
    · rw [if_neg hb, if_neg hb]
      exact visitsSub_withoutPolicies rest head

end

/-- The websocket endpoint of the router that an upgrade request gets. -/
def Router.websocketFor (r : Router) (head : RequestHeader) : Option EndpointWebsocket :=
  r.endpointsWebsocket.find? fun ep => ep.resource == resourceString head.target && ep.handler

theorem handleWsEndpoints_eq (head : RequestHeader) (eps : List EndpointWebsocket) :
    handleWsEndpoints head eps =
      { effects := ((eps.find? fun ep =>
          ep.resource == resourceString head.target && ep.handler).map
            fun ep => .websocket ep head).toList } := by
  induction eps with
  | nil => rfl
  | cons ep eps ih =>
    unfold handleWsEndpoints
    by_cases hr : ep.resource = resourceString head.target
    · cases hh : ep.handler with
      | true => simp [hr, hh]
      | false => simp [hr, hh, ih]
    · simp [hr, ih]

/-- **An upgrade request does not meet a policy.** The last router of its path calls the first of
its websocket endpoints for the resource, if it has a logger, and does nothing else; all of it as
if there were no policies in the tree. -/
theorem upgrade_ignores_policies (env : Env) (r : Router) (head : RequestHeader) :
    r.handleRequest env true head =
        (if (r.lastVisit head).1.logger then
          .ok { effects := (((r.lastVisit head).1.websocketFor (r.lastVisit head).2).map
            fun ep => .websocket ep (r.lastVisit head).2).toList }
        else .error .nullDeref) ∧
      r.withoutPolicies.handleRequest env true head = r.handleRequest env true head := by
  have hlast : r.withoutPolicies.lastVisit head =
      ((r.lastVisit head).1.withoutPolicies, (r.lastVisit head).2) := by
    simp only [Router.lastVisit, Router.visits_withoutPolicies, List.getLast_map]
  constructor
  · rw [handleRequest_websocket, handleWsRequest, handleWsEndpoints_eq]
    rfl
  · rw [handleRequest_websocket, handleRequest_websocket, hlast]
    obtain ⟨logger, subs, eps, wss, policies, serverStr⟩ := (r.lastVisit head).1
    unfold Router.withoutPolicies
    rfl

/-- The fields with which a request asks for an upgrade. -/
def isUpgradeField (name : Str) : Bool :=
  lowerStr name == lit "connection" || lowerStr name == lit "upgrade" ||
    (lowerStr name).startsWith (lit "sec-websocket-")

/-- The requests differ in the fields of an upgrade only. -/
def SameExceptUpgrade (head head' : RequestHeader) : Prop :=
  head'.method = head.method ∧ head'.target = head.target ∧ head'.version = head.version ∧
    head'.fields.filter (fun f => !isUpgradeField f.1) =
      head.fields.filter (fun f => !isUpgradeField f.1)

/-- The policy does not look at the fields of an upgrade. -/
def PolicyStore.UpgradeBlind (p : PolicyStore) : Prop :=
  ∀ head head', SameExceptUpgrade head head' → p.validator head' = p.validator head

/-- A chat whose resource is denied. -/
def chatSite : Router where
  logger := true
  subRouters := []
  endpointsHttp := []
  endpointsWebsocket := [{ resource := lit "/chat", handler := true }]
  policies := [{ rawReg := lit "/chat", validator := fun _ => some { status := 401 }, writer := 0 }]
  serverStr := lit "malloy"

/-- `GET /chat` is denied, and the upgrade request for `/chat` reaches its handler. -/
theorem denied_resource_upgrades :
    ¬ ∀ (env : Env) (r : Router) (head head' : RequestHeader), SameExceptUpgrade head head' →
      env.isUpgrade head = false → env.isUpgrade head' = true → AnsweredByPolicy env r head →
      (∃ p h resp, r.answer env head = .policy p h resp ∧ p.UpgradeBlind) →
      ∀ re, r.handleRequest env true head' = .ok re →
        ∀ ep h, Effect.websocket ep h ∉ re.effects := by
  intro h
  refine h Env.bare chatSite { method := .get, target := lit "/chat" }
    { method := .get, target := lit "/chat"
      fields := [(lit "Connection", lit "Upgrade"), (lit "Upgrade", lit "websocket")] }
    ⟨rfl, rfl, rfl, ?_⟩ ?_ ?_ ⟨_, rfl, _, List.mem_cons_self⟩ ⟨_, _, _, rfl, fun _ _ _ => rfl⟩
    _ rfl _ _ List.mem_cons_self
  · decide
  · decide
  · decide

end Server
end Malloy
