import Malloy.Server.Routing.Router

/-!
# Dispatch along the path of a request

`handle_request` descends through the tree. `Router.visits` is the path that it takes, and
`handleRequest_eq` says that the request is handled along it: the policies of the visited routers
are asked in order, and when none answers the last router handles the request.

* `Router.answered`: who answers a plain request, which the policies along its path decide
  (`policiesAlong`, `firstDenial`). `Router.answer` is the same where no policy throws.
* `Answer.raw`, `Answer.serverStr`: an answer is a response, and the server string with which it is
  sent. `Answer.response` is what reaches `do_write()`.
* `handleRequest_eq_answered`: a plain request gets the reaction of what answers.
* `handleRequest_answers_once_iff`: when the answer is written, and nothing else is.
* `handleRequest_websocket`: an upgrade request is handled by the last router alone.
-/

namespace Malloy
namespace Server

open Http

/-! ## The path -/

theorem Router.visits_ne_nil (r : Router) (head : RequestHeader) : r.visits head ≠ [] := by
  obtain ⟨logger, subs, eps, wss, policies, serverStr⟩ := r
  unfold Router.visits
  exact List.cons_ne_nil _ _

/-- The router that handles the request, with the header that it sees. -/
def Router.lastVisit (r : Router) (head : RequestHeader) : Router × RequestHeader :=
  (r.visits head).getLast (r.visits_ne_nil head)

mutual

/-- The routers of the tree. -/
def Router.tree : Router → List Router
  | .mk logger subRouters endpointsHttp endpointsWebsocket policies serverStr =>
    .mk logger subRouters endpointsHttp endpointsWebsocket policies serverStr :: treeSub subRouters

def treeSub : List (Str × Router) → List Router
  | [] => []
  | (_, router) :: rest => router.tree ++ treeSub rest

end

mutual

/-- A request visits routers of the tree. -/
theorem Router.mem_tree_of_mem_visits : ∀ (r : Router) (head : RequestHeader) {v},
    v ∈ r.visits head → v.1 ∈ r.tree
  | .mk logger subs eps wss policies serverStr, head, v, hv => by
    unfold Router.visits at hv
    unfold Router.tree
    rcases List.mem_cons.mp hv with rfl | hv
    · exact List.mem_cons_self
    · exact List.mem_cons_of_mem _ (mem_treeSub_of_mem_visitsSub subs head hv)

theorem mem_treeSub_of_mem_visitsSub : ∀ (subs : List (Str × Router)) (head : RequestHeader) {v},
    v ∈ visitsSub subs head → v.1 ∈ treeSub subs
  | [], _, v, hv => by unfold visitsSub at hv; cases hv
  | (base, router) :: rest, head, v, hv => by
    unfold visitsSub at hv
    unfold treeSub
    split at hv
    · exact List.mem_append_left _ (Router.mem_tree_of_mem_visits router _ hv)
    · exact List.mem_append_right _ (mem_treeSub_of_mem_visitsSub rest head hv)

end

mutual

/-- A visited router sees the request less a part of its target. -/
theorem Router.header_of_mem_visits : ∀ (r : Router) (head : RequestHeader) {v},
    v ∈ r.visits head → ∃ n, v.2 = { head with target := head.target.drop n }
  | .mk logger subs eps wss policies serverStr, head, v, hv => by
    unfold Router.visits at hv
    rcases List.mem_cons.mp hv with rfl | hv
    · exact ⟨0, rfl⟩
    · exact header_of_mem_visitsSub subs head hv

theorem header_of_mem_visitsSub : ∀ (subs : List (Str × Router)) (head : RequestHeader) {v},
    v ∈ visitsSub subs head → ∃ n, v.2 = { head with target := head.target.drop n }
  | [], _, v, hv => by unfold visitsSub at hv; cases hv
  | (base, router) :: rest, head, v, hv => by
    unfold visitsSub at hv
    split at hv
    · obtain ⟨n, hn⟩ := Router.header_of_mem_visits router _ hv
      exact ⟨base.length + n, by rw [hn, List.drop_drop]⟩
    · exact header_of_mem_visitsSub rest head hv

end

/-! ## Dispatch along a path -/

/-- A request that is handled along a path. -/
def dispatch (env : Env) (isWebsocket : Bool) : List (Router × RequestHeader) → Except Exn Reaction
  | [] => .ok {}
  | (r, head) :: rest =>
    match r.askPolicies env isWebsocket head with
    | .error e => .error e
    | .ok (some effects) => .ok { effects := effects }
    | .ok none =>
      match rest with
      | [] => r.handleHere env isWebsocket head
      | _ :: _ => dispatch env isWebsocket rest

mutual

/-- **A request is handled along its path.** The chops that the loop makes are in bounds. -/
theorem Router.handleRequest_eq (env : Env) (ws : Bool) : ∀ (r : Router) (head : RequestHeader),
    r.handleRequest env ws head = dispatch env ws (r.visits head)
  | .mk logger subs eps wss policies serverStr, head => by
    unfold Router.handleRequest Router.visits dispatch
    rw [handleSubRouters_eq env ws subs head]
    cases visitsSub subs head <;> rfl

theorem handleSubRouters_eq (env : Env) (ws : Bool) :
    ∀ (subs : List (Str × Router)) (head : RequestHeader),
      handleSubRouters env ws subs head =
        match visitsSub subs head with
        | [] => none
        | v :: vs => some (dispatch env ws (v :: vs))
  | [], head => by unfold handleSubRouters visitsSub; rfl
  | (base, router) :: rest, head => by
    unfold handleSubRouters visitsSub
    by_cases hb : (resourceString head.target).startsWith base = true
    · rw [if_pos hb, hb, chopResource_of_startsWith hb]
      dsimp only
      rw [Router.handleRequest_eq env ws router]
      obtain ⟨v, vs, hv⟩ := List.exists_cons_of_ne_nil (router.visits_ne_nil
        { head with target := head.target.drop base.length })
      rw [hv]
      rfl
    · rw [if_neg hb, handleSubRouters_eq env ws rest head]
      simp [hb]

end

/-! ## Who answers -/

/-- The response with which the policy answers. -/
def PolicyStore.answer (env : Env) (policy : PolicyStore) (head : RequestHeader) :
    Option Response :=
  (env.compile policy.rawReg).bind fun reg =>
    if (reg head.target).isNone then none else policy.validator head

inductive Answer where
  | policy (policy : PolicyStore) (head : RequestHeader) (resp : Response)
  | endpoint (ep : EndpointHttp) (r : Router) (head : RequestHeader)
  | unknown (r : Router) (head : RequestHeader)

/-- The first policy of the router that answers. -/
def Router.policyAnswer (env : Env) (v : Router × RequestHeader) : Option Answer :=
  v.1.policies.findSome? fun p => (p.answer env v.2).map (.policy p v.2)

/-- What the router that handles the request does: the first endpoint that matches, or none. -/
def Router.ownAnswer (v : Router × RequestHeader) : Answer :=
  match v.1.endpointsHttp.find? (EndpointHttp.doesMatch v.2) with
  | some ep => .endpoint ep v.1 v.2
  | none => .unknown v.1 v.2

/-- Who answers a plain request: the first policy along the path that answers, else the last
router of the path. -/
def Router.answer (env : Env) (r : Router) (head : RequestHeader) : Answer :=
  ((r.visits head).findSome? (Router.policyAnswer env)).getD (Router.ownAnswer (r.lastVisit head))

/-- The policies that are asked, in order, each with the header that it is asked about. -/
def Router.policiesAlong (r : Router) (head : RequestHeader) : List (PolicyStore × RequestHeader) :=
  (r.visits head).flatMap fun v => v.1.policies.map fun p => (p, v.2)

/-- The first policy that answers; `regex_error` if a policy before it has no valid pattern. -/
def firstDenial (env : Env) :
    List (PolicyStore × RequestHeader) → Except Exn (Option Answer)
  | [] => .ok none
  | (policy, head) :: rest =>
    match env.compile policy.rawReg with
    | none => .error .regexError
    | some _ =>
      match policy.answer env head with
      | some resp => .ok (some (.policy policy head resp))
      | none => firstDenial env rest

/-- Who answers a plain request, if no policy before throws. -/
def Router.answered (env : Env) (r : Router) (head : RequestHeader) : Except Exn Answer :=
  (firstDenial env (r.policiesAlong head)).map fun a =>
    a.getD (Router.ownAnswer (r.lastVisit head))

namespace Answer

def head : Answer → RequestHeader
  | policy _ head _ => head
  | endpoint _ _ head => head
  | unknown _ head => head

/-- The response of the answer before it is sent, given the body of the request. -/
def raw (env : Env) (bytes : Str) : Answer → Except Exn Response
  | policy _ _ resp => .ok resp
  | endpoint ep _ head => ep.raw env head bytes
  | unknown _ _ => .ok (badRequest (lit "unknown request"))

/-- The captured router whose server string the response is sent with. -/
def sender : Answer → Option Addr
  | policy p _ _ => some p.writer
  | endpoint ep _ _ => ep.sender
  | unknown _ _ => none

/-- The server string of the router that handles the request. -/
def ownStr : Answer → Str
  | policy _ _ _ => []
  | endpoint _ r _ => r.serverStr
  | unknown r _ => r.serverStr

def serverStr (env : Env) (a : Answer) : Str :=
  match a.sender with
  | some this => (env.routers this).serverStr
  | none => a.ownStr

/-- The response of the answer, as it reaches `do_write()`. -/
def response (env : Env) (bytes : Str) (a : Answer) : Except Exn Response :=
  (a.raw env bytes).bind fun resp => env.response a.head.version resp (a.serverStr env)

theorem serverStr_of_sender {env : Env} {a : Answer} {this : Addr} (h : a.sender = some this) :
    a.serverStr env = (env.routers this).serverStr := by
  unfold serverStr
  rw [h]

theorem response_endpoint (env : Env) (bytes : Str) (ep : EndpointHttp) (r : Router)
    (head : RequestHeader) :
    (endpoint ep r head).response env bytes = ep.respond env r.serverStr head bytes := rfl

/-- The endpoint handlers that run. -/
def handled : Answer → List EndpointHttp
  | endpoint ep _ _ => [ep]
  | _ => []

/-- What a policy that answers does. -/
def denial (env : Env) : Answer → List Effect
  | policy p head resp =>
    [.denied resp, env.sendResponse head.version resp (env.routers p.writer).serverStr]
  | _ => []

/-- The reaction of a router that handles the request itself. -/
def reaction (env : Env) : Answer → Reaction
  | endpoint ep r head =>
    { effects := .handle ep :: ((ep.handle env head).1.map fun resp =>
        env.sendResponse head.version resp r.serverStr).toList
      body := (ep.handle env head).2 }
  | unknown r head =>
    { effects := [env.sendResponse head.version (badRequest (lit "unknown request")) r.serverStr] }
  | a => { effects := a.denial env }

end Answer

/-- The pattern of the policy is a regular expression. -/
def PolicyStore.Valid (env : Env) (policy : PolicyStore) : Prop :=
  (env.compile policy.rawReg).isSome = true

section

variable {env : Env}

theorem PolicyStore.process_eq {p : PolicyStore} (hp : p.Valid env) (head : RequestHeader) :
    p.process env head =
      .ok ((p.answer env head).map fun resp => (Answer.policy p head resp).denial env) := by
  obtain ⟨reg, hr⟩ := Option.isSome_iff_exists.mp hp
  unfold process answer
  rw [hr]
  dsimp only [Option.bind_some]
  split
  · rfl
  · cases p.validator head <;> rfl

/-- The policy lets the request pass. -/
def Passes (env : Env) (x : PolicyStore × RequestHeader) : Prop := x.1.process env x.2 = .ok none

/-- What `process` does: it passes, it answers with the response of the validator, or it throws. -/
theorem process_cases (env : Env) (p : PolicyStore) (head : RequestHeader) :
    (env.compile p.rawReg = none ∧ p.process env head = .error .regexError) ∨
    (p.Valid env ∧ p.answer env head = none ∧ p.process env head = .ok none) ∨
    (∃ resp, p.Valid env ∧ p.answer env head = some resp ∧
      p.process env head = .ok (some ((Answer.policy p head resp).denial env))) := by
  cases hc : env.compile p.rawReg with
  | none => exact .inl ⟨rfl, by simp [PolicyStore.process, hc]⟩
  | some reg =>
    have hv : p.Valid env := by simp [PolicyStore.Valid, hc]
    have hp := PolicyStore.process_eq hv head
    cases ha : p.answer env head with
    | none => exact .inr (.inl ⟨hv, rfl, by rw [hp, ha]; rfl⟩)
    | some resp => exact .inr (.inr ⟨resp, hv, rfl, by rw [hp, ha]; rfl⟩)

theorem passes_iff {p : PolicyStore} {head : RequestHeader} :
    Passes env (p, head) ↔ p.Valid env ∧ p.answer env head = none := by
  unfold Passes
  rcases process_cases env p head with ⟨hc, hp⟩ | ⟨hv, ha, hp⟩ | ⟨resp, hv, ha, hp⟩
  · simp [hp, PolicyStore.Valid, hc]
  · simp [hp, hv, ha]
  · simp [hp, ha]

theorem firstDenial_append (xs ys : List (PolicyStore × RequestHeader)) :
    firstDenial env (xs ++ ys) =
      match firstDenial env xs with
      | .error e => .error e
      | .ok (some a) => .ok (some a)
      | .ok none => firstDenial env ys := by
  induction xs with
  | nil => rfl
  | cons x xs ih =>
    obtain ⟨p, head⟩ := x
    rw [List.cons_append, firstDenial, firstDenial]
    split
    · rfl
    · split
      · rfl
      · exact ih

theorem isHandledByPolicies_eq_firstDenial (head : RequestHeader) (ps : List PolicyStore) :
    isHandledByPolicies env head ps =
      (firstDenial env (ps.map fun p => (p, head))).map fun a => a.map (Answer.denial env) := by
  induction ps with
  | nil => rfl
  | cons p ps ih =>
    rw [List.map_cons]
    unfold isHandledByPolicies firstDenial
    rcases process_cases env p head with ⟨hc, hp⟩ | ⟨hv, ha, hp⟩ | ⟨resp, hv, ha, hp⟩
    · rw [hc, hp]
      rfl
    · obtain ⟨reg, hreg⟩ := Option.isSome_iff_exists.mp hv
      rw [hreg, ha, hp]
      exact ih
    · obtain ⟨reg, hreg⟩ := Option.isSome_iff_exists.mp hv
      rw [hreg, ha, hp]
      rfl

/-- A denial is the answer of a policy. -/
theorem firstDenial_policy {xs : List (PolicyStore × RequestHeader)} {a : Answer}
    (h : firstDenial env xs = .ok (some a)) :
    ∃ p head resp, (p, head) ∈ xs ∧ a = .policy p head resp := by
  induction xs with
  | nil => cases h
  | cons x xs ih =>
    obtain ⟨p, head⟩ := x
    unfold firstDenial at h
    split at h
    · cases h
    · split at h
      · cases h
        exact ⟨p, head, _, List.mem_cons_self, rfl⟩
      · obtain ⟨q, head', resp, hq, ha⟩ := ih h
        exact ⟨q, head', resp, List.mem_cons_of_mem _ hq, ha⟩

/-- No policy answers exactly if all let the request pass. -/
theorem firstDenial_eq_none_iff {xs : List (PolicyStore × RequestHeader)} :
    firstDenial env xs = .ok none ↔ ∀ x ∈ xs, Passes env x := by
  induction xs with
  | nil => exact iff_of_true rfl fun x hx => absurd hx List.not_mem_nil
  | cons x xs ih =>
    obtain ⟨p, head⟩ := x
    rw [List.forall_mem_cons, ← ih, passes_iff, PolicyStore.Valid, firstDenial]
    cases env.compile p.rawReg with
    | none => simp
    | some reg =>
      cases p.answer env head with
      | none => simp
      | some resp => simp

/-- Where the patterns are valid, no exception is thrown. -/
theorem firstDenial_of_valid {xs : List (PolicyStore × RequestHeader)}
    (h : ∀ x ∈ xs, x.1.Valid env) :
    firstDenial env xs =
      .ok (xs.findSome? fun x => (x.1.answer env x.2).map (.policy x.1 x.2)) := by
  induction xs with
  | nil => rfl
  | cons x xs ih =>
    obtain ⟨p, head⟩ := x
    obtain ⟨reg, hreg⟩ := Option.isSome_iff_exists.mp (h _ List.mem_cons_self)
    rw [firstDenial, hreg, List.findSome?_cons]
    cases p.answer env head with
    | some resp => rfl
    | none => exact ih fun y hy => h y (List.mem_cons_of_mem _ hy)

theorem handleHttpRequest_eq (r : Router) (head : RequestHeader) :
    handleHttpRequest env r.serverStr head r.endpointsHttp =
      (Router.ownAnswer (r, head)).reaction env := by
  unfold Router.ownAnswer
  generalize r.endpointsHttp = eps
  induction eps with
  | nil => rfl
  | cons ep eps ih =>
    unfold handleHttpRequest
    by_cases hm : ep.doesMatch head = true
    · rw [if_pos hm, List.find?_cons_of_pos hm]
      rcases EndpointHttp.handle_cases env r.serverStr head ep with ⟨resp, he, -⟩ | ⟨b, he, -⟩ <;>
        simp [Answer.reaction, he]
    · rw [if_neg hm, List.find?_cons_of_neg hm]
      exact ih

/-- **Every plain request gets the reaction of its answer**, or the exception of a policy. -/
theorem Router.handleRequest_eq_answered (r : Router) (head : RequestHeader) :
    r.handleRequest env false head = (r.answered env head).map (Answer.reaction env) := by
  have hvs : ∀ (vs : List (Router × RequestHeader)) (hne : vs ≠ []), dispatch env false vs =
      (firstDenial env (vs.flatMap fun v => v.1.policies.map fun p => (p, v.2))).map fun a =>
        (a.getD (Router.ownAnswer (vs.getLast hne))).reaction env := by
    intro vs hne
    induction vs with
    | nil => exact absurd rfl hne
    | cons v vs ih =>
      obtain ⟨r, head⟩ := v
      unfold dispatch Router.askPolicies
      rw [if_neg (by decide), isHandledByPolicies_eq_firstDenial, List.flatMap_cons,
        firstDenial_append]
      cases hd : firstDenial env (r.policies.map fun p => (p, head)) with
      | error e => rfl
      | ok a =>
        cases a with
        | some a =>
          obtain ⟨p, head', resp, -, rfl⟩ := firstDenial_policy hd
          rfl
        | none =>
          cases vs with
          | nil => exact congrArg Except.ok (handleHttpRequest_eq r head)
          | cons w ws => exact ih (List.cons_ne_nil w ws)
  rw [Router.handleRequest_eq, hvs _ (r.visits_ne_nil head)]
  unfold Router.answered
  show (firstDenial env (r.policiesAlong head)).map _ = _
  cases firstDenial env (r.policiesAlong head) <;> rfl

/-- Where the patterns are valid, somebody answers. -/
theorem Router.answered_of_valid {r : Router} {head : RequestHeader}
    (hps : ∀ x ∈ r.policiesAlong head, x.1.Valid env) :
    r.answered env head = .ok (r.answer env head) := by
  have hfind : ∀ vs : List (Router × RequestHeader),
      (vs.flatMap fun v => v.1.policies.map fun p => (p, v.2)).findSome?
        (fun x => (x.1.answer env x.2).map (Answer.policy x.1 x.2)) =
      vs.findSome? (Router.policyAnswer env) := by
    intro vs
    induction vs with
    | nil => rfl
    | cons v vs ih =>
      rw [List.flatMap_cons, List.findSome?_append, ih, List.findSome?_map, List.findSome?_cons]
      show (Router.policyAnswer env v).or _ = _
      cases Router.policyAnswer env v <;> rfl
  unfold Router.answered Router.answer
  rw [firstDenial_of_valid hps, Router.policiesAlong, hfind]
  rfl

/-- **A plain request gets the reaction of its answer.** -/
theorem Router.handleRequest_http {r : Router}
    (hps : ∀ r' ∈ r.tree, ∀ p ∈ r'.policies, p.Valid env) (head : RequestHeader) :
    r.handleRequest env false head = .ok ((r.answer env head).reaction env) := by
  rw [Router.handleRequest_eq_answered, Router.answered_of_valid]
  · rfl
  · intro x hx
    obtain ⟨v, hv, hx⟩ := List.mem_flatMap.mp hx
    obtain ⟨p, hp, rfl⟩ := List.mem_map.mp hx
    exact hps v.1 (r.mem_tree_of_mem_visits head hv) p hp

/-- The endpoint that answers matches the header that its router sees. -/
theorem Router.doesMatch_of_answer {r r' : Router} {head head' : RequestHeader} {ep : EndpointHttp}
    (h : r.answer env head = .endpoint ep r' head') : ep.doesMatch head' = true := by
  unfold Router.answer at h
  cases ha : (r.visits head).findSome? (Router.policyAnswer env) with
  | some a =>
    obtain ⟨v, -, hv⟩ := List.exists_of_findSome?_eq_some ha
    obtain ⟨p, -, hp⟩ := List.exists_of_findSome?_eq_some hv
    obtain ⟨resp, -, rfl⟩ := Option.map_eq_some_iff.mp hp
    rw [ha] at h
    cases h
  | none =>
    rw [ha, Option.getD_none, Router.ownAnswer] at h
    split at h
    · rename_i ep' he
      cases h
      exact List.find?_some he
    · cases h

/-! ## Exactly one response -/

/-- What the reaction of an answer writes when the body read gives these bytes. -/
theorem Answer.reaction_run (a : Answer) (bytes : Str) :
    (∃ es w, (a.reaction env).run (some bytes) = .ok es ∧ a.response env bytes = .ok w ∧
      writes es = [w] ∧ Server.handled es = a.handled) ∨
    (∃ e, (a.reaction env).run (some bytes) = .error e ∧ a.response env bytes = .error e) := by
  -- a response that is sent before `handle_request` returns
  have hsent : ∀ es version resp str, (∀ e, .threw e ∉ es) → writes es = [] →
      Server.handled es = a.handled →
      (a.reaction env).run (some bytes) = raise (es ++ [env.sendResponse version resp str]) →
      a.response env bytes = env.response version resp str →
      (∃ es w, (a.reaction env).run (some bytes) = .ok es ∧ a.response env bytes = .ok w ∧
        writes es = [w] ∧ Server.handled es = a.handled) ∨
      (∃ e, (a.reaction env).run (some bytes) = .error e ∧ a.response env bytes = .error e) := by
    intro es version resp str hes hw hh hrun hresp
    rw [hrun, hresp]
    rcases Env.raise_sendResponse hes with ⟨w, hr, hra⟩ | ⟨e, hr, hra⟩
    · exact .inl ⟨_, w, hra, hr, by simp [hw, Effect.written], by simp [hh, Effect.handled]⟩
    · exact .inr ⟨e, hra, hr⟩
  cases a with
  | policy p head resp =>
    exact hsent [.denied resp] _ _ _ (by simp) rfl rfl rfl rfl
  | unknown r head => exact hsent [] _ _ _ (by simp) rfl rfl rfl rfl
  | endpoint ep r head =>
    rcases EndpointHttp.handle_cases env r.serverStr head ep with ⟨resp, he, hr⟩ | ⟨b, he, hb, hs⟩
    · refine hsent [.handle ep] head.version resp r.serverStr (by simp) rfl rfl ?_ (hr bytes)
      simp [Answer.reaction, Reaction.run, he]
    · rw [Answer.response_endpoint]
      rcases hs bytes with ⟨es, w, hf, hr, hw, hh⟩ | ⟨e, hf, hr⟩
      · refine .inl ⟨.handle ep :: es, w, ?_, hb ▸ hr, ?_, ?_⟩
        · simp [Answer.reaction, Reaction.run, he, hf, Except.map]
        · simp [Effect.written, hw]
        · simp [Effect.handled, hh, Answer.handled]
      · refine .inr ⟨e, ?_, hb ▸ hr⟩
        simp [Answer.reaction, Reaction.run, he, hf, Except.map]

/-- A reaction that reads the body writes nothing before. -/
theorem Answer.reaction_body {a : Answer} (h : (a.reaction env).body.isSome = true) :
    ∃ ep, (a.reaction env).effects = [.handle ep] ∧ a.handled = [ep] := by
  cases a with
  | policy p head resp => cases h
  | unknown r head => cases h
  | endpoint ep r head =>
    rcases EndpointHttp.handle_cases env r.serverStr head ep with ⟨resp, he, hr⟩ | ⟨b, he, hb, hs⟩
    · simp [Answer.reaction, he] at h
    · exact ⟨ep, by simp [Answer.reaction, he], rfl⟩

/-- `send_response` threw before `handle_request` returned. -/
def Reaction.Throws (re : Reaction) : Prop := ∃ e, .threw e ∈ re.effects

/-- A reaction that writes one response: at once, or when the body read has ended. It writes none if
`send_response` throws. -/
structure Reaction.AnswersOnce (re : Reaction) : Prop where
  now : re.body = none → (∃ w, writes re.effects = [w]) ∨ re.Throws ∧ writes re.effects = []
  later : ∀ b, re.body = some b → writes re.effects = [] ∧
    ∀ bytes es, b.finish bytes = .ok es → ∃ w, writes es = [w]

/-- A response that is sent after these effects. -/
theorem Reaction.now_of_sent (es : List Effect) (hw : writes es = []) (version : Nat)
    (resp : Response) (str : Str) :
    let re : Reaction := { effects := es ++ [env.sendResponse version resp str] }
    (∃ w, writes re.effects = [w]) ∨ re.Throws ∧ writes re.effects = [] := by
  dsimp only
  cases hr : env.response version resp str with
  | ok w =>
    rw [Env.sendResponse_of_ok hr]
    exact .inl ⟨w, by simp [hw, Effect.written]⟩
  | error e =>
    rw [Env.sendResponse_of_error hr]
    exact .inr ⟨⟨e, by simp⟩, by simp [hw, Effect.written]⟩

theorem Answer.reaction_answersOnce (a : Answer) : (a.reaction env).AnswersOnce := by
  cases a with
  | policy p head resp =>
    exact ⟨fun _ => Reaction.now_of_sent [.denied resp] rfl _ _ _, fun b hb => (by cases hb)⟩
  | unknown r head =>
    exact ⟨fun _ => Reaction.now_of_sent [] rfl _ _ _, fun b hb => (by cases hb)⟩
  | endpoint ep r head =>
    rcases EndpointHttp.handle_cases env r.serverStr head ep with ⟨resp, he, -⟩ | ⟨b, he, -, hs⟩
    · simp only [Answer.reaction, he]
      exact ⟨fun _ => Reaction.now_of_sent [.handle ep] rfl _ _ _, fun b hb => (by cases hb)⟩
    · simp only [Answer.reaction, he]
      refine ⟨fun hb => (by cases hb), fun b' hb => ⟨rfl, fun bytes es hf => ?_⟩⟩
      cases hb
      rcases hs bytes with ⟨es', w, hf', -, hw, -⟩ | ⟨e, hf', -⟩
      · rw [hf] at hf'
        cases hf'
        exact ⟨w, hw⟩
      · rw [hf] at hf'
        cases hf'

theorem Router.handleRequest_answersOnce {r : Router} {head : RequestHeader} {re : Reaction}
    (h : r.handleRequest env false head = .ok re) : re.AnswersOnce := by
  rw [Router.handleRequest_eq_answered] at h
  cases ha : r.answered env head with
  | error e => rw [ha] at h; cases h
  | ok a =>
    rw [ha] at h
    cases h
    exact a.reaction_answersOnce

/-- The test of the file returns normally, if a file location answers and makes one. -/
def Answer.TestReturns (env : Env) : Answer → Prop
  | endpoint ep _ head => ep.TestReturns env head
  | _ => True

/-- The response that the answer supplies has no body, unless its status allows one. -/
def Answer.MayBeSent (env : Env) (a : Answer) : Prop :=
  ∀ bytes resp, a.raw env bytes = .ok resp → env.MayFrame resp

/-- The answer has a response exactly if the test of the file returns, and its body is allowed. -/
theorem Answer.response_ok_iff (henv : env.PreparesPayload) (r : Router) (head : RequestHeader) :
    (∀ bytes, ∃ w, (r.answer env head).response env bytes = .ok w) ↔
      (r.answer env head).TestReturns env ∧ (r.answer env head).MayBeSent env := by
  have hraw : ∀ bytes, (∃ resp, (r.answer env head).raw env bytes = .ok resp) ↔
      (r.answer env head).TestReturns env := by
    intro bytes
    cases ha : r.answer env head with
    | policy p head resp => exact ⟨fun _ => trivial, fun _ => ⟨_, rfl⟩⟩
    | unknown r head => exact ⟨fun _ => trivial, fun _ => ⟨_, rfl⟩⟩
    | endpoint ep r head => exact EndpointHttp.raw_ok_iff (Router.doesMatch_of_answer ha) bytes
  unfold Answer.response Answer.MayBeSent
  constructor
  · intro h
    have hsent : ∀ bytes, ∃ resp, (r.answer env head).raw env bytes = .ok resp ∧
        env.MayFrame resp := by
      intro bytes
      obtain ⟨w, hw⟩ := h bytes
      cases hr : (r.answer env head).raw env bytes with
      | error e => rw [hr] at hw; cases hw
      | ok resp =>
        rw [hr] at hw
        exact ⟨resp, rfl, (Env.response_ok_iff henv).mp ⟨w, hw⟩⟩
    refine ⟨(hraw []).mp ?_, fun bytes resp hr => ?_⟩
    · obtain ⟨resp, hr, -⟩ := hsent []
      exact ⟨resp, hr⟩
    · obtain ⟨resp', hr', hm⟩ := hsent bytes
      rw [hr, Except.ok.injEq] at hr'
      exact hr' ▸ hm
  · rintro ⟨htest, hsend⟩ bytes
    obtain ⟨resp, hr⟩ := (hraw bytes).mpr htest
    rw [hr]
    exact (Env.response_ok_iff henv).mpr (hsend bytes resp hr)

/-- The request is answered once, by `a`: when the body read that the reaction starts gives these
bytes, if it starts one, the response of `a` is written and nothing else, and the endpoint that
runs is the one that answers. When the body read fails, nothing is written. -/
def Answer.GivenOnce (env : Env) (a : Answer) (result : Except Exn Reaction) : Prop :=
  ∃ re, result = .ok re ∧
    (∀ bytes, ∃ es w, re.run (some bytes) = .ok es ∧ a.response env bytes = .ok w ∧
      writes es = [w] ∧ Server.handled es = a.handled) ∧
    (re.body.isSome = true →
      ∃ es, re.run none = .ok es ∧ writes es = [] ∧ Server.handled es = a.handled) ∧
    (∀ outcome es, re.run outcome = .ok es → (writes es).length ≤ 1)

/-- A failed body read leaves the effects up to the return. -/
theorem Reaction.run_none (re : Reaction) : re.run none = raise re.effects := by
  unfold Reaction.run
  split
  · rename_i h
    cases h
  · rfl

/-- The reaction of an answer that has a response gives it once. -/
theorem Answer.reaction_givenOnce {a : Answer} (h : ∀ bytes, ∃ w, a.response env bytes = .ok w) :
    a.GivenOnce env (.ok (a.reaction env)) := by
  have hread : ∀ bytes, ∃ es w, (a.reaction env).run (some bytes) = .ok es ∧
      a.response env bytes = .ok w ∧ writes es = [w] ∧ Server.handled es = a.handled := by
    intro bytes
    rcases a.reaction_run bytes with hr | ⟨e, -, he⟩
    · exact hr
    · obtain ⟨w, hw⟩ := h bytes
      rw [hw] at he
      cases he
  have hfail := (a.reaction env).run_none
  -- what a reaction does before it reads the body
  have hbefore : (a.reaction env).body.isSome = true →
      (a.reaction env).run none = .ok (a.reaction env).effects ∧
        writes (a.reaction env).effects = [] ∧
        Server.handled (a.reaction env).effects = a.handled := by
    intro hb
    obtain ⟨ep, hes, hh⟩ := Answer.reaction_body hb
    rw [hfail, hes, hh]
    exact ⟨rfl, rfl, rfl⟩
  refine ⟨_, rfl, hread, fun hb => ⟨_, hbefore hb⟩, fun outcome es he => ?_⟩
  cases outcome with
  | some bytes =>
    obtain ⟨es', w, he', -, hw, -⟩ := hread bytes
    cases he.symm.trans he'
    rw [hw]
    exact Nat.le_refl 1
  | none =>
    cases hb : (a.reaction env).body with
    | some b =>
      obtain ⟨hrun, hw, -⟩ := hbefore (by rw [hb]; rfl)
      cases hrun.symm.trans he
      rw [hw]
      exact Nat.zero_le 1
    | none =>
      -- without a body read the effects are those of any outcome
      obtain ⟨es', w, he', -, hw, -⟩ := hread []
      unfold Reaction.run at he'
      rw [hb] at he'
      cases (hfail.symm.trans he).symm.trans he'
      rw [hw]
      exact Nat.le_refl 1

/-- **When a plain request is answered exactly once**: unless a file location answers and its test
of the file throws, or the response that is supplied has a body that its status does not allow. The
first policy along the path that answers, else the first matching endpoint of the last router, else
the 400 of that router, supplies the one response that is written. -/
theorem handleRequest_answers_once_iff (henv : env.PreparesPayload) {r : Router}
    (hps : ∀ r' ∈ r.tree, ∀ p ∈ r'.policies, p.Valid env) (head : RequestHeader) :
    (r.answer env head).GivenOnce env (r.handleRequest env false head) ↔
      (r.answer env head).TestReturns env ∧ (r.answer env head).MayBeSent env := by
  rw [Router.handleRequest_http hps head, ← Answer.response_ok_iff henv]
  constructor
  · rintro ⟨re, -, hread, -⟩ bytes
    obtain ⟨es, w, -, hw, -⟩ := hread bytes
    exact ⟨w, hw⟩
  · exact Answer.reaction_givenOnce

/-- Files from `/srv/www`. -/
def fileSite : Router where
  logger := true
  subRouters := []
  endpointsHttp := [.files {
    resourceBase := lit "/"
    basePath := lit "/srv/www"
    cacheControl := []
    writer := 1 }]
  endpointsWebsocket := []
  policies := []
  serverStr := lit "malloy"

/-- A site whose `/admin` is denied, with files under `/files`. -/
def guardedSite : Router where
  logger := true
  subRouters := [(lit "/files", fileSite)]
  endpointsHttp := [.redirect {
    status := 301
    resourceOld := lit "/"
    resourceNew := lit "/files" }]
  endpointsWebsocket := []
  policies := [{
    rawReg := lit "/admin"
    validator := fun _ => some { status := 401 }
    writer := 0 }]
  serverStr := lit "malloy"

theorem handleRequest_answers_once_guardedSite :
    (guardedSite.answer Env.bare { method := .get, target := lit "/files/a.css?v=1" }).GivenOnce
      Env.bare (guardedSite.handleRequest Env.bare false
        { method := .get, target := lit "/files/a.css?v=1" }) := by
  refine (handleRequest_answers_once_iff Env.bare_preparesPayload (fun _ _ _ _ => rfl) _).mpr
    ⟨.inr ⟨false, rfl⟩, fun bytes resp hr => ?_⟩
  cases hr
  exact fun h => absurd h (by decide)

/-- A file system without files, whose names have at most 255 bytes. -/
def shortNames : Fs where
  isRegularFile name :=
    if ∃ part ∈ Lib.Path.components (byte '/') name, 255 < part.length then .error .filesystemError
    else .ok false
  openError _ := none

/-- A file name of 256 bytes is not answered: the test of the file throws. -/
theorem long_name_is_not_answered :
    ¬ ∀ (env : Env) (r : Router) (head : RequestHeader), env.PreparesPayload →
      (∀ r' ∈ r.tree, ∀ p ∈ r'.policies, p.Valid env) →
      (r.answer env head).GivenOnce env (r.handleRequest env false head) := by
  intro h
  have hg := h { Env.bare with fs := shortNames } fileSite
    { method := .get, target := byte '/' :: List.replicate 256 (byte 'a') }
    (Env.bare_preparesPayload.with_fs shortNames) (fun _ _ _ _ => rfl)
  obtain ⟨re, hr, hread, -⟩ := hg
  obtain ⟨es, w, he, -⟩ := hread []
  have herr : ((fileSite.handleRequest { Env.bare with fs := shortNames } false
      { method := .get, target := byte '/' :: List.replicate 256 (byte 'a') }).bind
        (fun re => re.run (some []))).toBool = false := by decide +kernel
  rw [hr] at herr
  change (re.run (some [])).toBool = false at herr
  rw [he] at herr
  cases herr

/-- A policy that answers 304 with a body is not answered either: `prepare_payload` throws. -/
example :
    let policy : PolicyStore :=
      { rawReg := lit "/", writer := 0
        validator := fun _ => some { status := 304, body := .string (lit "x") } }
    ({ fileSite with policies := [policy] }.handleRequest Env.bare false
      { method := .get, target := lit "/" }).bind (fun re => re.run (some [])) =
        .error .invalidArgument := rfl

end

/-! ## Upgrade requests -/

/-- **An upgrade request is handled by the last router of its path**, and by nothing before. -/
theorem handleRequest_websocket (env : Env) (r : Router) (head : RequestHeader) :
    r.handleRequest env true head =
      handleWsRequest (r.lastVisit head).1.logger (r.lastVisit head).1.endpointsWebsocket
        (r.lastVisit head).2 := by
  have hvs : ∀ (vs : List (Router × RequestHeader)) (hne : vs ≠ []), dispatch env true vs =
      handleWsRequest (vs.getLast hne).1.logger (vs.getLast hne).1.endpointsWebsocket
        (vs.getLast hne).2 := by
    intro vs hne
    induction vs with
    | nil => exact absurd rfl hne
    | cons v vs ih =>
      obtain ⟨r, head⟩ := v
      unfold dispatch
      cases vs with
      | nil => rfl
      | cons w ws => simpa [Router.askPolicies] using ih (List.cons_ne_nil _ _)
  rw [Router.handleRequest_eq]
  exact hvs _ (r.visits_ne_nil head)

end Server
end Malloy
