import Malloy.Server.Routing.Dispatch

/-!
# Nested routers

`handle_request` chops the base of a sub-router off the target and goes on in the sub-router, until
a policy answers or no base matches. `Router.descend` is this descent with the chops of the source,
and `Stop` is where it ends: `handleRequest_eq_descend` is the request handled there.

* `descend_spec`: the descent chops nothing but the bases that it went through.
* `handleRequest_conserves_target`: what that means for the target.
-/

namespace Malloy
namespace Server

open Http

/-! ## The descent -/

/-- Where a descent ends: the bases that it went through, the router that it ends in, and the header
that this router sees. -/
structure Stop where
  path : List Str
  router : Router
  head : RequestHeader

/-- The descent from the router above, through the sub-router under `base`. -/
def Stop.under (base : Str) (s : Stop) : Stop := { s with path := base :: s.path }

mutual

/-- `handle_request<isWebsocket>` up to the router that handles the request, or whose policies
answer or throw. -/
def Router.descend (env : Env) (isWebsocket : Bool) : Router → RequestHeader → Except Exn Stop
  | .mk logger subRouters endpointsHttp endpointsWebsocket policies serverStr, head =>
    let r : Router :=
      .mk logger subRouters endpointsHttp endpointsWebsocket policies serverStr
    match r.askPolicies env isWebsocket head with
    | .ok none =>
      match descendSub env isWebsocket subRouters head with
      | some stop => stop
      | none => .ok { path := [], router := r, head := head }
    | _ => .ok { path := [], router := r, head := head }

/-- The loop over the sub-routers; `none` if none of them matches. -/
def descendSub (env : Env) (isWebsocket : Bool) :
    List (Str × Router) → RequestHeader → Option (Except Exn Stop)
  | [], _ => none
  | (resourceBase, router) :: rest, head =>
    if !(resourceString head.target).startsWith resourceBase then
      descendSub env isWebsocket rest head
    else
      match chopResource head resourceBase with
      | .error e => some (.error e)
      | .ok head => some ((router.descend env isWebsocket head).map (Stop.under resourceBase))

end

/-- What the router does with which the descent ends. -/
def Stop.react (env : Env) (isWebsocket : Bool) (s : Stop) : Except Exn Reaction :=
  match s.router.askPolicies env isWebsocket s.head with
  | .error e => .error e
  | .ok (some effects) => .ok { effects := effects }
  | .ok none => s.router.handleHere env isWebsocket s.head

/-- The router under the bases `path`. -/
inductive Router.Under : Router → List Str → Router → Prop
  | here (r : Router) : Under r [] r
  | sub {r r' r'' : Router} {base : Str} {path : List Str} :
    (base, r') ∈ r.subRouters → Under r' path r'' → Under r (base :: path) r''

mutual

/-- The induction over the sub-routers. -/
theorem Router.induction_sub {P : Router → Prop}
    (h : ∀ r : Router, (∀ x ∈ r.subRouters, P x.2) → P r) : ∀ r, P r
  | .mk _ subs _ _ _ _ => h _ (Router.induction_subs h subs)

theorem Router.induction_subs {P : Router → Prop}
    (h : ∀ r : Router, (∀ x ∈ r.subRouters, P x.2) → P r) :
    ∀ subs : List (Str × Router), ∀ x ∈ subs, P x.2
  | [], _, hx => absurd hx List.not_mem_nil
  | (_, router) :: rest, x, hx => by
    rcases List.mem_cons.mp hx with rfl | hx
    · exact Router.induction_sub h router
    · exact Router.induction_subs h rest x hx

end

/-- The loop over the sub-routers stops at this entry of the map. -/
def matchesBase (head : RequestHeader) (x : Str × Router) : Bool :=
  (resourceString head.target).startsWith x.1

/-- The header with the bases chopped off. -/
def chopped (head : RequestHeader) (bases : Str) : RequestHeader :=
  { head with target := head.target.drop bases.length }

section

variable {env : Env} {ws : Bool}

/-- A loop over the sub-routers calls `f` with the first one that matches. -/
theorem loop_eq_find {α : Type} (loop : List (Str × Router) → Option (Except Exn α))
    (f : Str × Router → RequestHeader → Except Exn α) (head : RequestHeader)
    (hnil : loop [] = none)
    (hcons : ∀ x rest, loop (x :: rest) =
      if !(resourceString head.target).startsWith x.1 then loop rest
      else
        match chopResource head x.1 with
        | .error e => some (.error e)
        | .ok head => some (f x head))
    (subs : List (Str × Router)) :
    loop subs = (subs.find? (matchesBase head)).map fun x => f x (chopped head x.1) := by
  induction subs with
  | nil => exact hnil
  | cons x rest ih =>
    rw [hcons]
    by_cases hb : matchesBase head x = true
    · have hb' : (resourceString head.target).startsWith x.1 = true := hb
      rw [List.find?_cons_of_pos hb, hb', chopResource_of_startsWith hb']
      rfl
    · have hb' : (resourceString head.target).startsWith x.1 = false := eq_false_of_ne_true hb
      rw [List.find?_cons_of_neg hb, hb', ← ih]
      rfl

theorem descendSub_eq (subs : List (Str × Router)) (head : RequestHeader) :
    descendSub env ws subs head = (subs.find? (matchesBase head)).map fun x =>
      (x.2.descend env ws (chopped head x.1)).map (Stop.under x.1) := by
  apply loop_eq_find (fun subs => descendSub env ws subs head) fun x head =>
    (x.2.descend env ws head).map (Stop.under x.1)
  · rw [descendSub]
  · exact fun x rest => descendSub.eq_2 ..

theorem handleSubRouters_eq_find (subs : List (Str × Router)) (head : RequestHeader) :
    handleSubRouters env ws subs head = (subs.find? (matchesBase head)).map fun x =>
      x.2.handleRequest env ws (chopped head x.1) := by
  apply loop_eq_find (fun subs => handleSubRouters env ws subs head) fun x head =>
    x.2.handleRequest env ws head
  · rw [handleSubRouters]
  · exact fun x rest => handleSubRouters.eq_2 ..

/-- The policies let the request pass. -/
def Router.lets (env : Env) (isWebsocket : Bool) (r : Router) (head : RequestHeader) : Prop :=
  r.askPolicies env isWebsocket head = .ok none

theorem Router.descend_stops {r : Router} {head : RequestHeader} (h : ¬ r.lets env ws head) :
    r.descend env ws head = .ok { path := [], router := r, head := head } := by
  obtain ⟨logger, subs, eps, wss, policies, serverStr⟩ := r
  unfold Router.descend
  dsimp only
  split
  · rename_i ha
    exact absurd ha h
  · rfl

theorem Router.descend_lets {r : Router} {head : RequestHeader} (h : r.lets env ws head) :
    r.descend env ws head =
      match r.subRouters.find? (matchesBase head) with
      | some x => (x.2.descend env ws (chopped head x.1)).map (Stop.under x.1)
      | none => .ok { path := [], router := r, head := head } := by
  obtain ⟨logger, subs, eps, wss, policies, serverStr⟩ := r
  rw [Router.descend]
  dsimp only
  rw [show Router.askPolicies env ws _ head = .ok none from h, descendSub_eq]
  dsimp only
  cases subs.find? (matchesBase head) <;> rfl

/-- **The request is handled where the descent ends.** -/
theorem Router.handleRequest_eq_descend (r : Router) (head : RequestHeader) :
    r.handleRequest env ws head = (r.descend env ws head).bind (Stop.react env ws) := by
  induction r using Router.induction_sub generalizing head with
  | h r ih =>
    obtain ⟨logger, subs, eps, wss, policies, serverStr⟩ := r
    unfold Router.handleRequest
    rw [handleSubRouters_eq_find]
    generalize hr : Router.mk logger subs eps wss policies serverStr = r at ih
    have hsubs : r.subRouters = subs := by rw [← hr]
    dsimp only
    by_cases hl : r.lets env ws head
    · rw [Router.descend_lets hl, hsubs, show r.askPolicies env ws head = .ok none from hl]
      dsimp only
      cases hf : subs.find? (matchesBase head) with
      | none => simp [Except.bind, Stop.react, show r.askPolicies env ws head = .ok none from hl]
      | some x =>
        have hx : x ∈ r.subRouters := by
          rw [hsubs]
          exact List.mem_of_find?_eq_some hf
        dsimp only [Option.map_some]
        rw [ih x hx]
        cases x.2.descend env ws (chopped head x.1) <;> rfl
    · rw [Router.descend_stops hl]
      unfold Router.lets at hl
      cases ha : r.askPolicies env ws head with
      | error e => simp [Except.bind, Stop.react, ha]
      | ok answer =>
        cases answer with
        | some effects => simp [Except.bind, Stop.react, ha]
        | none => exact absurd ha hl

/-- A base that the resource string starts with is a part of it. -/
theorem resourceString_drop {t base : Str} (h : (resourceString t).startsWith base = true) :
    resourceString t = base ++ resourceString (t.drop base.length) := by
  have hp := Str.startsWith_iff.mp h
  obtain ⟨q, hq⟩ := hp.trans (resourceString_prefix_target t)
  have hbase : ∀ b ∈ base, (!endsResource b) = true := by
    intro b hb
    have hm : b ∈ t.takeWhile fun b => !endsResource b := hp.subset hb
    exact (List.mem_takeWhile_imp hm :)
  rw [← hq, List.drop_left]
  exact List.takeWhile_append_of_pos hbase

theorem chopped_chopped (head : RequestHeader) (b b' : Str) :
    chopped (chopped head b) b' = chopped head (b ++ b') := by
  simp [chopped, List.drop_drop]

/-- **The descent only chops the bases that it went through**, all of them from the resource
string, and every chop is in bounds. -/
theorem Router.descend_spec (r : Router) (head : RequestHeader) :
    ∃ s : Stop, r.descend env ws head = .ok s ∧ r.Under s.path s.router ∧
      s.path.flatten <+: resourceString head.target ∧ s.head = chopped head s.path.flatten := by
  induction r using Router.induction_sub generalizing head with
  | h r ih =>
    by_cases hl : r.lets env ws head
    · rw [Router.descend_lets hl]
      cases hf : r.subRouters.find? (matchesBase head) with
      | none => exact ⟨_, rfl, .here r, List.nil_prefix, rfl⟩
      | some x =>
        obtain ⟨base, router⟩ := x
        have hm := List.mem_of_find?_eq_some hf
        have hb : matchesBase head (base, router) = true := List.find?_some hf
        obtain ⟨s, hs, hu, hp, hh⟩ := ih _ hm (chopped head base)
        dsimp only
        rw [hs]
        refine ⟨s.under base, rfl, .sub hm hu, ?_, ?_⟩
        · show (base :: s.path).flatten <+: _
          rw [resourceString_drop hb, List.flatten_cons]
          exact (List.prefix_append_right_inj base).mpr hp
        · show s.head = chopped head (base :: s.path).flatten
          rw [hh, chopped_chopped, List.flatten_cons]
    · exact ⟨_, Router.descend_stops hl, .here r, List.nil_prefix, rfl⟩

theorem isHandledByPolicies_error {ps : List PolicyStore} {head : RequestHeader} {e : Exn}
    (h : isHandledByPolicies env head ps = .error e) : e = .regexError := by
  induction ps with
  | nil => cases h
  | cons p ps ih =>
    unfold isHandledByPolicies at h
    rcases process_cases env p head with ⟨-, hp⟩ | ⟨-, -, hp⟩ | ⟨resp, -, -, hp⟩
    · rw [hp] at h
      cases h
      rfl
    · rw [hp] at h
      exact ih h
    · rw [hp] at h
      cases h

theorem askPolicies_error {r : Router} {head : RequestHeader} {e : Exn}
    (h : r.askPolicies env ws head = .error e) : e = .regexError := by
  unfold Router.askPolicies at h
  split at h
  · cases h
  · exact isHandledByPolicies_error h

/-- A router throws because of a pattern, or because it has no logger. -/
theorem Stop.react_error {s : Stop} {e : Exn} (h : s.react env ws = .error e) :
    e = .regexError ∨ e = .nullDeref := by
  unfold Stop.react at h
  split at h
  · rename_i ha
    cases h
    exact .inl (askPolicies_error ha)
  · cases h
  · right
    unfold Router.handleHere handleWsRequest at h
    split at h
    · split at h
      · cases h
      · cases h
        rfl
    · cases h

end

/-- **Nested routing conserves the target.** The target is the bases of the sub-routers that the
request went through, followed by what the router that it ends in sees, and by nothing else; the
bases are part of the resource string, and no chop starts past the end of the target. -/
theorem handleRequest_conserves_target (env : Env) (ws : Bool) (r : Router)
    (head : RequestHeader) :
    ∃ s : Stop, r.descend env ws head = .ok s ∧ r.handleRequest env ws head = s.react env ws ∧
      r.Under s.path s.router ∧ s.head = { head with target := s.head.target } ∧
      (∀ target, head.target = s.path.flatten ++ target ↔ target = s.head.target) ∧
      s.path.flatten <+: resourceString head.target ∧
      r.handleRequest env ws head ≠ .error .outOfRange ∧
      ∀ ep, .files ep ∈ s.router.endpointsHttp → (EndpointHttp.files ep).doesMatch s.head = true →
        ∃ h, chopResource s.head ep.resourceBase = .ok h := by
  obtain ⟨s, hs, hu, hp, hh⟩ := @Router.descend_spec env ws r head
  have hreact : r.handleRequest env ws head = s.react env ws := by
    rw [Router.handleRequest_eq_descend, hs]
    rfl
  obtain ⟨q, hq⟩ := hp.trans (resourceString_prefix_target head.target)
  have htarget : s.head.target = q := by
    rw [hh, chopped, ← hq]
    exact List.drop_left
  refine ⟨s, hs, hreact, hu, ?_, fun target => ?_, hp, ?_, fun ep _ hm => ?_⟩
  · rw [hh]
    rfl
  · rw [htarget, ← hq]
    exact ⟨fun h => (List.append_cancel_left h).symm, fun h => by rw [h]⟩
  · rw [hreact]
    intro herr
    rcases Stop.react_error herr with h | h <;> cases h
  · exact ⟨_, chopResource_of_startsWith hm⟩

example :
    (guardedSite.descend Env.bare true { method := .get, target := lit "/files/a.css?v=1#x" }).map
      (fun s => (s.path, s.head.target)) = .ok ([lit "/files"], lit "/a.css?v=1#x") := by
  decide

end Server
end Malloy
