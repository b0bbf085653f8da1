import Malloy.Server.Routing.Nesting
import Mathlib.Data.List.Forall2
import Mathlib.Data.List.Nodup

/-!
# The order of the sub-routers

The sub-routers of a router are in an unordered map, and `handle_request` goes on in the first one
whose base matches.

* `Router.Reordered` relates two routers that differ in the iteration orders of their maps, at any
  depth.
* `Router.ends` is where a request can end, whatever the orders are: `descend_mem_ends`, and
  `exists_reordered_descend` for the other direction.
* `sameOutcome_iff`: when the orders make no difference.
-/

namespace Malloy
namespace Server

open Http

/-! ## Orders -/

mutual

/-- The other router has the same members, with the entries of `m_sub_routers` in another order, and
so in the sub-routers. -/
def Router.Reordered : Router → Router → Prop
  | .mk logger subRouters endpointsHttp endpointsWebsocket policies serverStr, r' =>
    (r'.logger = logger ∧ r'.endpointsHttp = endpointsHttp ∧
      r'.endpointsWebsocket = endpointsWebsocket ∧ r'.policies = policies ∧
      r'.serverStr = serverStr) ∧
    ∃ subRouters', ReorderedSubs subRouters subRouters' ∧ subRouters'.Perm r'.subRouters

/-- The entries one by one, each reordered inside. -/
def ReorderedSubs : List (Str × Router) → List (Str × Router) → Prop
  | [], subs' => subs' = []
  | (base, router) :: rest, subs' =>
    ∃ router' rest', subs' = (base, router') :: rest' ∧ router.Reordered router' ∧
      ReorderedSubs rest rest'

end

mutual

/-- The bases of a map are distinct, and so in the sub-routers. -/
def Router.DistinctBases : Router → Prop
  | .mk _ subRouters _ _ _ _ => (subRouters.map (·.1)).Nodup ∧ DistinctBasesSubs subRouters

def DistinctBasesSubs : List (Str × Router) → Prop
  | [] => True
  | (_, router) :: rest => router.DistinctBases ∧ DistinctBasesSubs rest

end

mutual

/-- Where a request can end, whatever the orders are. -/
def Router.ends (env : Env) (isWebsocket : Bool) : Router → RequestHeader → List Stop
  | .mk logger subRouters endpointsHttp endpointsWebsocket policies serverStr, head =>
    let r : Router :=
      .mk logger subRouters endpointsHttp endpointsWebsocket policies serverStr
    match r.askPolicies env isWebsocket head with
    | .ok none =>
      match endsSubs env isWebsocket subRouters head with
      | [] => [{ path := [], router := r, head := head }]
      | stop :: stops => stop :: stops
    | _ => [{ path := [], router := r, head := head }]

/-- The ends in all sub-routers whose base matches. -/
def endsSubs (env : Env) (isWebsocket : Bool) :
    List (Str × Router) → RequestHeader → List Stop
  | [], _ => []
  | (base, router) :: rest, head =>
    if matchesBase head (base, router) then
      (router.ends env isWebsocket (chopped head base)).map (Stop.under base) ++
        endsSubs env isWebsocket rest head
    else endsSubs env isWebsocket rest head

end

mutual

/-- At most one sub-router matches, in every router that the request may go through. -/
def Router.Unambiguous (env : Env) (isWebsocket : Bool) : Router → RequestHeader → Prop
  | .mk logger subRouters endpointsHttp endpointsWebsocket policies serverStr, head =>
    let r : Router :=
      .mk logger subRouters endpointsHttp endpointsWebsocket policies serverStr
    r.askPolicies env isWebsocket head = .ok none →
      subRouters.countP (matchesBase head) ≤ 1 ∧ UnambiguousSubs env isWebsocket subRouters head

def UnambiguousSubs (env : Env) (isWebsocket : Bool) :
    List (Str × Router) → RequestHeader → Prop
  | [], _ => True
  | (base, router) :: rest, head =>
    (matchesBase head (base, router) = true →
      router.Unambiguous env isWebsocket (chopped head base)) ∧
    UnambiguousSubs env isWebsocket rest head

end

section

variable {env : Env} {ws : Bool}

/-- The same router but for its sub-routers. -/
structure Router.Alike (r r' : Router) : Prop where
  logger : r'.logger = r.logger
  endpointsHttp : r'.endpointsHttp = r.endpointsHttp
  endpointsWebsocket : r'.endpointsWebsocket = r.endpointsWebsocket
  policies : r'.policies = r.policies
  serverStr : r'.serverStr = r.serverStr

theorem Router.Alike.refl (r : Router) : r.Alike r := ⟨rfl, rfl, rfl, rfl, rfl⟩

theorem Router.Alike.askPolicies {r r' : Router} (h : r.Alike r') (head : RequestHeader) :
    r'.askPolicies env ws head = r.askPolicies env ws head := by
  unfold Router.askPolicies
  rw [h.policies]

theorem Router.Alike.lets {r r' : Router} (h : r.Alike r') (head : RequestHeader) :
    r'.lets env ws head ↔ r.lets env ws head := by
  unfold Router.lets
  rw [h.askPolicies]

/-- What a router does with a request does not depend on its sub-routers. -/
theorem Stop.react_alike {s s' : Stop} (h : s.router.Alike s'.router) (hh : s.head = s'.head) :
    s'.react env ws = s.react env ws := by
  unfold Stop.react Router.handleHere
  rw [h.askPolicies, ← hh, h.logger, h.endpointsHttp, h.endpointsWebsocket, h.serverStr]

theorem reorderedSubs_iff {subs subs' : List (Str × Router)} :
    ReorderedSubs subs subs' ↔
      List.Forall₂ (fun x y => x.1 = y.1 ∧ x.2.Reordered y.2) subs subs' := by
  induction subs generalizing subs' with
  | nil =>
    unfold ReorderedSubs
    exact List.forall₂_nil_left_iff.symm
  | cons x rest ih =>
    obtain ⟨base, router⟩ := x
    unfold ReorderedSubs
    rw [List.forall₂_cons_left_iff]
    constructor
    · rintro ⟨router', rest', rfl, hr, hrest⟩
      exact ⟨(base, router'), rest', ⟨rfl, hr⟩, ih.mp hrest, rfl⟩
    · rintro ⟨⟨base', router'⟩, rest', ⟨hb, hr⟩, hrest, rfl⟩
      cases hb
      exact ⟨router', rest', rfl, hr, ih.mpr hrest⟩

theorem Router.reordered_iff {r r' : Router} :
    r.Reordered r' ↔ r.Alike r' ∧ ∃ subs',
      List.Forall₂ (fun x y => x.1 = y.1 ∧ x.2.Reordered y.2) r.subRouters subs' ∧
      subs'.Perm r'.subRouters := by
  obtain ⟨logger, subs, eps, wss, policies, serverStr⟩ := r
  rw [Router.Reordered]
  simp only [reorderedSubs_iff]
  constructor
  · rintro ⟨⟨hl, hh, hw, hp, hs⟩, hsubs⟩
    exact ⟨⟨hl, hh, hw, hp, hs⟩, hsubs⟩
  · rintro ⟨⟨hl, hh, hw, hp, hs⟩, hsubs⟩
    exact ⟨⟨hl, hh, hw, hp, hs⟩, hsubs⟩

theorem Router.Reordered.refl (r : Router) : r.Reordered r := by
  induction r using Router.induction_sub with
  | h r ih =>
    refine Router.reordered_iff.mpr ⟨.refl r, r.subRouters, ?_, List.Perm.refl _⟩
    exact List.forall₂_same.mpr fun x hx => ⟨rfl, ih x hx⟩

theorem mem_endsSubs {subs : List (Str × Router)} {head : RequestHeader} {s : Stop} :
    s ∈ endsSubs env ws subs head ↔ ∃ x ∈ subs, matchesBase head x = true ∧
      ∃ t ∈ x.2.ends env ws (chopped head x.1), t.under x.1 = s := by
  induction subs with
  | nil =>
    unfold endsSubs
    simp
  | cons x rest ih =>
    obtain ⟨base, router⟩ := x
    rw [endsSubs]
    by_cases hb : matchesBase head (base, router) = true
    · rw [if_pos hb, List.mem_append, ih, List.mem_map, List.exists_mem_cons_iff]
      simp only [hb, true_and]
    · rw [if_neg hb, ih, List.exists_mem_cons_iff]
      simp only [hb, Bool.false_eq_true, false_and, false_or]

theorem Router.ends_stops {r : Router} {head : RequestHeader} (h : ¬ r.lets env ws head) :
    r.ends env ws head = [{ path := [], router := r, head := head }] := by
  obtain ⟨logger, subs, eps, wss, policies, serverStr⟩ := r
  rw [Router.ends]
  split
  · rename_i ha
    exact absurd ha h
  · rfl

theorem Router.ends_lets {r : Router} {head : RequestHeader} (h : r.lets env ws head) :
    r.ends env ws head = match endsSubs env ws r.subRouters head with
      | [] => [{ path := [], router := r, head := head }]
      | stop :: stops => stop :: stops := by
  obtain ⟨logger, subs, eps, wss, policies, serverStr⟩ := r
  rw [Router.ends]
  rw [show Router.askPolicies env ws _ head = .ok none from h]

theorem Router.ends_ne_nil (r : Router) (head : RequestHeader) : r.ends env ws head ≠ [] := by
  by_cases hl : r.lets env ws head
  · rw [Router.ends_lets hl]
    split <;> exact List.cons_ne_nil _ _
  · rw [Router.ends_stops hl]
    exact List.cons_ne_nil _ _

theorem endsSubs_eq_nil_iff {subs : List (Str × Router)} {head : RequestHeader} :
    endsSubs env ws subs head = [] ↔ ∀ x ∈ subs, matchesBase head x = false := by
  constructor
  · intro h x hx
    by_contra hm
    obtain ⟨t, ts, ht⟩ :=
      List.exists_cons_of_ne_nil (@Router.ends_ne_nil env ws x.2 (chopped head x.1))
    have hmem : t.under x.1 ∈ endsSubs env ws subs head :=
      mem_endsSubs.mpr ⟨x, hx, by simpa using hm, t, by rw [ht]; exact List.mem_cons_self, rfl⟩
    rw [h] at hmem
    cases hmem
  · intro h
    refine List.eq_nil_iff_forall_not_mem.mpr fun s hs => ?_
    obtain ⟨x, hx, hm, -⟩ := mem_endsSubs.mp hs
    rw [h x hx] at hm
    cases hm

/-- The ends of a request that the policies let pass: in the sub-routers, or here if none of them
matches. -/
theorem Router.mem_ends_lets {r : Router} {head : RequestHeader} (h : r.lets env ws head)
    {s : Stop} : s ∈ r.ends env ws head ↔ s ∈ endsSubs env ws r.subRouters head ∨
      ((∀ x ∈ r.subRouters, matchesBase head x = false) ∧
        s = { path := [], router := r, head := head }) := by
  rw [Router.ends_lets h, ← @endsSubs_eq_nil_iff env ws]
  cases endsSubs env ws r.subRouters head <;> simp

/-- The descent ends where a request can end. -/
theorem Router.descend_mem_ends (r : Router) (head : RequestHeader) :
    ∃ s ∈ r.ends env ws head, r.descend env ws head = .ok s := by
  induction r using Router.induction_sub generalizing head with
  | h r ih =>
    by_cases hl : r.lets env ws head
    · rw [Router.descend_lets hl]
      cases hf : r.subRouters.find? (matchesBase head) with
      | none =>
        refine ⟨_, (Router.mem_ends_lets hl).mpr (.inr ⟨fun x hx => ?_, rfl⟩), rfl⟩
        simpa using List.find?_eq_none.mp hf x hx
      | some x =>
        have hx := List.mem_of_find?_eq_some hf
        obtain ⟨t, ht, hd⟩ := ih x hx (chopped head x.1)
        refine ⟨t.under x.1, (Router.mem_ends_lets hl).mpr (.inl ?_), ?_⟩
        · exact mem_endsSubs.mpr ⟨x, hx, List.find?_some hf, t, ht, rfl⟩
        · dsimp only
          rw [hd]
          rfl
    · refine ⟨_, ?_, Router.descend_stops hl⟩
      rw [Router.ends_stops hl]
      exact List.mem_cons_self

/-- The entries of the reordered map are those of the other one, reordered inside. -/
theorem Router.Reordered.exists_entry {r r' : Router} (h : r.Reordered r') {x' : Str × Router}
    (hx : x' ∈ r'.subRouters) : ∃ x ∈ r.subRouters, x.1 = x'.1 ∧ x.2.Reordered x'.2 := by
  obtain ⟨-, subs', hsubs, hperm⟩ := Router.reordered_iff.mp h
  obtain ⟨i, hi, rfl⟩ := List.getElem_of_mem (hperm.mem_iff.mpr hx)
  obtain ⟨hlen, hget⟩ := List.forall₂_iff_get.mp hsubs
  exact ⟨r.subRouters[i], List.getElem_mem _, hget i (by omega) hi⟩

theorem Router.Reordered.exists_entry' {r r' : Router} (h : r.Reordered r') {x : Str × Router}
    (hx : x ∈ r.subRouters) : ∃ x' ∈ r'.subRouters, x.1 = x'.1 ∧ x.2.Reordered x'.2 := by
  obtain ⟨-, subs', hsubs, hperm⟩ := Router.reordered_iff.mp h
  obtain ⟨i, hi, rfl⟩ := List.getElem_of_mem hx
  obtain ⟨hlen, hget⟩ := List.forall₂_iff_get.mp hsubs
  exact ⟨subs'[i], hperm.mem_iff.mp (List.getElem_mem _), hget i hi (by omega)⟩

/-- A request ends in the reordered router where it can end in the other one. -/
theorem Router.Reordered.ends {r r' : Router} (h : r.Reordered r') {head : RequestHeader}
    {s' : Stop} (hs : s' ∈ r'.ends env ws head) :
    ∃ s ∈ r.ends env ws head, s.path = s'.path ∧ s.head = s'.head ∧ s.router.Alike s'.router := by
  induction r using Router.induction_sub generalizing r' head s' with
  | h r ih =>
    have halike := (Router.reordered_iff.mp h).1
    by_cases hl : r.lets env ws head
    · have hl' := (halike.lets head).mpr hl
      rcases (Router.mem_ends_lets hl').mp hs with hs | ⟨hno, rfl⟩
      · obtain ⟨x', hx', hm, t', ht', rfl⟩ := mem_endsSubs.mp hs
        obtain ⟨x, hx, hb, hr⟩ := h.exists_entry hx'
        rw [← hb] at ht'
        obtain ⟨t, ht, hp, hh, ha⟩ := ih x hx hr ht'
        refine ⟨t.under x.1, (Router.mem_ends_lets hl).mpr (.inl ?_), ?_, hh, ha⟩
        · refine mem_endsSubs.mpr ⟨x, hx, ?_, t, ht, rfl⟩
          unfold matchesBase at hm ⊢
          rw [hb]
          exact hm
        · show x.1 :: t.path = x'.1 :: t'.path
          rw [hb, hp]
      · refine ⟨_, (Router.mem_ends_lets hl).mpr (.inr ⟨fun x hx => ?_, rfl⟩), rfl, rfl, halike⟩
        obtain ⟨x', hx', hb, -⟩ := h.exists_entry' hx
        have := hno x' hx'
        unfold matchesBase at this ⊢
        rw [hb]
        exact this
    · have hl' : ¬ r'.lets env ws head := fun hc => hl ((halike.lets head).mp hc)
      rw [Router.ends_stops hl', List.mem_singleton] at hs
      subst hs
      refine ⟨{ path := [], router := r, head := head }, ?_, rfl, rfl, halike⟩
      rw [Router.ends_stops hl]
      exact List.mem_singleton_self _

/-- Wherever a request can end, it does so in some order. -/
theorem Router.exists_reordered_descend {r : Router} {head : RequestHeader} {s : Stop}
    (hs : s ∈ r.ends env ws head) :
    ∃ r', r.Reordered r' ∧ ∃ s', r'.descend env ws head = .ok s' ∧ s'.path = s.path ∧
      s.head = s'.head ∧ s.router.Alike s'.router := by
  induction r using Router.induction_sub generalizing head s with
  | h r ih =>
    by_cases hl : r.lets env ws head
    · rcases (Router.mem_ends_lets hl).mp hs with hs | ⟨hno, rfl⟩
      · obtain ⟨x, hx, hm, t, ht, rfl⟩ := mem_endsSubs.mp hs
        obtain ⟨router', hr, t', hd, hp, hh, ha⟩ := ih x hx ht
        obtain ⟨l, l', hsubs⟩ := List.append_of_mem hx
        -- the entry comes first
        let r' : Router := { r with subRouters := (x.1, router') :: (l ++ l') }
        have halike : r.Alike r' := ⟨rfl, rfl, rfl, rfl, rfl⟩
        have hsame : ∀ l : List (Str × Router),
            List.Forall₂ (fun x y => x.1 = y.1 ∧ x.2.Reordered y.2) l l :=
          fun l => List.forall₂_same.mpr fun y _ => ⟨rfl, .refl y.2⟩
        have hre : r.Reordered r' := by
          refine Router.reordered_iff.mpr ⟨halike, l ++ (x.1, router') :: l', ?_, ?_⟩
          · rw [hsubs]
            exact List.rel_append (hsame l) (.cons ⟨rfl, hr⟩ (hsame l'))
          · exact List.perm_middle
        refine ⟨r', hre, t'.under x.1, ?_, ?_, hh, ha⟩
        · have hm' : matchesBase head (x.1, router') = true := hm
          have hf : r'.subRouters.find? (matchesBase head) = some (x.1, router') :=
            List.find?_cons_of_pos hm'
          rw [Router.descend_lets ((halike.lets head).mpr hl), hf]
          dsimp only
          rw [hd]
          rfl
        · show x.1 :: t'.path = x.1 :: t.path
          rw [hp]
      · refine ⟨r, .refl r, _, ?_, rfl, rfl, .refl r⟩
        rw [Router.descend_lets hl, List.find?_eq_none.mpr fun x hx => by rw [hno x hx]; decide]
    · rw [Router.ends_stops hl, List.mem_singleton] at hs
      subst hs
      exact ⟨r, .refl r, _, Router.descend_stops hl, rfl, rfl, .refl r⟩

/-! ## Ambiguous requests -/

theorem unambiguousSubs_iff {subs : List (Str × Router)} {head : RequestHeader} :
    UnambiguousSubs env ws subs head ↔ ∀ x ∈ subs, matchesBase head x = true →
      x.2.Unambiguous env ws (chopped head x.1) := by
  induction subs with
  | nil =>
    unfold UnambiguousSubs
    simp
  | cons x rest ih =>
    obtain ⟨base, router⟩ := x
    rw [UnambiguousSubs, ih, List.forall_mem_cons]

theorem Router.unambiguous_iff {r : Router} {head : RequestHeader} :
    r.Unambiguous env ws head ↔ (r.lets env ws head →
      r.subRouters.countP (matchesBase head) ≤ 1 ∧ ∀ x ∈ r.subRouters,
        matchesBase head x = true → x.2.Unambiguous env ws (chopped head x.1)) := by
  rw [← unambiguousSubs_iff]
  obtain ⟨logger, subs, eps, wss, policies, serverStr⟩ := r
  rw [Router.Unambiguous]
  exact Iff.rfl

theorem distinctBasesSubs_iff {subs : List (Str × Router)} :
    DistinctBasesSubs subs ↔ ∀ x ∈ subs, x.2.DistinctBases := by
  induction subs with
  | nil =>
    unfold DistinctBasesSubs
    simp
  | cons x rest ih =>
    obtain ⟨base, router⟩ := x
    rw [DistinctBasesSubs, ih, List.forall_mem_cons]

theorem Router.distinctBases_iff {r : Router} :
    r.DistinctBases ↔ (r.subRouters.map (·.1)).Nodup ∧ ∀ x ∈ r.subRouters, x.2.DistinctBases := by
  rw [← distinctBasesSubs_iff]
  obtain ⟨logger, subs, eps, wss, policies, serverStr⟩ := r
  rw [Router.DistinctBases]

/-- Two entries that match are one, if one matches at most. -/
theorem eq_of_countP_le_one {α : Type} {l : List α} {p : α → Bool} (h : l.countP p ≤ 1) {x y : α}
    (hx : x ∈ l) (hy : y ∈ l) (hpx : p x = true) (hpy : p y = true) : x = y := by
  have hlen : (l.filter p).length ≤ 1 := by
    rw [← List.countP_eq_length_filter]
    exact h
  have hx' : x ∈ l.filter p := List.mem_filter.mpr ⟨hx, hpx⟩
  have hy' : y ∈ l.filter p := List.mem_filter.mpr ⟨hy, hpy⟩
  match hl : l.filter p, hlen with
  | [], _ => rw [hl] at hx'; cases hx'
  | [z], _ =>
    rw [hl, List.mem_singleton] at hx' hy'
    rw [hx', hy']

/-- If more than one entry of a list without duplicates matches, another one than `y` does. -/
theorem exists_ne_of_one_lt_countP {α : Type} {l : List α} (hl : l.Nodup) {p : α → Bool}
    (h : 1 < l.countP p) (y : α) : ∃ x ∈ l, p x = true ∧ x ≠ y := by
  by_contra hno
  have hall : ∀ x ∈ l.filter p, x = y := by
    intro x hx
    obtain ⟨hm, hp⟩ := List.mem_filter.mp hx
    by_contra hne
    exact hno ⟨x, hm, hp, hne⟩
  rw [List.countP_eq_length_filter] at h
  have hnd := hl.filter p
  rw [List.eq_replicate_of_mem hall] at hnd h
  have := List.nodup_replicate.mp hnd
  rw [List.length_replicate] at h
  omega

/-- An unambiguous request can end in one place only. -/
theorem Router.Unambiguous.ends_eq {r : Router} {head : RequestHeader}
    (h : r.Unambiguous env ws head) {s s' : Stop} (hs : s ∈ r.ends env ws head)
    (hs' : s' ∈ r.ends env ws head) : s = s' := by
  induction r using Router.induction_sub generalizing head s s' with
  | h r ih =>
    by_cases hl : r.lets env ws head
    · obtain ⟨hcount, hsub⟩ := Router.unambiguous_iff.mp h hl
      rcases (Router.mem_ends_lets hl).mp hs with hs | ⟨hno, rfl⟩
      · obtain ⟨x, hx, hm, t, ht, rfl⟩ := mem_endsSubs.mp hs
        rcases (Router.mem_ends_lets hl).mp hs' with hs' | ⟨hno, -⟩
        · obtain ⟨x', hx', hm', t', ht', rfl⟩ := mem_endsSubs.mp hs'
          obtain rfl := eq_of_countP_le_one hcount hx hx' hm hm'
          rw [ih x hx (hsub x hx hm) ht ht']
        · rw [hno x hx] at hm
          cases hm
      · rcases (Router.mem_ends_lets hl).mp hs' with hs' | ⟨-, rfl⟩
        · obtain ⟨x', hx', hm', -⟩ := mem_endsSubs.mp hs'
          rw [hno x' hx'] at hm'
          cases hm'
        · rfl
    · rw [Router.ends_stops hl, List.mem_singleton] at hs hs'
      rw [hs, hs']

/-- An ambiguous request can end somewhere else, too. -/
theorem Router.exists_other_end {r : Router} (hd : r.DistinctBases) {head : RequestHeader}
    (h : ¬ r.Unambiguous env ws head) {s : Stop} (hs : s ∈ r.ends env ws head) :
    ∃ s' ∈ r.ends env ws head, s'.path ≠ s.path := by
  induction r using Router.induction_sub generalizing head s with
  | h r ih =>
    obtain ⟨hnodup, hsub⟩ := Router.distinctBases_iff.mp hd
    rw [Router.unambiguous_iff] at h
    obtain ⟨hl, hamb⟩ := Classical.not_imp.mp h
    have hends := fun s : Stop => (Router.mem_ends_lets hl (s := s)).mpr ∘ Or.inl
    -- an end in another sub-router
    have hother : ∀ (y x : Str × Router) (t : Stop), y ∈ r.subRouters → x ∈ r.subRouters →
        matchesBase head x = true → x ≠ y → ∃ s' ∈ r.ends env ws head, s'.path ≠ y.1 :: t.path := by
      intro y x t hy hx hm hne
      obtain ⟨t', ts, ht'⟩ :=
        List.exists_cons_of_ne_nil (@Router.ends_ne_nil env ws x.2 (chopped head x.1))
      refine ⟨t'.under x.1, hends _ (mem_endsSubs.mpr ⟨x, hx, hm, t', ?_, rfl⟩), fun hp => ?_⟩
      · rw [ht']
        exact List.mem_cons_self
      · exact hne (List.inj_on_of_nodup_map hnodup hx hy (List.cons.inj hp).1)
    have hmatch : ∃ x ∈ r.subRouters, matchesBase head x = true ∧
        (1 < r.subRouters.countP (matchesBase head) ∨
          ¬ x.2.Unambiguous env ws (chopped head x.1)) := by
      by_cases hcount : r.subRouters.countP (matchesBase head) ≤ 1
      · obtain ⟨x, hx⟩ := Classical.not_forall.mp fun hc => hamb ⟨hcount, hc⟩
        obtain ⟨hx, hx'⟩ := Classical.not_imp.mp hx
        obtain ⟨hm, hx'⟩ := Classical.not_imp.mp hx'
        exact ⟨x, hx, hm, .inr hx'⟩
      · have hpos : 0 < r.subRouters.countP (matchesBase head) := by omega
        obtain ⟨x, hx, hm⟩ := List.countP_pos_iff.mp hpos
        exact ⟨x, hx, hm, .inl (by omega)⟩
    obtain ⟨x, hx, hm, hwhy⟩ := hmatch
    rcases (Router.mem_ends_lets hl).mp hs with hs | ⟨hno, -⟩
    · obtain ⟨y, hy, hmy, t, ht, rfl⟩ := mem_endsSubs.mp hs
      by_cases hxy : x = y
      · subst hxy
        rcases hwhy with hcount | hambx
        · obtain ⟨z, hz, hmz, hne⟩ :=
            exists_ne_of_one_lt_countP (List.Nodup.of_map _ hnodup) hcount x
          exact hother x z t hx hz hmz hne
        · obtain ⟨t', ht', hp⟩ := ih x hx (hsub x hx) hambx ht
          refine ⟨t'.under x.1, hends _ (mem_endsSubs.mpr ⟨x, hx, hm, t', ht', rfl⟩), fun he => ?_⟩
          exact hp (List.cons.inj he).2
      · exact hother y x t hy hx hm hxy
    · rw [hno x hx] at hm
      cases hm

/-! ## Outcomes -/

/-- A policy answers, or an endpoint is called. -/
def Effect.serves : Effect → Bool
  | .denied _ | .handle _ | .websocket _ _ => true
  | .fs _ | .doWrite _ | .threw _ => false

/-- Nobody serves the request: it is an unknown request. -/
def IsUnknown (result : Except Exn Reaction) : Prop :=
  ∃ re, result = .ok re ∧ ∀ e ∈ re.effects, e.serves = false

/-- The router has no endpoint for the request. -/
def Router.NoEndpoint (isWebsocket : Bool) (r : Router) (head : RequestHeader) : Prop :=
  if isWebsocket then
    r.logger = true ∧ ∀ ep ∈ r.endpointsWebsocket,
      ep.resource = resourceString head.target → ep.handler = false
  else ∀ ep ∈ r.endpointsHttp, ep.doesMatch head = false

/-- The policies let the request pass, and there is no endpoint for it. -/
def Stop.Unanswered (env : Env) (isWebsocket : Bool) (s : Stop) : Prop :=
  s.router.lets env isWebsocket s.head ∧ s.router.NoEndpoint isWebsocket s.head

theorem serves_sendResponse (version : Nat) (resp : Response) (str : Str) :
    (env.sendResponse version resp str).serves = false := by
  rcases @Env.sendResponse_eq env version resp str with ⟨w, h⟩ | ⟨e, h⟩ <;> rw [h] <;> rfl

theorem handleHttpRequest_unknown {serverStr : Str} {head : RequestHeader}
    {eps : List EndpointHttp} :
    (∀ e ∈ (handleHttpRequest env serverStr head eps).effects, e.serves = false) ↔
      ∀ ep ∈ eps, ep.doesMatch head = false := by
  induction eps with
  | nil => simp [handleHttpRequest, serves_sendResponse]
  | cons ep eps ih =>
    unfold handleHttpRequest
    by_cases hm : ep.doesMatch head = true
    · rw [if_pos hm]
      refine ⟨fun h => absurd (h (.handle ep) ?_) Bool.noConfusion, fun h => ?_⟩
      · exact List.mem_cons_self
      · rw [h ep List.mem_cons_self] at hm
        cases hm
    · rw [if_neg hm, ih, List.forall_mem_cons]
      simp [hm]

theorem handleWsEndpoints_unknown {head : RequestHeader} {eps : List EndpointWebsocket} :
    (∀ e ∈ (handleWsEndpoints head eps).effects, e.serves = false) ↔
      ∀ ep ∈ eps, ep.resource = resourceString head.target → ep.handler = false := by
  induction eps with
  | nil => simp [handleWsEndpoints]
  | cons ep eps ih =>
    unfold handleWsEndpoints
    rw [List.forall_mem_cons, ← ih]
    by_cases hr : ep.resource = resourceString head.target
    · by_cases hh : ep.handler = true <;> simp [hr, hh, Effect.serves]
    · simp [hr]

/-- A request is unknown exactly if nobody answers it where it ends. -/
theorem Stop.isUnknown_react {s : Stop} : IsUnknown (s.react env ws) ↔ s.Unanswered env ws := by
  unfold IsUnknown Stop.react Stop.Unanswered Router.lets
  cases ha : s.router.askPolicies env ws s.head with
  | error e => simp
  | ok answer =>
    cases answer with
    | some effects =>
      -- the effects of a policy that answers begin with its denial
      have hden : ∃ resp, .denied resp ∈ effects := by
        unfold Router.askPolicies at ha
        split at ha
        · cases ha
        · rw [isHandledByPolicies_eq_firstDenial] at ha
          cases hd : firstDenial env (s.router.policies.map fun p => (p, s.head)) with
          | error e => rw [hd] at ha; cases ha
          | ok d =>
            rw [hd] at ha
            cases d with
            | none => cases ha
            | some a =>
              obtain ⟨p, head, resp, -, rfl⟩ := firstDenial_policy hd
              cases ha
              exact ⟨resp, List.mem_cons_self⟩
      obtain ⟨resp, hresp⟩ := hden
      constructor
      · rintro ⟨re, hre, hno⟩
        cases hre
        exact absurd (hno _ hresp) Bool.noConfusion
      · rintro ⟨h, -⟩
        cases h
    | none =>
      simp only [true_and]
      unfold Router.handleHere Router.NoEndpoint handleWsRequest
      cases ws with
      | true =>
        simp only [if_true]
        rw [← handleWsEndpoints_unknown]
        cases s.router.logger <;> simp
      | false =>
        rw [if_neg (by decide), if_neg (by decide),
          ← @handleHttpRequest_unknown env s.router.serverStr]
        simp

/-- The two routers do the same with the request: they call the same endpoint (or the same policy
answers), with the same chopped target, or the request is unknown to both. An endpoint is known by
the bases of its router. -/
def SameOutcome (env : Env) (isWebsocket : Bool) (r r' : Router) (head : RequestHeader) : Prop :=
  ∃ s s', r.descend env isWebsocket head = .ok s ∧ r'.descend env isWebsocket head = .ok s' ∧
    ((s.path = s'.path ∧ s.head = s'.head ∧
        r.handleRequest env isWebsocket head = r'.handleRequest env isWebsocket head) ∨
      (IsUnknown (r.handleRequest env isWebsocket head) ∧
        IsUnknown (r'.handleRequest env isWebsocket head)))

theorem Router.handleRequest_of_descend {r : Router} {head : RequestHeader} {s : Stop}
    (h : r.descend env ws head = .ok s) : r.handleRequest env ws head = s.react env ws := by
  rw [Router.handleRequest_eq_descend, h]
  rfl

/-- Where a reordered router handles the request, as an end of the other one. -/
theorem Router.Reordered.descend {r r' : Router} (h : r.Reordered r') (head : RequestHeader) :
    ∃ s ∈ r.ends env ws head, ∃ s', r'.descend env ws head = .ok s' ∧ s.path = s'.path ∧
      s.head = s'.head ∧ r'.handleRequest env ws head = s.react env ws := by
  obtain ⟨s', hs', hd⟩ := @Router.descend_mem_ends env ws r' head
  obtain ⟨s, hs, hp, hh, ha⟩ := h.ends hs'
  refine ⟨s, hs, s', hd, hp, hh, ?_⟩
  rw [Router.handleRequest_of_descend hd, Stop.react_alike ha hh]

/-- **When the order of the sub-routers makes no difference**: at most one base matches in every
router that the request goes through, or nobody answers it wherever it ends. -/
theorem sameOutcome_iff {r : Router} (hd : r.DistinctBases) (head : RequestHeader) :
    (∀ r₁ r₂, r.Reordered r₁ → r.Reordered r₂ → SameOutcome env ws r₁ r₂ head) ↔
      r.Unambiguous env ws head ∨ ∀ s ∈ r.ends env ws head, s.Unanswered env ws := by
  constructor
  · intro hsame
    by_contra hno
    obtain ⟨hamb, hans⟩ := not_or.mp hno
    obtain ⟨s, hs⟩ := Classical.not_forall.mp hans
    obtain ⟨hs, hserved⟩ := Classical.not_imp.mp hs
    -- one order serves the request, another one takes it somewhere else
    obtain ⟨s', hs', hne⟩ := Router.exists_other_end hd hamb hs
    obtain ⟨r₁, hr₁, s₁, hd₁, hp₁, hh₁, ha₁⟩ := Router.exists_reordered_descend hs
    obtain ⟨r₂, hr₂, s₂, hd₂, hp₂, -⟩ := Router.exists_reordered_descend hs'
    obtain ⟨t₁, t₂, ht₁, ht₂, hcase⟩ := hsame r₁ r₂ hr₁ hr₂
    rw [hd₁] at ht₁
    rw [hd₂] at ht₂
    cases ht₁
    cases ht₂
    rcases hcase with ⟨hp, -⟩ | ⟨hu, -⟩
    · rw [hp₁, hp₂] at hp
      exact hne hp.symm
    · rw [Router.handleRequest_of_descend hd₁, Stop.react_alike ha₁ hh₁,
        Stop.isUnknown_react] at hu
      exact hserved hu
  · intro hcond r₁ r₂ hr₁ hr₂
    obtain ⟨s₁, hs₁, t₁, ht₁, hp₁, hh₁, he₁⟩ := @Router.Reordered.descend env ws _ _ hr₁ head
    obtain ⟨s₂, hs₂, t₂, ht₂, hp₂, hh₂, he₂⟩ := @Router.Reordered.descend env ws _ _ hr₂ head
    refine ⟨t₁, t₂, ht₁, ht₂, ?_⟩
    rcases hcond with hun | hnone
    · obtain rfl := hun.ends_eq hs₁ hs₂
      exact .inl ⟨hp₁.symm.trans hp₂, hh₁.symm.trans hh₂, he₁.trans he₂.symm⟩
    · refine .inr ⟨?_, ?_⟩
      · rw [he₁]
        exact Stop.isUnknown_react.mpr (hnone s₁ hs₁)
      · rw [he₂]
        exact Stop.isUnknown_react.mpr (hnone s₂ hs₂)

/-- A site that redirects one resource. -/
def redirectSite (resourceOld : Str) : Router where
  logger := true
  subRouters := []
  endpointsHttp := [.redirect {
    status := 301
    resourceOld := resourceOld
    resourceNew := lit "/" }]
  endpointsWebsocket := []
  policies := []
  serverStr := lit "malloy"

/-- Two sub-routers, one of whose bases is a prefix of the other. -/
def prefixSite (subRouters : List (Str × Router)) : Router where
  logger := true
  subRouters := subRouters
  endpointsHttp := []
  endpointsWebsocket := []
  policies := []
  serverStr := lit "malloy"

def shortFirst : Router :=
  prefixSite [(lit "/a", redirectSite (lit "/x")), (lit "/ab", redirectSite (lit "/x"))]

def longFirst : Router :=
  prefixSite [(lit "/ab", redirectSite (lit "/x")), (lit "/a", redirectSite (lit "/x"))]

theorem shortFirst_reordered : shortFirst.Reordered longFirst := by
  refine Router.reordered_iff.mpr ⟨⟨rfl, rfl, rfl, rfl, rfl⟩, shortFirst.subRouters, ?_, ?_⟩
  · exact List.forall₂_same.mpr fun x _ => ⟨rfl, .refl x.2⟩
  · exact List.Perm.swap _ _ _

theorem shortFirst_sub {x : Str × Router} (hx : x ∈ shortFirst.subRouters) :
    x.2 = redirectSite (lit "/x") := by
  rcases List.mem_cons.mp hx with rfl | hx
  · rfl
  · rw [List.mem_singleton.mp hx]

theorem shortFirst_distinctBases : shortFirst.DistinctBases := by
  refine Router.distinctBases_iff.mpr ⟨by decide, fun x hx => ?_⟩
  rw [shortFirst_sub hx]
  exact Router.distinctBases_iff.mpr ⟨List.nodup_nil, fun _ h => absurd h List.not_mem_nil⟩

theorem sameOutcome_shortFirst :
    SameOutcome Env.bare false shortFirst longFirst { method := .get, target := lit "/a/x" } := by
  refine (sameOutcome_iff shortFirst_distinctBases _).mpr (.inl ?_) shortFirst longFirst
    (.refl _) shortFirst_reordered
  refine Router.unambiguous_iff.mpr fun _ => ⟨by decide, fun x hx _ => ?_⟩
  refine Router.unambiguous_iff.mpr fun _ => ?_
  rw [shortFirst_sub hx]
  exact ⟨Nat.zero_le _, fun _ h => absurd h List.not_mem_nil⟩

/-- `/ab/x` is redirected if `/ab` comes first, and unknown if `/a` does. -/
theorem prefix_bases_depend_on_order :
    ¬ ∀ (env : Env) (ws : Bool) (r r₁ r₂ : Router) (head : RequestHeader), r.DistinctBases →
      r.Reordered r₁ → r.Reordered r₂ → SameOutcome env ws r₁ r₂ head := by
  intro h
  obtain ⟨s, s', hs, hs', hcase⟩ := h Env.bare false shortFirst shortFirst longFirst
    { method := .get, target := lit "/ab/x" } shortFirst_distinctBases (.refl _)
    shortFirst_reordered
  cases hs
  cases hs'
  rcases hcase with ⟨hp, -⟩ | ⟨-, re, hre, hno⟩
  · exact absurd hp (by decide)
  · cases hre
    exact absurd (hno _ List.mem_cons_self) Bool.noConfusion

end

end Server
end Malloy
