import Malloy.Core.Http.Session.Refinement
import Malloy.Core.Http.Session.Returning
import Malloy.Lib.Coupling

/-!
# Sessions are kept apart

A session is a record of the storage, and the calls of a session reach it through its handle.

* `SessionCall`: the calls of a session, without the handle. `Call.on n`: such a call, if it is made
  through the handle `n`.
* `session_alone`: what these calls return is what they return on the record alone, whatever else is
  called in between, and whether or not the session has ended.
* `Alike n`: the calls of two runs that differ at most in what is done to the session `n`, not in when
  it is accessed. `contents_private`: all other calls of the two runs return the same.
-/

namespace Malloy
namespace Http
namespace Sessions

open Lib Manager

/-! ## The calls of a session -/

inductive SessionCall where
  | set (key value : Str)
  | get (key : Str)
  | remove (key : Str)
  deriving DecidableEq

namespace SessionCall

def run (now : Int) (c : SessionCall) (r : Record) : Result × Record :=
  match c with
  | set key value => (r.set now key value).map .bool fun r => r
  | get key => (r.get now key).map .value fun r => r
  | remove key => (r.remove now key).map .bool fun r => r

/-- The call is one that updates the access time. -/
def touches : SessionCall → Bool
  | set key value => !key.isEmpty && !value.isEmpty
  | get key | remove key => !key.isEmpty

variable (c : SessionCall) (now : Int) (r : Record)

theorem run_id : (c.run now r).2.id = r.id := by
  cases c with
  | set key value => exact r.set_id now key value
  | get key => exact r.get_id now key
  | remove key => exact r.remove_id now key

/-- Only the access time of a record tells that it was accessed. -/
theorem run_accessTime :
    (c.run now r).2.accessTime = if c.touches then now else r.accessTime := by
  cases c with
  | set key value =>
    show (r.set now key value).2.accessTime = _
    by_cases h : key = [] ∨ value = []
    · rw [r.set_of_empty now h, if_neg]
      rcases h with rfl | rfl <;> simp [touches]
    · obtain ⟨hk, hv⟩ := not_or.mp h
      rw [r.set_eq now hk hv, if_pos]
      simp [touches, hk, hv]
  | get key =>
    show (r.get now key).2.accessTime = _
    by_cases hk : key = []
    · rw [hk, r.get_of_empty now]
      rfl
    · rw [r.get_eq now hk, if_pos]
      simp [touches, hk]
  | remove key =>
    show (r.remove now key).2.accessTime = _
    by_cases hk : key = []
    · rw [hk, r.remove_of_empty now]
      rfl
    · rw [r.remove_eq now hk, if_pos]
      simp [touches, hk]

end SessionCall

/-- The call of the session of this handle. -/
def Call.on (n : Nat) : Call → Option SessionCall
  | .sessionSet h key value => if h = n then some (.set key value) else none
  | .sessionGet h key => if h = n then some (.get key) else none
  | .sessionRemove h key => if h = n then some (.remove key) else none
  | _ => none

/-- A record, and what is called on it. -/
def recordMachine (r : Record) : Machine Record (Int × SessionCall) Result where
  init := r
  step r x := some ((x.2.run x.1 r).2, (x.2.run x.1 r).1)

/-- The call of the session of this handle, with the time. -/
def Act.on (n : Nat) (a : Act) : Option (Int × SessionCall) := (a.call.on n).map fun c => (a.now, c)

variable {s s' t : StorageMemory} {a b : Act} {res : Result} {n m : Nat} {r : Record}

theorem step_of_on {c : SessionCall} (h : a.call.on n = some c) :
    step s a = s.onRecord n (c.run a.now) := by
  obtain ⟨now, call⟩ := a
  cases call with
  | sessionSet h' key value =>
    simp only [Call.on] at h
    split at h
    · rename_i hn
      cases h
      subst hn
      rfl
    · cases h
  | sessionGet h' key =>
    simp only [Call.on] at h
    split at h
    · rename_i hn
      cases h
      subst hn
      rfl
    · cases h
  | sessionRemove h' key =>
    simp only [Call.on] at h
    split at h
    · rename_i hn
      cases h
      subst hn
      rfl
    · cases h
  | _ => cases h

/-- A call that is none of a session. -/
def Call.isManager : Call → Bool
  | .sessionSet _ _ _ | .sessionGet _ _ | .sessionRemove _ _ => false
  | _ => true

/-- A call is one of the manager, or one of a session through some handle. -/
theorem manager_or_on (c : Call) : c.isManager = true ∨ ∃ n x, c.on n = some x := by
  cases c with
  | sessionSet h key value => exact .inr ⟨h, .set key value, if_pos rfl⟩
  | sessionGet h key => exact .inr ⟨h, .get key, if_pos rfl⟩
  | sessionRemove h key => exact .inr ⟨h, .remove key, if_pos rfl⟩
  | _ => exact .inl rfl

/-! ## A session by itself -/

/-- A call of the manager leaves the records as they are, and may add one. -/
theorem records_of_manager (h : a.call.isManager = true) (hst : step s a = some (s', res)) :
    s.records <+: s'.records := by
  obtain ⟨now, call⟩ := a
  cases call with
  | sessionSet _ _ _ => cases h
  | sessionGet _ _ => cases h
  | sessionRemove _ _ => cases h
  | get hdr | getById id | isValid hdr | isValidId id =>
    cases hst
    exact List.prefix_rfl
  | start req resp draws =>
    simp only [step, Option.some.injEq, Prod.mk.injEq] at hst
    obtain ⟨rfl, -⟩ := hst
    cases hg : Manager.get s req.header with
    | some session =>
      rw [start_of_some hg]
    | none =>
      rw [start_of_none hg]
      exact List.prefix_append _ _
  | destroy req resp =>
    simp only [step, Option.some.injEq, Prod.mk.injEq] at hst
    obtain ⟨rfl, -⟩ := hst
    unfold Manager.destroy
    split <;> exact List.prefix_rfl
  | destroyExpired maxLifetime =>
    simp only [step, Option.some.injEq, Prod.mk.injEq] at hst
    obtain ⟨rfl, -⟩ := hst
    unfold Manager.destroyExpired
    split <;> exact List.prefix_rfl

theorem within_record : Within manager (recordMachine r) (Act.on n)
    fun s r => s.records[n]? = some r where
  selected s r s' a x res hr hx hst := by
    obtain ⟨c, hc, rfl⟩ := Option.map_eq_some_iff.mp hx
    have hst : s.onRecord n (c.run a.now) = some (s', res) := (step_of_on hc).symm.trans hst
    obtain ⟨r', hr', rfl, rfl⟩ := onRecord_eq_some hst
    obtain rfl : r = r' := Option.some.inj (hr.symm.trans hr')
    obtain ⟨hlt, -⟩ := List.getElem?_eq_some_iff.mp hr
    exact ⟨_, rfl, List.getElem?_set_self hlt⟩
  other s r s' a res hr hx hst := by
    have hnone : a.call.on n = none := Option.map_eq_none_iff.mp hx
    rcases manager_or_on a.call with hman | ⟨m, c, hc⟩
    · obtain ⟨hlt, -⟩ := List.getElem?_eq_some_iff.mp hr
      have hpre := records_of_manager hman hst
      rw [← hr]
      obtain ⟨l, hl⟩ := hpre
      rw [← hl, List.getElem?_append_left hlt]
    · have hst : s.onRecord m (c.run a.now) = some (s', res) := (step_of_on hc).symm.trans hst
      obtain ⟨r', -, rfl, -⟩ := onRecord_eq_some hst
      have hne : m ≠ n := by
        rintro rfl
        rw [hnone] at hc
        cases hc
      exact (List.getElem?_set_ne hne).trans hr

/-- **A session is affected by its own calls only.** From any state, in any list of calls, what the
calls through one handle return is what they return one after the other on the record of the session
alone: no call of the manager and no call on another session has a part in it, also after the session
has been destroyed or has expired. -/
theorem session_alone (hr : s.records[n]? = some r) (as : List Act) :
    selectedOuts (Act.on n) (as.zip (manager.outs s as)) =
      (recordMachine r).outs r ((as.take (manager.outs s as).length).filterMap (Act.on n)) :=
  within_record.outs_eq as hr

/-- The second visitor destroys its session and goes on to use it, while the first one sets the same
key. -/
theorem session_alone_destroyed :
    let s : StorageMemory := (start oneVisitor 1 anonymous {} fun _ => 1).1
    let r : Record := { id := generateId fun _ => 1, accessTime := 1 }
    let as : List Act :=
      [⟨2, .sessionSet 1 (lit "user") (lit "bob")⟩, ⟨3, .sessionSet 0 (lit "user") (lit "ada")⟩,
        ⟨4, .destroy returning {}⟩, ⟨5, .sessionGet 1 (lit "user")⟩]
    selectedOuts (Act.on 1) (as.zip (manager.outs s as)) =
      (recordMachine r).outs r ((as.take (manager.outs s as).length).filterMap (Act.on 1)) := by
  intro s r as
  have hnone : get oneVisitor anonymous.header = none := by decide +kernel
  have hr : s.records[1]? = some r := by
    show (start oneVisitor 1 anonymous {} fun _ => 1).1.records[1]? = _
    rw [start_of_none hnone]
    rfl
  exact session_alone hr as

/-! ## What is kept in a session -/

/-- The calls of two runs: the same, or two calls through the handle `n`, at the same time, that both
update its access time or both do not. -/
def Alike (n : Nat) (a b : Act) : Prop :=
  a = b ∨ a.now = b.now ∧ ∃ c d, a.call.on n = some c ∧ b.call.on n = some d ∧
    c.touches = d.touches

/-- The storages differ at most in what is kept in the session of this handle. -/
structure SameBut (n : Nat) (s t : StorageMemory) : Prop where
  sessions : t.sessions = s.sessions
  length : t.records.length = s.records.length
  records : ∀ m, Option.Rel
    (fun r r' => r'.id = r.id ∧ r'.accessTime = r.accessTime ∧ (m ≠ n → r' = r))
    s.records[m]? t.records[m]?

namespace SameBut

variable (h : SameBut n s t)
include h

theorem get_eq (hdr : RequestHeader) : Manager.get t hdr = Manager.get s hdr := by
  unfold Manager.get StorageMemory.get
  rw [h.sessions]

theorem olderThan_eq (now maxLifetime : Int) (rec : Nat) :
    t.olderThan now maxLifetime rec = s.olderThan now maxLifetime rec := by
  have hrel := h.records rec
  unfold StorageMemory.olderThan
  cases hs : s.records[rec]? with
  | none =>
    rw [hs] at hrel
    cases ht : t.records[rec]? with
    | none => rfl
    | some r' => rw [ht] at hrel; cases hrel
  | some r =>
    rw [hs] at hrel
    cases ht : t.records[rec]? with
    | none => rw [ht] at hrel; cases hrel
    | some r' =>
      rw [ht] at hrel
      cases hrel with
      | some hrel =>
        show r'.accessTimeOlderThan now maxLifetime = r.accessTimeOlderThan now maxLifetime
        unfold Record.accessTimeOlderThan
        rw [hrel.2.1]

/-- The entries change in the same way. -/
theorem withSessions (sessions : AList fun _ : Str => Nat) :
    SameBut n { s with sessions := sessions } { t with sessions := sessions } :=
  ⟨rfl, h.length, h.records⟩

theorem create (now : Int) (id : Str) : SameBut n (s.create now id).2 (t.create now id).2 where
  sessions := by
    show tryEmplace id t.records.length t.sessions = tryEmplace id s.records.length s.sessions
    rw [h.sessions, h.length]
  length := by
    show (t.records ++ [_]).length = (s.records ++ [_]).length
    rw [List.length_append, List.length_append, h.length]
  records m := by
    show Option.Rel _ (s.records ++ [_])[m]? (t.records ++ [_])[m]?
    rw [List.getElem?_append, List.getElem?_append, h.length]
    split
    · exact h.records m
    · cases m - s.records.length with
      | zero => exact .some ⟨rfl, rfl, fun _ => rfl⟩
      | succ k => exact .none

/-- A call of the manager returns the same. -/
theorem manager_step (hman : a.call.isManager = true) :
    Option.Rel (fun x y => SameBut n x.1 y.1 ∧ x.2 = y.2) (step s a) (step t a) := by
  obtain ⟨now, call⟩ := a
  cases call with
  | sessionSet _ _ _ => cases hman
  | sessionGet _ _ => cases hman
  | sessionRemove _ _ => cases hman
  | get hdr => exact .some ⟨h, congrArg Result.handle (h.get_eq hdr).symm⟩
  | getById id =>
    refine .some ⟨h, congrArg Result.handle ?_⟩
    unfold StorageMemory.get
    rw [h.sessions]
  | isValid hdr =>
    exact .some ⟨h, congrArg (fun o => Result.bool (Option.isSome o)) (h.get_eq hdr).symm⟩
  | isValidId id =>
    refine .some ⟨h, congrArg (fun o => Result.bool (Option.isSome o)) ?_⟩
    unfold StorageMemory.get
    rw [h.sessions]
  | start req resp draws =>
    simp only [step]
    have hget := h.get_eq req.header
    cases hg : Manager.get s req.header with
    | some session =>
      rw [start_of_some hg, start_of_some (hget.trans hg)]
      exact .some ⟨h, rfl⟩
    | none =>
      rw [start_of_none hg, start_of_none (hget.trans hg), h.length]
      exact .some ⟨h.create now _, rfl⟩
  | destroy req resp =>
    simp only [step, Manager.destroy]
    cases getId req.header with
    | none => exact .some ⟨h, rfl⟩
    | some id =>
      refine .some ⟨?_, rfl⟩
      have := h.withSessions (s.sessions.erase id)
      unfold StorageMemory.destroy
      rwa [h.sessions]
  | destroyExpired maxLifetime =>
    simp only [step, Manager.destroyExpired]
    split
    · exact .some ⟨h, rfl⟩
    · have hsessions : eraseIf (fun _ rec => t.olderThan now maxLifetime rec) t.sessions =
          eraseIf (fun _ rec => s.olderThan now maxLifetime rec) s.sessions := by
        rw [h.sessions]
        congr 1
        funext _ rec
        exact h.olderThan_eq now maxLifetime rec
      unfold StorageMemory.destroyExpired
      rw [hsessions, h.sessions]
      exact .some ⟨h.withSessions _, rfl⟩

/-- Two calls of one session: of another one than `n` they are the same call. -/
theorem onRecord {c d : SessionCall} (now : Int) (hne : m ≠ n → d = c)
    (htouches : d.touches = c.touches) :
    Option.Rel (fun x y => SameBut n x.1 y.1 ∧ (m ≠ n → x.2 = y.2)) (s.onRecord m (c.run now))
      (t.onRecord m (d.run now)) := by
  have hrel := h.records m
  unfold StorageMemory.onRecord
  cases hs : s.records[m]? with
  | none =>
    rw [hs] at hrel
    cases ht : t.records[m]? with
    | none => exact .none
    | some r' => rw [ht] at hrel; cases hrel
  | some r =>
    rw [hs] at hrel
    cases ht : t.records[m]? with
    | none => rw [ht] at hrel; cases hrel
    | some r' =>
      rw [ht] at hrel
      cases hrel with
      | some hrel =>
        obtain ⟨hid, haccess, hsame⟩ := hrel
        refine .some ⟨⟨h.sessions, ?_, fun k => ?_⟩, fun hm => ?_⟩
        · show (t.records.set m _).length = (s.records.set m _).length
          rw [List.length_set, List.length_set, h.length]
        · show Option.Rel _ (s.records.set m _)[k]? (t.records.set m _)[k]?
          rw [List.getElem?_set, List.getElem?_set, h.length]
          by_cases hk : m = k
          · subst hk
            rw [if_pos rfl, if_pos rfl]
            split
            · refine .some ⟨?_, ?_, fun hm => ?_⟩
              · rw [SessionCall.run_id, SessionCall.run_id, hid]
              · rw [SessionCall.run_accessTime, SessionCall.run_accessTime, haccess, htouches]
              · rw [hne hm, hsame hm]
            · exact .none
          · rw [if_neg hk, if_neg hk]
            exact h.records k
        · show (c.run now r).1 = (d.run now r').1
          rw [hne hm, hsame hm]

end SameBut

theorem couples_alike : Couples manager manager (Alike n)
    (fun x y => x.1.call.on n = none → x = y) (SameBut n) where
  step s t a b h hab := by
    show Option.Rel _ (step s a) (step t b)
    rcases hab with rfl | ⟨hnow, c, d, hc, hd, htouches⟩
    · rcases manager_or_on a.call with hman | ⟨m, c, hc⟩
      · refine rel_mono ?_ (h.manager_step hman)
        rintro x y ⟨hxy, he⟩
        exact ⟨hxy, fun _ => by rw [he]⟩
      · rw [step_of_on hc, step_of_on hc]
        refine rel_mono ?_ (h.onRecord a.now (fun _ => rfl) rfl)
        rintro x y ⟨hxy, he⟩
        refine ⟨hxy, fun hnone => ?_⟩
        have hne : m ≠ n := by
          rintro rfl
          have hnone : a.call.on m = none := hnone
          rw [hc] at hnone
          cases hnone
        rw [he hne]
    · rw [step_of_on hc, step_of_on hd, hnow]
      refine rel_mono ?_ (h.onRecord b.now (fun hne => absurd rfl hne) htouches.symm)
      rintro x y ⟨hxy, -⟩
      refine ⟨hxy, fun hnone => ?_⟩
      have hnone : a.call.on n = none := hnone
      rw [hc] at hnone
      cases hnone

/-- No entry leads to the session again: new entries lead to new records. -/
theorem Effect.ended (h : Effect s a s') (hlt : n < s.records.length) (he : s.Ended n) :
    n < s'.records.length ∧ s'.Ended n := by
  cases h with
  | same => exact ⟨hlt, he⟩
  | create req resp draws _ _ =>
    have hlen : (s.create a.now (generateId draws)).2.records.length = s.records.length + 1 :=
      List.length_append
    refine ⟨by omega, fun id hg => ?_⟩
    by_cases hn : s.get (generateId draws) = none
    · rw [StorageMemory.get_create_of_new hn] at hg
      split at hg
      · have := Option.some.inj hg
        omega
      · exact he id hg
    · rw [StorageMemory.get_create_of_stored hn] at hg
      exact he id hg
  | destroy req resp id' _ _ =>
    refine ⟨hlt, fun id hg => ?_⟩
    rw [StorageMemory.get_destroy] at hg
    split at hg
    · cases hg
    · exact he id hg
  | expire maxLifetime _ _ =>
    refine ⟨hlt, fun id hg => ?_⟩
    rw [StorageMemory.get_destroyExpired] at hg
    exact he id (Option.filter_eq_some_iff.mp hg).1
  | record handle r r' _ _ _ =>
    refine ⟨?_, he⟩
    show n < (s.records.set handle r').length
    rwa [List.length_set]

theorem ended_of_onward (hlt : n < s.records.length) (he : s.Ended n)
    (h : (manager.sys.onward s).Reach Sys.free t) : n < t.records.length ∧ t.Ended n := by
  induction h with
  | init hi =>
    cases hi
    exact ⟨hlt, he⟩
  | step a _ _ hst ih => exact (effect_of_step hst).ended ih.1 ih.2

theorem get_ne_of_ended (he : t.Ended n) (hdr : RequestHeader) : Manager.get t hdr ≠ some n := by
  unfold Manager.get
  cases getId hdr with
  | none => simp
  | some id => exact he id

/-- A start that finds no session makes a record of its own. -/
theorem start_ne_of_ended (hlt : n < t.records.length) (he : t.Ended n) (now : Int) (req : Request)
    (resp : Response) (draws : Fin 32 → Fin 26) : (start t now req resp draws).2.1 ≠ n := by
  cases hget : Manager.get t req.header with
  | none =>
    rw [start_of_none hget]
    exact Nat.ne_of_gt hlt
  | some session =>
    rw [start_of_some hget]
    rintro rfl
    exact get_ne_of_ended he req.header hget

/-- An id is not stored again unless it is generated again. -/
theorem get_eq_none_of_onward {id : Str} (hg : s.get id = none)
    (h : (manager.sys.onward s).Reach (fun s a => generated s a ≠ some id) t) :
    t.get id = none := by
  induction h with
  | init hi =>
    cases hi
    exact hg
  | step a _ ha hst ih =>
    by_contra hne
    obtain ⟨rec, hrec⟩ := Option.ne_none_iff_exists'.mp hne
    rcases (effect_of_step hst).get_or_generated hrec with h | h
    · rw [ih] at h
      cases h
    · exact ha h

/-- The call that ends a session takes away the only entry that leads to it. -/
theorem ended_of_ends {id : Str} (hs : s.WellFormed) (hg : s.get id = some n) (ha : Ends id s a)
    (hst : step s a = some (s', res)) :
    s'.get id = none ∧ n < s'.records.length ∧ s'.Ended n := by
  obtain ⟨r, hr, hid⟩ := Option.map_eq_some_iff.mp (hs id n hg)
  obtain ⟨hlt, -⟩ := List.getElem?_eq_some_iff.mp hr
  -- an entry for the session is that of its id
  have honly : ∀ id', s.get id' = some n → id' = id := by
    intro id' hg'
    have hr' := hs id' n hg'
    rw [hr, Option.map_some, hid] at hr'
    exact (Option.some.inj hr').symm
  have hgone : s'.records = s.records ∧ s'.get id = none ∧
      ∀ id', s'.get id' = some n → s.get id' = some n := by
    obtain ⟨now, call⟩ := a
    rcases ha with ⟨req, resp, rfl, hreq⟩ | ⟨maxLifetime, rec, rfl, hpos, hrec, hold⟩
    · simp only [step, Manager.destroy, hreq, Option.some.injEq, Prod.mk.injEq] at hst
      obtain ⟨rfl, -⟩ := hst
      refine ⟨rfl, by rw [StorageMemory.get_destroy, if_pos rfl], fun id' hg' => ?_⟩
      rw [StorageMemory.get_destroy] at hg'
      split at hg'
      · cases hg'
      · exact hg'
    · simp only [step, Manager.destroyExpired, not_le.mpr hpos, if_false, Option.some.injEq,
        Prod.mk.injEq] at hst
      obtain ⟨rfl, -⟩ := hst
      refine ⟨rfl, ?_, fun id' hg' => ?_⟩
      · rw [StorageMemory.get_destroyExpired, hrec, Option.filter_some]
        simp [hold]
      · rw [StorageMemory.get_destroyExpired] at hg'
        exact (Option.filter_eq_some_iff.mp hg').1
  obtain ⟨hrecords, hnone, hback⟩ := hgone
  refine ⟨hnone, hrecords ▸ hlt, fun id' hg' => ?_⟩
  rw [honly id' (hback id' hg'), hnone] at hg'
  cases hg'

/-- **A session that has ended stays ended.** After the call that destroys it, or finds that it has
expired, no run of calls makes either `get` or `start` return its handle. As long as `generate_id`
does not repeat its id, a request that still carries the id is not valid, and a start for it creates
a new session, with the cookie of the id that was generated. -/
theorem ended_for_good (hs : manager.sys.Reach Sys.free s) {id : Str} (hg : s.get id = some n)
    (ha : Ends id s a) (hst : step s a = some (s', res)) :
    (∀ t, (manager.sys.onward s').Reach Sys.free t →
      (∀ id, t.get id ≠ some n) ∧ (∀ hdr, Manager.get t hdr ≠ some n) ∧
        ∀ now req resp draws, (start t now req resp draws).2.1 ≠ n) ∧
    ∀ t, (manager.sys.onward s').Reach (fun s a => generated s a ≠ some id) t →
      ∀ hdr, getId hdr = some id → isValid t hdr = false ∧
        ∀ now req resp draws, req.header = hdr → start t now req resp draws =
          ((t.create now (generateId draws)).2, t.records.length,
            resp.addCookie (sessionCookie (generateId draws))) := by
  obtain ⟨hnone, hlt, hended⟩ := ended_of_ends (wellFormed_of_reach hs) hg ha hst
  constructor
  · intro t ht
    obtain ⟨hlen, hend⟩ := ended_of_onward hlt hended ht
    exact ⟨hend, get_ne_of_ended hend, start_ne_of_ended hlen hend⟩
  · intro t ht hdr hhdr
    have hget : Manager.get t hdr = none := by
      rw [get_of_getId hhdr]
      exact get_eq_none_of_onward hnone ht
    refine ⟨by rw [isValid, hget]; rfl, fun now req resp draws hreq => ?_⟩
    exact start_of_none (hreq ▸ hget)

/-- The only visitor destroys its session, and comes back with its cookie. -/
theorem ended_for_good_oneVisitor :
    let hdr : RequestHeader :=
      { method := .get, target := lit "/"
        fields := [(lit "Cookie", lit "sessionId=aaaaaaaaaaaaaaaaaaaaaaaaaaaaaaaa")] }
    ∃ s' res, step oneVisitor ⟨5, .destroy ⟨hdr, []⟩ {}⟩ = some (s', res) ∧
      isValid s' hdr = false ∧
      ∀ now req resp draws, (start s' now req resp draws).2.1 ≠ 0 := by
  intro hdr
  have hid : getId hdr = some (generateId fun _ => 0) := by decide +kernel
  have hg : oneVisitor.get (generateId fun _ => 0) = some 0 := by decide +kernel
  have hends : Ends (generateId fun _ => 0) oneVisitor ⟨5, .destroy ⟨hdr, []⟩ {}⟩ :=
    .inl ⟨⟨hdr, []⟩, {}, rfl, hid⟩
  obtain ⟨hgone, hinvalid⟩ := ended_for_good reach_oneVisitor hg hends rfl
  exact ⟨_, _, rfl, (hinvalid _ (.init rfl) hdr hid).1, (hgone _ (.init rfl)).2.2⟩

end Sessions
end Http
end Malloy
