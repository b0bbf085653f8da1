import Malloy.Core.Http.Session.Manager

/-!
# The life of a session, from its start to its end

* `wellFormed_of_reach`: in every reachable state each entry names a record of its own id.
* `Keeps id`: the calls that do not end the session of the id `id`; `get_of_keeps` is what their
  runs keep.
* `NewSession`: what a caller of `start` relies on, when it creates a session: its id was unused,
  the id leads to the returned session, and what is set there is read by later requests
  (`Visible`).
* `start_newSession_iff`: that is so unless `generate_id` repeats an id that is stored, in which
  case `try_emplace` keeps the older session: neither does the id lead to the new one, nor do
  requests read what is set there.
-/

namespace Malloy
namespace Http
namespace Sessions

open Lib Manager

/-- The call ends the session of this id: it is destroyed, or it has expired. -/
def Ends (id : Str) (s : StorageMemory) (a : Act) : Prop :=
  (∃ req resp, a.call = .destroy req resp ∧ getId req.header = some id) ∨
    ∃ maxLifetime rec, a.call = .destroyExpired maxLifetime ∧ 0 < maxLifetime ∧
      s.get id = some rec ∧ s.olderThan a.now maxLifetime rec = true

def Keeps (id : Str) (s : StorageMemory) (a : Act) : Prop := ¬ Ends id s a

section

variable {s s' t : StorageMemory} {a : Act} {id : Str} {rec : Nat}

/-! ## Entries -/

theorem Effect.wellFormed (h : Effect s a s') (hs : s.WellFormed) : s'.WellFormed := by
  intro id rec hg
  cases h with
  | same => exact hs id rec hg
  | create req resp draws _ _ =>
    have hold : ∀ rec, s.get id = some rec →
        (s.records ++ [{ id := generateId draws, accessTime := a.now }])[rec]?.map Record.id =
          some id := by
      intro rec hg
      have hr := hs id rec hg
      obtain ⟨r, hr', -⟩ := Option.map_eq_some_iff.mp hr
      rw [List.getElem?_append_left (List.getElem?_eq_some_iff.mp hr').1]
      exact hr
    by_cases hn : s.get (generateId draws) = none
    · rw [StorageMemory.get_create_of_new hn] at hg
      split at hg
      · rename_i hid
        cases hg
        show (s.records ++ [_])[s.records.length]?.map Record.id = _
        rw [List.getElem?_concat_length, hid]
        rfl
      · exact hold rec hg
    · rw [StorageMemory.get_create_of_stored hn] at hg
      exact hold rec hg
  | destroy req resp id' _ _ =>
    rw [StorageMemory.get_destroy] at hg
    split at hg
    · cases hg
    · exact hs id rec hg
  | expire maxLifetime _ _ =>
    rw [StorageMemory.get_destroyExpired] at hg
    exact hs id rec (Option.filter_eq_some_iff.mp hg).1
  | record handle r r' hr hid _ =>
    show (s.records.set handle r')[rec]?.map Record.id = some id
    by_cases hrec : handle = rec
    · subst hrec
      obtain ⟨hlt, -⟩ := List.getElem?_eq_some_iff.mp hr
      have hsr := hs id handle hg
      rw [hr] at hsr
      rw [List.getElem?_set_self hlt, Option.map_some, hid]
      exact hsr
    · rw [List.getElem?_set_ne hrec]
      exact hs id rec hg

/-- A step of the machine, with its effect. -/
theorem effect_of_step (h : manager.sys.step s a = some s') : Effect s a s' := by
  obtain ⟨⟨s'', res⟩, hst, rfl⟩ := Option.map_eq_some_iff.mp h
  exact step_effect hst

theorem wellFormed_of_reach (hs : manager.sys.Reach Sys.free s) : s.WellFormed := by
  induction hs with
  | init hi =>
    cases hi
    intro id rec h
    cases h
  | step a _ _ hst ih => exact (effect_of_step hst).wellFormed ih

/-- A call that does not end a session leaves its entry. -/
theorem Effect.get_of_keeps (h : Effect s a s') (hk : Keeps id s a) (hg : s.get id = some rec) :
    s'.get id = some rec := by
  cases h with
  | same => exact hg
  | create req resp draws _ _ =>
    by_cases hn : s.get (generateId draws) = none
    · rw [StorageMemory.get_create_of_new hn, if_neg, hg]
      rintro rfl
      rw [hn] at hg
      cases hg
    · rw [StorageMemory.get_create_of_stored hn, hg]
  | destroy req resp id' hc hid =>
    rw [StorageMemory.get_destroy, if_neg, hg]
    rintro rfl
    exact hk (.inl ⟨req, resp, hc, hid⟩)
  | expire maxLifetime hc hm =>
    rw [StorageMemory.get_destroyExpired, hg]
    apply Option.filter_some_pos
    rw [Bool.not_eq_true', Bool.eq_false_iff]
    exact fun hold => hk (.inr ⟨maxLifetime, rec, hc, hm, hg, hold⟩)
  | record handle r r' _ _ _ => exact hg

theorem get_of_keeps {ok : StorageMemory → Act → Prop} (hok : ∀ s a, ok s a → Keeps id s a)
    (hg : s.get id = some rec) (ht : (manager.sys.onward s).Reach ok t) : t.get id = some rec := by
  induction ht with
  | init hi => cases hi; exact hg
  | step a _ ho hst ih => exact (effect_of_step hst).get_of_keeps (hok _ _ ho) ih

/-! ## Values -/

/-- The value of a key in the record that a handle points to. -/
def StorageMemory.value (s : StorageMemory) (handle : Nat) (key : Str) : Option Str :=
  s.records[handle]?.bind fun r => r.data.lookup key

/-- Only the calls that write a value change it. -/
theorem Effect.value (h : Effect s a s') {handle : Nat} {key v : Str}
    (hw : ¬ a.call.Writes handle key) (hv : s.value handle key = some v) :
    s'.value handle key = some v := by
  obtain ⟨r₀, hr₀, hl⟩ := Option.bind_eq_some_iff.mp hv
  obtain ⟨hlt, -⟩ := List.getElem?_eq_some_iff.mp hr₀
  unfold StorageMemory.value
  cases h with
  | same | destroy req resp id' _ _ | expire maxLifetime _ _ => exact hv
  | create req resp draws _ _ =>
    show ((s.records ++ [_])[handle]?.bind _) = _
    rw [List.getElem?_append_left hlt]
    exact hv
  | record handle' r r' hr _ hdata =>
    show ((s.records.set handle' r')[handle]?.bind _) = _
    by_cases hh : handle' = handle
    · subst hh
      rw [hr] at hr₀
      cases hr₀
      rw [List.getElem?_set_self hlt, Option.bind_some, hdata key hw]
      exact hl
    · rw [List.getElem?_set_ne hh]
      exact hv

theorem value_of_reach {ok : StorageMemory → Act → Prop} {handle : Nat} {key v : Str}
    (hok : ∀ s a, ok s a → ¬ a.call.Writes handle key) (hv : s.value handle key = some v)
    (ht : (manager.sys.onward s).Reach ok t) : t.value handle key = some v := by
  induction ht with
  | init hi => cases hi; exact hv
  | step a _ ho hst ih => exact (effect_of_step hst).value (hok _ _ ho) ih

/-- A `set` that succeeds stores the value. -/
theorem value_of_set {now : Int} {handle : Nat} {key v : Str}
    (h : step s ⟨now, .sessionSet handle key v⟩ = some (s', .bool true)) :
    v ≠ [] ∧ key ≠ [] ∧ s'.value handle key = some v := by
  obtain ⟨r, hr, rfl, hb⟩ := onRecord_eq_some h
  obtain ⟨hlt, -⟩ := List.getElem?_eq_some_iff.mp hr
  by_cases hkv : key = [] ∨ v = []
  · rw [r.set_of_empty now hkv] at hb
    cases hb
  · obtain ⟨hk, hv⟩ := not_or.mp hkv
    refine ⟨hv, hk, ?_⟩
    show ((s.records.set handle (r.set now key v).2)[handle]?.bind _) = some v
    rw [List.getElem?_set_self hlt, r.set_eq now hk hv]
    exact AList.lookup_insert _

/-- `get` returns the value that is stored, if it is not empty. -/
theorem step_sessionGet {now : Int} {handle : Nat} {key v : Str} (hk : key ≠ []) (hv : v ≠ [])
    (h : s.value handle key = some v) :
    ∃ s', step s ⟨now, .sessionGet handle key⟩ = some (s', .value (some v)) := by
  obtain ⟨r, hr, hl⟩ := Option.bind_eq_some_iff.mp h
  refine ⟨{ s with records := s.records.set handle (r.get now key).2 }, ?_⟩
  have hfst : (r.get now key).1 = some v := by
    rw [r.get_eq now hk, hl]
    exact Option.filter_some_pos (p := fun v => decide (v ≠ [])) (decide_eq_true hv)
  show (s.records[handle]?.map _) = _
  rw [hr]
  exact congrArg (fun o => some (_, Result.value o)) hfst

end

/-! ## New sessions -/

/-- What is set on this handle is read by every later request with a cookie of this id, until the
session ends or the key is written again. -/
def Visible (s : StorageMemory) (session : Nat) (id : Str) : Prop :=
  ∀ t, (manager.sys.onward s).Reach (Keeps id) t →
    ∀ now key value t₁, step t ⟨now, .sessionSet session key value⟩ = some (t₁, .bool true) →
      ∀ t₂, (manager.sys.onward t₁).Reach
          (fun s a => Keeps id s a ∧ ¬ a.call.Writes session key) t₂ →
        ∀ hdr, getId hdr = some id →
          ∃ rec, get t₂ hdr = some rec ∧
            ∀ now', ∃ t₃, step t₂ ⟨now', .sessionGet rec key⟩ = some (t₃, .value (some value))

/-- What a start that creates a session promises (module doc). -/
structure NewSession (s s' : StorageMemory) (id : Str) (session : Nat) : Prop where
  unused : s.get id = none
  stored : s'.get id = some session
  visible : Visible s' session id

theorem get_of_getId {s : StorageMemory} {hdr : RequestHeader} {id : Str}
    (h : getId hdr = some id) : get s hdr = s.get id := by
  unfold Manager.get
  rw [h]

/-- The session that the id leads to is seen by the requests with this id. -/
theorem visible_of_stored {s : StorageMemory} {session : Nat} {id : Str}
    (hg : s.get id = some session) : Visible s session id := by
  intro t ht now key value t₁ hset t₂ ht₂ hdr hhdr
  obtain ⟨hv, hk, hval⟩ := value_of_set hset
  have hgt := get_of_keeps (fun _ _ h => h) hg ht
  have hgt₁ : t₁.get id = some session :=
    (step_effect hset).get_of_keeps (by rintro (⟨_, _, hc, _⟩ | ⟨_, _, hc, _⟩) <;> cases hc) hgt
  have hgt₂ := get_of_keeps (fun _ _ h => h.1) hgt₁ ht₂
  refine ⟨session, (get_of_getId hhdr).trans hgt₂, fun now' => ?_⟩
  exact step_sessionGet hk hv (value_of_reach (fun _ _ h => h.2) hval ht₂)

/-- A request with only the session cookie. -/
theorem exists_getId {id : Str} (hne : id ≠ []) (hsemi : byte ';' ∉ id) (heq : byte '=' ∉ id) :
    ∃ hdr, getId hdr = some id := by
  refine ⟨{ method := .get, target := [],
            fields := [(lit "Cookie", cookieText [(cookieName, id)])] }, ?_⟩
  have hsend : Sendable (cookieName, id) :=
    ⟨show cookieName ≠ [] by decide, show byte '=' ∉ cookieName by decide,
      show byte ';' ∉ cookieName by decide, hsemi⟩
  exact cookieValue_joined rfl (by simpa using hsend) hne heq List.mem_cons_self (by simp)

/-- What is set on another handle than the one that the id leads to is not seen. -/
theorem not_visible {s : StorageMemory} {session rec : Nat} {id : Str} {hdr : RequestHeader}
    (hhdr : getId hdr = some id) (hg : s.get id = some rec) (hne : rec ≠ session)
    (hlt : session < s.records.length) : ¬ Visible s session id := by
  intro hvis
  -- a value that the other session does not have
  obtain ⟨v, hv, hother⟩ : ∃ v : Str, v ≠ [] ∧ s.value rec (lit "k") ≠ some v := by
    by_cases h : s.value rec (lit "k") = some (lit "v")
    · exact ⟨lit "w", by decide, by rw [h]; decide⟩
    · exact ⟨lit "v", by decide, h⟩
  obtain ⟨r, hr⟩ : ∃ r, s.records[session]? = some r := ⟨_, List.getElem?_eq_getElem hlt⟩
  have hk : lit "k" ≠ [] := List.cons_ne_nil _ _
  have hset : step s ⟨0, .sessionSet session (lit "k") v⟩ =
      some ({ s with records := s.records.set session (r.set 0 (lit "k") v).2 }, .bool true) := by
    show (s.records[session]?.map _) = _
    rw [hr]
    exact congrArg (fun b => some (_, Result.bool b)) (congrArg Prod.fst (r.set_eq 0 hk hv))
  obtain ⟨rec', hrec, hread⟩ := hvis s (.init rfl) 0 (lit "k") v _ hset _ (.init rfl) hdr hhdr
  have hrr : rec' = rec := by
    rw [get_of_getId hhdr] at hrec
    exact Option.some.inj (hrec.symm.trans hg)
  subst hrr
  obtain ⟨t₃, h₃⟩ := hread 0
  obtain ⟨r', hr', -, hval⟩ := onRecord_eq_some h₃
  have hr'' : s.records[rec']? = some r' := by
    rw [← hr']
    exact (List.getElem?_set_ne hne.symm).symm
  have hgot : some v = (r'.data.lookup (lit "k")).filter (· ≠ []) := by
    have hread : some v = (r'.get 0 (lit "k")).1 := Result.value.inj hval
    rwa [r'.get_eq 0 hk] at hread
  apply hother
  unfold StorageMemory.value
  rw [hr'']
  exact (Option.filter_eq_some_iff.mp hgot.symm).1

theorem not_mem_generateId {draws : Fin 32 → Fin 26} {b : UInt8} (h : b < byte 'a') :
    b ∉ generateId draws := by
  intro hm
  exact absurd (letter_of_mem_generateId hm).1 (by simpa using h)

/-- **A start that creates a session creates a new one exactly if the generated id is not the id of
a stored session.** If it is, the id goes on to lead to the older session: the id that is sent is
not that of the returned session, and requests do not see what is set there. -/
theorem start_newSession_iff {s : StorageMemory} (hs : manager.sys.Reach Sys.free s) {now : Int}
    {req : Request} {resp : Response} {draws : Fin 32 → Fin 26}
    (hc : get s req.header = none) :
    ∃ s' session,
      start s now req resp draws =
        (s', session, resp.addCookie (sessionCookie (generateId draws))) ∧
      (NewSession s s' (generateId draws) session ↔ s.get (generateId draws) = none) ∧
      (s.get (generateId draws) ≠ none →
        s'.get (generateId draws) ≠ some session ∧ ¬ Visible s' session (generateId draws)) := by
  refine ⟨_, _, start_of_none hc, ⟨fun h => h.unused, fun hn => ?_⟩, fun hn => ?_⟩
  · have hstored : (s.create now (generateId draws)).2.get (generateId draws) =
        some s.records.length := by
      rw [StorageMemory.get_create_of_new hn, if_pos rfl]
    exact ⟨hn, hstored, visible_of_stored hstored⟩
  · obtain ⟨rec, hrec⟩ := Option.ne_none_iff_exists'.mp hn
    obtain ⟨r, hr, -⟩ := Option.map_eq_some_iff.mp (wellFormed_of_reach hs _ rec hrec)
    obtain ⟨hlt, -⟩ := List.getElem?_eq_some_iff.mp hr
    have hkept : (s.create now (generateId draws)).2.get (generateId draws) = some rec := by
      rw [StorageMemory.get_create_of_stored hn, hrec]
    have hne : rec ≠ s.records.length := by omega
    obtain ⟨hdr, hhdr⟩ := exists_getId (generateId_ne_nil draws)
      (not_mem_generateId (by decide)) (not_mem_generateId (by decide))
    refine ⟨?_, not_visible hhdr hkept hne ?_⟩
    · rw [hkept]
      exact fun h => hne (Option.some.inj h)
    · show s.records.length < (s.records ++ [_]).length
      simp

/-- A request without a cookie. -/
def anonymous : Request where
  header := { method := .get, target := lit "/" }
  body := []

/-- The storage after the first visitor has started a session. -/
def oneVisitor : StorageMemory := (start {} 0 anonymous {} fun _ => 0).1

theorem reach_oneVisitor : manager.sys.Reach Sys.free oneVisitor :=
  .step ⟨0, .start anonymous {} fun _ => 0⟩ (.init rfl) trivial rfl

/-- The second visitor is given the id of the first one. -/
theorem start_newSession_iff_repeated :
    ∃ s' session,
      start oneVisitor 1 anonymous {} (fun _ => 0) =
        (s', session, ({} : Response).addCookie (sessionCookie (generateId fun _ => 0))) ∧
      (NewSession oneVisitor s' (generateId fun _ => 0) session ↔
        oneVisitor.get (generateId fun _ => 0) = none) ∧
      (oneVisitor.get (generateId fun _ => 0) ≠ none →
        s'.get (generateId fun _ => 0) ≠ some session ∧
          ¬ Visible s' session (generateId fun _ => 0)) :=
  start_newSession_iff reach_oneVisitor (by decide +kernel)

theorem repeated_id_is_not_new :
    ¬ ∀ s, manager.sys.Reach Sys.free s → ∀ now req resp draws, get s req.header = none →
      ∀ s' session resp', start s now req resp draws = (s', session, resp') →
        NewSession s s' (generateId draws) session := by
  intro h
  have hnew :=
    h oneVisitor reach_oneVisitor 1 anonymous {} (fun _ => 0) (by decide +kernel) _ _ _ rfl
  have hstored : oneVisitor.get (generateId fun _ => 0) ≠ none := by decide +kernel
  exact hstored hnew.unused

end Sessions
end Http
end Malloy
