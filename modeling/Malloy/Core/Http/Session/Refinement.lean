import Mathlib.Data.Finmap
import Malloy.Core.Http.Session.Manager

/-!
# The manager refines a session store

`Store` says what the sessions are for, without records, pointers and the map of the storage: the
live sessions by their id, each with the time of its last access and its finite map from keys to
values, none of them empty. Sessions are numbered in the order in which they are started, so that a
caller can go on to use a session that has ended: what it then does happens in `ended`.

* `store`: the machine of the same calls, with the same results, over a `Store`.
* `Refines`: the record heap and the map of the storage stand for this store.
* `simulates`: a call keeps that and returns what the store returns, as long as `generate_id` does
  not yield an id that is stored (`Fresh`) and the counts of an expiry fit into 64 bits (`InRange`).
* `manager_outs_eq`: the same over a whole run; and a session that has ended does not reach into the
  live ones.
* `endless_lifetime_ends_all`: with `seconds::max()` as the lifetime, every session expires at once.
-/

namespace Malloy
namespace Http
namespace Sessions

open Lib Manager

/-! ## The abstract store -/

/-- A key or a value that is stored. -/
abbrev NonEmpty := { s : Str // s ≠ [] }

structure Session where
  lastAccess : Int
  data : Finmap fun _ : NonEmpty => NonEmpty := ∅

namespace Session

def set (a : Session) (now : Int) (key value : Str) : Bool × Session :=
  if h : key ≠ [] ∧ value ≠ [] then
    (true, { lastAccess := now, data := a.data.insert ⟨key, h.1⟩ ⟨value, h.2⟩ })
  else (false, a)

def get (a : Session) (now : Int) (key : Str) : Option Str × Session :=
  if h : key ≠ [] then ((a.data.lookup ⟨key, h⟩).map Subtype.val, { a with lastAccess := now })
  else (none, a)

def remove (a : Session) (now : Int) (key : Str) : Bool × Session :=
  if h : key ≠ [] then
    (decide (⟨key, h⟩ ∈ a.data), { lastAccess := now, data := a.data.erase ⟨key, h⟩ })
  else (false, a)

end Session

/-- The session store (module doc). -/
structure Store where
  /-- The id of each session that was started, by the number of the session. -/
  issued : List Str := []
  live : Str → Option (Nat × Session) := fun _ => none
  ended : Nat → Option Session := fun _ => none

namespace Store

/-- The number of the live session of this id. -/
def holder (t : Store) (id : Str) : Option Nat := (t.live id).map Prod.fst

/-- The id of the session of this number, while it is live. -/
def owner (t : Store) (n : Nat) : Option Str :=
  t.issued[n]?.filter fun id => t.holder id = some n

/-- The session of this number, live or not. -/
def session (t : Store) (n : Nat) : Option Session :=
  match t.owner n with
  | some id => (t.live id).map Prod.snd
  | none => t.ended n

def put (t : Store) (n : Nat) (a : Session) : Store :=
  match t.owner n with
  | some id => { t with live := Function.update t.live id (some (n, a)) }
  | none => { t with ended := Function.update t.ended n (some a) }

def onSession {α : Type} (t : Store) (n : Nat) (f : Session → α × Session) :
    Option (Store × α) :=
  (t.session n).map fun a => (t.put n (f a).2, (f a).1)

def start (t : Store) (now : Int) (id : Str) : Store where
  issued := t.issued ++ [id]
  live := Function.update t.live id (some (t.issued.length, { lastAccess := now }))
  ended := t.ended

/-- The sessions end whose id meets `ends`, and no other. -/
def retire (t : Store) (ends : Str → Prop) [DecidablePred ends] : Store where
  issued := t.issued
  live := fun id => if ends id then none else t.live id
  ended := fun n => if (t.owner n).any fun id => ends id then t.session n else t.ended n

/-- The last access of the live session of this id is more than `maxLifetime` ago. -/
def Expired (t : Store) (now maxLifetime : Int) (id : Str) : Prop :=
  ∃ n a, t.live id = some (n, a) ∧ now - a.lastAccess > seconds maxLifetime

open Classical in
noncomputable def step (t : Store) (a : Act) : Option (Store × Result) :=
  match a.call with
  | .get hdr => some (t, .handle ((getId hdr).bind t.holder))
  | .getById id => some (t, .handle (t.holder id))
  | .start req resp draws =>
    match (getId req.header).bind t.holder with
    | some n => some (t, .started n resp)
    | none =>
      some (t.start a.now (generateId draws),
        .started t.issued.length (resp.addCookie (sessionCookie (generateId draws))))
  | .destroy req resp =>
    match getId req.header with
    | some id => some (t.retire (· = id), .response (resp.addCookie (Cookie.clear cookieName)))
    | none => some (t, .response resp)
  | .destroyExpired maxLifetime =>
    if 0 < maxLifetime then
      some (t.retire (t.Expired a.now maxLifetime),
        .count {id | t.Expired a.now maxLifetime id}.ncard)
    else some (t, .count 0)
  | .isValid hdr => some (t, .bool ((getId hdr).bind t.holder).isSome)
  | .isValidId id => some (t, .bool (t.holder id).isSome)
  | .sessionSet n key value =>
    t.onSession n fun ses => (ses.set a.now key value).map .bool (fun x => x)
  | .sessionGet n key => t.onSession n fun ses => (ses.get a.now key).map .value (fun x => x)
  | .sessionRemove n key => t.onSession n fun ses => (ses.remove a.now key).map .bool (fun x => x)

/-! What the operations of the store do to its sessions. -/

variable {t : Store} {n m : Nat} {id : Str} {a : Session}

theorem owner_eq_some : t.owner n = some id ↔ t.issued[n]? = some id ∧ t.holder id = some n := by
  rw [owner, Option.filter_eq_some_iff, decide_eq_true_eq]

theorem live_of_owner (h : t.owner n = some id) : ∃ a, t.live id = some (n, a) := by
  obtain ⟨-, hh⟩ := owner_eq_some.mp h
  obtain ⟨⟨k, a⟩, hl, rfl⟩ := Option.map_eq_some_iff.mp hh
  exact ⟨a, hl⟩

theorem owner_inj (hn : t.owner n = some id) (hm : t.owner m = some id) : n = m := by
  obtain ⟨-, h₁⟩ := owner_eq_some.mp hn
  obtain ⟨-, h₂⟩ := owner_eq_some.mp hm
  exact Option.some.inj (h₁.symm.trans h₂)

theorem session_of_owner (h : t.owner n = some id) :
    t.session n = (t.live id).map Prod.snd := by
  rw [session, h]

theorem session_of_ended (h : t.owner n = none) : t.session n = t.ended n := by
  rw [session, h]

theorem session_of_live (hi : t.issued[n]? = some id) (hl : t.live id = some (n, a)) :
    t.session n = some a := by
  have ho : t.owner n = some id := owner_eq_some.mpr ⟨hi, by rw [holder, hl]; rfl⟩
  rw [session_of_owner ho, hl]
  rfl

theorem put_of_owner (h : t.owner n = some id) :
    t.put n a = { t with live := Function.update t.live id (some (n, a)) } := by
  rw [put, h]

theorem put_of_ended (h : t.owner n = none) :
    t.put n a = { t with ended := Function.update t.ended n (some a) } := by
  rw [put, h]

@[simp] theorem put_issued : (t.put n a).issued = t.issued := by
  unfold put
  split <;> rfl

@[simp] theorem put_holder : (t.put n a).holder = t.holder := by
  cases ho : t.owner n with
  | none => rw [put_of_ended ho]; rfl
  | some id =>
    obtain ⟨b, hb⟩ := live_of_owner ho
    rw [put_of_owner ho]
    funext id'
    show (Function.update t.live id (some (n, a)) id').map Prod.fst = (t.live id').map Prod.fst
    by_cases h : id' = id
    · subst h
      rw [Function.update_self, hb]
      rfl
    · rw [Function.update_of_ne h]

@[simp] theorem put_owner : (t.put n a).owner = t.owner := by
  funext k
  unfold owner
  rw [put_issued, put_holder]

/-- `put` replaces one session. -/
theorem session_put : (t.put n a).session m = if m = n then some a else t.session m := by
  by_cases h : m = n
  · subst h
    rw [if_pos rfl]
    cases ho : t.owner m with
    | none =>
      rw [session_of_ended (by rw [put_owner]; exact ho), put_of_ended ho]
      exact Function.update_self ..
    | some id =>
      rw [session_of_owner (by rw [put_owner]; exact ho), put_of_owner ho]
      show (Function.update t.live id (some (m, a)) id).map Prod.snd = some a
      rw [Function.update_self]
      rfl
  · rw [if_neg h]
    cases ho : t.owner m with
    | none =>
      rw [session_of_ended (by rw [put_owner]; exact ho), session_of_ended ho]
      cases hn : t.owner n with
      | none =>
        rw [put_of_ended hn]
        exact Function.update_of_ne h _ _
      | some id => rw [put_of_owner hn]
    | some id =>
      rw [session_of_owner (by rw [put_owner]; exact ho), session_of_owner ho]
      cases hn : t.owner n with
      | none => rw [put_of_ended hn]
      | some id' =>
        -- two live sessions have two ids
        have hne : id ≠ id' := by
          rintro rfl
          exact h (owner_inj ho hn)
        rw [put_of_owner hn]
        show (Function.update t.live id' (some (n, a)) id).map Prod.snd = _
        rw [Function.update_of_ne hne]

theorem holder_retire (ends : Str → Prop) [DecidablePred ends] :
    (t.retire ends).holder id = if ends id then none else t.holder id := by
  show (if ends id then none else t.live id).map Prod.fst = _
  split <;> rfl

/-- A session that has ended is still there for who has a handle of it. -/
theorem session_retire (ends : Str → Prop) [DecidablePred ends] :
    (t.retire ends).session n = t.session n := by
  cases ho : t.owner n with
  | none =>
    have ho' : (t.retire ends).owner n = none := by
      rw [Option.eq_none_iff_forall_ne_some] at ho ⊢
      intro id h
      obtain ⟨hi, hh⟩ := owner_eq_some.mp h
      rw [holder_retire] at hh
      split at hh
      · cases hh
      · exact ho id (owner_eq_some.mpr ⟨hi, hh⟩)
    rw [session_of_ended ho', session_of_ended ho]
    show (if (t.owner n).any _ then _ else _) = _
    rw [ho]
    rfl
  | some id =>
    obtain ⟨hi, hh⟩ := owner_eq_some.mp ho
    by_cases he : ends id
    · have ho' : (t.retire ends).owner n = none := by
        rw [Option.eq_none_iff_forall_ne_some]
        intro id' h
        obtain ⟨hi', hh'⟩ := owner_eq_some.mp h
        obtain rfl : id = id' := Option.some.inj (hi.symm.trans hi')
        rw [holder_retire, if_pos he] at hh'
        cases hh'
      rw [session_of_ended ho']
      show (if (t.owner n).any _ then _ else _) = _
      rw [ho]
      exact if_pos (decide_eq_true he)
    · have ho' : (t.retire ends).owner n = some id :=
        owner_eq_some.mpr ⟨hi, by rw [holder_retire, if_neg he]; exact hh⟩
      rw [session_of_owner ho', session_of_owner ho]
      show (if ends id then none else t.live id).map Prod.snd = _
      rw [if_neg he]

theorem holder_start {now : Int} {id' : Str} :
    (t.start now id).holder id' = if id' = id then some t.issued.length else t.holder id' := by
  show (Function.update t.live id _ id').map Prod.fst = _
  by_cases h : id' = id
  · rw [h, Function.update_self, if_pos rfl]
    rfl
  · rw [Function.update_of_ne h, if_neg h]
    rfl

/-- The new session comes after the others, which stay what they are. -/
theorem session_start {now : Int} (h : t.holder id = none) :
    (t.start now id).session n =
      if n = t.issued.length then some { lastAccess := now } else t.session n := by
  have hissued : (t.start now id).issued[n]? =
      if n = t.issued.length then some id else t.issued[n]? := by
    show (t.issued ++ [id])[n]? = _
    rw [List.getElem?_append]
    by_cases hn : n = t.issued.length
    · simp [hn]
    · rw [if_neg hn]
      split
      · rfl
      · rw [List.getElem?_eq_none (by simp; omega), List.getElem?_eq_none (by omega)]
  by_cases hn : n = t.issued.length
  · rw [if_pos hn]
    have hissued' : (t.start now id).issued[n]? = some id := by rw [hissued, if_pos hn]
    refine session_of_live hissued' ?_
    show Function.update t.live id (some (t.issued.length, _)) id = _
    rw [Function.update_self, hn]
  · rw [if_neg hn]
    rw [if_neg hn] at hissued
    cases ho : t.owner n with
    | some id' =>
      obtain ⟨hi, hh⟩ := owner_eq_some.mp ho
      have hne : id' ≠ id := by
        rintro rfl
        rw [h] at hh
        cases hh
      have ho' : (t.start now id).owner n = some id' :=
        owner_eq_some.mpr ⟨hissued.trans hi, by rw [holder_start, if_neg hne]; exact hh⟩
      rw [session_of_owner ho', session_of_owner ho]
      show (Function.update t.live id _ id').map Prod.snd = _
      rw [Function.update_of_ne hne]
    | none =>
      have ho' : (t.start now id).owner n = none := by
        rw [Option.eq_none_iff_forall_ne_some] at ho ⊢
        intro id' h'
        obtain ⟨hi, hh⟩ := owner_eq_some.mp h'
        rw [holder_start] at hh
        split at hh
        · exact hn (Option.some.inj hh).symm
        · exact ho id' (owner_eq_some.mpr ⟨hissued.symm.trans hi, hh⟩)
      rw [session_of_ended ho', session_of_ended ho]
      rfl

end Store

noncomputable def store : Machine Store Act Result where
  init := {}
  step := Store.step

/-! ## The refinement -/

/-- The lifetime of an expiry. -/
def Call.lifetime : Call → Option Int
  | .destroyExpired maxLifetime => some maxLifetime
  | _ => none

/-- The counts of an expiry fit into 64 bits: the nanoseconds of the lifetime, and those since the
last access of each live session. -/
def InRange (s : StorageMemory) (a : Act) : Prop :=
  ∀ maxLifetime ∈ a.call.lifetime, maxLifetime ≤ 9223372036 ∧
    ∀ entry ∈ s.sessions.entries, ∀ r ∈ s.records[entry.2]?, FitsInt64 (a.now - r.accessTime)

instance (s : StorageMemory) : DecidablePred (InRange s) := fun a =>
  inferInstanceAs (Decidable (∀ maxLifetime ∈ a.call.lifetime, maxLifetime ≤ 9223372036 ∧
    ∀ entry ∈ s.sessions.entries, ∀ r ∈ s.records[entry.2]?, FitsInt64 (a.now - r.accessTime)))

theorem InRange.olderThan_iff {s : StorageMemory} {now maxLifetime : Int} {id : Str} {rec : Nat}
    {r : Record} (h : InRange s ⟨now, .destroyExpired maxLifetime⟩) (hpos : 0 < maxLifetime)
    (hg : s.get id = some rec) (hr : s.records[rec]? = some r) :
    r.accessTimeOlderThan now maxLifetime = true ↔
      now - r.accessTime > seconds maxLifetime := by
  obtain ⟨hmax, hlive⟩ := h maxLifetime rfl
  refine r.accessTimeOlderThan_iff now (hlive ⟨id, rec⟩ (AList.mem_lookup_iff.mp hg) r hr) ?_
  unfold FitsInt64 seconds
  omega

/-- The record holds this session. -/
structure Represents (r : Record) (a : Session) : Prop where
  access : r.accessTime = a.lastAccess
  data : ∀ key (h : key ≠ []), r.data.lookup key = (a.data.lookup ⟨key, h⟩).map Subtype.val

namespace Represents

variable {r : Record} {a : Session} (h : Represents r a) (now : Int) (key value : Str)
include h

theorem set : (r.set now key value).1 = (a.set now key value).1 ∧
    Represents (r.set now key value).2 (a.set now key value).2 := by
  by_cases hkv : key ≠ [] ∧ value ≠ []
  · obtain ⟨hk, hv⟩ := hkv
    rw [r.set_eq now hk hv, Session.set, dif_pos ⟨hk, hv⟩]
    refine ⟨rfl, rfl, fun key' hk' => ?_⟩
    show (r.data.insert key value).lookup key' = _
    by_cases he : key' = key
    · subst he
      rw [AList.lookup_insert, Finmap.lookup_insert]
      rfl
    · rw [AList.lookup_insert_ne he, Finmap.lookup_insert_of_ne, h.data key' hk']
      exact fun hs => he (congrArg Subtype.val hs)
  · rw [Session.set, dif_neg hkv, r.set_of_empty now (by tauto)]
    exact ⟨rfl, h⟩

theorem get : (r.get now key).1 = (a.get now key).1 ∧
    Represents (r.get now key).2 (a.get now key).2 := by
  by_cases hk : key ≠ []
  · rw [r.get_eq now hk, Session.get, dif_pos hk]
    refine ⟨?_, rfl, h.data⟩
    show (r.data.lookup key).filter _ = _
    rw [h.data key hk]
    cases a.data.lookup ⟨key, hk⟩ with
    | none => rfl
    | some v => exact Option.filter_some_pos (decide_eq_true v.2)
  · rw [Session.get, dif_neg hk, not_not.mp hk, r.get_of_empty now]
    exact ⟨rfl, h⟩

theorem remove : (r.remove now key).1 = (a.remove now key).1 ∧
    Represents (r.remove now key).2 (a.remove now key).2 := by
  by_cases hk : key ≠ []
  · rw [r.remove_eq now hk, Session.remove, dif_pos hk]
    refine ⟨?_, rfl, fun key' hk' => ?_⟩
    · -- the key is there in both or in none
      apply decide_eq_decide.mpr
      rw [← AList.lookup_isSome, ← Finmap.lookup_isSome, h.data key hk, Option.isSome_map]
    · show (r.data.erase key).lookup key' = _
      by_cases he : key' = key
      · subst he
        rw [AList.lookup_erase, Finmap.lookup_erase]
        rfl
      · rw [AList.lookup_erase_ne he, Finmap.lookup_erase_ne, h.data key' hk']
        exact fun hs => he (congrArg Subtype.val hs)
  · rw [Session.remove, dif_neg hk, not_not.mp hk, r.remove_of_empty now]
    exact ⟨rfl, h⟩

end Represents

/-- The storage stands for this store (module doc). -/
structure Refines (s : StorageMemory) (t : Store) : Prop where
  issued : t.issued = s.records.map Record.id
  holder : ∀ id, t.holder id = s.get id
  named : s.WellFormed
  session : ∀ n, Option.Rel Represents s.records[n]? (t.session n)

namespace Refines

variable {s : StorageMemory} {t : Store} (h : Refines s t)
include h

theorem lookup (hdr : RequestHeader) : (getId hdr).bind t.holder = Manager.get s hdr := by
  unfold Manager.get
  cases getId hdr with
  | none => rfl
  | some id => exact h.holder id

/-- The entry of an id names the record of the live session of that id. -/
theorem live {id : Str} {n : Nat} (hg : s.get id = some n) :
    ∃ r a, s.records[n]? = some r ∧ t.live id = some (n, a) ∧ Represents r a := by
  obtain ⟨r, hr, hid⟩ := Option.map_eq_some_iff.mp (h.named id n hg)
  obtain ⟨⟨k, a⟩, hl, rfl⟩ := Option.map_eq_some_iff.mp ((h.holder id).trans hg)
  have hi : t.issued[k]? = some id := by
    rw [h.issued, List.getElem?_map, hr, ← hid]
    rfl
  have hrel := h.session k
  rw [hr, Store.session_of_live hi hl] at hrel
  cases hrel with
  | some hrel => exact ⟨r, a, hr, hl, hrel⟩

/-- A call on a session. -/
theorem onRecord {α : Type} {f : Record → α × Record} {g : Session → α × Session}
    (hid : ∀ r, (f r).2.id = r.id)
    (hfg : ∀ r a, Represents r a → (f r).1 = (g a).1 ∧ Represents (f r).2 (g a).2) (n : Nat) :
    Option.Rel (fun x y => Refines x.1 y.1 ∧ x.2 = y.2) (s.onRecord n f) (t.onSession n g) := by
  have hrel := h.session n
  unfold StorageMemory.onRecord Store.onSession
  cases hr : s.records[n]? with
  | none =>
    rw [hr] at hrel
    cases ha : t.session n with
    | none => exact .none
    | some a => rw [ha] at hrel; cases hrel
  | some r =>
    rw [hr] at hrel
    cases ha : t.session n with
    | none => rw [ha] at hrel; cases hrel
    | some a =>
      rw [ha] at hrel
      cases hrel with
      | some hrel =>
        obtain ⟨hout, hnew⟩ := hfg r a hrel
        obtain ⟨hlt, hget⟩ := List.getElem?_eq_some_iff.mp hr
        have hids : (s.records.set n (f r).2).map Record.id = s.records.map Record.id := by
          have hlt' : n < (s.records.map Record.id).length := by rwa [List.length_map]
          rw [List.map_set, hid r, ← hget, ← List.getElem_map Record.id (h := hlt')]
          exact List.set_getElem_self hlt'
        refine .some ⟨⟨?_, ?_, ?_, ?_⟩, hout⟩
        · rw [Store.put_issued, h.issued]
          exact hids.symm
        · rw [Store.put_holder]
          exact h.holder
        · intro id rec hg
          rw [← List.getElem?_map]
          show ((s.records.set n (f r).2).map Record.id)[rec]? = _
          rw [hids, List.getElem?_map]
          exact h.named id rec hg
        · intro m
          rw [Store.session_put]
          show Option.Rel _ (s.records.set n (f r).2)[m]? _
          rw [List.getElem?_set]
          by_cases hm : m = n
          · subst hm
            rw [if_pos rfl, if_pos hlt, if_pos rfl]
            exact .some hnew
          · rw [if_neg (Ne.symm hm), if_neg hm]
            exact h.session m

/-- The entries of some ids are removed. -/
theorem retire {sessions : AList fun _ : Str => Nat} (ends : Str → Prop) [DecidablePred ends]
    (hs : ∀ id, sessions.lookup id = if ends id then none else s.get id) :
    Refines { s with sessions := sessions } (t.retire ends) where
  issued := h.issued
  holder := fun id => by
    rw [Store.holder_retire, h.holder]
    exact (hs id).symm
  named := fun id rec hg => by
    have hg' := (hs id).symm.trans hg
    split at hg'
    · cases hg'
    · exact h.named id rec hg'
  session := fun n => by
    rw [Store.session_retire]
    exact h.session n

theorem create {id : Str} (now : Int) (hnew : s.get id = none) :
    Refines (s.create now id).2 (t.start now id) where
  issued := by
    show t.issued ++ [id] = (s.records ++ [_]).map Record.id
    rw [List.map_append, h.issued]
    rfl
  holder := fun id' => by
    rw [Store.holder_start, StorageMemory.get_create_of_new hnew, h.issued, List.length_map,
      h.holder]
  named := fun id' rec hg => by
    rw [StorageMemory.get_create_of_new hnew] at hg
    show (s.records ++ [_])[rec]?.map Record.id = some id'
    split at hg
    · rename_i hid
      cases hg
      rw [List.getElem?_concat_length, hid]
      rfl
    · have hr := h.named id' rec hg
      obtain ⟨r, hr, hrid⟩ := Option.map_eq_some_iff.mp hr
      rw [List.getElem?_append_left (List.getElem?_eq_some_iff.mp hr).1, hr, ← hrid]
      rfl
  session := fun n => by
    have hlen : t.issued.length = s.records.length := by rw [h.issued, List.length_map]
    rw [Store.session_start ((h.holder id).trans hnew), hlen]
    show Option.Rel _ (s.records ++ [_])[n]? _
    by_cases hn : n = s.records.length
    · rw [if_pos hn, hn, List.getElem?_concat_length]
      exact .some ⟨rfl, fun _ _ => rfl⟩
    · rw [if_neg hn]
      have hr : (s.records ++ [{ id := id, accessTime := now }])[n]? = s.records[n]? := by
        rw [List.getElem?_append]
        split
        · rfl
        · rw [List.getElem?_eq_none (by simp; omega), List.getElem?_eq_none (by omega)]
      rw [hr]
      exact h.session n

/-- The last access of a live session is that of its record. -/
theorem expired_iff_record {now maxLifetime : Int} {id : Str} :
    t.Expired now maxLifetime id ↔
      ∃ rec r, s.get id = some rec ∧ s.records[rec]? = some r ∧
        now - r.accessTime > seconds maxLifetime := by
  constructor
  · rintro ⟨n, a, hl, hold⟩
    have hg : s.get id = some n := by
      rw [← h.holder, Store.holder, hl]
      rfl
    obtain ⟨r, a', hr, hl', hrep⟩ := h.live hg
    obtain rfl : a = a' := (Prod.mk.inj (Option.some.inj (hl.symm.trans hl'))).2
    exact ⟨n, r, hg, hr, by rw [hrep.access]; exact hold⟩
  · rintro ⟨rec, r, hg, hr, hold⟩
    obtain ⟨r', a, hr', hl, hrep⟩ := h.live hg
    obtain rfl : r = r' := Option.some.inj (hr.symm.trans hr')
    exact ⟨rec, a, hl, by rw [← hrep.access]; exact hold⟩

/-- The same sessions have expired, if the counts fit. -/
theorem expired_iff {now maxLifetime : Int} {id : Str} (hpos : 0 < maxLifetime)
    (hrange : InRange s ⟨now, .destroyExpired maxLifetime⟩) :
    t.Expired now maxLifetime id ↔
      ∃ rec, s.get id = some rec ∧ s.olderThan now maxLifetime rec = true := by
  rw [h.expired_iff_record]
  constructor
  · rintro ⟨rec, r, hg, hr, hold⟩
    refine ⟨rec, hg, ?_⟩
    rw [StorageMemory.olderThan, hr]
    exact (hrange.olderThan_iff hpos hg hr).mpr hold
  · rintro ⟨rec, hg, hold⟩
    obtain ⟨r, hr, -⟩ := Option.map_eq_some_iff.mp (h.named id rec hg)
    rw [StorageMemory.olderThan, hr] at hold
    exact ⟨rec, r, hg, hr, (hrange.olderThan_iff hpos hg hr).mp hold⟩

end Refines

theorem refines_init : Refines {} {} where
  issued := rfl
  holder := fun _ => rfl
  named := fun id rec h => by cases h
  session := fun _ => .none

/-- The entries that have expired are removed. -/
theorem Refines.lookup_eraseIf {s : StorageMemory} {t : Store} (h : Refines s t)
    {now maxLifetime : Int} {id : Str} (hpos : 0 < maxLifetime)
    (hrange : InRange s ⟨now, .destroyExpired maxLifetime⟩)
    [Decidable (t.Expired now maxLifetime id)] :
    (s.destroyExpired now maxLifetime).2.get id =
      if t.Expired now maxLifetime id then none else s.get id := by
  rw [StorageMemory.get_destroyExpired]
  by_cases he : t.Expired now maxLifetime id
  · obtain ⟨rec, hg, hold⟩ := (h.expired_iff hpos hrange).mp he
    rw [if_pos he, hg, Option.filter_some, hold]
    rfl
  · rw [if_neg he]
    cases hg : s.get id with
    | none => rfl
    | some rec =>
      refine Option.filter_some_pos ?_
      rw [Bool.not_eq_true', Bool.eq_false_iff]
      exact fun hold => he ((h.expired_iff hpos hrange).mpr ⟨rec, hg, hold⟩)

theorem Refines.start {s : StorageMemory} {t : Store} (h : Refines s t) {now : Int} {req : Request}
    {resp : Response} {draws : Fin 32 → Fin 26} (hfresh : Fresh s ⟨now, .start req resp draws⟩) :
    Option.Rel (fun x y => Refines x.1 y.1 ∧ x.2 = y.2) (step s ⟨now, .start req resp draws⟩)
      (t.step ⟨now, .start req resp draws⟩) := by
  simp only [step, Store.step, h.lookup]
  cases hg : Manager.get s req.header with
  | some n =>
    rw [start_of_some hg]
    exact .some ⟨h, rfl⟩
  | none =>
    rw [start_of_none hg]
    refine .some ⟨h.create now (hfresh _ (if_pos hg)), ?_⟩
    rw [h.issued, List.length_map]

theorem Refines.destroy {s : StorageMemory} {t : Store} (h : Refines s t) (now : Int)
    {req : Request} {resp : Response} :
    Option.Rel (fun x y => Refines x.1 y.1 ∧ x.2 = y.2) (step s ⟨now, .destroy req resp⟩)
      (t.step ⟨now, .destroy req resp⟩) := by
  simp only [step, Store.step, Manager.destroy]
  cases getId req.header with
  | none => exact .some ⟨h, rfl⟩
  | some id => exact .some ⟨h.retire (· = id) fun _ => StorageMemory.get_destroy, rfl⟩

open Classical in
theorem Refines.destroyExpired {s : StorageMemory} {t : Store} (h : Refines s t) {now : Int}
    {maxLifetime : Int} (hrange : InRange s ⟨now, .destroyExpired maxLifetime⟩) :
    Option.Rel (fun x y => Refines x.1 y.1 ∧ x.2 = y.2) (step s ⟨now, .destroyExpired maxLifetime⟩)
      (t.step ⟨now, .destroyExpired maxLifetime⟩) := by
  simp only [step, Store.step, Manager.destroyExpired]
  by_cases hm : 0 < maxLifetime
  · rw [if_pos hm, if_neg (not_le.mpr hm)]
    refine .some ⟨h.retire _ fun _ => h.lookup_eraseIf hm hrange, congrArg Result.count ?_⟩
    rw [StorageMemory.destroyExpired_count]
    congr 1
    ext id
    exact (h.expired_iff hm hrange).symm
  · rw [if_neg hm, if_pos (not_lt.mp hm)]
    exact .some ⟨h, rfl⟩

/-- **One call**: the results are the same, and the storage still stands for the store. -/
theorem simulates : Simulates manager store (fun s a => Fresh s a ∧ InRange s a) Refines where
  init := refines_init
  step := by
    rintro s t ⟨now, call⟩ h ⟨hfresh, hrange⟩
    cases call with
    | get hdr => exact .some ⟨h, congrArg Result.handle (h.lookup hdr).symm⟩
    | getById id => exact .some ⟨h, congrArg Result.handle (h.holder id).symm⟩
    | isValid hdr =>
      refine .some ⟨h, congrArg (fun o => Result.bool (Option.isSome o)) ?_⟩
      exact (h.lookup hdr).symm
    | isValidId id =>
      refine .some ⟨h, congrArg (fun o => Result.bool (Option.isSome o)) ?_⟩
      exact (h.holder id).symm
    | start req resp draws => exact h.start hfresh
    | destroy req resp => exact h.destroy now
    | destroyExpired maxLifetime => exact h.destroyExpired hrange
    | sessionSet n key value =>
      refine h.onRecord (f := fun r => (r.set now key value).map Result.bool fun r => r)
        (fun r => r.set_id now key value) (fun r a hr => ?_) n
      obtain ⟨hout, hrep⟩ := hr.set now key value
      exact ⟨congrArg Result.bool hout, hrep⟩
    | sessionGet n key =>
      refine h.onRecord (f := fun r => (r.get now key).map Result.value fun r => r)
        (fun r => r.get_id now key) (fun r a hr => ?_) n
      obtain ⟨hout, hrep⟩ := hr.get now key
      exact ⟨congrArg Result.value hout, hrep⟩
    | sessionRemove n key =>
      refine h.onRecord (f := fun r => (r.remove now key).map Result.bool fun r => r)
        (fun r => r.remove_id now key) (fun r a hr => ?_) n
      obtain ⟨hout, hrep⟩ := hr.remove now key
      exact ⟨congrArg Result.bool hout, hrep⟩

/-! ## Whole runs -/

/-- The handle is that of a session that has been destroyed, or that has expired. -/
def StorageMemory.Ended (s : StorageMemory) (handle : Nat) : Prop := ∀ id, s.get id ≠ some handle

/-- The call is one of a session, through this handle. -/
def Call.OnHandle (handle : Nat) (c : Call) : Prop :=
  (∃ key value, c = .sessionSet handle key value) ∨ (∃ key, c = .sessionGet handle key) ∨
    ∃ key, c = .sessionRemove handle key

/-- The live session of this id. -/
def StorageMemory.live (s : StorageMemory) (id : Str) : Option (Nat × Record) :=
  (s.get id).bind fun rec => s.records[rec]?.map fun r => (rec, r)

/-- A call on a session that has ended changes no live one. -/
theorem live_of_ended {s s' : StorageMemory} {a : Act} {res : Result} {handle : Nat}
    (he : s.Ended handle) (ha : a.call.OnHandle handle) (h : step s a = some (s', res)) :
    s'.live = s.live := by
  have hs' : ∃ r, s' = { s with records := s.records.set handle r } := by
    obtain ⟨now, call⟩ := a
    rcases ha with ⟨key, value, rfl⟩ | ⟨key, rfl⟩ | ⟨key, rfl⟩ <;>
    · obtain ⟨r, -, hs', -⟩ := onRecord_eq_some h
      exact ⟨_, hs'⟩
  obtain ⟨r, rfl⟩ := hs'
  funext id
  show ((s.get id).bind fun rec => (s.records.set handle r)[rec]?.map _) = _
  unfold StorageMemory.live
  cases hg : s.get id with
  | none => rfl
  | some rec =>
    have hne : handle ≠ rec := by
      rintro rfl
      exact he id hg
    rw [Option.bind_some, Option.bind_some, List.getElem?_set_ne hne]

/-- **The manager over the in-memory storage refines the session store**: in a run in which
`generate_id` yields no id that is stored and the counts of each expiry fit into 64 bits, every call
returns what it returns over the store, and a call on a session that has ended changes no live
one. -/
theorem manager_outs_eq {as : List Act}
    (h : manager.Admits (fun s a => Fresh s a ∧ InRange s a) manager.init as) :
    manager.outs manager.init as = store.outs store.init as ∧
      ∀ handle a s' res, (manager.after manager.init as).Ended handle → a.call.OnHandle handle →
        step (manager.after manager.init as) a = some (s', res) →
        s'.live = (manager.after manager.init as).live :=
  ⟨simulates.outs_eq h, fun _ _ _ _ => live_of_ended⟩

/-- A request with this `Cookie` field. -/
def requestWithCookie (value : Str) : Request where
  header := { method := .get, target := lit "/", fields := [(lit "Cookie", value)] }
  body := []

/-- Two visitors; the session of the first one is destroyed, that of the second one expires, and
both handles are used after that. -/
def twoVisitors : List Act :=
  let first := lit "sessionId=aaaaaaaaaaaaaaaaaaaaaaaaaaaaaaaa"
  [⟨0, .start (requestWithCookie []) {} fun _ => 0⟩,
    ⟨1, .sessionSet 0 (lit "user") (lit "ada")⟩,
    ⟨2, .start (requestWithCookie first) {} fun _ => 1⟩,
    ⟨3, .start (requestWithCookie []) {} fun _ => 1⟩,
    ⟨4, .sessionGet 0 (lit "user")⟩,
    ⟨5, .destroy (requestWithCookie first) {}⟩,
    ⟨6, .sessionSet 0 (lit "user") (lit "bob")⟩,
    ⟨6000000000, .destroyExpired 5⟩,
    ⟨6000000001, .sessionRemove 1 (lit "user")⟩,
    ⟨6000000001, .isValid (requestWithCookie first).header⟩]

theorem manager_outs_eq_twoVisitors :
    manager.outs manager.init twoVisitors = store.outs store.init twoVisitors ∧
      ∀ handle a s' res, (manager.after manager.init twoVisitors).Ended handle →
        a.call.OnHandle handle →
        step (manager.after manager.init twoVisitors) a = some (s', res) →
        s'.live = (manager.after manager.init twoVisitors).live :=
  manager_outs_eq (by decide +kernel)

example : (manager.outs manager.init twoVisitors).length = 10 := by decide +kernel

/-- A session, and one nanosecond later an expiry with `seconds::max()` as the lifetime. -/
def endlessLifetime : List Act :=
  [⟨0, .start (requestWithCookie []) {} fun _ => 0⟩, ⟨1, .destroyExpired 9223372036854775807⟩]

/-- The lifetime wraps around to minus one second, and the live session is erased and counted. -/
theorem endless_lifetime_ends_all :
    manager.Admits Fresh manager.init endlessLifetime ∧
      (manager.outs manager.init endlessLifetime)[1]? = some (.count 1) ∧
      (store.outs store.init endlessLifetime)[1]? = some (.count 0) := by
  refine ⟨by decide +kernel, by decide +kernel, ?_⟩
  -- over the store, the session's last access is one nanosecond ago
  have hstart := simulates.step _ _ ⟨0, .start (requestWithCookie []) {} fun _ => 0⟩ simulates.init
    (by decide +kernel)
  unfold endlessLifetime Machine.outs
  generalize hx : manager.step manager.init _ = x at hstart
  generalize store.step store.init _ = y at hstart ⊢
  cases hstart with
  | none => cases hx
  | @some x y hxy =>
    have hlive : ∀ id, ¬ y.1.Expired 1 9223372036854775807 id := by
      intro id he
      obtain ⟨rec, r, hg, hr, hold⟩ := hxy.1.expired_iff_record.mp he
      have hrecords : x.1.records = [⟨generateId fun _ => 0, 0, ∅⟩] := by
        rw [← Option.some.inj hx]
        rfl
      rw [hrecords] at hr
      obtain rfl : r = ⟨generateId fun _ => 0, 0, ∅⟩ :=
        List.mem_singleton.mp (List.mem_of_getElem? hr)
      exact absurd hold (by decide)
    have hnone : {id | y.1.Expired 1 9223372036854775807 id} = ∅ :=
      Set.eq_empty_of_forall_notMem hlive
    show some (Result.count {id | y.1.Expired 1 9223372036854775807 id}.ncard) = _
    rw [hnone, Set.ncard_empty]

end Sessions
end Http
end Malloy
