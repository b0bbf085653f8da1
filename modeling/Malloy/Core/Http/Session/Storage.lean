import Malloy.Core.Http.Cookie
import Malloy.Lib.KeyMap

/-!
# Sessions and their storage (`core/http/session/session.hpp`, `storage_memory.hpp`)

A `Record` is a session of the in-memory storage. Records are shared objects: the storage maps an
id to a pointer, and a pointer that a caller got earlier outlives the entry. `StorageMemory` is thus
the heap of the records (a `std::shared_ptr<session>` is an index of `records`) and the map
`m_sessions`.

Times are readings of the `steady_clock` in nanoseconds, lifetimes are seconds; both are counts of
64 bits, and a comparison takes them to nanoseconds first. A count that does not fit wraps around:
the overflow is undefined, and this is what the machine's multiplication and subtraction do. Running
out of memory is outside the model. A function that reads the clock takes the reading as `now`.
-/

namespace Malloy
namespace Http
namespace Sessions

open Lib

/-- The nanoseconds of a `std::chrono::seconds`. -/
def seconds (n : Int) : Int := n * 1000000000

/-- A signed count of 64 bits (module doc). -/
def int64 (n : Int) : Int := n.bmod 18446744073709551616

def FitsInt64 (n : Int) : Prop := -9223372036854775808 ≤ n ∧ n < 9223372036854775808

instance : DecidablePred FitsInt64 := fun n =>
  inferInstanceAs (Decidable (-9223372036854775808 ≤ n ∧ n < 9223372036854775808))

theorem int64_eq {n : Int} (h : FitsInt64 n) : int64 n = n := by
  obtain ⟨hlo, hhi⟩ := h
  exact Int.bmod_eq_of_le (by omega) (by omega)

/-! ## Sessions -/

/-- `storage_memory::record`. -/
structure Record where
  id : Str
  accessTime : Int
  data : AList fun _ : Str => Str := ∅

namespace Record

/-- `access_time_older_than(max_lifetime)`. -/
def accessTimeOlderThan (r : Record) (now maxLifetime : Int) : Bool :=
  decide (int64 (now - r.accessTime) > int64 (seconds maxLifetime))

def updateAccessTime (r : Record) (now : Int) : Record := { r with accessTime := now }

def storageSet (r : Record) (key value : Str) : Bool × Record :=
  (true, { r with data := r.data.insert key value })

def storageGet (r : Record) (key : Str) : Option Str := r.data.lookup key

def storageRemove (r : Record) (key : Str) : Bool × Record :=
  (decide (key ∈ r.data), { r with data := r.data.erase key })

def set (r : Record) (now : Int) (key value : Str) : Bool × Record :=
  if key = [] ∨ value = [] then (false, r)
  else (r.updateAccessTime now).storageSet key value

def get (r : Record) (now : Int) (key : Str) : Option Str × Record :=
  if key = [] then (none, r)
  else
    let r := r.updateAccessTime now
    match r.storageGet key with
    -- Prevent returning empty values
    | some [] => (none, r)
    | valueOpt => (valueOpt, r)

def remove (r : Record) (now : Int) (key : Str) : Bool × Record :=
  if key = [] then (false, r)
  else (r.updateAccessTime now).storageRemove key

def generateCookie (r : Record) (cookieName : Str) : Cookie where
  name := cookieName
  value := r.id
  maxAge := 0
  expires := []
  domain := []
  path := []
  secure := true
  httpOnly := true
  sameSite := .strict

/-! What the calls of a session do to its record. -/

variable (r : Record) (now : Int) {key value : Str}

/-- The answer is right as long as both counts fit. -/
theorem accessTimeOlderThan_iff {maxLifetime : Int} (hnow : FitsInt64 (now - r.accessTime))
    (hmax : FitsInt64 (seconds maxLifetime)) :
    r.accessTimeOlderThan now maxLifetime = true ↔ now - r.accessTime > seconds maxLifetime := by
  rw [accessTimeOlderThan, decide_eq_true_iff, int64_eq hnow, int64_eq hmax]

theorem set_of_empty (h : key = [] ∨ value = []) : r.set now key value = (false, r) := if_pos h

theorem set_eq (hk : key ≠ []) (hv : value ≠ []) :
    r.set now key value =
      (true, { r with accessTime := now, data := r.data.insert key value }) :=
  if_neg (not_or.mpr ⟨hk, hv⟩)

theorem get_of_empty : r.get now [] = (none, r) := rfl

/-- A `get` of a key that is not empty refreshes the access time, and finds what is not empty. -/
theorem get_eq (hk : key ≠ []) :
    r.get now key =
      ((r.data.lookup key).filter (· ≠ []), { r with accessTime := now }) := by
  unfold get
  rw [if_neg hk]
  simp only [updateAccessTime, storageGet]
  cases r.data.lookup key with
  | none => rfl
  | some v => cases v <;> rfl

theorem remove_of_empty : r.remove now [] = (false, r) := rfl

theorem remove_eq (hk : key ≠ []) :
    r.remove now key =
      (decide (key ∈ r.data), { r with accessTime := now, data := r.data.erase key }) :=
  if_neg hk

@[simp] theorem set_id (key value : Str) : (r.set now key value).2.id = r.id := by
  unfold set
  split <;> rfl

@[simp] theorem get_id (key : Str) : (r.get now key).2.id = r.id := by
  by_cases hk : key = []
  · subst hk
    rfl
  · rw [get_eq r now hk]

@[simp] theorem remove_id (key : Str) : (r.remove now key).2.id = r.id := by
  unfold remove
  split <;> rfl

end Record

/-! ## The storage -/

/-- `storage_memory`, and the records that it or a caller points to (module doc). -/
structure StorageMemory where
  records : List Record := []
  sessions : AList (fun _ : Str => Nat) := ∅

namespace StorageMemory

def create (s : StorageMemory) (now : Int) (id : Str) : Nat × StorageMemory :=
  let ses := s.records.length
  (ses, { records := s.records ++ [{ id := id, accessTime := now }]
          sessions := tryEmplace id ses s.sessions })

def get (s : StorageMemory) (id : Str) : Option Nat := s.sessions.lookup id

def destroy (s : StorageMemory) (id : Str) : StorageMemory :=
  { s with sessions := s.sessions.erase id }

/-- The record is older than the lifetime. -/
def olderThan (s : StorageMemory) (now maxLifetime : Int) (rec : Nat) : Bool :=
  s.records[rec]?.any fun r => r.accessTimeOlderThan now maxLifetime

/-- The number of entries that are erased, and the storage without them. -/
def destroyExpired (s : StorageMemory) (now maxLifetime : Int) : Nat × StorageMemory :=
  let sessions := eraseIf (fun _ rec => s.olderThan now maxLifetime rec) s.sessions
  (s.sessions.entries.length - sessions.entries.length, { s with sessions := sessions })

/-- A call on the session that `handle` points to. -/
def onRecord {α : Type} (s : StorageMemory) (handle : Nat) (f : Record → α × Record) :
    Option (StorageMemory × α) :=
  s.records[handle]?.map fun r => ({ s with records := s.records.set handle (f r).2 }, (f r).1)

/-- Every entry names a record of its own id. -/
def WellFormed (s : StorageMemory) : Prop :=
  ∀ id rec, s.get id = some rec → s.records[rec]?.map Record.id = some id

/-! What the functions of the storage do to what `get` finds. -/

variable {s : StorageMemory} {now maxLifetime : Int} {id id' : Str} {rec : Nat}

theorem get_create_of_stored (h : s.get id ≠ none) :
    ((s.create now id).2.get id') = s.get id' := by
  have hm : id ∈ s.sessions := by
    by_contra hn
    exact h (AList.lookup_eq_none.mpr hn)
  exact lookup_tryEmplace_of_mem hm id'

theorem get_create_of_new (h : s.get id = none) :
    ((s.create now id).2.get id') = if id' = id then some s.records.length else s.get id' :=
  lookup_tryEmplace_of_not_mem (AList.lookup_eq_none.mp h) id'

theorem get_destroy : (s.destroy id).get id' = if id' = id then none else s.get id' := by
  by_cases h : id' = id
  · subst h
    rw [if_pos rfl]
    exact AList.lookup_erase _ _
  · rw [if_neg h]
    exact AList.lookup_erase_ne h

theorem get_destroyExpired :
    (s.destroyExpired now maxLifetime).2.get id =
      (s.get id).filter fun rec => !s.olderThan now maxLifetime rec :=
  lookup_eraseIf _ s.sessions id

theorem destroyExpired_count :
    (s.destroyExpired now maxLifetime).1 =
      {id | ∃ rec, s.get id = some rec ∧ s.olderThan now maxLifetime rec = true}.ncard :=
  length_sub_eraseIf _ s.sessions

end StorageMemory

end Sessions
end Http
end Malloy
