import Malloy.Core.Http.Session.Storage
import Malloy.Lib.Machine

/-!
# The session manager (`core/http/session/manager.cpp`) over the in-memory storage

The manager has no state but its storage, which its constructor has checked not to be null, and the
mutex that makes a call one step. A pointer to a session is what `Storage.lean` calls a handle.

* `Call`: the calls of a program: those of the manager, and those of a session through a handle.
  A call comes with the reading `now` of the clock during it.
* `manager`: the machine of these calls; `Result` is what a call returns. A handle that no call has
  returned so far is none of the record list (`records` grows by `start` alone), so there is no
  step.
* `Effect`: what a call does to the storage (`step_effect`).
-/

namespace Malloy
namespace Http
namespace Sessions

open Lib

/-! ## The functions of the manager -/

namespace Manager

def cookieName : Str := lit "sessionId"

/-- There is a letter to draw. -/
instance letters_neZero : NeZero 26 := ⟨by decide⟩

/-- The result of `generate_id`, from the 32 numbers that its distribution draws. -/
def generateId (draws : Fin 32 → Fin 26) : Str :=
  List.ofFn fun i => byte 'a' + UInt8.ofNat (draws i).val

def getId (hdr : RequestHeader) : Option Str := cookieValue hdr.fields cookieName

def get (s : StorageMemory) (hdr : RequestHeader) : Option Nat :=
  match getId hdr with
  | none => none
  | some sesId => s.get sesId

def start (s : StorageMemory) (now : Int) (req : Request) (resp : Response)
    (draws : Fin 32 → Fin 26) : StorageMemory × Nat × Response :=
  -- Get existing session (if any)
  match get s req.header with
  | some session => (s, session, resp)
  | none =>
    -- Otherwise create a new one
    let (session, s) := s.create now (generateId draws)
    match s.records[session]? with
    | some r => (s, session, resp.addCookie (r.generateCookie cookieName))
    | none => (s, session, resp)

def destroy (s : StorageMemory) (req : Request) (resp : Response) : StorageMemory × Response :=
  match getId req.header with
  | none => (s, resp)
  | some sesId => (s.destroy sesId, resp.addCookie (Cookie.clear cookieName))

def destroyExpired (s : StorageMemory) (now maxLifetime : Int) : Nat × StorageMemory :=
  if maxLifetime ≤ 0 then (0, s) else s.destroyExpired now maxLifetime

def isValid (s : StorageMemory) (hdr : RequestHeader) : Bool := (get s hdr).isSome

/-- The cookie of a session of this id. -/
def sessionCookie (id : Str) : Cookie := { name := cookieName, value := id }

theorem start_of_some {s : StorageMemory} {now : Int} {req : Request} {resp : Response}
    {draws : Fin 32 → Fin 26} {session : Nat} (h : get s req.header = some session) :
    start s now req resp draws = (s, session, resp) := by
  unfold start
  rw [h]

/-- A start that finds no session creates one, and sends the cookie of its id. -/
theorem start_of_none {s : StorageMemory} {now : Int} {req : Request} {resp : Response}
    {draws : Fin 32 → Fin 26} (h : get s req.header = none) :
    start s now req resp draws =
      ((s.create now (generateId draws)).2, s.records.length,
        resp.addCookie (sessionCookie (generateId draws))) := by
  unfold start
  rw [h]
  simp [StorageMemory.create, Record.generateCookie, sessionCookie]

/-- A generated id has 32 letters. -/
theorem letter_of_mem_generateId {draws : Fin 32 → Fin 26} {b : UInt8}
    (h : b ∈ generateId draws) : byte 'a' ≤ b ∧ b ≤ byte 'z' := by
  obtain ⟨i, rfl⟩ := List.mem_ofFn.mp h
  have hz : ∀ k : Fin 26, byte 'a' ≤ byte 'a' + UInt8.ofNat k.val ∧
      byte 'a' + UInt8.ofNat k.val ≤ byte 'z' := by decide
  exact hz (draws i)

theorem generateId_ne_nil (draws : Fin 32 → Fin 26) : generateId draws ≠ [] := by
  intro h
  have := congrArg List.length h
  simp [generateId] at this

end Manager

/-! ## Calls and their results -/

inductive Call where
  | get (hdr : RequestHeader)
  | getById (id : Str)
  | start (req : Request) (resp : Response) (draws : Fin 32 → Fin 26)
  | destroy (req : Request) (resp : Response)
  | destroyExpired (maxLifetime : Int)
  | isValid (hdr : RequestHeader)
  | isValidId (id : Str)
  /-- `session::set`, `get` and `remove`, on a handle. -/
  | sessionSet (handle : Nat) (key value : Str)
  | sessionGet (handle : Nat) (key : Str)
  | sessionRemove (handle : Nat) (key : Str)

/-- A call, and what the clock reads during it. -/
structure Act where
  now : Int
  call : Call

inductive Result where
  | handle (session : Option Nat)
  | started (session : Nat) (resp : Response)
  | response (resp : Response)
  | count (n : Nat)
  | bool (b : Bool)
  | value (v : Option Str)
  deriving DecidableEq

open Manager

def step (s : StorageMemory) (a : Act) : Option (StorageMemory × Result) :=
  match a.call with
  | .get hdr => some (s, .handle (get s hdr))
  | .getById id => some (s, .handle (s.get id))
  | .start req resp draws =>
    let (s, session, resp) := start s a.now req resp draws
    some (s, .started session resp)
  | .destroy req resp =>
    let (s, resp) := destroy s req resp
    some (s, .response resp)
  | .destroyExpired maxLifetime =>
    let (n, s) := destroyExpired s a.now maxLifetime
    some (s, .count n)
  | .isValid hdr => some (s, .bool (isValid s hdr))
  | .isValidId id => some (s, .bool (s.get id).isSome)
  | .sessionSet h key value => s.onRecord h fun r => (r.set a.now key value).map .bool (fun r => r)
  | .sessionGet h key => s.onRecord h fun r => (r.get a.now key).map .value (fun r => r)
  | .sessionRemove h key => s.onRecord h fun r => (r.remove a.now key).map .bool (fun r => r)

/-- The manager over an empty storage. -/
def manager : Machine StorageMemory Act Result where
  init := {}
  step := step

/-- The id that `generate_id` yields during the call, if it is called. -/
def generated (s : StorageMemory) (a : Act) : Option Str :=
  match a.call with
  | .start req _ draws => if get s req.header = none then some (generateId draws) else none
  | _ => none

/-- `generate_id` yields no id that is stored. -/
def Fresh (s : StorageMemory) (a : Act) : Prop := ∀ id ∈ generated s a, s.get id = none

instance (s : StorageMemory) : DecidablePred (Fresh s) := fun a =>
  inferInstanceAs (Decidable (∀ id ∈ generated s a, s.get id = none))

/-! ## What a call does to the storage -/

/-- The call changes the value of `key` in the session of this handle. -/
def Call.Writes (handle : Nat) (key : Str) (c : Call) : Prop :=
  (∃ value, c = .sessionSet handle key value) ∨ c = .sessionRemove handle key

/-- The states that a call leads to. -/
inductive Effect (s : StorageMemory) (a : Act) : StorageMemory → Prop
  | same : Effect s a s
  | create (req : Request) (resp : Response) (draws : Fin 32 → Fin 26) :
    a.call = .start req resp draws → get s req.header = none →
    Effect s a (s.create a.now (generateId draws)).2
  | destroy (req : Request) (resp : Response) (id : Str) :
    a.call = .destroy req resp → getId req.header = some id → Effect s a (s.destroy id)
  | expire (maxLifetime : Int) :
    a.call = .destroyExpired maxLifetime → 0 < maxLifetime →
    Effect s a (s.destroyExpired a.now maxLifetime).2
  | record (handle : Nat) (r r' : Record) :
    s.records[handle]? = some r → r'.id = r.id →
    (∀ key, ¬ a.call.Writes handle key → r'.data.lookup key = r.data.lookup key) →
    Effect s a { s with records := s.records.set handle r' }

theorem onRecord_eq_some {α : Type} {s s' : StorageMemory} {handle : Nat} {f : Record → α × Record}
    {x : α} (h : s.onRecord handle f = some (s', x)) :
    ∃ r, s.records[handle]? = some r ∧ s' = { s with records := s.records.set handle (f r).2 } ∧
      x = (f r).1 := by
  obtain ⟨r, hr, he⟩ := Option.map_eq_some_iff.mp h
  obtain ⟨rfl, rfl⟩ := Prod.mk.inj he
  exact ⟨r, hr, rfl, rfl⟩

theorem step_effect {s s' : StorageMemory} {a : Act} {res : Result}
    (h : step s a = some (s', res)) : Effect s a s' := by
  obtain ⟨now, call⟩ := a
  cases call with
  | get hdr | getById id | isValid hdr | isValidId id => cases h; exact .same
  | start req resp draws =>
    simp only [step, Option.some.injEq, Prod.mk.injEq] at h
    obtain ⟨rfl, -⟩ := h
    cases hg : get s req.header with
    | some session => rw [start_of_some hg]; exact .same
    | none => rw [start_of_none hg]; exact .create req resp draws rfl hg
  | destroy req resp =>
    simp only [step, Option.some.injEq, Prod.mk.injEq] at h
    obtain ⟨rfl, -⟩ := h
    unfold destroy
    cases hid : getId req.header with
    | none => exact .same
    | some id => exact .destroy req resp id rfl hid
  | destroyExpired maxLifetime =>
    simp only [step, Option.some.injEq, Prod.mk.injEq] at h
    obtain ⟨rfl, -⟩ := h
    unfold destroyExpired
    by_cases hm : maxLifetime ≤ 0
    · rw [if_pos hm]
      exact .same
    · rw [if_neg hm]
      exact .expire maxLifetime rfl (not_le.mp hm)
  | sessionSet handle key value =>
    obtain ⟨r, hr, rfl, -⟩ := onRecord_eq_some h
    refine .record handle r _ hr (r.set_id now key value) fun key' hw => ?_
    have hne : key' ≠ key := fun hk => hw (.inl ⟨value, by rw [hk]⟩)
    show (r.set now key value).2.data.lookup key' = _
    unfold Record.set
    split
    · rfl
    · exact AList.lookup_insert_ne hne
  | sessionGet handle key =>
    obtain ⟨r, hr, rfl, -⟩ := onRecord_eq_some h
    refine .record handle r _ hr (r.get_id now key) fun key' _ => ?_
    show (r.get now key).2.data.lookup key' = _
    by_cases hk : key = []
    · rw [hk, r.get_of_empty now]
    · rw [r.get_eq now hk]
  | sessionRemove handle key =>
    obtain ⟨r, hr, rfl, -⟩ := onRecord_eq_some h
    refine .record handle r _ hr (r.remove_id now key) fun key' hw => ?_
    have hne : key' ≠ key := fun hk => hw (.inr (by rw [hk]))
    show (r.remove now key).2.data.lookup key' = _
    unfold Record.remove
    split
    · rfl
    · exact AList.lookup_erase_ne hne

end Sessions
end Http
end Malloy
