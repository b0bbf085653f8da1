import Malloy.Lib.Sys
import Mathlib.Data.List.Perm.Basic

/-!
# `malloy::detail::action_queue` (`core/detail/action_queue.hpp`)

The queue of actions that a websocket connection runs its reads (or its writes) through. An
action is started with a callback; "the next queued function is not executed until the callback
passed to the last executed function is called".

* `ActionQueue`: the members of the class, the handlers that are posted on its strand, and the
  history of a run (what was pushed on the strand, what was started, what has not called its
  callback yet).
* `boost::asio::dispatch(m_ioc, f)` runs `f` at once when the caller is running inside the strand
  and posts it otherwise. A caller therefore says where it runs (`inStrand`); a posted handler is
  run by a later step, in any order. An action that calls its callback synchronously is a start
  followed by a `complete` step inside the strand.
* `Act`: the atomic steps of a run. `ActionQueue.system`: the runs of a fresh queue.
* `tokens`: the starts that are pending and the actions that have not completed. `Live` and `Serial`
  relate them to `m_currently_running_act`.
-/

namespace Malloy

/-- A handler posted on the strand: of `push(act)`, or of `exe_next()`. -/
inductive ActionQueue.Handler (α : Type) where
  | push (act : α)
  | exe
  deriving DecidableEq

/-- An action queue and the history of its run. -/
structure ActionQueue (α : Type) where
  /-- `m_acts`, the front first. -/
  acts : List α := []
  /-- `m_running`: written by `run()`, read by nobody. -/
  running : Bool := false
  /-- `m_currently_running_act`. -/
  currentlyRunningAct : Bool := false
  /-- The handlers posted on `m_ioc` that have not run. -/
  strand : List (ActionQueue.Handler α) := []
  /-- The actions that `push()`'s handler put into the queue, in order. -/
  pushed : List α := []
  /-- The actions that were started, in order. -/
  started : List α := []
  /-- The started actions whose callback has not been called. -/
  outstanding : List α := []
  deriving DecidableEq

namespace ActionQueue

variable {α : Type}

/-! ## The member functions -/

/-- `boost::asio::dispatch(m_ioc, body)`; `h` names the handler where it is posted. -/
def dispatch (inStrand : Bool) (h : Handler α) (body : ActionQueue α → ActionQueue α)
    (q : ActionQueue α) : ActionQueue α :=
  if inStrand then body q else { q with strand := q.strand ++ [h] }

/-- The handler of `exe_next()`: it starts the front action, if there is one. -/
def exeHandler (q : ActionQueue α) : ActionQueue α :=
  match q.acts with
  | act :: rest =>
    { q with acts := rest, started := q.started ++ [act], outstanding := q.outstanding ++ [act] }
  | [] => { q with currentlyRunningAct := false }

def exeNext (inStrand : Bool) (q : ActionQueue α) : ActionQueue α :=
  dispatch inStrand .exe exeHandler { q with currentlyRunningAct := true }

def run (inStrand : Bool) (q : ActionQueue α) : ActionQueue α :=
  exeNext inStrand { q with running := true }

/-- `m_acts.push(act)`. -/
def enqueue (act : α) (q : ActionQueue α) : ActionQueue α :=
  { q with acts := q.acts ++ [act], pushed := q.pushed ++ [act] }

/-- The handler of `push(act)`. It runs inside the strand, so `run()` starts the action at once. -/
def pushHandler (act : α) (q : ActionQueue α) : ActionQueue α :=
  if (q.enqueue act).currentlyRunningAct then q.enqueue act else run true (q.enqueue act)

def push (act : α) (inStrand : Bool) (q : ActionQueue α) : ActionQueue α :=
  dispatch inStrand (.push act) (pushHandler act) q

/-- The callback that a started action is given. -/
def onDone (inStrand : Bool) (q : ActionQueue α) : ActionQueue α :=
  match q.acts with
  | _ :: _ => exeNext inStrand q
  | [] => { q with currentlyRunningAct := false }

/-- Run a handler of the strand. -/
def handle (h : Handler α) (q : ActionQueue α) : ActionQueue α :=
  match h with
  | .push act => pushHandler act q
  | .exe => exeHandler q

end ActionQueue

/-! ## Runs -/

/-- The atomic steps: a call of `push()` or of `run()`, the `i`-th posted handler, the callback of
the `i`-th action that has not completed. -/
inductive ActionQueue.Act (α : Type) where
  | push (act : α) (inStrand : Bool)
  | run (inStrand : Bool)
  | handler (i : Nat)
  | complete (i : Nat) (inStrand : Bool)
  deriving DecidableEq

namespace ActionQueue

variable {α : Type}

/-- The `i`-th posted handler leaves the strand. -/
def takeHandler (i : Nat) (q : ActionQueue α) : ActionQueue α :=
  { q with strand := q.strand.eraseIdx i }

/-- The `i`-th action that has not completed completes. -/
def takeOutstanding (i : Nat) (q : ActionQueue α) : ActionQueue α :=
  { q with outstanding := q.outstanding.eraseIdx i }

def step (q : ActionQueue α) : Act α → Option (ActionQueue α)
  | .push act inStrand => some (q.push act inStrand)
  | .run inStrand => some (q.run inStrand)
  | .handler i => q.strand[i]?.map fun h => handle h (q.takeHandler i)
  | .complete i inStrand => q.outstanding[i]?.map fun _ => onDone inStrand (q.takeOutstanding i)

/-- The runs of a freshly constructed queue. -/
def system (α : Type) : Lib.Sys (ActionQueue α) (Act α) where
  init q := q = {}
  step := step

/-! ## Tokens -/

def Handler.isExe : Handler α → Bool
  | .push _ => false
  | .exe => true

/-- The pending starts and the actions that have not completed. -/
def tokens (q : ActionQueue α) : Nat := q.strand.countP Handler.isExe + q.outstanding.length

/-- Taking a handler from the strand takes a token exactly if it is a start. -/
theorem tokens_takeHandler {q : ActionQueue α} {i : Nat} {h : Handler α}
    (hi : q.strand[i]? = some h) :
    (q.takeHandler i).tokens + (if h.isExe then 1 else 0) = q.tokens := by
  obtain ⟨hlt, rfl⟩ := List.getElem?_eq_some_iff.mp hi
  have hp := (List.getElem_cons_eraseIdx_perm hlt).countP_eq Handler.isExe
  rw [List.countP_cons] at hp
  simp only [tokens, takeHandler]
  omega

/-- Taking a completed action takes a token. -/
theorem tokens_takeOutstanding {q : ActionQueue α} {i : Nat} {a : α}
    (hi : q.outstanding[i]? = some a) :
    (q.takeOutstanding i).tokens + 1 = q.tokens := by
  obtain ⟨hlt, -⟩ := List.getElem?_eq_some_iff.mp hi
  simp only [tokens, takeOutstanding, List.length_eraseIdx, if_pos hlt]
  omega

/-! ## What every operation keeps -/

/-- Nobody is left behind: the flag is set, or an action is queued, only while a start is pending
or a started action has not completed. -/
structure Live (q : ActionQueue α) : Prop where
  flag : q.currentlyRunningAct = true → 0 < q.tokens
  acts : q.acts ≠ [] → 0 < q.tokens

/-- The started actions followed by the queued ones are the pushed ones. -/
def Ordered (q : ActionQueue α) : Prop := q.started ++ q.acts = q.pushed

/-- One token while the flag is set, none otherwise. -/
def Serial (q : ActionQueue α) : Prop := q.tokens = if q.currentlyRunningAct then 1 else 0

theorem exeHandler_ordered {q : ActionQueue α} (h : q.Ordered) : (exeHandler q).Ordered := by
  unfold exeHandler
  split
  · rename_i act rest ha
    unfold Ordered at h ⊢
    rw [ha] at h
    rw [← h, List.append_assoc]
    rfl
  · exact h

theorem dispatch_ordered {q : ActionQueue α} {b : Bool} {x : Handler α}
    {body : ActionQueue α → ActionQueue α} (h : q.Ordered) (hb : (body q).Ordered) :
    (dispatch b x body q).Ordered := by
  unfold dispatch
  split
  · exact hb
  · exact h

theorem exeNext_ordered {q : ActionQueue α} {b : Bool} (h : q.Ordered) : (exeNext b q).Ordered :=
  dispatch_ordered (q := { q with currentlyRunningAct := true }) h (exeHandler_ordered h)

theorem pushHandler_ordered {q : ActionQueue α} {act : α} (h : q.Ordered) :
    (pushHandler act q).Ordered := by
  have h' : (q.enqueue act).Ordered := by
    unfold Ordered at h ⊢
    simp only [enqueue, ← h, List.append_assoc]
  unfold pushHandler
  split
  · exact h'
  · exact exeNext_ordered (q := { q.enqueue act with running := true }) h'

theorem onDone_ordered {q : ActionQueue α} {b : Bool} (h : q.Ordered) : (onDone b q).Ordered := by
  unfold onDone
  split
  · exact exeNext_ordered h
  · exact h

/-- What a step can be. -/
theorem step_cases {q q' : ActionQueue α} {a : Act α} (hs : q.step a = some q') :
    (∃ act b, a = .push act b ∧ q' = q.push act b) ∨
    (∃ b, a = .run b ∧ q' = q.run b) ∨
    (∃ i h, a = .handler i ∧ q.strand[i]? = some h ∧ q' = handle h (q.takeHandler i)) ∨
    (∃ i b x, a = .complete i b ∧ q.outstanding[i]? = some x ∧
      q' = onDone b (q.takeOutstanding i)) := by
  cases a with
  | push act b => exact .inl ⟨act, b, rfl, (Option.some.inj hs).symm⟩
  | run b => exact .inr (.inl ⟨b, rfl, (Option.some.inj hs).symm⟩)
  | handler i =>
    obtain ⟨h, hi, rfl⟩ := Option.map_eq_some_iff.mp hs
    exact .inr (.inr (.inl ⟨i, h, rfl, hi, rfl⟩))
  | complete i b =>
    obtain ⟨x, hi, rfl⟩ := Option.map_eq_some_iff.mp hs
    exact .inr (.inr (.inr ⟨i, b, x, rfl, hi, rfl⟩))

theorem handle_ordered {q : ActionQueue α} {x : Handler α} (h : q.Ordered) :
    (handle x q).Ordered := by
  cases x with
  | push act => exact pushHandler_ordered h
  | exe => exact exeHandler_ordered h

theorem step_ordered {q q' : ActionQueue α} {a : Act α} (h : q.Ordered)
    (hs : q.step a = some q') : q'.Ordered := by
  rcases step_cases hs with ⟨act, b, -, rfl⟩ | ⟨b, -, rfl⟩ | ⟨i, x, -, -, rfl⟩ |
    ⟨i, b, x, -, -, rfl⟩
  · exact dispatch_ordered h (pushHandler_ordered h)
  · exact exeNext_ordered (q := { q with running := true }) h
  · exact handle_ordered (q := q.takeHandler i) h
  · exact onDone_ordered (q := q.takeOutstanding i) h

theorem exeHandler_tokens (q : ActionQueue α) :
    (q.acts ≠ [] ∧ (exeHandler q).tokens = q.tokens + 1 ∧
      (exeHandler q).currentlyRunningAct = q.currentlyRunningAct) ∨
    ((exeHandler q).acts = [] ∧ (exeHandler q).tokens = q.tokens ∧
      (exeHandler q).currentlyRunningAct = false) := by
  unfold exeHandler
  split
  · rename_i act rest ha
    refine .inl ⟨by rw [ha]; exact List.cons_ne_nil _ _, ?_, rfl⟩
    simp only [tokens, List.length_append, List.length_singleton]
    omega
  · rename_i ha
    exact .inr ⟨ha, rfl, rfl⟩

/-- An operation has made a token, or has found that there is nothing to do. -/
def Advances (q q' : ActionQueue α) : Prop :=
  (q'.tokens = q.tokens + 1 ∧ q'.currentlyRunningAct = true) ∨
    (q'.acts = [] ∧ q'.tokens = q.tokens ∧ q'.currentlyRunningAct = false)

theorem exeNext_advances (b : Bool) (q : ActionQueue α) : Advances q (exeNext b q) := by
  cases b with
  | false =>
    refine .inl ⟨?_, rfl⟩
    simp only [exeNext, dispatch, tokens, Bool.false_eq_true, ↓reduceIte, List.countP_append,
      List.countP_singleton, Handler.isExe]
    omega
  | true =>
    rcases exeHandler_tokens { q with currentlyRunningAct := true } with ⟨-, ht, hf⟩ | h
    · exact .inl ⟨ht, hf⟩
    · exact .inr h

theorem onDone_advances (b : Bool) (q : ActionQueue α) : Advances q (onDone b q) := by
  unfold onDone
  split
  · exact exeNext_advances b q
  · rename_i ha
    exact .inr ⟨ha, rfl, rfl⟩

/-- A queue that has just made a token, or has nothing to do, is live. -/
theorem live_of_tokens {q : ActionQueue α}
    (h : 0 < q.tokens ∨ (q.acts = [] ∧ q.currentlyRunningAct = false)) : q.Live := by
  rcases h with ht | ⟨ha, hf⟩
  · exact ⟨fun _ => ht, fun _ => ht⟩
  · exact ⟨fun h => (by rw [hf] at h; cases h), fun h => absurd ha h⟩

theorem exeHandler_live (q : ActionQueue α) : (exeHandler q).Live := by
  rcases exeHandler_tokens q with ⟨-, ht, -⟩ | ⟨ha, -, hf⟩
  · exact live_of_tokens (.inl (by omega))
  · exact live_of_tokens (.inr ⟨ha, hf⟩)

theorem Advances.live {q q' : ActionQueue α} (h : Advances q q') : q'.Live := by
  rcases h with ⟨ht, -⟩ | ⟨ha, -, hf⟩
  · exact live_of_tokens (.inl (by omega))
  · exact live_of_tokens (.inr ⟨ha, hf⟩)

theorem pushHandler_live {q : ActionQueue α} {act : α} (h : q.Live) : (pushHandler act q).Live := by
  unfold pushHandler
  split
  · rename_i hf
    exact live_of_tokens (.inl (h.flag hf))
  · exact (exeNext_advances true _).live

theorem handle_live {q : ActionQueue α} {i : Nat} {x : Handler α} (h : q.Live)
    (hi : q.strand[i]? = some x) : (handle x (q.takeHandler i)).Live := by
  cases x with
  | push act =>
    have ht : (q.takeHandler i).tokens = q.tokens := tokens_takeHandler hi
    exact pushHandler_live ⟨fun hf => ht ▸ h.flag hf, fun ha => ht ▸ h.acts ha⟩
  | exe => exact exeHandler_live _

theorem push_live {q : ActionQueue α} {act : α} {b : Bool} (h : q.Live) : (q.push act b).Live := by
  cases b with
  | true => exact pushHandler_live h
  | false =>
    have ht : (q.push act false).tokens = q.tokens := by
      simp [push, dispatch, tokens, Handler.isExe]
    exact ⟨fun hf => ht ▸ h.flag hf, fun ha => ht ▸ h.acts ha⟩

theorem step_live {q q' : ActionQueue α} {a : Act α} (h : q.Live) (hs : q.step a = some q') :
    q'.Live := by
  rcases step_cases hs with ⟨act, b, -, rfl⟩ | ⟨b, -, rfl⟩ | ⟨i, x, -, hi, rfl⟩ |
    ⟨i, b, x, -, -, rfl⟩
  · exact push_live h
  · exact (exeNext_advances b _).live
  · exact handle_live h hi
  · exact (onDone_advances b _).live

/-! ## What an operation starts -/

/-- The actions started between the two queues, which have not completed. -/
def Starts (q q' : ActionQueue α) : Prop :=
  ∃ l, q'.started = q.started ++ l ∧ q'.outstanding = q.outstanding ++ l

theorem Starts.none {q q' : ActionQueue α} (hs : q'.started = q.started)
    (ho : q'.outstanding = q.outstanding) : Starts q q' :=
  ⟨[], by rw [hs, List.append_nil], by rw [ho, List.append_nil]⟩

theorem exeHandler_starts (q : ActionQueue α) : Starts q (exeHandler q) := by
  unfold exeHandler
  split
  · exact ⟨_, rfl, rfl⟩
  · exact .none rfl rfl

theorem exeNext_starts (b : Bool) (q : ActionQueue α) : Starts q (exeNext b q) := by
  cases b with
  | true => exact exeHandler_starts { q with currentlyRunningAct := true }
  | false => exact .none rfl rfl

theorem run_starts (b : Bool) (q : ActionQueue α) : Starts q (run b q) :=
  exeNext_starts b { q with running := true }

theorem pushHandler_starts (act : α) (q : ActionQueue α) : Starts q (pushHandler act q) := by
  unfold pushHandler
  split
  · exact .none rfl rfl
  · exact run_starts true (q.enqueue act)

theorem push_starts (act : α) (b : Bool) (q : ActionQueue α) : Starts q (push act b q) := by
  cases b with
  | true => exact pushHandler_starts act q
  | false => exact .none rfl rfl

theorem handle_starts (x : Handler α) (i : Nat) (q : ActionQueue α) :
    Starts q (handle x (q.takeHandler i)) := by
  cases x with
  | push act => exact pushHandler_starts act (q.takeHandler i)
  | exe => exact exeHandler_starts (q.takeHandler i)

theorem onDone_starts (b : Bool) (q : ActionQueue α) : Starts q (onDone b q) := by
  unfold onDone
  split
  · exact exeNext_starts b q
  · exact .none rfl rfl

/-! ## The actions that wait -/

/-- The actions that are queued, or whose `push()` is posted. -/
def Waits (q : ActionQueue α) (act : α) : Prop := act ∈ q.acts ∨ .push act ∈ q.strand

/-- Of the actions that wait, and of `new`, some were started and the others wait. -/
def Draws (new : List α) (q q' : ActionQueue α) : Prop :=
  (∀ act, q'.Waits act → q.Waits act ∨ act ∈ new) ∧
    ∀ act ∈ q'.started.drop q.started.length, q.Waits act ∨ act ∈ new

theorem Draws.none {new : List α} {q q' : ActionQueue α}
    (hw : ∀ act, q'.Waits act → q.Waits act ∨ act ∈ new) (hs : q'.started = q.started) :
    Draws new q q' := by
  refine ⟨hw, fun act ha => ?_⟩
  rw [hs, List.drop_length] at ha
  exact absurd ha List.not_mem_nil

theorem exeHandler_draws (q : ActionQueue α) : Draws [] q (exeHandler q) := by
  unfold exeHandler
  split
  · rename_i act rest ha
    have hin : ∀ {x}, x ∈ q.acts → q.Waits x ∨ x ∈ [] := fun hx => .inl (.inl hx)
    constructor
    · rintro x (hx | hx)
      · exact hin (ha ▸ List.mem_cons_of_mem _ hx)
      · exact .inl (.inr hx)
    · intro x hx
      rw [List.drop_left, List.mem_singleton] at hx
      exact hin (ha ▸ hx ▸ List.mem_cons_self)
  · exact .none (fun _ => .inl) rfl

theorem exeNext_draws (b : Bool) (q : ActionQueue α) : Draws [] q (exeNext b q) := by
  cases b with
  | true => exact exeHandler_draws { q with currentlyRunningAct := true }
  | false =>
    refine .none (fun act h => ?_) rfl
    simpa [exeNext, dispatch, Waits] using h

theorem run_draws (b : Bool) (q : ActionQueue α) : Draws [] q (run b q) :=
  exeNext_draws b { q with running := true }

theorem pushHandler_draws (act : α) (q : ActionQueue α) : Draws [act] q (pushHandler act q) := by
  have henqueue : ∀ x, (q.enqueue act).Waits x → q.Waits x ∨ x ∈ [act] := by
    rintro x (hx | hx)
    · rcases List.mem_append.mp hx with hx | hx
      · exact .inl (.inl hx)
      · exact .inr hx
    · exact .inl (.inr hx)
  unfold pushHandler
  split
  · exact .none henqueue rfl
  · obtain ⟨hw, hs⟩ := run_draws true (q.enqueue act)
    constructor
    · intro x hx
      exact henqueue x ((hw x hx).resolve_right List.not_mem_nil)
    · intro x hx
      exact henqueue x ((hs x hx).resolve_right List.not_mem_nil)

theorem push_draws (act : α) (b : Bool) (q : ActionQueue α) : Draws [act] q (push act b q) := by
  cases b with
  | true => exact pushHandler_draws act q
  | false =>
    refine .none (fun x hx => ?_) rfl
    simp only [push, dispatch, Waits, Bool.false_eq_true, if_false, List.mem_append,
      List.mem_singleton, Handler.push.injEq] at hx ⊢
    exact or_assoc.mpr hx

/-- A handler of the strand draws on its own action only, which was waiting. -/
theorem handle_draws {q : ActionQueue α} {i : Nat} {x : Handler α} (h : q.strand[i]? = some x) :
    Draws [] q (handle x (q.takeHandler i)) := by
  have htake : ∀ act, (q.takeHandler i).Waits act → q.Waits act :=
    fun _ => .imp id List.mem_of_mem_eraseIdx
  cases x with
  | push act =>
    have hact : q.Waits act := .inr (List.mem_of_getElem? h)
    obtain ⟨hw, hs⟩ := pushHandler_draws act (q.takeHandler i)
    have hin : ∀ x, (q.takeHandler i).Waits x ∨ x ∈ [act] → q.Waits x ∨ x ∈ [] := by
      rintro x (hx | hx)
      · exact .inl (htake x hx)
      · exact .inl (List.mem_singleton.mp hx ▸ hact)
    exact ⟨fun x hx => hin x (hw x hx), fun x hx => hin x (hs x hx)⟩
  | exe =>
    obtain ⟨hw, hs⟩ := exeHandler_draws (q.takeHandler i)
    exact ⟨fun x hx => (hw x hx).imp_left (htake x), fun x hx => (hs x hx).imp_left (htake x)⟩

theorem onDone_draws (b : Bool) (q : ActionQueue α) : Draws [] q (onDone b q) := by
  unfold onDone
  split
  · exact exeNext_draws b q
  · exact .none (fun _ => .inl) rfl

/-- A token is a pending start or an action that has not completed. -/
theorem tokens_pos {q : ActionQueue α} (h : 0 < q.tokens) :
    q.outstanding ≠ [] ∨ Handler.exe ∈ q.strand := by
  unfold tokens at h
  by_cases ho : q.outstanding = []
  · rw [ho] at h
    obtain ⟨x, hx, he⟩ :=
      List.countP_pos_iff.mp (show 0 < q.strand.countP Handler.isExe by simpa using h)
    cases x with
    | push act => cases he
    | exe => exact .inr hx
  · exact .inl ho

theorem inductive_ordered_live :
    (system α).Inductive Lib.Sys.free (fun q => q.Ordered ∧ q.Live) where
  base q hq := by
    cases hq
    exact ⟨rfl, live_of_tokens (.inr ⟨rfl, rfl⟩)⟩
  keep q a q' h _ hs := ⟨step_ordered h.1 hs, step_live h.2 hs⟩

/-- **Nothing is lost, duplicated or reordered, and nothing is left behind.** In every reachable
state the actions started so far followed by the queued ones are the pushed ones, in push order;
and while an action is queued, some started action has not completed or a start is pending. -/
theorem started_append_acts {q : ActionQueue α} (h : (system α).Reach Lib.Sys.free q) :
    q.started ++ q.acts = q.pushed ∧
      (q.acts ≠ [] → q.outstanding ≠ [] ∨ Handler.exe ∈ q.strand) := by
  obtain ⟨ho, hl⟩ := inductive_ordered_live.reach h
  exact ⟨ho, fun ha => tokens_pos (hl.acts ha)⟩

/-- Three pushes: the first action has completed, and the start of the second is posted. -/
theorem started_append_acts_three_pushes :
    let q : ActionQueue Nat :=
      { running := true, currentlyRunningAct := true, acts := [1, 2], strand := [.exe],
        pushed := [0, 1, 2], started := [0] }
    q.started ++ q.acts = q.pushed ∧ (q.acts ≠ [] → q.outstanding ≠ [] ∨ Handler.exe ∈ q.strand) :=
  started_append_acts (Lib.Sys.reach_exec Lib.Sys.free_sound
    [.push 0 false, .handler 0, .push 1 true, .push 2 true, .complete 0 false] (.init rfl)
    (by decide))

/-! ## One action at a time -/

theorem Advances.serial {q q' : ActionQueue α} (h : Advances q q') (hq : q.tokens = 0) :
    q'.Serial := by
  unfold Serial
  rcases h with ⟨ht, hf⟩ | ⟨-, ht, hf⟩
  · rw [ht, hf, hq]; rfl
  · rw [ht, hf, hq]; rfl

theorem pushHandler_serial {q : ActionQueue α} {act : α} (h : q.Serial) :
    (pushHandler act q).Serial := by
  unfold pushHandler
  split
  · exact h
  · rename_i hf
    refine (exeNext_advances true _).serial (?_ : q.tokens = 0)
    unfold Serial at h
    rw [h]
    exact if_neg hf

/-- The token that a serial queue has accounts for the flag. -/
theorem Serial.flag_of_pos {q : ActionQueue α} (h : q.Serial) (hp : 0 < q.tokens) :
    q.currentlyRunningAct = true ∧ q.tokens = 1 := by
  unfold Serial at h
  split at h
  · rename_i hf; exact ⟨hf, h⟩
  · omega

theorem handle_serial {q : ActionQueue α} {i : Nat} {x : Handler α} (h : q.Serial)
    (hi : q.strand[i]? = some x) : (handle x (q.takeHandler i)).Serial := by
  have ht := tokens_takeHandler hi
  cases x with
  | push act =>
    have ht : (q.takeHandler i).tokens = q.tokens := ht
    refine pushHandler_serial ?_
    unfold Serial at h ⊢
    rw [ht, h]
    rfl
  | exe =>
    have ht : (q.takeHandler i).tokens + 1 = q.tokens := ht
    obtain ⟨hf, h1⟩ := h.flag_of_pos (by omega)
    unfold Serial
    rcases exeHandler_tokens (q.takeHandler i) with ⟨-, ht', hf'⟩ | ⟨-, ht', hf'⟩
    · have : (handle .exe (q.takeHandler i)).currentlyRunningAct = true := hf'.trans hf
      rw [this]
      show (exeHandler (q.takeHandler i)).tokens = 1
      omega
    · have : (handle .exe (q.takeHandler i)).currentlyRunningAct = false := hf'
      rw [this]
      show (exeHandler (q.takeHandler i)).tokens = 0
      omega

/-- `run()` is only called while no action is started and no start is pending. -/
def RunsWhenIdle (q : ActionQueue α) (a : Act α) : Prop :=
  ∀ b, a = .run b → q.currentlyRunningAct = false

theorem step_serial {q q' : ActionQueue α} {a : Act α} (h : q.Serial) (hr : RunsWhenIdle q a)
    (hs : q.step a = some q') : q'.Serial := by
  rcases step_cases hs with ⟨act, b, -, rfl⟩ | ⟨b, ha, rfl⟩ | ⟨i, x, -, hi, rfl⟩ |
    ⟨i, b, x, -, hi, rfl⟩
  · cases b with
    | true => exact pushHandler_serial h
    | false =>
      unfold Serial at h ⊢
      simpa [push, dispatch, tokens, Handler.isExe] using h
  · refine (exeNext_advances b _).serial (?_ : q.tokens = 0)
    unfold Serial at h
    rw [h, hr b ha]
    rfl
  · exact handle_serial h hi
  · have ht := tokens_takeOutstanding hi
    obtain ⟨-, h1⟩ := h.flag_of_pos (by omega)
    exact (onDone_advances b _).serial (by omega)

theorem inductive_serial : (system α).Inductive RunsWhenIdle Serial where
  base q hq := by cases hq; rfl
  keep _ _ _ h hr hs := step_serial h hr hs

theorem Serial.outstanding_le {q : ActionQueue α} (h : q.Serial) : q.outstanding.length ≤ 1 := by
  unfold Serial tokens at h
  split at h <;> omega

/-- **One action at a time**, while `run()` is only called on an idle queue: at most one started
action has not called its callback. -/
theorem outstanding_le_one {q : ActionQueue α} (h : (system α).Reach RunsWhenIdle q) :
    q.outstanding.length ≤ 1 := by
  have hs : q.Serial := inductive_serial.reach h
  have ht : q.tokens ≤ 1 := by
    unfold Serial at hs
    rw [hs]
    split <;> omega
  unfold tokens at ht
  omega

/-- The executable form of `RunsWhenIdle`. -/
def runsWhenIdle (q : ActionQueue α) : Act α → Bool
  | .run _ => !q.currentlyRunningAct
  | _ => true

theorem runsWhenIdle_sound {q : ActionQueue α} {a : Act α} (h : runsWhenIdle q a = true) :
    RunsWhenIdle q a := by
  rintro b rfl
  simpa [runsWhenIdle] using h

theorem outstanding_le_one_two_pushes :
    (({ running := true, currentlyRunningAct := true, acts := [1], pushed := [0, 1], started := [0],
        outstanding := [0] } : ActionQueue Nat).outstanding).length ≤ 1 :=
  outstanding_le_one (Lib.Sys.reach_exec (fun _ _ => runsWhenIdle_sound)
    [.run false, .handler 0, .push 0 false, .push 1 false, .handler 0, .handler 0] (.init rfl)
    (by decide))

/-- `run()` does not look whether the queue is running: with an action outstanding it starts the
next one. The calls are those of a connection that reads twice before `go_active()`. -/
theorem run_starts_second :
    ¬ ∀ q : ActionQueue Nat, (system Nat).Reach Lib.Sys.free q → q.outstanding.length ≤ 1 := by
  intro h
  have hr : (system Nat).Reach Lib.Sys.free
      { running := true, currentlyRunningAct := true, pushed := [0, 1], started := [0, 1],
        outstanding := [0, 1] } :=
    Lib.Sys.reach_exec Lib.Sys.free_sound
      [.push 0 false, .handler 0, .push 1 false, .handler 0, .run false, .handler 0] (.init rfl)
      (by decide)
  exact absurd (h _ hr) (by decide)

/-! ## Before `run()` -/

/-- The step is not a call of `run()`. -/
def NotRun (_ : ActionQueue α) (a : Act α) : Prop := ∀ b, a ≠ .run b

/-- The step runs the handler of a `push()`. -/
def RunsPush (q : ActionQueue α) (a : Act α) : Prop :=
  (∃ act, a = .push act true) ∨ ∃ i act, a = .handler i ∧ q.strand[i]? = some (.push act)

/-- A queue that has started nothing has nothing to do. -/
def Unstarted (q : ActionQueue α) : Prop :=
  q.started = [] → q.currentlyRunningAct = false ∧ q.acts = []

theorem Starts.ne_nil {q q' : ActionQueue α} (h : Starts q q') (hq : q.started ≠ []) :
    q'.started ≠ [] := by
  obtain ⟨l, hs, -⟩ := h
  rw [hs]
  exact List.append_ne_nil_of_left_ne_nil hq l

theorem exeHandler_unstarted {q : ActionQueue α} : (exeHandler q).Unstarted := by
  unfold exeHandler
  split
  · intro h
    exact absurd h (List.append_ne_nil_of_right_ne_nil _ (List.cons_ne_nil _ _))
  · rename_i ha
    exact fun _ => ⟨rfl, ha⟩

/-- The handler of `push()` starts the action, if nothing was started before. -/
theorem pushHandler_started {q : ActionQueue α} {act : α} (h : q.Unstarted) :
    (pushHandler act q).started ≠ [] := by
  by_cases hq : q.started = []
  · obtain ⟨hf, ha⟩ := h hq
    simp [pushHandler, enqueue, run, exeNext, dispatch, exeHandler, hf, ha]
  · unfold pushHandler
    split
    · exact hq
    · exact (run_starts true (q.enqueue act)).ne_nil hq

theorem onDone_unstarted {q : ActionQueue α} {b : Bool} (h : q.Unstarted) :
    (onDone b q).Unstarted := by
  unfold onDone
  split
  · rename_i act rest ha
    refine fun he => absurd he ((exeNext_starts b q).ne_nil fun hq => ?_)
    rw [(h hq).2] at ha
    cases ha
  · rename_i ha
    exact fun _ => ⟨rfl, ha⟩

theorem handle_unstarted {q : ActionQueue α} {x : Handler α} (h : q.Unstarted) :
    (handle x q).Unstarted := by
  cases x with
  | push act => exact fun he => absurd he (pushHandler_started h)
  | exe => exact exeHandler_unstarted

theorem step_unstarted {q q' : ActionQueue α} {a : Act α} (h : q.Unstarted) (hr : NotRun q a)
    (hs : q.step a = some q') : q'.Unstarted := by
  rcases step_cases hs with ⟨act, b, -, rfl⟩ | ⟨b, ha, rfl⟩ | ⟨i, x, -, -, rfl⟩ |
    ⟨i, b, x, -, -, rfl⟩
  · cases b with
    | true => exact handle_unstarted (x := .push act) h
    | false => exact h
  · exact absurd ha (hr b)
  · exact handle_unstarted (q := q.takeHandler i) h
  · exact onDone_unstarted (q := q.takeOutstanding i) h

/-- Only the handler of `push()` puts an action into the queue. -/
theorem step_pushed {q q' : ActionQueue α} {a : Act α} (hr : ¬ RunsPush q a)
    (hs : q.step a = some q') : q'.pushed = q.pushed := by
  have hexe : ∀ q : ActionQueue α, (exeHandler q).pushed = q.pushed := fun q => by
    unfold exeHandler; split <;> rfl
  have hnext : ∀ b (q : ActionQueue α), (exeNext b q).pushed = q.pushed := fun b q => by
    cases b with
    | true => exact hexe _
    | false => rfl
  rcases step_cases hs with ⟨act, b, ha, rfl⟩ | ⟨b, -, rfl⟩ | ⟨i, x, ha, hi, rfl⟩ |
    ⟨i, b, x, -, -, rfl⟩
  · cases b with
    | true => exact absurd (.inl ⟨act, ha⟩) hr
    | false => rfl
  · exact hnext b _
  · cases x with
    | push act => exact absurd (.inr ⟨i, act, ha, hi⟩) hr
    | exe => exact hexe _
  · unfold onDone
    split
    · exact hnext b _
    · rfl

theorem inductive_unstarted :
    (system α).Inductive NotRun (fun q => q.Ordered ∧ q.Unstarted) where
  base q hq := by cases hq; exact ⟨rfl, fun _ => ⟨rfl, rfl⟩⟩
  keep _ _ _ h hr hs := ⟨step_ordered h.1 hs, step_unstarted h.2 hr hs⟩

/-- **Before `run()`**: as long as no handler of `push()` has run, nothing is started, and the
first handler of a `push()` that runs starts an action, `run()` or not. -/
theorem started_eq_nil_iff (q : ActionQueue α) :
    ((system α).Reach NotRun q → (q.started = [] ↔ q.pushed = [])) ∧
    ((system α).Reach (fun q a => NotRun q a ∧ ¬ RunsPush q a) q → q.started = []) := by
  have hiff : ∀ q, (system α).Reach NotRun q → (q.started = [] ↔ q.pushed = []) := by
    intro q h
    obtain ⟨ho, hu⟩ := inductive_unstarted.reach h
    unfold Ordered at ho
    constructor
    · intro hq
      rw [← ho, hq, (hu hq).2]
      rfl
    · intro hp
      rw [hp] at ho
      exact (List.append_eq_nil_iff.mp ho).1
  refine ⟨hiff q, fun h => (hiff q (h.mono fun _ _ ho => ho.1)).mpr ?_⟩
  have hinv : (system α).Inductive (fun q a => NotRun q a ∧ ¬ RunsPush q a) (·.pushed = []) :=
    { base := fun s hs => by cases hs; rfl
      keep := fun s a s' hp ho hs => (step_pushed ho.2 hs).trans hp }
  exact hinv.reach h

theorem started_eq_nil_iff_push :
    (({ strand := [.push 0] } : ActionQueue Nat).started = [] ↔
      ({ strand := [.push 0] } : ActionQueue Nat).pushed = []) ∧
    ({ strand := [.push 0] } : ActionQueue Nat).started = [] := by
  have hr : (system Nat).Reach (fun q a => NotRun q a ∧ ¬ RunsPush q a) { strand := [.push 0] } :=
    .step (.push 0 false) (.init rfl)
      ⟨fun _ h => (by cases h), by rintro (⟨_, h⟩ | ⟨_, _, h, -⟩) <;> cases h⟩ rfl
  exact ⟨(started_eq_nil_iff _).1 (hr.mono fun _ _ h => h.1), (started_eq_nil_iff _).2 hr⟩

/-- `push()` calls `run()` itself: an action pushed on a fresh queue is started. -/
theorem push_starts_before_run :
    ¬ ∀ q : ActionQueue Nat, (system Nat).Reach NotRun q → q.started = [] := by
  intro h
  have hr : (system Nat).Reach NotRun
      { running := true, currentlyRunningAct := true, pushed := [0], started := [0],
        outstanding := [0] } :=
    .step (.handler 0) (.step (.push 0 false) (.init rfl) (fun _ h => (by cases h)) rfl)
      (fun _ h => (by cases h)) rfl
  exact absurd (h _ hr) (by decide)

end ActionQueue

end Malloy
