import Mathlib.Algebra.GroupWithZero.Nat
import Malloy.Core.ControllerRunResult.Owning
import Malloy.Lib.Draining

/-!
# `run()` and the destructor of a run result return

`run()` is to "block until all queued async actions completed"; the destructor stops the context and
joins the threads. Both wait for others: `run()` for the context, which stops when it has no work
left, and the destructor for the threads, which return when the context has stopped.

* `IoAct.windsDown`: the steps of the threads and of the handlers, and those of `run()` and of the
  destructor once they were called; a handler returns, and starts no new operation.
  `woundDown_step`: each of them leaves less to do.
* `Outside`: the destructor was not called by a handler in one of the threads that it joins.
* `rest_of_final`: what holds where none of them can be taken.
* `session_settles`: the runs.
-/

namespace Malloy

/-! ## What is left to do -/

def ThreadPhase.price : ThreadPhase → Nat
  | .created => 3
  | .inRun | .inDestructor => 2
  | .returned => 1
  | .joined => 0

def RunStage.price : RunStage → Nat
  | .inRun | .joining _ => 1
  | .idle | .destroyed => 0

/-- The program calls nothing, and the handlers start nothing. -/
def IoAct.windsDown : IoAct → Bool
  | .runReturns _ | .join _ | .enter _ | .leave _ | .handle 0 => true
  | _ => false

/-- A call on a run result, or the return from one. -/
def IoAct.ofResult : IoAct → Bool
  | .move _ | .run _ | .runReturns _ | .destroy _ | .destroyInThread _ _ | .join _ => true
  | .throwInRun _ => true
  | _ => false

/-- A call of the constructor. -/
def IoAct.starts : IoAct → Bool
  | .start | .startFails _ => true
  | _ => false

namespace IoSession

variable {cfg : ControllerConfig} {s s' d : IoSession} {i j k t : Nat} {r r' : ControllerRunResult}

def WindsDown (_ : IoSession) (a : IoAct) : Prop := a.windsDown = true

/-- The work that is left. -/
def left (s : IoSession) : Nat :=
  (s.threads.map ThreadPhase.price).sum + (s.results.map fun r => r.stage.price).sum + s.io.ops

theorem sum_map_set {α : Type} (f : α → Nat) {l : List α} {n : Nat} {a : α} (h : l[n]? = some a)
    (b : α) : ((l.set n b).map f).sum + f a = (l.map f).sum + f b := by
  induction l generalizing n with
  | nil => cases h
  | cons x l ih =>
    cases n with
    | zero =>
      cases h
      simp only [List.set_cons_zero, List.map_cons, List.sum_cons]
      omega
    | succ n =>
      have h := ih (n := n) h
      simp only [List.set_cons_succ, List.map_cons, List.sum_cons]
      omega

theorem left_setThread {p q : ThreadPhase} (ht : s.threads[t]? = some p) :
    (s.setThread t q).left + p.price = s.left + q.price := by
  have h := sum_map_set ThreadPhase.price ht q
  simp only [left, setThread]
  omega

theorem left_setResult (hi : s.results[i]? = some r) (r' : ControllerRunResult) :
    (s.setResult i r').left + r.stage.price = s.left + r'.stage.price := by
  have h := sum_map_set (fun r => r.stage.price) hi r'
  simp only [left, setResult]
  omega

/-- What such a step does to the run results: the ones in `run()` or in the destructor go on. -/
inductive GoesOn (destroyed : Bool) : RunStage → RunStage → Prop
  | same (stage : RunStage) : GoesOn destroyed stage stage
  | returns : GoesOn destroyed .inRun .idle
  | joins (t : Nat) (rest : List Nat) : GoesOn destroyed (.joining (t :: rest)) (.joining rest)
  | ends : destroyed = true → GoesOn destroyed (.joining []) .destroyed

/-- The run results go on, with the contexts that they have. -/
def ResultsGoOn (s s' : IoSession) : Prop :=
  ∀ (i : Nat) (r : ControllerRunResult), s.results[i]? = some r →
    ∃ r' : ControllerRunResult, s'.results[i]? = some r' ∧ r'.ioCtx = r.ioCtx ∧
      GoesOn s'.io.destroyed r.stage r'.stage

theorem resultsGoOn_of_eq (h : s'.results = s.results) : ResultsGoOn s s' := fun _ r hi =>
  ⟨r, by rw [h]; exact hi, rfl, .same r.stage⟩

theorem resultsGoOn_set (hi : s.results[i]? = some r) (h : s'.results = s.results.set i r')
    (hio : r'.ioCtx = r.ioCtx) (hgo : GoesOn s'.io.destroyed r.stage r'.stage) :
    ResultsGoOn s s' := by
  intro j q hj
  obtain ⟨hlt, -⟩ := List.getElem?_eq_some_iff.mp hi
  by_cases hij : i = j
  · subst hij
    cases hi.symm.trans hj
    exact ⟨r', by rw [h, List.getElem?_set_self hlt], hio, hgo⟩
  · exact ⟨q, by rw [h, List.getElem?_set_ne hij]; exact hj, rfl, .same q.stage⟩

theorem ops_handle (io : IoContext) : (io.handle 0).ops = io.ops - 1 := by
  unfold IoContext.handle
  rcases IoContext.workFinished_cases { io with ops := io.ops - 1 + 0 } with ⟨-, h⟩ | ⟨-, h⟩ <;>
    rw [h] <;> rfl

/-- No handler is in the destructor of the run result that would join its thread. -/
def Outside (s : IoSession) : Prop := ∀ p ∈ s.threads, p ≠ .inDestructor

theorem Outside.set (h : s.Outside) {q : ThreadPhase} (hq : q ≠ .inDestructor)
    (he : s'.threads = s.threads.set t q) : s'.Outside := by
  intro p hp
  rw [he] at hp
  rcases List.mem_or_eq_of_mem_set hp with hp | rfl
  · exact h p hp
  · exact hq

/-- What such a step does. -/
structure WoundDown (s s' : IoSession) : Prop where
  left : s'.left < s.left
  fault : s'.fault = s.fault
  alive : s.io.destroyed = false
  results : ResultsGoOn s s'
  outside : s'.Outside

theorem woundDown_runReturns (hp : Place s) (hout : s.Outside)
    (h : s.stepOf cfg (.runReturns i) = some s') : WoundDown s s' := by
  obtain ⟨r, hr, h⟩ := Option.bind_eq_some_iff.mp h
  obtain ⟨hi, hst⟩ := getElem?_of_at? hr
  split at h
  · cases h
    obtain ⟨k, ho⟩ := hp.owns_of_stage hi (by simp [hst]) (by simp [hst])
    rw [ho.onIo]
    refine ⟨?_, rfl, ho.owner.alive, resultsGoOn_set hi rfl rfl (hst ▸ .returns), hout⟩
    have hleft := left_setResult hi { r with stage := .idle }
    rw [hst] at hleft
    exact Nat.lt_of_succ_le (Nat.le_of_eq hleft)
  · cases h

theorem woundDown_join (hp : Place s) (hout : s.Outside)
    (h : s.stepOf cfg (.join i) = some s') : WoundDown s s' := by
  obtain ⟨r, hi, h⟩ := Option.bind_eq_some_iff.mp h
  split at h
  · rename_i rest hst
    obtain ⟨k, ho⟩ := hp.owns_of_stage hi (by simp [hst]) (by simp [hst])
    cases rest with
    | nil =>
      cases h
      rw [ho.destroyMembers_eq hst]
      refine ⟨?_, rfl, ho.owner.alive, resultsGoOn_set hi rfl rfl (hst ▸ .ends rfl), hout⟩
      have hleft := left_setResult hi { r with stage := .destroyed }
      rw [hst] at hleft
      exact Nat.lt_of_succ_le (Nat.le_of_eq hleft)
    | cons t rest =>
      obtain ⟨p, ht, hpj⟩ := ho.owner.not_joined hst
      simp only [IoSession.join, ht] at h
      cases p with
      | created => cases h
      | inRun => cases h
      | joined => exact absurd rfl hpj
      | inDestructor => exact absurd rfl (hout _ (List.mem_of_getElem? ht))
      | returned =>
        cases h
        refine ⟨?_, rfl, ho.owner.alive, resultsGoOn_set hi rfl rfl (hst ▸ .joins t rest),
          hout.set (by decide) rfl⟩
        have hthread := left_setThread (q := .joined) ht
        have hleft := left_setResult (s := s.setThread t .joined) hi
          { r with stage := .joining rest }
        rw [hst] at hleft
        simp only [RunStage.price, ThreadPhase.price] at hleft hthread
        omega
  · cases h

/-- A thread enters `m_io_ctx->run()`, or returns from it. -/
theorem woundDown_thread (hp : Place s) (hout : s.Outside) {p q : ThreadPhase}
    (ht : s.threads[t]? = some p) (hpj : p ≠ .joined) (hq : q ≠ .inDestructor)
    (hprice : q.price < p.price) : WoundDown s ((s.onIo id).setThread t q) := by
  obtain ⟨i, r, k, ho⟩ := hp.owns_of_thread ht hpj
  rw [ho.onIo]
  refine ⟨?_, rfl, ho.owner.alive, resultsGoOn_of_eq rfl, hout.set hq rfl⟩
  have hthread := left_setThread (q := q) ht
  show (s.setThread t q).left < s.left
  omega

theorem woundDown_handle (hp : Place s) (hout : s.Outside)
    (h : s.stepOf cfg (.handle 0) = some s') : WoundDown s s' := by
  simp only [stepOf] at h
  split at h
  · rename_i hr
    cases h
    obtain ⟨i, r, k, ho⟩ := hp.owns_of_inRun hr.1
    rw [ho.onIo]
    refine ⟨?_, rfl, ho.owner.alive, resultsGoOn_of_eq rfl, hout⟩
    have hpos := (IoContext.ready_iff.mp hr.2).2
    simp only [IoSession.left, ops_handle]
    omega
  · cases h

/-- **Each step leaves less to do**, and is one of a context that is there. -/
theorem woundDown_step {a : IoAct} (hp : Place s) (hout : s.Outside) (ha : a.windsDown = true)
    (h : s.stepOf cfg a = some s') : WoundDown s s' := by
  cases a with
  | runReturns i => exact woundDown_runReturns hp hout h
  | join i => exact woundDown_join hp hout h
  | enter t =>
    simp only [stepOf] at h
    split at h
    · rename_i ht
      cases h
      exact woundDown_thread hp hout ht (by decide) (by decide) (by decide)
    · cases h
  | leave t =>
    simp only [stepOf] at h
    split at h
    · rename_i ht
      cases h
      exact woundDown_thread hp hout ht.1 (by decide) (by decide) (by decide)
    · cases h
  | handle n =>
    cases n with
    | succ n => cases ha
    | zero => exact woundDown_handle hp hout h
  | _ => cases ha

/-! ## The number of threads -/

@[simp] theorem threads_onIo (f : IoContext → IoContext) : (s.onIo f).threads = s.threads := by
  unfold onIo fail
  split <;> rfl

@[simp] theorem results_onIo (f : IoContext → IoContext) : (s.onIo f).results = s.results := by
  unfold onIo fail
  split <;> rfl

@[simp] theorem threads_setResult : (s.setResult i r).threads = s.threads := rfl

theorem threads_destroyMembers : (s.destroyMembers i r).threads = s.threads := by
  unfold destroyMembers fail
  split
  · rw [threads_setResult]
    split <;> split <;> simp
  · rfl

theorem threads_destructor : (s.destructor i r).threads = s.threads := by
  unfold destructor
  split
  · exact threads_destroyMembers
  · simp

theorem threads_run : (s.run i r).threads = s.threads := by
  unfold run
  split
  · rfl
  · simp

theorem threads_join {rest : List Nat} (h : s.join i r rest = some s') :
    s'.threads.length = s.threads.length := by
  cases rest with
  | nil =>
    cases h
    rw [threads_destroyMembers]
  | cons t rest =>
    simp only [join] at h
    split at h <;> cases h
    · exact List.length_set
    · rfl
    · rfl
    · rfl

/-- A member function is called on a run result that is there. -/
theorem length_result {a : IoAct} (ha : a.ofResult = true) (h : s.stepOf cfg a = some s') :
    s.results ≠ [] ∧ s'.threads.length = s.threads.length := by
  have hne : ∀ {i : Nat} {stage : RunStage} {r : ControllerRunResult}, s.at? i stage = some r →
      s.results ≠ [] :=
    fun hr => List.ne_nil_of_mem (List.mem_of_getElem? (getElem?_of_at? hr).1)
  cases a with
  | move i =>
    obtain ⟨r, hr, rfl⟩ := Option.map_eq_some_iff.mp h
    exact ⟨hne hr, rfl⟩
  | run i =>
    obtain ⟨r, hr, rfl⟩ := Option.map_eq_some_iff.mp h
    exact ⟨hne hr, by rw [threads_run]⟩
  | runReturns i =>
    obtain ⟨r, hr, h⟩ := Option.bind_eq_some_iff.mp h
    split at h <;> cases h
    exact ⟨hne hr, by simp⟩
  | destroy i =>
    obtain ⟨r, hr, rfl⟩ := Option.map_eq_some_iff.mp h
    exact ⟨hne hr, by rw [threads_destructor]⟩
  | destroyInThread i t =>
    obtain ⟨r, hr, h⟩ := Option.bind_eq_some_iff.mp h
    split at h <;> cases h
    refine ⟨hne hr, ?_⟩
    split <;> simp [setThread, threads_destructor]
  | join i =>
    obtain ⟨r, hi, h⟩ := Option.bind_eq_some_iff.mp h
    split at h
    · exact ⟨List.ne_nil_of_mem (List.mem_of_getElem? hi), threads_join h⟩
    · cases h
  | throwInRun i =>
    obtain ⟨r, hr, h⟩ := Option.bind_eq_some_iff.mp h
    split at h <;> cases h
    exact ⟨hne hr, by simp⟩
  | _ => cases ha

/-- A thread or a handler goes on. -/
theorem length_other {a : IoAct} (ha : a.ofResult = false) (hs : a.starts = false)
    (h : s.stepOf cfg a = some s') :
    s'.results = s.results ∧ s'.threads.length = s.threads.length := by
  cases a with
  | post | drop | enter t | leave t | handle n | throwInThread t =>
    simp only [stepOf] at h
    split at h <;> cases h
    exact ⟨by simp [setThread, fail], by simp [setThread, fail]⟩
  | start | startFails k => cases hs
  | _ => cases ha

/-- The threads are made by `start()`. -/
theorem length_start {a : IoAct} (ha : a.starts = true) (h : s.stepOf cfg a = some s') :
    (s'.results = s.results ∧ s'.threads.length = s.threads.length) ∨
      s'.threads.length = cfg.numThreads := by
  cases a with
  | start =>
    cases h
    unfold construct
    split
    · exact .inl ⟨rfl, rfl⟩
    · split
      · exact .inl ⟨rfl, rfl⟩
      · exact .inr List.length_replicate
  | startFails k =>
    simp only [stepOf] at h
    split at h <;> cases h
    left
    unfold constructFails
    split
    · exact ⟨rfl, rfl⟩
    · split <;> exact ⟨rfl, rfl⟩
  | _ => cases ha

/-- **What a step does to the number of threads.** Before `start()` there are no run results. -/
theorem length_step {a : IoAct} (h : s.stepOf cfg a = some s') :
    (s'.threads.length = s.threads.length ∧ (s.results = [] → s'.results = [])) ∨
      s'.threads.length = cfg.numThreads := by
  have hkept : s'.results = s.results ∧ s'.threads.length = s.threads.length →
      s'.threads.length = s.threads.length ∧ (s.results = [] → s'.results = []) :=
    fun ⟨hres, hlen⟩ => ⟨hlen, fun hnil => hres.trans hnil⟩
  cases hs : a.starts with
  | true => exact (length_start hs h).imp_left hkept
  | false =>
    left
    cases ha : a.ofResult with
    | true =>
      obtain ⟨hne, hlen⟩ := length_result ha h
      exact ⟨hlen, fun hnil => absurd hnil hne⟩
    | false => exact hkept (length_other ha hs h)

theorem length_threads (h : (system cfg).Reach Lib.Sys.free s) (hne : s.results ≠ []) :
    s.threads.length = cfg.numThreads := by
  have hI : (system cfg).Inductive Lib.Sys.free
      fun s => s.results ≠ [] → s.threads.length = cfg.numThreads := by
    refine ⟨fun s hs hne => ?_, fun s a s' hI _ h hne => ?_⟩
    · cases hs
      exact absurd rfl hne
    · rcases length_step (stepOf_of_step h).2 with ⟨hlen, hnil⟩ | hlen
      · rw [hlen]
        exact hI fun hs => hne (hnil hs)
      · exact hlen
  exact hI.reach h hne

/-! ## Where no step can be taken -/

theorem stepOf_of_final (hd : (system cfg).Final WindsDown d) (hf : d.fault = none) {a : IoAct}
    (ha : a.windsDown = true) : d.stepOf cfg a = none := by
  cases hs : d.stepOf cfg a with
  | none => rfl
  | some d' =>
    refine absurd ?_ (hd a d' ha)
    simp only [system, step, hf]
    exact hs

/-- Nothing is left to handle where something is in `m_io_ctx->run()`. -/
theorem not_ready_of_final (hd : (system cfg).Final WindsDown d) (hf : d.fault = none)
    (hrun : d.inRun = true) (hs : d.io.stopped = false) : d.io.ops = 0 := by
  refine Nat.eq_zero_of_not_pos fun hpos => ?_
  have h := stepOf_of_final hd hf (a := .handle 0) rfl
  simp [stepOf, hrun, IoContext.ready, hs, hpos] at h

/-- The threads have all called `m_io_ctx->run()`, and returned from it if the context has
stopped. -/
theorem thread_of_final (hd : (system cfg).Final WindsDown d) (hf : d.fault = none)
    {p : ThreadPhase} (ht : d.threads[t]? = some p) :
    p ≠ .created ∧ (p = .inRun → d.io.stopped = false) := by
  refine ⟨?_, ?_⟩
  · rintro rfl
    have h := stepOf_of_final hd hf (a := .enter t) rfl
    simp [stepOf, ht] at h
  · rintro rfl
    have h := stepOf_of_final hd hf (a := .leave t) rfl
    simpa [stepOf, ht] using h

/-- `run()` has returned. -/
theorem not_inRun_of_final (hd : (system cfg).Final WindsDown d) (hf : d.fault = none)
    (ho : d.Owns i r k) : r.stage ≠ .inRun := by
  intro hst
  have hreached := ho.owner.reached
  rw [hst] at hreached
  have hg : r.workguard = false := hreached.2
  have hmem : r ∈ d.results := List.mem_of_getElem? ho.getElem
  have hrun : d.inRun = true :=
    Bool.or_eq_true_iff.mpr (.inr (List.any_eq_true.mpr ⟨r, hmem, by simp [hst]⟩))
  cases hs : d.io.stopped with
  | false =>
    -- without a guard, the context only goes on while there are operations
    have hbusy := ((ho.owner.sound (by simp [hst])).busy hs).1
    rw [ho.owner.guards, hg, not_ready_of_final hd hf hrun hs] at hbusy
    cases hbusy
  | true =>
    have h := stepOf_of_final hd hf (a := .runReturns i) rfl
    simp [stepOf, at?, ho.getElem, hst, hs] at h

/-- The destructor has returned. -/
theorem not_joining_of_final (hd : (system cfg).Final WindsDown d) (hf : d.fault = none)
    (ho : d.Owns i r k) (rest : List Nat) : r.stage ≠ .joining rest := by
  intro hst
  have hreached := ho.owner.reached
  rw [hst] at hreached
  have hs : d.io.stopped = true := hreached.2.2
  have h := stepOf_of_final hd hf (a := .join i) rfl
  simp only [stepOf, ho.getElem, Option.bind_some, hst] at h
  cases rest with
  | nil => cases h
  | cons t rest =>
    obtain ⟨p, ht, hpj⟩ := ho.owner.not_joined hst
    obtain ⟨hcreated, hrun⟩ := thread_of_final hd hf ht
    simp only [join, ht] at h
    cases p with
    | created => exact absurd rfl hcreated
    | inRun =>
      rw [hrun rfl] at hs
      cases hs
    | inDestructor => cases h
    | returned => cases h
    | joined => exact absurd rfl hpj

/-- The threads of a run result that waits have handled the operations. -/
theorem handled_of_final (hd : (system cfg).Final WindsDown d) (hf : d.fault = none)
    (hout : d.Outside) (ho : d.Owns i r k) (hlen : 0 < d.threads.length) (hst : r.stage = .idle) :
    d.io.ops = d.io.late := by
  have hreached := ho.owner.reached
  have hsound := ho.owner.sound (by simp [hst])
  cases hs : d.io.stopped with
  | true => exact hsound.drained hs
  | false =>
    have hk : k = 0 := by
      rw [hst] at hreached
      exact hreached
    have ht : d.threads[0]? = some d.threads[0] := List.getElem?_eq_getElem hlen
    have hrun : d.threads[0] = .inRun := by
      cases hp : d.threads[0] with
      | created => exact absurd hp (thread_of_final hd hf ht).1
      | inRun => rfl
      | inDestructor => exact absurd hp (hout _ (List.getElem_mem hlen))
      | returned =>
        rw [hp] at ht
        rw [ho.owner.returned 0 ht] at hs
        cases hs
      | joined =>
        rw [hp] at ht
        have hlt := (ho.owner.joined 0).mp ht
        omega
    have hin : d.inRun = true :=
      Bool.or_eq_true_iff.mpr (.inl (List.contains_iff_mem.mpr (hrun ▸ List.getElem_mem hlen)))
    rw [not_ready_of_final hd hf hin hs, (hsound.busy hs).2]

/-- **Where no step can be taken**, the owner of the context is idle, and no operation is left that
the context could still handle. -/
theorem rest_of_final (hd : (system cfg).Final WindsDown d) (hf : d.fault = none)
    (hout : d.Outside) (ho : d.Owns i r k) (hlen : 0 < d.threads.length) :
    r.stage = .idle ∧ d.io.ops = d.io.late := by
  cases hst : r.stage with
  | destroyed =>
    have hreached := ho.owner.reached
    rw [hst] at hreached
    exact hreached.elim
  | inRun => exact absurd hst (not_inRun_of_final hd hf ho)
  | joining rest => exact absurd hst (not_joining_of_final hd hf ho rest)
  | idle => exact ⟨rfl, handled_of_final hd hf hout ho hlen hst⟩

/-! ## Runs -/

/-- What has become of a run result that is left to itself. -/
def Later (destroyed : Bool) : RunStage → RunStage → Prop
  | .idle, stage => stage = .idle
  | .inRun, stage => stage = .inRun ∨ stage = .idle
  | .joining _, stage => (∃ rest, stage = .joining rest) ∨ (stage = .destroyed ∧ destroyed = true)
  | .destroyed, stage => stage = .destroyed

theorem Later.refl (destroyed : Bool) (stage : RunStage) : Later destroyed stage stage := by
  cases stage with
  | idle => rfl
  | inRun => exact .inl rfl
  | joining rest => exact .inl ⟨rest, rfl⟩
  | destroyed => rfl

theorem Later.goesOn {destroyed : Bool} {x y z : RunStage} (h : Later false x y)
    (hgo : GoesOn destroyed y z) : Later destroyed x z := by
  cases x with
  | idle =>
    cases h
    cases hgo
    rfl
  | inRun =>
    rcases h with rfl | rfl
    · cases hgo with
      | same => exact .inl rfl
      | returns => exact .inr rfl
    · cases hgo
      exact .inr rfl
  | joining rest =>
    rcases h with ⟨rest, rfl⟩ | ⟨-, h⟩
    · cases hgo with
      | same => exact .inl ⟨_, rfl⟩
      | joins t rest => exact .inl ⟨rest, rfl⟩
      | ends hd => exact .inr ⟨rfl, hd⟩
    · cases h
  | destroyed =>
    cases h
    cases hgo
    rfl

/-- What holds while the session that was in `s` is left to itself. -/
structure LeftAlone (cfg : ControllerConfig) (s d : IoSession) : Prop where
  reach : (system cfg).Reach Lib.Sys.free d
  fault : d.fault = none
  outside : d.Outside
  later : ∀ (i : Nat) (r : ControllerRunResult), s.results[i]? = some r →
    ∃ r' : ControllerRunResult, d.results[i]? = some r' ∧ r'.ioCtx = r.ioCtx ∧
      Later d.io.destroyed r.stage r'.stage

/-- What has come of the session that was in `s` when it is at rest. -/
structure Rested (s d : IoSession) : Prop where
  fault : d.fault = none
  returned : ∀ r ∈ d.results, r.stage = .idle ∨ r.stage = .destroyed
  joined : ∀ r ∈ s.results, (∃ rest, r.stage = .joining rest) →
    d.io.destroyed = true ∧ ∀ p ∈ d.threads, p = .joined
  handled : ∀ r ∈ s.results, r.stage = .inRun ∨ (r.stage = .idle ∧ r.ioCtx = true) →
    d.io.ops = d.io.late

theorem LeftAlone.woundDown (hI : LeftAlone cfg s d) {d' : IoSession} {a : IoAct}
    (ha : WindsDown d a) (hst : (system cfg).step d a = some d') : WoundDown d d' :=
  woundDown_step (place_of_reach hI.reach hI.fault) hI.outside ha (stepOf_of_step hst).2

theorem inductive_leftAlone (h : (system cfg).Reach Lib.Sys.free s) (hf : s.fault = none)
    (hout : s.Outside) : ((system cfg).onward s).Inductive WindsDown (LeftAlone cfg s) := by
  refine ⟨fun d hd => ?_, fun d a d' hI ha hst => ?_⟩
  · cases hd
    exact ⟨h, hf, hout, fun i r hi => ⟨r, hi, rfl, .refl _ _⟩⟩
  · have hdown := hI.woundDown ha hst
    refine ⟨hI.reach.step a trivial hst, hdown.fault.trans hI.fault, hdown.outside,
      fun i r hi => ?_⟩
    obtain ⟨q, hq, hqio, hlater⟩ := hI.later i r hi
    obtain ⟨q', hq', hqio', hgo⟩ := hdown.results i q hq
    rw [hdown.alive] at hlater
    exact ⟨q', hq', hqio'.trans hqio, hlater.goesOn hgo⟩

theorem joined_of_destroyed (hp : Place s) (hd : s.io.destroyed = true) :
    ∀ p ∈ s.threads, p = .joined := by
  cases hp with
  | held hheld hio hthreads hresults =>
    rw [hthreads]
    exact fun p hp => absurd hp List.not_mem_nil
  | owned i r k ho =>
    rw [ho.owner.alive] at hd
    cases hd
  | gone hheld hio hthreads hspent => exact hthreads

/-- What is left alone and can take no step is at rest. -/
theorem LeftAlone.rested (hcfg : cfg.validate = .ok ()) (hs : Place s) (hI : LeftAlone cfg s d)
    (hd : (system cfg).Final WindsDown d) : Rested s d := by
  have hp := place_of_reach hI.reach hI.fault
  have howner : ∀ {i : Nat} {r : ControllerRunResult} {k : Nat}, d.Owns i r k →
      r.stage = .idle ∧ d.io.ops = d.io.late := by
    intro i r k ho
    refine rest_of_final hd hI.fault hI.outside ho ?_
    rw [length_threads hI.reach (List.ne_nil_of_mem (List.mem_of_getElem? ho.getElem))]
    exact cfg.numThreads_pos hcfg
  have hreturned : ∀ r ∈ d.results, r.stage = .idle ∨ r.stage = .destroyed := by
    intro r hr
    obtain ⟨i, hi⟩ := List.getElem?_of_mem hr
    rcases hp.owns_or_spent hi with ⟨k, ho⟩ | h | ⟨h, -⟩
    · exact .inl (howner ho).1
    · exact .inr h
    · exact .inl h
  refine ⟨hI.fault, hreturned, fun r hr hst => ?_, fun r hr hst => ?_⟩
  · obtain ⟨rest, hst⟩ := hst
    obtain ⟨i, hi⟩ := List.getElem?_of_mem hr
    obtain ⟨q, hq, -, hlater⟩ := hI.later i r hi
    rw [hst] at hlater
    rcases hlater with ⟨rest', hq'⟩ | ⟨-, hdestroyed⟩
    · have hidle := hreturned q (List.mem_of_getElem? hq)
      simp [hq'] at hidle
    · exact ⟨hdestroyed, joined_of_destroyed hp hdestroyed⟩
  · obtain ⟨i, hi⟩ := List.getElem?_of_mem hr
    obtain ⟨q, hq, hqio, hlater⟩ := hI.later i r hi
    have hio : r.ioCtx = true := by
      rcases hst with hst | ⟨-, hio⟩
      · obtain ⟨k, ho⟩ := hs.owns_of_stage hi (by simp [hst]) (by simp [hst])
        exact ho.owner.ioCtx
      · exact hio
    have hstage : q.stage ≠ .destroyed := by
      rcases hst with hst | ⟨hst, -⟩ <;> rw [hst] at hlater
      · rcases hlater with h | h <;> simp [h]
      · have h : q.stage = .idle := hlater
        simp [h]
    rcases hp.owns_or_spent hq with ⟨k, ho⟩ | h | ⟨-, h, -⟩
    · exact (howner ho).2
    · exact absurd h hstage
    · rw [hqio, hio] at h
      cases h

/-- **`run()` and the destructor return**, where they are called outside the handlers. `run()` does
not return before the operations are handled that were started before the context stopped. And
however the session has gone: if the program calls nothing more, and the handlers return and start
nothing more, then whatever the order of their steps the threads and the handlers come to rest. By
then every `run()` has returned, every destructor has joined all threads and destroyed the context,
and where the context is left with its threads, or was run, all operations that were started before
it stopped are handled. -/
theorem session_settles (hcfg : cfg.validate = .ok ())
    (h : (system cfg).Reach Lib.Sys.free s) (hf : s.fault = none) (hout : s.Outside) :
    (∀ r ∈ s.results, r.stage = .inRun → s.io.stopped = true → s.io.ops = s.io.late) ∧
      (system cfg).Settles WindsDown left (Rested s) s := by
  have hp := place_of_reach h hf
  refine ⟨fun r hr hst hs => ?_, ?_⟩
  · obtain ⟨i, hi⟩ := List.getElem?_of_mem hr
    obtain ⟨k, ho⟩ := hp.owns_of_stage hi (by simp [hst]) (by simp [hst])
    exact (ho.owner.sound (by simp [hst])).drained hs
  · exact Lib.Sys.settles_of_inductive (inductive_leftAlone h hf hout)
      (fun d a d' hI ha hst => (hI.woundDown ha hst).left) fun d hI hd => hI.rested hcfg hp hd

/-- A session of two threads in which `run()` is called with two operations to handle. -/
def runSession : IoSession :=
  ((system { numThreads := 2, logger := true }).run {} [.start, .post, .post, .run 0, .enter 1]).2

theorem session_settles_runSession :
    (system { numThreads := 2, logger := true }).Settles WindsDown left (Rested runSession)
      runSession := by
  have h : (system { numThreads := 2, logger := true }).Reach Lib.Sys.free runSession :=
    (Lib.Sys.runs_run rfl _).reach fun _ _ => trivial
  exact (session_settles rfl h (by decide) (by unfold Outside; decide)).2

end IoSession

end Malloy
