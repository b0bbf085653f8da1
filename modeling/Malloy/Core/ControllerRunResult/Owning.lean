import Malloy.Core.ControllerRunResult

/-!
# The context of a run result has one owner

The threads of a context use it through a plain pointer, while the run result that owns it is moved
about. What keeps the context there for them is that the destructor of the last owner joins them all
before its members are destroyed.

* `IoContext.Sound`: a context that the destructor has not stopped has work, or nothing of what was
  started before it stopped is left.
* `Owner`, `Owns`: a run result that has the context, its guard and its threads, and what it has
  come to; the others have nothing (`Spent`). `Place`: the context is with such an owner, with the
  caller of `start()`, or destroyed.
* `kept_step`: every step leaves it so. `no_fault`: what follows for every run.
-/

namespace Malloy

namespace IoContext

/-- A context that was not stopped from outside has work, or has stopped when none was left. -/
structure Sound (io : IoContext) : Prop where
  busy : io.stopped = false → 0 < io.ops + io.workguards ∧ io.late = 0
  drained : io.stopped = true → io.ops = io.late

variable {io : IoContext}

theorem ready_iff : io.ready = true ↔ io.stopped = false ∧ 0 < io.ops := by
  simp [ready]

theorem workFinished_cases (io : IoContext) :
    (io.ops + io.workguards = 0 ∧ io.workFinished = io.stop) ∨
      (0 < io.ops + io.workguards ∧ io.workFinished = io) := by
  unfold workFinished
  split
  · rename_i h
    exact .inl ⟨h, rfl⟩
  · rename_i h
    exact .inr ⟨Nat.pos_of_ne_zero h, rfl⟩

@[simp] theorem workFinished_destroyed : io.workFinished.destroyed = io.destroyed := by
  rcases io.workFinished_cases with ⟨-, h⟩ | ⟨-, h⟩
  · rw [h]
    rfl
  · rw [h]

@[simp] theorem workFinished_workguards : io.workFinished.workguards = io.workguards := by
  rcases io.workFinished_cases with ⟨-, h⟩ | ⟨-, h⟩
  · rw [h]
    rfl
  · rw [h]

theorem sound_workFinished (hs : io.stopped = false) (hl : io.late = 0) :
    io.workFinished.Sound := by
  rcases io.workFinished_cases with ⟨h0, h⟩ | ⟨hpos, h⟩
  · rw [h]
    refine ⟨fun hst => absurd hst (by simp [stop]), fun _ => ?_⟩
    show io.ops = io.late
    omega
  · rw [h]
    refine ⟨fun _ => ⟨hpos, hl⟩, fun hst => ?_⟩
    rw [hs] at hst
    cases hst

theorem Sound.post (h : io.Sound) : io.post.Sound := by
  refine ⟨fun hs => ⟨?_, ?_⟩, fun hs => ?_⟩
  · show 0 < io.ops + 1 + io.workguards
    omega
  · have hs : io.stopped = false := hs
    simp [IoContext.post, hs, (h.busy hs).2]
  · have hs : io.stopped = true := hs
    simp [IoContext.post, hs, h.drained hs]

theorem Sound.handle (h : io.Sound) (hr : io.ready = true) (n : Nat) : (io.handle n).Sound :=
  have hs := (ready_iff.mp hr).1
  sound_workFinished hs (h.busy hs).2

theorem Sound.releaseGuard (h : io.Sound) (hs : io.stopped = false) : io.releaseGuard.Sound :=
  sound_workFinished hs (h.busy hs).2

/-- While a guard owns work, no handler stops the context. -/
theorem stopped_handle (hs : io.stopped = false) (hg : 0 < io.workguards) (n : Nat) :
    (io.handle n).stopped = false := by
  unfold IoContext.handle
  rcases IoContext.workFinished_cases { io with ops := io.ops - 1 + n } with ⟨h0, -⟩ | ⟨-, h⟩
  · have h0 : io.ops - 1 + n + io.workguards = 0 := h0
    omega
  · rw [h]
    exact hs

end IoContext

/-- The program ends for a reason outside the class. -/
def Fault.External (f : Fault) : Prop := f ≠ .useAfterFree ∧ f ≠ .joinable

namespace IoSession

/-! ## Who owns the context -/

variable {cfg : ControllerConfig} {s s' : IoSession} {io : IoContext} {threads : List ThreadPhase}
  {i j k k' t : Nat} {r r' : ControllerRunResult}

/-- The run result has nothing left: it was moved from, or destroyed. -/
def Spent (r : ControllerRunResult) : Prop :=
  r.stage = .destroyed ∨
    (r.stage = .idle ∧ r.ioCtx = false ∧ r.workguard = false ∧ r.ioThreads = [])

/-- What the owner of a context has come to, when `k` threads were joined. -/
def Reached (io : IoContext) (threads : List ThreadPhase) (r : ControllerRunResult) (k : Nat) :
    RunStage → Prop
  | .idle => k = 0
  | .inRun => k = 0 ∧ r.workguard = false
  | .joining rest =>
    rest = (List.range threads.length).drop k ∧ r.workguard = false ∧ io.stopped = true
  | .destroyed => False

/-- The run result has the context and all threads, the first `k` of which were joined. -/
structure Owner (io : IoContext) (threads : List ThreadPhase) (r : ControllerRunResult) (k : Nat) :
    Prop where
  alive : io.destroyed = false
  ioCtx : r.ioCtx = true
  ioThreads : r.ioThreads = List.range threads.length
  le : k ≤ threads.length
  joined : ∀ t : Nat, threads[t]? = some .joined ↔ t < k
  returned : ∀ t : Nat, threads[t]? = some .returned → io.stopped = true
  reached : Reached io threads r k r.stage
  guards : io.workguards = if r.workguard then 1 else 0
  guarded : r.workguard = true → io.stopped = false
  sound : (∀ rest, r.stage ≠ .joining rest) → io.Sound

/-- The `i`-th run result is the owner, and the others have nothing. -/
structure Owns (s : IoSession) (i : Nat) (r : ControllerRunResult) (k : Nat) : Prop where
  owner : Owner s.io s.threads r k
  held : s.held = false
  getElem : s.results[i]? = some r
  spent : ∀ j r', s.results[j]? = some r' → j ≠ i → Spent r'

/-- Where the context is. -/
inductive Place (s : IoSession) : Prop
  | held (hheld : s.held = true) (hio : ∃ ops, s.io = { ops := ops }) (hthreads : s.threads = [])
    (hresults : s.results = [])
  | owned (i : Nat) (r : ControllerRunResult) (k : Nat) (ho : s.Owns i r k)
  | gone (hheld : s.held = false) (hio : s.io.destroyed = true)
    (hthreads : ∀ p ∈ s.threads, p = .joined) (hspent : ∀ r ∈ s.results, Spent r)

/-! ## What a step does to the owner -/

theorem not_spent_of_owner (ho : Owner io threads r k) : ¬ Spent r := by
  rintro (h | ⟨-, h, -⟩)
  · have hreached := ho.reached
    rw [h] at hreached
    exact hreached
  · rw [ho.ioCtx] at h
    cases h

/-- The context goes on, and its owner has what it had. -/
theorem Owner.setIo {io' : IoContext} (ho : Owner io threads r k)
    (halive : io'.destroyed = false) (hguards : io'.workguards = io.workguards)
    (hstopped : io.stopped = true → io'.stopped = true)
    (hguarded : r.workguard = true → io'.stopped = false) (hsound : io.Sound → io'.Sound) :
    Owner io' threads r k where
  alive := halive
  ioCtx := ho.ioCtx
  ioThreads := ho.ioThreads
  le := ho.le
  joined := ho.joined
  returned t ht := hstopped (ho.returned t ht)
  reached := by
    have h := ho.reached
    cases hst : r.stage with
    | joining rest =>
      rw [hst] at h
      exact ⟨h.1, h.2.1, hstopped h.2.2⟩
    | _ =>
      rw [hst] at h
      exact h
  guards := hguards.trans ho.guards
  guarded := hguarded
  sound hst := hsound (ho.sound hst)

/-- A handler runs. -/
theorem Owner.handle (ho : Owner io threads r k) (hr : io.ready = true) (n : Nat) :
    Owner (io.handle n) threads r k := by
  have hs := (IoContext.ready_iff.mp hr).1
  refine ho.setIo ?_ ?_ (fun h => ?_) (fun hg => ?_) fun h => h.handle hr n
  · rw [IoContext.handle, IoContext.workFinished_destroyed]
    exact ho.alive
  · rw [IoContext.handle, IoContext.workFinished_workguards]
  · rw [hs] at h
    cases h
  · refine IoContext.stopped_handle hs ?_ n
    rw [ho.guards, if_pos hg]
    exact Nat.one_pos

/-- What is left of the guard after a reset. -/
theorem Owner.workguards_resetGuard (ho : Owner io threads r k) {io' : IoContext}
    (hio : io'.workguards = io.workguards) : (r.resetGuard io').workguards = 0 := by
  unfold ControllerRunResult.resetGuard
  split
  · rename_i hg
    rw [IoContext.releaseGuard, IoContext.workFinished_workguards]
    show io'.workguards - 1 = 0
    rw [hio, ho.guards, if_pos hg]
  · rename_i hg
    rw [hio, ho.guards, if_neg hg]

/-- `run()` has reset the guard. -/
theorem Owner.run (ho : Owner io threads r k) (hst : r.stage = .idle) :
    Owner (r.resetGuard io) threads { r with workguard := false, stage := .inRun } k := by
  have hk : k = 0 := by
    have h := ho.reached
    rw [hst] at h
    exact h
  have hsound := ho.sound (by simp [hst])
  obtain ⟨hsound, halive, hstopped⟩ : (r.resetGuard io).Sound ∧
      (r.resetGuard io).destroyed = false ∧
      (io.stopped = true → (r.resetGuard io).stopped = true) := by
    unfold ControllerRunResult.resetGuard
    split
    · rename_i hg
      refine ⟨hsound.releaseGuard (ho.guarded hg), ?_, fun hs => ?_⟩
      · rw [IoContext.releaseGuard, IoContext.workFinished_destroyed]
        exact ho.alive
      · rw [ho.guarded hg] at hs
        cases hs
    · exact ⟨hsound, ho.alive, id⟩
  exact ⟨halive, ho.ioCtx, ho.ioThreads, ho.le, ho.joined, fun t ht => hstopped (ho.returned t ht),
    ⟨hk, rfl⟩, ho.workguards_resetGuard rfl, fun h => Bool.noConfusion h, fun _ => hsound⟩

/-- `run()` is left. -/
theorem Owner.leaveRun (ho : Owner io threads r k) (hst : r.stage = .inRun) :
    Owner io threads { r with stage := .idle } k := by
  have hk : k = 0 := by
    have h := ho.reached
    rw [hst] at h
    exact h.1
  exact ⟨ho.alive, ho.ioCtx, ho.ioThreads, ho.le, ho.joined, ho.returned, hk, ho.guards,
    ho.guarded, fun _ => ho.sound (by simp [hst])⟩

theorem Owner.setThread (ho : Owner io threads r k) {p q : ThreadPhase}
    (ht : threads[t]? = some p) (hp : p ≠ .joined) (hq : q ≠ .joined)
    (hret : q = .returned → io.stopped = true) : Owner io (threads.set t q) r k where
  alive := ho.alive
  ioCtx := ho.ioCtx
  ioThreads := by rw [ho.ioThreads, List.length_set]
  le := by rw [List.length_set]; exact ho.le
  joined u := by
    obtain ⟨hlt, -⟩ := List.getElem?_eq_some_iff.mp ht
    rw [← ho.joined u]
    by_cases hu : t = u
    · subst hu
      rw [List.getElem?_set_self hlt, ht]
      simp [hp, hq]
    · rw [List.getElem?_set_ne hu]
  returned u hu := by
    by_cases htu : t = u
    · subst htu
      obtain ⟨hlt, -⟩ := List.getElem?_eq_some_iff.mp ht
      rw [List.getElem?_set_self hlt] at hu
      exact hret (Option.some.inj hu)
    · rw [List.getElem?_set_ne htu] at hu
      exact ho.returned u hu
  reached := by
    have h := ho.reached
    cases hst : r.stage with
    | joining rest =>
      rw [hst] at h
      refine ⟨?_, h.2⟩
      rw [List.length_set]
      exact h.1
    | _ =>
      rw [hst] at h
      exact h
  guards := ho.guards
  guarded := ho.guarded
  sound := ho.sound

/-- The destructor stops the context. -/
theorem Owner.stop (ho : Owner io threads r k) (hst : r.stage = .idle) :
    Owner (r.resetGuard io.stop) threads
      { r with workguard := false, stage := .joining r.ioThreads } k := by
  have hk : k = 0 := by
    have h := ho.reached
    rw [hst] at h
    exact h
  have hio : (r.resetGuard io.stop).stopped = true ∧
      (r.resetGuard io.stop).destroyed = false := by
    unfold ControllerRunResult.resetGuard IoContext.releaseGuard
    split
    · refine ⟨?_, ?_⟩
      · unfold IoContext.workFinished
        split <;> rfl
      · rw [IoContext.workFinished_destroyed]
        exact ho.alive
    · exact ⟨rfl, ho.alive⟩
  refine ⟨hio.2, ho.ioCtx, ho.ioThreads, ho.le, ho.joined, fun _ _ => hio.1, ⟨?_, rfl, hio.1⟩,
    ho.workguards_resetGuard rfl, fun h => Bool.noConfusion h, fun h => absurd rfl (h r.ioThreads)⟩
  rw [hk, List.drop_zero]
  exact ho.ioThreads

/-- The destructor joins the next thread. -/
theorem Owner.join {rest : List Nat} (ho : Owner io threads r k)
    (hst : r.stage = .joining (t :: rest)) (ht : threads[t]? = some .returned) :
    Owner io (threads.set t .joined) { r with stage := .joining rest } (k + 1) := by
  have hr := ho.reached
  rw [hst] at hr
  obtain ⟨hrest, hg, hstopped⟩ := hr
  obtain ⟨hlt, -⟩ := List.getElem?_eq_some_iff.mp ht
  have hk : k < threads.length := by
    refine Nat.lt_of_not_le fun hk => ?_
    rw [List.drop_of_length_le (by rw [List.length_range]; exact hk)] at hrest
    cases hrest
  rw [List.drop_eq_getElem_cons (by rw [List.length_range]; exact hk), List.getElem_range] at hrest
  obtain ⟨rfl, rfl⟩ := List.cons.inj hrest
  refine ⟨ho.alive, ho.ioCtx, ?_, ?_, fun u => ?_, fun _ _ => hstopped, ⟨?_, hg, hstopped⟩,
    ho.guards, ho.guarded, fun h => absurd rfl (h _)⟩
  · rw [ho.ioThreads, List.length_set]
  · rw [List.length_set]
    exact hk
  · by_cases hu : t = u
    · subst hu
      rw [List.getElem?_set_self hlt]
      simp
    · rw [List.getElem?_set_ne hu, ho.joined u]
      omega
  · rw [List.length_set]

/-- The thread that the destructor joins next was not joined before. -/
theorem Owner.not_joined {rest : List Nat} (ho : Owner io threads r k)
    (hst : r.stage = .joining (t :: rest)) : ∃ p, threads[t]? = some p ∧ p ≠ .joined := by
  have hr := ho.reached
  rw [hst] at hr
  have hm : t ∈ (List.range threads.length).drop k := hr.1 ▸ List.mem_cons_self
  obtain ⟨n, hn, he⟩ := List.mem_iff_getElem.mp hm
  rw [List.length_drop, List.length_range] at hn
  rw [List.getElem_drop, List.getElem_range] at he
  have hlt : t < threads.length := by omega
  refine ⟨threads[t], List.getElem?_eq_getElem hlt, fun hj => ?_⟩
  have hjoined := (ho.joined t).mp (by rw [List.getElem?_eq_getElem hlt, hj])
  omega

/-- The destructor has joined all threads. -/
theorem Owner.all_joined (ho : Owner io threads r k) (hst : r.stage = .joining []) :
    ∀ p ∈ threads, p = .joined := by
  have hr := ho.reached
  rw [hst] at hr
  have hk : threads.length ≤ k := by
    have hlen := congrArg List.length hr.1
    rw [List.length_drop, List.length_range, List.length_nil] at hlen
    omega
  intro p hp
  obtain ⟨t, ht, rfl⟩ := List.mem_iff_getElem.mp hp
  have h := (ho.joined t).mpr (Nat.lt_of_lt_of_le ht hk)
  rw [List.getElem?_eq_getElem ht] at h
  exact Option.some.inj h

/-! ## What a step does to the session -/

theorem getElem?_of_at? {stage : RunStage} (h : s.at? i stage = some r) :
    s.results[i]? = some r ∧ r.stage = stage := by
  obtain ⟨hr, hst⟩ := Option.filter_eq_some_iff.mp h
  exact ⟨hr, by simpa using hst⟩

theorem Owns.onIo (ho : s.Owns i r k) (f : IoContext → IoContext) :
    s.onIo f = { s with io := f s.io } := by
  unfold IoSession.onIo
  rw [if_neg (by simp [ho.owner.alive])]

/-- The owner goes on, and the other run results are left as they are. -/
theorem Owns.update (ho : s.Owns i r k) (hres : s'.results = s.results.set i r')
    (hheld : s'.held = s.held) (howner : Owner s'.io s'.threads r' k') : Place s' := by
  obtain ⟨hlt, -⟩ := List.getElem?_eq_some_iff.mp ho.getElem
  refine .owned i r' k' ⟨howner, hheld.trans ho.held, ?_, fun j q hj hne => ?_⟩
  · rw [hres, List.getElem?_set_self hlt]
  · rw [hres, List.getElem?_set_ne (Ne.symm hne)] at hj
    exact ho.spent j q hj hne

/-- The run results are left as they are. -/
theorem Owns.keep (ho : s.Owns i r k) (hres : s'.results = s.results) (hheld : s'.held = s.held)
    (howner : Owner s'.io s'.threads r k) : Place s' :=
  .owned i r k ⟨howner, hheld.trans ho.held, by rw [hres]; exact ho.getElem,
    fun j q hj => ho.spent j q (by rwa [hres] at hj)⟩

/-- The run result is the owner of the context, or it has nothing left. -/
theorem Place.owns_or_spent (hp : Place s) (hi : s.results[i]? = some r) :
    (∃ k, s.Owns i r k) ∨ Spent r := by
  cases hp with
  | held hheld hio hthreads hresults =>
    rw [hresults] at hi
    cases hi
  | owned j q k ho =>
    by_cases hij : i = j
    · subst hij
      cases hi.symm.trans ho.getElem
      exact .inl ⟨k, ho⟩
    · exact .inr (ho.spent i r hi hij)
  | gone hheld hio hthreads hspent => exact .inr (hspent r (List.mem_of_getElem? hi))

/-- Only the owner is in `run()` or in its destructor. -/
theorem Place.owns_of_stage (hp : Place s) (hi : s.results[i]? = some r)
    (hst : r.stage ≠ .idle) (hne : r.stage ≠ .destroyed) : ∃ k, s.Owns i r k := by
  refine (hp.owns_or_spent hi).resolve_right ?_
  rintro (h | ⟨h, -⟩)
  · exact hne h
  · exact hst h

/-- A thread that was not joined has an owner of its context. -/
theorem Place.owns_of_thread (hp : Place s) {p : ThreadPhase} (ht : s.threads[t]? = some p)
    (hne : p ≠ .joined) : ∃ i r k, s.Owns i r k := by
  cases hp with
  | held hheld hio hthreads hresults =>
    rw [hthreads] at ht
    cases ht
  | owned i r k ho => exact ⟨i, r, k, ho⟩
  | gone hheld hio hthreads hspent =>
    exact absurd (hthreads p (List.mem_of_getElem? ht)) hne

/-- So has a context that is run. -/
theorem Place.owns_of_inRun (hp : Place s) (h : s.inRun = true) : ∃ i r k, s.Owns i r k := by
  unfold inRun at h
  rcases Bool.or_eq_true_iff.mp h with h | h
  · obtain ⟨t, ht⟩ := List.getElem?_of_mem (List.contains_iff_mem.mp h)
    exact hp.owns_of_thread ht (by decide)
  · obtain ⟨r, hr, hst⟩ := List.any_eq_true.mp h
    obtain ⟨i, hi⟩ := List.getElem?_of_mem hr
    have hst : r.stage = .inRun := eq_of_beq hst
    obtain ⟨k, ho⟩ := hp.owns_of_stage hi (by simp [hst]) (by simp [hst])
    exact ⟨i, r, k, ho⟩

/-- A run result that has nothing left is changed into such a one. -/
theorem Place.setSpent (hp : Place s) (hi : s.results[i]? = some r) (hr : Spent r)
    (hr' : Spent r') : Place (s.setResult i r') := by
  obtain ⟨hlt, -⟩ := List.getElem?_eq_some_iff.mp hi
  cases hp with
  | held hheld hio hthreads hresults =>
    rw [hresults] at hi
    cases hi
  | owned j q k ho =>
    have hne : i ≠ j := by
      rintro rfl
      cases hi.symm.trans ho.getElem
      exact not_spent_of_owner ho.owner hr
    refine .owned j q k ⟨ho.owner, ho.held, ?_, fun l q' hl hlj => ?_⟩
    · rw [setResult, List.getElem?_set_ne hne]
      exact ho.getElem
    · rw [setResult] at hl
      by_cases hil : i = l
      · subst hil
        rw [List.getElem?_set_self hlt] at hl
        cases hl
        exact hr'
      · rw [List.getElem?_set_ne hil] at hl
        exact ho.spent l q' hl hlj
  | gone hheld hio hthreads hspent =>
    refine .gone hheld hio hthreads fun q hq => ?_
    rcases List.mem_or_eq_of_mem_set hq with hq | rfl
    · exact hspent q hq
    · exact hr'

/-- A run result is constructed that has nothing. -/
theorem Place.addSpent (hp : Place s) (hne : s.results ≠ []) (hr : Spent r) :
    Place { s with results := s.results ++ [r] } := by
  cases hp with
  | held hheld hio hthreads hresults => exact absurd hresults hne
  | owned j q k ho =>
    obtain ⟨hjlt, -⟩ := List.getElem?_eq_some_iff.mp ho.getElem
    refine .owned j q k ⟨ho.owner, ho.held, ?_, fun l q' hl hlj => ?_⟩
    · show (s.results ++ [r])[j]? = some q
      rw [List.getElem?_append_left hjlt]
      exact ho.getElem
    · have hl : (s.results ++ [r])[l]? = some q' := hl
      rw [List.getElem?_append] at hl
      split at hl
      · exact ho.spent l q' hl hlj
      · rw [List.mem_singleton.mp (List.mem_of_getElem? hl)]
        exact hr
  | gone hheld hio hthreads hspent =>
    refine .gone hheld hio hthreads fun q hq => ?_
    rcases List.mem_append.mp hq with hq | hq
    · exact hspent q hq
    · rw [List.mem_singleton.mp hq]
      exact hr

/-- What was moved is what the other has now. -/
theorem Place.moveConstruct (hp : Place s) (hi : s.results[i]? = some r) :
    Place (s.moveConstruct i r) := by
  obtain ⟨hlt, -⟩ := List.getElem?_eq_some_iff.mp hi
  have hempty : Spent { ioCtx := false, workguard := false, ioThreads := [] } :=
    .inr ⟨rfl, rfl, rfl, rfl⟩
  rcases hp.owns_or_spent hi with ⟨k, ho⟩ | hr
  · refine .owned s.results.length r k ⟨ho.owner, ho.held, ?_, fun j q hj hne => ?_⟩
    · rw [IoSession.moveConstruct, List.getElem?_append_right (by simp), List.length_set,
        Nat.sub_self]
      rfl
    · have hjlt : j < s.results.length := by
        obtain ⟨hj, -⟩ := List.getElem?_eq_some_iff.mp hj
        rw [IoSession.moveConstruct, List.length_append, List.length_set,
          List.length_singleton] at hj
        omega
      rw [IoSession.moveConstruct,
        List.getElem?_append_left (by rw [List.length_set]; exact hjlt)] at hj
      by_cases hij : i = j
      · subst hij
        rw [List.getElem?_set_self hlt] at hj
        cases hj
        exact hempty
      · rw [List.getElem?_set_ne hij] at hj
        exact ho.spent j q hj (Ne.symm hij)
  · -- both have nothing left
    refine (hp.setSpent hi hr hempty).addSpent (fun h => ?_) hr
    have hlen := congrArg List.length h
    rw [IoSession.setResult, List.length_set, List.length_nil] at hlen
    omega

/-- `start()` makes an owner. -/
theorem Place.construct (hp : Place s) (hlogger : cfg.logger = true) (hheld : s.held = true) :
    Place (s.construct cfg) ∧ (s.construct cfg).fault = s.fault := by
  cases hp with
  | held _ hio hthreads hresults =>
    obtain ⟨ops, hio⟩ := hio
    have he : s.construct cfg = { s with
        held := false
        io := { ops := ops, workguards := 1 }
        threads := List.replicate cfg.numThreads .created
        results :=
          [{ ioCtx := true, workguard := true, ioThreads := List.range cfg.numThreads }] } := by
      unfold IoSession.construct
      rw [hheld, hlogger, hresults, hio]
      rfl
    rw [he]
    refine ⟨.owned 0 { ioCtx := true, workguard := true, ioThreads := List.range cfg.numThreads } 0
      ⟨⟨rfl, rfl, ?_, Nat.zero_le _, fun t => ?_, fun t ht => ?_, rfl, rfl, fun _ => rfl,
        fun _ => ?_⟩, rfl, rfl, fun j q hj hne => ?_⟩, rfl⟩
    · rw [List.length_replicate]
    · rw [List.getElem?_replicate]
      split <;> simp
    · cases List.eq_of_mem_replicate (List.mem_of_getElem? ht)
    · exact ⟨fun _ => ⟨Nat.succ_pos _, rfl⟩, fun h => Bool.noConfusion h⟩
    · cases j with
      | zero => exact absurd rfl hne
      | succ j => cases hj
  | owned i r k ho =>
    rw [ho.held] at hheld
    cases hheld
  | gone hheld' hio hthreads hspent =>
    rw [hheld'] at hheld
    cases hheld

/-- The members of the run result that has joined all threads are destroyed. -/
theorem Owns.destroyMembers_eq (ho : s.Owns i r k) (hst : r.stage = .joining []) :
    s.destroyMembers i r = { s with
      io := { s.io with destroyed := true }
      results := s.results.set i { r with stage := .destroyed } } := by
  have hall : (r.ioThreads.all fun t => s.threads[t]? == some .joined) = true := by
    rw [List.all_eq_true]
    intro t ht
    rw [ho.owner.ioThreads, List.mem_range] at ht
    rw [List.getElem?_eq_getElem ht, ho.owner.all_joined hst _ (List.getElem_mem ht)]
    rfl
  have hg : r.workguard = false := by
    have h := ho.owner.reached
    rw [hst] at h
    exact h.2.1
  unfold IoSession.destroyMembers
  rw [if_pos hall]
  simp only [hg, ho.owner.ioCtx, Bool.false_eq_true, if_false, if_true, ho.onIo, setResult]

theorem Owns.destroyMembers (ho : s.Owns i r k) (hst : r.stage = .joining []) :
    Place (s.destroyMembers i r) := by
  rw [ho.destroyMembers_eq hst]
  refine .gone ho.held rfl (ho.owner.all_joined hst) fun q hq => ?_
  obtain ⟨j, hj⟩ := List.getElem?_of_mem hq
  by_cases hij : i = j
  · subst hij
    obtain ⟨hlt, -⟩ := List.getElem?_eq_some_iff.mp ho.getElem
    rw [List.getElem?_set_self hlt] at hj
    cases hj
    exact .inl rfl
  · rw [List.getElem?_set_ne hij] at hj
    exact ho.spent j q hj (Ne.symm hij)

/-- A run result that was moved from is destroyed. -/
theorem destroyMembers_of_empty (hr : r.ioCtx = false ∧ r.workguard = false ∧ r.ioThreads = []) :
    s.destroyMembers i r = s.setResult i { r with stage := .destroyed } := by
  obtain ⟨hnull, hg, hthreads⟩ := hr
  unfold IoSession.destroyMembers
  simp [hnull, hg, hthreads]

/-! ## What a step does -/

/-- The step leaves the context with one owner, or the program ends for a reason outside the
class. -/
def Kept (s : IoSession) : Prop :=
  (Place s ∧ s.fault = none) ∨ ∃ f, s.fault = some f ∧ f.External

theorem kept_fail {f : Fault} (hext : f.External) : Kept (s.fail f) := .inr ⟨f, rfl, hext⟩

theorem kept_post (hp : Place s) (hf : s.fault = none) (h : s.stepOf cfg .post = some s') :
    Kept s' := by
  simp only [stepOf] at h
  split at h
  · cases h
  · rename_i halive
    cases h
    refine .inl ⟨?_, hf⟩
    cases hp with
    | held hheld hio hthreads hresults =>
      obtain ⟨ops, hio⟩ := hio
      exact .held hheld ⟨ops + 1, by rw [hio]; rfl⟩ hthreads hresults
    | owned i r k ho =>
      exact ho.keep rfl rfl
        (ho.owner.setIo ho.owner.alive rfl id ho.owner.guarded IoContext.Sound.post)
    | gone hheld hio hthreads hspent => exact absurd hio halive

theorem kept_construct (hp : Place s) (hf : s.fault = none) : Kept (s.construct cfg) := by
  cases hheld : s.held with
  | true =>
    cases hlogger : cfg.logger with
    | true =>
      obtain ⟨hp, hfault⟩ := hp.construct hlogger hheld
      exact .inl ⟨hp, hfault.trans hf⟩
    | false =>
      have he : s.construct cfg = s.fail .nullLogger := by simp [construct, hheld, hlogger]
      exact he ▸ kept_fail ⟨by decide, by decide⟩
  | false =>
    have he : s.construct cfg = s.fail .nullContext := by simp [construct, hheld]
    exact he ▸ kept_fail ⟨by decide, by decide⟩

/-- The caller of `start()` has no context any more. -/
theorem Place.drop (hp : Place s) (hheld : s.held = true) {io' : IoContext}
    (hio' : io'.destroyed = true) : Place { s with held := false, io := io' } := by
  cases hp with
  | held _ hio hthreads hresults =>
    exact .gone rfl hio' (by simp [hthreads]) (by simp [hresults])
  | owned i r k ho =>
    rw [ho.held] at hheld
    cases hheld
  | gone hheld' hio hthreads hspent =>
    rw [hheld'] at hheld
    cases hheld

theorem kept_constructFails (hp : Place s) (hf : s.fault = none) (k : Nat) :
    Kept (s.constructFails k) := by
  unfold constructFails
  cases hheld : s.held with
  | true =>
    by_cases hk : k = 0
    · rw [if_neg (by simp), if_pos hk]
      exact .inl ⟨hp.drop hheld rfl, hf⟩
    · rw [if_neg (by simp), if_neg hk]
      exact kept_fail ⟨by decide, by decide⟩
  | false => exact kept_fail ⟨by decide, by decide⟩

theorem kept_drop (hp : Place s) (hf : s.fault = none) (h : s.stepOf cfg .drop = some s') :
    Kept s' := by
  simp only [stepOf] at h
  split at h
  · rename_i hheld
    cases h
    exact .inl ⟨hp.drop hheld rfl, hf⟩
  · cases h

theorem kept_run (hp : Place s) (hf : s.fault = none) (hi : s.results[i]? = some r)
    (hst : r.stage = .idle) : Kept (s.run i r) := by
  unfold IoSession.run
  rcases hp.owns_or_spent hi with ⟨k, ho⟩ | hspent
  · rw [if_neg (by simp [ho.owner.ioCtx]), ho.onIo]
    exact .inl ⟨ho.update rfl rfl (ho.owner.run hst), hf⟩
  · rcases hspent with hd | ⟨-, hnull, -⟩
    · cases hst.symm.trans hd
    · rw [if_pos (by simp [hnull])]
      exact .inl ⟨hp, hf⟩

theorem kept_runReturns (hp : Place s) (hf : s.fault = none)
    (h : s.stepOf cfg (.runReturns i) = some s') : Kept s' := by
  obtain ⟨r, hr, h⟩ := Option.bind_eq_some_iff.mp h
  obtain ⟨hi, hst⟩ := getElem?_of_at? hr
  split at h
  · cases h
    obtain ⟨k, ho⟩ := hp.owns_of_stage hi (by simp [hst]) (by simp [hst])
    rw [ho.onIo]
    exact .inl ⟨ho.update rfl rfl (ho.owner.leaveRun hst), hf⟩
  · cases h

/-- The destructor is called, in a thread or elsewhere. -/
theorem Place.destructor (hp : Place s) (hi : s.results[i]? = some r) (hst : r.stage = .idle) :
    Place (s.destructor i r) ∧ (s.destructor i r).fault = s.fault ∧
      (s.destructor i r).threads = s.threads := by
  unfold IoSession.destructor
  rcases hp.owns_or_spent hi with ⟨k, ho⟩ | hspent
  · rw [if_neg (by simp [ho.owner.ioCtx]), ho.onIo]
    exact ⟨ho.update rfl rfl (ho.owner.stop hst), rfl, rfl⟩
  · rcases hspent with hd | ⟨-, hempty⟩
    · cases hst.symm.trans hd
    · rw [if_pos (by simp [hempty.1]), destroyMembers_of_empty hempty]
      exact ⟨hp.setSpent hi (.inr ⟨hst, hempty⟩) (.inl rfl), rfl, rfl⟩

/-- A thread goes on. -/
theorem Place.setThread (hp : Place s) {p q : ThreadPhase} (ht : s.threads[t]? = some p)
    (hpj : p ≠ .joined) (hqj : q ≠ .joined) (hret : q = .returned → s.io.stopped = true) :
    Place (s.setThread t q) := by
  obtain ⟨i, r, k, ho⟩ := hp.owns_of_thread ht hpj
  exact ho.keep rfl rfl (ho.owner.setThread ht hpj hqj hret)

theorem kept_destroyInThread (hp : Place s) (hf : s.fault = none)
    (h : s.stepOf cfg (.destroyInThread i t) = some s') : Kept s' := by
  obtain ⟨r, hr, h⟩ := Option.bind_eq_some_iff.mp h
  obtain ⟨hi, hst⟩ := getElem?_of_at? hr
  obtain ⟨hp', hfault, hthreads⟩ := hp.destructor hi hst
  split at h
  · rename_i ht
    cases h
    split
    · refine .inl ⟨hp'.setThread (p := .inRun) ?_ (by decide) (by decide)
        fun h => ThreadPhase.noConfusion h, hfault.trans hf⟩
      rw [hthreads]
      exact ht.1
    · exact .inl ⟨hp', hfault.trans hf⟩
  · cases h

theorem kept_join (hp : Place s) (hf : s.fault = none) (h : s.stepOf cfg (.join i) = some s') :
    Kept s' := by
  obtain ⟨r, hi, h⟩ := Option.bind_eq_some_iff.mp h
  split at h
  · rename_i rest hst
    obtain ⟨k, ho⟩ := hp.owns_of_stage hi (by simp [hst]) (by simp [hst])
    cases rest with
    | nil =>
      cases h
      refine .inl ⟨ho.destroyMembers hst, ?_⟩
      rw [ho.destroyMembers_eq hst]
      exact hf
    | cons t rest =>
      obtain ⟨p, ht, hpj⟩ := ho.owner.not_joined hst
      simp only [IoSession.join, ht] at h
      cases p with
      | created => cases h
      | inRun => cases h
      | joined => exact absurd rfl hpj
      | inDestructor =>
        cases h
        exact kept_fail ⟨by decide, by decide⟩
      | returned =>
        cases h
        exact .inl ⟨ho.update rfl rfl (ho.owner.join hst ht), hf⟩
  · cases h

/-- A thread enters `m_io_ctx->run()`, or returns from it. -/
theorem kept_thread (hp : Place s) (hf : s.fault = none) {p q : ThreadPhase}
    (ht : s.threads[t]? = some p) (hpj : p ≠ .joined) (hqj : q ≠ .joined)
    (hret : q = .returned → s.io.stopped = true) : Kept ((s.onIo id).setThread t q) := by
  obtain ⟨i, r, k, ho⟩ := hp.owns_of_thread ht hpj
  rw [ho.onIo]
  exact .inl ⟨hp.setThread ht hpj hqj hret, hf⟩

theorem kept_handle {n : Nat} (hp : Place s) (hf : s.fault = none)
    (h : s.stepOf cfg (.handle n) = some s') : Kept s' := by
  simp only [stepOf] at h
  split at h
  · rename_i hr
    cases h
    obtain ⟨i, r, k, ho⟩ := hp.owns_of_inRun hr.1
    rw [ho.onIo]
    exact .inl ⟨ho.keep rfl rfl (ho.owner.handle hr.2 n), hf⟩
  · cases h

theorem kept_throwInRun (hp : Place s) (hf : s.fault = none)
    (h : s.stepOf cfg (.throwInRun i) = some s') : Kept s' := by
  obtain ⟨r, hr, h⟩ := Option.bind_eq_some_iff.mp h
  obtain ⟨hi, hst⟩ := getElem?_of_at? hr
  split at h
  · rename_i hready
    cases h
    obtain ⟨k, ho⟩ := hp.owns_of_stage hi (by simp [hst]) (by simp [hst])
    rw [ho.onIo]
    exact .inl ⟨ho.update rfl rfl ((ho.owner.handle hready 0).leaveRun hst), hf⟩
  · cases h

/-- **What a step does.** -/
theorem kept_step {a : IoAct} (hp : Place s) (hf : s.fault = none)
    (h : s.stepOf cfg a = some s') : Kept s' := by
  cases a with
  | post => exact kept_post hp hf h
  | start =>
    cases h
    exact kept_construct hp hf
  | startFails k =>
    simp only [stepOf] at h
    split at h
    · cases h
      exact kept_constructFails hp hf k
    · cases h
  | drop => exact kept_drop hp hf h
  | move i =>
    obtain ⟨r, hr, rfl⟩ := Option.map_eq_some_iff.mp h
    exact .inl ⟨hp.moveConstruct (getElem?_of_at? hr).1, hf⟩
  | run i =>
    obtain ⟨r, hr, rfl⟩ := Option.map_eq_some_iff.mp h
    obtain ⟨hi, hst⟩ := getElem?_of_at? hr
    exact kept_run hp hf hi hst
  | runReturns i => exact kept_runReturns hp hf h
  | destroy i =>
    obtain ⟨r, hr, rfl⟩ := Option.map_eq_some_iff.mp h
    obtain ⟨hi, hst⟩ := getElem?_of_at? hr
    obtain ⟨hp', hfault, -⟩ := hp.destructor hi hst
    exact .inl ⟨hp', hfault.trans hf⟩
  | destroyInThread i t => exact kept_destroyInThread hp hf h
  | join i => exact kept_join hp hf h
  | enter t =>
    simp only [stepOf] at h
    split at h
    · rename_i ht
      cases h
      exact kept_thread hp hf ht (by decide) (by decide) fun h => ThreadPhase.noConfusion h
    · cases h
  | leave t =>
    simp only [stepOf] at h
    split at h
    · rename_i ht
      cases h
      exact kept_thread hp hf ht.1 (by decide) (by decide) fun _ => ht.2
    · cases h
  | handle n => exact kept_handle hp hf h
  | throwInThread t =>
    simp only [stepOf] at h
    split at h
    · cases h
      exact kept_fail ⟨by decide, by decide⟩
    · cases h
  | throwInRun i => exact kept_throwInRun hp hf h

theorem inductive_kept : (system cfg).Inductive Lib.Sys.free Kept where
  base s hs := by
    cases hs
    exact .inl ⟨.held rfl ⟨0, rfl⟩ rfl rfl, rfl⟩
  keep s a s' hI _ h := by
    obtain ⟨hf, h⟩ := stepOf_of_step h
    rcases hI with ⟨hp, -⟩ | ⟨f, hf', -⟩
    · exact kept_step hp hf h
    · cases hf.symm.trans hf'

theorem place_of_reach (h : (system cfg).Reach Lib.Sys.free s) (hf : s.fault = none) : Place s := by
  rcases inductive_kept.reach h with ⟨hp, -⟩ | ⟨f, hf', -⟩
  · exact hp
  · cases hf.symm.trans hf'

/-- **The threads do not outlive the context.** However the run results are moved, run and
destroyed, and however the threads and the handlers are interleaved: no context is used that was
destroyed, and no destructor destroys a thread that was not joined, or joins one twice. The context
has one owner at most; and while a thread has not been joined, the context is there, and the thread
is one of those that its owner will join. A program only ends for a handler that throws in a thread
or destroys the run result that is to join the thread, or for a call of the constructor without a
context, without a logger, or where a thread cannot be made after others. -/
theorem no_fault (h : (system cfg).Reach Lib.Sys.free s) :
    (∀ f, s.fault = some f → f = .uncaught ∨ f = .selfJoin ∨ f = .nullContext ∨ f = .nullLogger ∨
        f = .threadCreation) ∧
      (s.fault = none →
        (∀ (i j : Nat) (r r' : ControllerRunResult), s.results[i]? = some r →
          s.results[j]? = some r' → ¬ Spent r → ¬ Spent r' → i = j) ∧
        ∀ (t : Nat) (p : ThreadPhase), s.threads[t]? = some p → p ≠ .joined →
          s.io.destroyed = false ∧
            ∃ (i : Nat) (r : ControllerRunResult), s.results[i]? = some r ∧ r.ioCtx = true ∧
              r.stage ≠ .destroyed ∧ t ∈ r.ioThreads) := by
  refine ⟨fun f hf => ?_, fun hf => ?_⟩
  · rcases inductive_kept.reach h with ⟨-, hf'⟩ | ⟨f', hf', hfree, hjoinable⟩
    · cases hf.symm.trans hf'
    · cases hf.symm.trans hf'
      cases f with
      | useAfterFree => exact absurd rfl hfree
      | joinable => exact absurd rfl hjoinable
      | _ => simp
  have hp := place_of_reach h hf
  refine ⟨fun i j r r' hi hj hr hr' => ?_, fun t p ht hne => ?_⟩
  · obtain ⟨k, ho⟩ := (hp.owns_or_spent hi).resolve_right hr
    exact Classical.byContradiction fun hij => hr' (ho.spent j r' hj (Ne.symm hij))
  · obtain ⟨i, r, k, ho⟩ := hp.owns_of_thread ht hne
    refine ⟨ho.owner.alive, i, r, ho.getElem, ho.owner.ioCtx, fun hst => ?_, ?_⟩
    · exact not_spent_of_owner ho.owner (.inl hst)
    · obtain ⟨hlt, -⟩ := List.getElem?_eq_some_iff.mp ht
      rw [ho.owner.ioThreads, List.mem_range]
      exact hlt

/-- A handler destroys the run result whose first thread it runs in: the destructor cannot join it.
-/
example : ((system { numThreads := 2, logger := true }).run {}
    [.start, .post, .enter 0, .destroyInThread 0 0, .join 0]).2.fault = some .selfJoin := by decide

/-- A session of two threads that is moved, and destroyed while a thread has not yet called `run()`.
-/
def movedSession : IoSession :=
  ((system { numThreads := 2, logger := true }).run {}
    [.start, .enter 1, .move 0, .destroy 0, .post, .handle 0, .destroy 1, .leave 1, .enter 0]).2

theorem no_fault_movedSession :
    movedSession.fault = none ∧ movedSession.threads = [.inRun, .returned] ∧
      movedSession.io.destroyed = false := by
  have h : (system { numThreads := 2, logger := true }).Reach Lib.Sys.free movedSession :=
    (Lib.Sys.runs_run rfl _).reach fun _ _ => trivial
  have hf : movedSession.fault = none := by decide
  obtain ⟨-, hthreads⟩ := (no_fault h).2 hf
  exact ⟨hf, by decide, (hthreads 0 .inRun (by decide) (by decide)).1⟩

end IoSession

end Malloy
