import Malloy.Core.Websocket.Draining

/-!
# A disconnect takes effect

`disconnect()` pushes its action on both queues, "and whichever gets there first wins": the one that
is started first calls `async_close`, and the other one finds the connection closing. Until then the
action waits in both queues, and neither queue waits for ever.

* `Announced`: a connection that is closing, has a close in progress or has started the action of a
  `disconnect()` has called `async_close`. `announced_onQueue`: so it is after what a queue does.
* `Act.asksToClose`: the calls that close the connection. `waits_of_asked`: what they leave behind.
* `disconnect_takes_effect`: the runs.
-/

namespace Malloy
namespace Websocket
namespace Connection

variable {c c' : Connection} {side : Side} {act : WsAct}

/-! ## A close is announced -/

/-- What closes the connection has called `async_close`. -/
structure ClosesAloud (c : Connection) : Prop where
  closing : c.isClosing = true → .asyncClose ∈ c.log
  pending : ∀ owner, .close owner ∈ c.pending → .asyncClose ∈ c.log

structure Announced (c : Connection) : Prop extends ClosesAloud c where
  started : ∀ side, .disconnect ∈ (c.queue side).started → .asyncClose ∈ c.log

theorem ClosesAloud.congr (h : c.ClosesAloud) (hl : c.log ⊆ c'.log) (hs : c'.state = c.state)
    (hp : ∀ owner, .close owner ∈ c'.pending → .close owner ∈ c.pending) : c'.ClosesAloud where
  closing hc := by
    refine hl (h.closing ?_)
    unfold isClosing at hc ⊢
    rwa [← hs]
  pending owner hm := hl (h.pending owner (hp owner hm))

theorem Announced.congr (h : c.Announced) (hl : c.log ⊆ c'.log) (hs : c'.state = c.state)
    (hp : ∀ owner, .close owner ∈ c'.pending → .close owner ∈ c.pending)
    (hq : ∀ side, c'.queue side = c.queue side) : c'.Announced where
  toClosesAloud := h.toClosesAloud.congr hl hs hp
  started side hm := hl (h.started side (hq side ▸ hm))

theorem announced_record (e : Event) (h : c.Announced) : (c.record e).Announced :=
  h.congr (List.subset_append_left _ _) rfl (fun _ => id) fun _ => queue_record e _

theorem closesAloud_start {op : Pending} (hop : ∀ owner, op ≠ .close owner) (h : c.ClosesAloud) :
    (c.start op).ClosesAloud :=
  h.congr (List.Subset.refl _) rfl fun owner hm =>
    (List.mem_append.mp hm).resolve_right fun hm => hop owner (List.mem_singleton.mp hm).symm

theorem announced_start {op : Pending} (hop : ∀ owner, op ≠ .close owner) (h : c.Announced) :
    (c.start op).Announced where
  toClosesAloud := closesAloud_start hop h.toClosesAloud
  started side hm := h.started side (queue_start op side ▸ hm)

theorem announced_takePending (i : Nat) (h : c.Announced) : (c.takePending i).Announced :=
  h.congr (List.Subset.refl _) rfl (fun _ => List.mem_of_mem_eraseIdx)
    fun _ => queue_takePending i _

/-- The state is written: it is not a closing one, or `async_close` has been called. -/
theorem announced_setState {s : State} (hs : s = .closed ∨ s = .closing → .asyncClose ∈ c.log)
    (h : c.Announced) : (c.setState s).Announced where
  closing hc := List.mem_append_left _ (hs (isClosing_iff.mp hc))
  pending owner hm := List.mem_append_left _ (h.pending owner hm)
  started side hm := List.mem_append_left _ (h.started side (queue_setState s side ▸ hm))

theorem asyncClose_mem_doDisconnect (owner : Option Side) :
    .asyncClose ∈ (c.doDisconnect owner).log :=
  List.mem_append_right _ (List.mem_singleton.mpr rfl)

/-- Whatever else it is, a connection that has called `async_close` is announced. -/
theorem announced_of_mem (h : .asyncClose ∈ c.log) : c.Announced where
  closing _ := h
  pending _ _ := h
  started _ _ := h

/-! ## What a queue does -/

/-- The actions that a queue starts: if there is a disconnect among them, `async_close` has been
called in the end. -/
theorem closesAloud_foldl (side : Side) (acts : List WsAct) (h : c.ClosesAloud) :
    (acts.foldl (execute side) c).ClosesAloud ∧ c.log ⊆ (acts.foldl (execute side) c).log ∧
      (.disconnect ∈ acts → .asyncClose ∈ (acts.foldl (execute side) c).log) := by
  induction acts generalizing c with
  | nil => exact ⟨h, List.Subset.refl _, fun hm => absurd hm List.not_mem_nil⟩
  | cons act acts ih =>
    have hone : (c.execute side act).ClosesAloud ∧ c.log ⊆ (c.execute side act).log ∧
        (act = .disconnect → .asyncClose ∈ (c.execute side act).log) := by
      cases act with
      | read call =>
        exact ⟨closesAloud_start (by simp) h, List.Subset.refl _, fun he => WsAct.noConfusion he⟩
      | send call =>
        exact ⟨closesAloud_start (by simp) h, List.Subset.refl _, fun he => WsAct.noConfusion he⟩
      | disconnect =>
        simp only [execute]
        split
        · rename_i hc
          exact ⟨closesAloud_start (by simp) h, List.Subset.refl _, fun _ => h.closing hc⟩
        · have hmem := asyncClose_mem_doDisconnect (c := c) (some side)
          refine ⟨(announced_of_mem hmem).toClosesAloud, ?_, fun _ => hmem⟩
          exact List.Subset.trans (List.subset_append_left _ _) (List.subset_append_left _ _)
    obtain ⟨hcloses, hlog, hmem⟩ := ih hone.1
    refine ⟨hcloses, List.Subset.trans hone.2.1 hlog, fun hm => ?_⟩
    rcases List.mem_cons.mp hm with he | hm
    · exact hlog (hone.2.2 he.symm)
    · exact hmem hm

theorem announced_onQueue {f : ActionQueue WsAct → ActionQueue WsAct}
    (hf : ∃ l, (f (c.queue side)).started = (c.queue side).started ++ l) (h : c.Announced) :
    (c.onQueue side f).Announced := by
  obtain ⟨l, hl⟩ := hf
  have hdrop : (f (c.queue side)).started.drop (c.queue side).started.length = l := by
    rw [hl, List.drop_left]
  have hset : (c.setQueue side (f (c.queue side))).ClosesAloud := by
    cases side <;> exact h.toClosesAloud.congr (List.Subset.refl _) rfl fun _ => id
  have hlogSet : (c.setQueue side (f (c.queue side))).log = c.log := by cases side <;> rfl
  obtain ⟨hcloses, hlog, hmem⟩ := closesAloud_foldl side l hset
  rw [hlogSet] at hlog
  have heq : c.onQueue side f = l.foldl (execute side) (c.setQueue side (f (c.queue side))) := by
    unfold onQueue
    rw [hdrop]
  rw [← heq] at hcloses hlog hmem
  refine ⟨hcloses, fun side' hm => ?_⟩
  rw [queue_onQueue] at hm
  split at hm
  · rw [hl] at hm
    exact (List.mem_append.mp hm).elim (fun hm => hlog (h.started side hm)) hmem
  · exact hlog (h.started side' hm)

theorem announced_callOnDone {b : Bool} (h : c.Announced) :
    (c.callOnDone side act b).Announced := by
  obtain ⟨l, hl, -⟩ := ActionQueue.onDone_starts b
    ((c.queue side).takeOutstanding ((c.queue side).outstanding.idxOf act))
  refine announced_onQueue ⟨l, ?_⟩ (announced_record _ h)
  rw [queue_record]
  exact hl

theorem announced_goActive {r w : Bool} (h : c.Announced) : (c.goActive r w).Announced := by
  have hrun : ∀ {c : Connection} side b, c.Announced →
      (c.onQueue side (ActionQueue.run b)).Announced := by
    intro c side b h
    obtain ⟨l, hl, -⟩ := ActionQueue.run_starts b (c.queue side)
    exact announced_onQueue ⟨l, hl⟩ h
  exact hrun .write w (hrun .read r (announced_setState (by simp) h))

/-! ## What a step does -/

theorem announced_complete {i : Nat} {op : Pending} (hi : c.pending[i]? = some op)
    {ec r w : Bool} (h : c.Announced) : ((c.takePending i).complete ec r w op).Announced := by
  have htake := announced_takePending i h
  have hready : ∀ {c : Connection}, c.Announced → c.onReadyForHandshake.Announced :=
    announced_start (by simp)
  cases op with
  | connect =>
    cases ec with
    | true => exact announced_record _ htake
    | false =>
      show (onConnect _).Announced
      unfold onConnect
      split
      · exact announced_start (by simp) htake
      · exact hready htake
  | tlsHandshake =>
    cases ec with
    | true => exact hready (announced_record _ (announced_goActive htake))
    | false => exact hready htake
  | handshake => exact announced_record _ (announced_goActive (announced_record _ htake))
  | accept =>
    cases ec with
    | true => exact announced_record _ htake
    | false => exact announced_record _ (announced_goActive (announced_record _ htake))
  | io side act => exact announced_start (by simp) htake
  | close owner =>
    have hmem : .asyncClose ∈ (c.takePending i).log := h.pending owner (List.mem_of_getElem? hi)
    have hclosed :
        (if ec then c.takePending i else (c.takePending i).setState .closed).Announced := by
      split
      · exact htake
      · exact announced_setState (fun _ => hmem) htake
    match owner with
    | none => exact hclosed
    | some .read => exact announced_callOnDone hclosed
    | some .write => exact announced_callOnDone hclosed
  | onDone side act =>
    cases side with
    | read => exact announced_callOnDone htake
    | write => exact announced_callOnDone htake

theorem announced_push {b : Bool} (h : c.Announced) : (c.push side act b).Announced := by
  obtain ⟨l, hl, -⟩ := ActionQueue.push_starts act b (c.queue side)
  exact announced_onQueue ⟨l, hl⟩ h

theorem inductive_announced : system.Inductive Lib.Sys.free Announced where
  base c hc := by
    obtain ⟨isClient, isTls, rfl⟩ := hc
    exact ⟨⟨fun h => Bool.noConfusion h, fun _ h => absurd h List.not_mem_nil⟩,
      fun side h => by cases side <;> exact absurd h List.not_mem_nil⟩
  keep c a c' h _ hs := by
    have hcalled : Announced { c with called := true } :=
      h.congr (List.Subset.refl _) rfl (fun _ => id) fun side => by cases side <;> rfl
    cases a with
    | connect =>
      simp only [system, step] at hs
      split at hs
      · cases hs
        unfold connect
        split
        · exact hcalled
        · exact announced_start (by simp) hcalled
      · cases hs
    | accept =>
      simp only [system, step] at hs
      split at hs
      · cases hs
        unfold accept
        split
        · exact hcalled
        · exact announced_start (by simp) (announced_setState (by simp) hcalled)
      · cases hs
    | disconnect r w =>
      cases hs
      unfold disconnect
      split
      · exact h
      · exact announced_push (announced_push h)
    | forceDisconnect =>
      cases hs
      unfold forceDisconnect
      split
      · exact h
      · exact announced_of_mem (asyncClose_mem_doDisconnect none)
    | read call r =>
      cases hs
      exact announced_push h
    | send call w =>
      cases hs
      exact announced_push h
    | handler side i =>
      obtain ⟨x, hx, rfl⟩ := Option.map_eq_some_iff.mp hs
      obtain ⟨l, hl, -⟩ := ActionQueue.handle_starts x i (c.queue side)
      exact announced_onQueue ⟨l, hl⟩ h
    | complete i ec r w =>
      obtain ⟨op, hop, rfl⟩ := Option.map_eq_some_iff.mp hs
      exact announced_complete hop h

/-! ## A close that was asked for -/

/-- The call asks the connection to close: `force_disconnect()` throws while the state is
inactive. -/
def asksToClose (c : Connection) : Act → Bool
  | .disconnect _ _ => true
  | .forceDisconnect => c.state != .inactive
  | _ => false

/-- What was pushed stays pushed. -/
theorem calls_subset_of_step (ha : c.Accounted) {a : Act} (hs : c.step a = some c') :
    (c.queue side).calls ⊆ (c'.queue side).calls := by
  rcases step_queue ha hs side with ⟨-, he⟩ | ⟨b, -, hst⟩
  · rw [he]
    exact List.Subset.refl _
  · intro act hm
    have hcount := queue_calls hst act
    have hpos := List.count_pos_iff.mpr hm
    exact List.count_pos_iff.mp (by omega)

/-- The call closes the connection, finds it closing, or pushes its action on both queues. -/
theorem asked_of_step (hc : c.Announced) (ha : c.Accounted) {a : Act}
    (hasks : c.asksToClose a = true) (hs : c.step a = some c') :
    .asyncClose ∈ c'.log ∨ ∀ side, .disconnect ∈ (c'.queue side).calls := by
  cases hcl : c.isClosing with
  | true => exact .inl ((step_log hs).subset (hc.closing hcl))
  | false =>
    cases a with
    | disconnect r w =>
      right
      intro side
      rcases step_queue ha hs side with ⟨hnone, -⟩ | ⟨b, hb, hst⟩
      · simp [queueAct, hcl] at hnone
      · have hpush : b = .push .disconnect (side.flag r w) := by
          simpa [queueAct, hcl] using hb.symm
        have hcount := queue_calls hst .disconnect
        rw [if_pos ⟨_, hpush⟩] at hcount
        exact List.count_pos_iff.mp (by omega)
    | forceDisconnect =>
      left
      cases hs
      unfold forceDisconnect
      rw [if_neg]
      · exact asyncClose_mem_doDisconnect none
      · rw [hcl]
        simpa [asksToClose] using hasks
    | _ => cases hasks

theorem asked_of_runs {tr : List (Connection × Act)} (h : system.Runs tr c)
    (hasks : ∃ x ∈ tr, x.1.asksToClose x.2 = true) :
    .asyncClose ∈ c.log ∨ ∀ side, .disconnect ∈ (c.queue side).calls := by
  induction h with
  | init _ =>
    obtain ⟨x, hx, -⟩ := hasks
    exact absurd hx List.not_mem_nil
  | step a hr hs ih =>
    have hreach : system.Reach Lib.Sys.free _ := hr.reach fun _ _ => trivial
    obtain ⟨x, hx, hxa⟩ := hasks
    rcases List.mem_append.mp hx with hx | hx
    · rcases ih ⟨x, hx, hxa⟩ with hm | hm
      · exact .inl ((step_log hs).subset hm)
      · exact .inr fun side =>
          calls_subset_of_step (inductive_accounted.reach hreach) hs (hm side)
    · cases List.mem_singleton.mp hx
      exact asked_of_step (inductive_announced.reach hreach) (inductive_accounted.reach hreach)
        hxa hs

theorem asked_onward {d : Connection} (hc : system.Reach Lib.Sys.free c)
    (hasked : .asyncClose ∈ c.log ∨ ∀ side, .disconnect ∈ (c.queue side).calls)
    (hd : (system.onward c).Reach Inner d) :
    .asyncClose ∈ d.log ∨ ∀ side, .disconnect ∈ (d.queue side).calls := by
  induction hd with
  | init hi =>
    cases hi
    exact hasked
  | step a hr _ hs ih =>
    have hacc := inductive_accounted.reach (hc.onward (hr.mono fun _ _ _ => trivial))
    exact ih.imp (fun hm => (step_log hs).subset hm) fun hm side =>
      calls_subset_of_step hacc hs (hm side)

/-- What was pushed and does not wait was started. -/
theorem waits_or_started {q : ActionQueue WsAct} (hq : q.Ordered) (h : act ∈ q.calls) :
    q.Waits act ∨ act ∈ q.started := by
  rcases List.mem_append.mp h with h | h
  · rw [← hq] at h
    exact (List.mem_append.mp h).symm.imp .inl id
  · obtain ⟨x, hx, hact⟩ := List.mem_filterMap.mp h
    cases x with
    | push act' =>
      cases hact
      exact .inl (.inr hx)
    | exe => cases hact

/-- Until `async_close` is called, the action of `disconnect()` waits in both queues. -/
theorem waits_of_asked (h : system.Reach Lib.Sys.free c)
    (hasked : .asyncClose ∈ c.log ∨ ∀ side, .disconnect ∈ (c.queue side).calls) :
    .asyncClose ∈ c.log ∨ ∀ side, (c.queue side).Waits .disconnect := by
  by_cases hm : .asyncClose ∈ c.log
  · exact .inl hm
  · refine .inr fun side => ?_
    have hordered := (ActionQueue.inductive_ordered_live.reach (reach_queue h side)).1
    refine (waits_or_started hordered ((hasked.resolve_left hm) side)).resolve_right fun hst => ?_
    exact hm ((inductive_announced.reach h).started side hst)

theorem not_waits_of_idle {q : ActionQueue WsAct} (h : q.Idle) : ¬ q.Waits act := by
  rintro (hm | hm)
  · rw [h.acts] at hm
    exact absurd hm List.not_mem_nil
  · rw [h.strand] at hm
    exact absurd hm List.not_mem_nil

/-! ## It takes effect -/

/-- While the handshake is not overtaken, `async_close` is called once. -/
theorem inductive_closeBudget : system.Inductive NotOvertaken fun c => c.closeBudget ≤ 1 where
  base c hc := by
    obtain ⟨isClient, isTls, rfl⟩ := hc
    exact Nat.le_refl 1
  keep c a c' h ha hs := by
    have hle := (keeps_step hs).closeBudget
    have hover : c.overtakes a = false := by
      cases hgo : c.goesActive a with
      | true => simp [overtakes, ha hgo]
      | false => simp [overtakes, hgo]
    rw [hover] at hle
    exact Nat.le_trans hle h

theorem once_of_closeBudget (h : c.closeBudget ≤ 1) (hm : .asyncClose ∈ c.log) :
    c.log.count .asyncClose = 1 ∧ c.isClosing = true := by
  have hpos := List.count_pos_iff.mpr hm
  unfold closeBudget at h
  split at h
  · rename_i hcl
    exact ⟨by omega, hcl⟩
  · omega

theorem disconnects_of_asksToClose {a : Act} (h : c.asksToClose a = true) :
    a.disconnects = true := by
  cases a with
  | disconnect r w => rfl
  | forceDisconnect => rfl
  | _ => cases h

/-- The history of a run only grows. -/
theorem log_subset_of_mem {tr : List (Connection × Act)} (h : system.Runs tr c)
    {x : Connection × Act} (hx : x ∈ tr) : x.1.log ⊆ c.log := by
  induction h with
  | init _ => exact absurd hx List.not_mem_nil
  | step a _ hs ih =>
    rcases List.mem_append.mp hx with hx | hx
    · exact List.Subset.trans (ih hx) (step_log hs).subset
    · cases List.mem_singleton.mp hx
      exact (step_log hs).subset

/-- Once such a connection is active, no handshake is left that could fail. -/
theorem reach_of_inner {d : Connection}
    (h : system.Reach (fun c a => ActiveFirst c a ∧ c.failsTls a = false) c)
    (hactive : .state .active ∈ c.log) (hd : (system.onward c).Reach Inner d) :
    system.Reach (fun c a => ActiveFirst c a ∧ c.failsTls a = false) d ∧
      .state .active ∈ d.log := by
  induction hd with
  | init hi =>
    cases hi
    exact ⟨h, hactive⟩
  | @step d d' a _ ha hs ih =>
    obtain ⟨hr, hm⟩ := ih
    have hopen := ((inductive_activeOnce.reach hr).2.openings hm).2
    refine ⟨.step a hr ⟨fun hdis => ?_, ?_⟩ hs, (step_log hs).subset hm⟩
    · rcases ha with ⟨side, i, rfl⟩ | ⟨i, ec, r, w, rfl⟩ <;> cases hdis
    · rcases ha with ⟨side, i, rfl⟩ | ⟨i, ec, r, w, rfl⟩
      · rfl
      · by_contra hf
        have hop : d.pending[i]? = some .tlsHandshake := by
          have hf : d.failsTls (.complete i ec r w) = true := by simpa using hf
          simp only [failsTls, Bool.and_eq_true, beq_iff_eq] at hf
          exact hf.2
        have hpos : 0 < d.openings :=
          List.countP_pos_iff.mpr ⟨_, List.mem_of_getElem? hop, rfl⟩
        omega

theorem notOvertaken_reach
    (h : system.Reach (fun c a => ActiveFirst c a ∧ c.failsTls a = false) c) :
    system.Reach NotOvertaken c := by
  induction h with
  | init hi => exact .init hi
  | step a hr _ hs ih => exact .step a ih (notOvertaken_of_activeFirst hr a) hs

/-- **A disconnect takes effect.** In every run in which `disconnect()` was called, or
`force_disconnect()` without throwing: `async_close` has been called, or the action still waits in
both queues, so one queue that gets to it is enough. If the user makes no more calls, the connection
comes to rest, and then `async_close` has been called; and if the connection was active before it was
asked to close and no TLS handshake failed, once, and the connection is closing or closed. -/
theorem disconnect_takes_effect {tr : List (Connection × Act)} (h : system.Runs tr c)
    (hasks : ∃ x ∈ tr, x.1.asksToClose x.2 = true) :
    (.asyncClose ∈ c.log ∨ ∀ side, (c.queue side).Waits .disconnect) ∧
      system.Settles Inner work
        (fun d => d.pending = [] ∧ .asyncClose ∈ d.log ∧
          ((∀ x ∈ tr, ActiveFirst x.1 x.2 ∧ x.1.failsTls x.2 = false) →
            d.log.count .asyncClose = 1 ∧ d.isClosing = true)) c := by
  have hreach : system.Reach Lib.Sys.free c := h.reach fun _ _ => trivial
  have hasked := asked_of_runs h hasks
  refine ⟨waits_of_asked hreach hasked, lowers_inner.comes_to_rest fun d hd hf => ?_⟩
  have hdr : system.Reach Lib.Sys.free d := hreach.onward (hd.mono fun _ _ _ => trivial)
  obtain ⟨hp, hidle⟩ := rest_of_final (inductive_accounted.reach hdr) hf
  have hclose : .asyncClose ∈ d.log := by
    refine (waits_of_asked hdr (asked_onward hreach hasked hd)).resolve_right fun hw => ?_
    exact not_waits_of_idle (hidle .write) (hw .write)
  refine ⟨hp, hclose, fun hok => ?_⟩
  have hfirst : system.Reach (fun c a => ActiveFirst c a ∧ c.failsTls a = false) c := h.reach hok
  have hactive : .state .active ∈ c.log := by
    obtain ⟨x, hx, hxa⟩ := hasks
    exact log_subset_of_mem h hx ((hok x hx).1 (disconnects_of_asksToClose hxa))
  exact once_of_closeBudget
    (inductive_closeBudget.reach (notOvertaken_reach (reach_of_inner hfirst hactive hd).1))
    hclose

/-- A client reads, and disconnects while the read is in progress: the write queue is free. -/
theorem disconnect_takes_effect_reading :
    let run := system.run { isClient := true, isTls := false }
      [.connect, .complete 0 false false false, .complete 0 false true true, .read 0 true,
        .disconnect false false]
    (.asyncClose ∈ run.2.log ∨ ∀ side, (run.2.queue side).Waits .disconnect) ∧
      system.Settles Inner work
        (fun d => d.pending = [] ∧ .asyncClose ∈ d.log ∧
          ((∀ x ∈ run.1, ActiveFirst x.1 x.2 ∧ x.1.failsTls x.2 = false) →
            d.log.count .asyncClose = 1 ∧ d.isClosing = true)) run.2 :=
  disconnect_takes_effect (runs_run true false _) (by decide)

end Connection

end Websocket
end Malloy
