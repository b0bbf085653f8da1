import Malloy.Core.Websocket.Connection

/-!
# The life of a websocket connection

`connection::state` is written by `accept()`, by `go_active()`, by `do_disconnect()` and when the
close completes. `go_active()` writes it without looking at it, and the callback of `connect()`
calls `go_active()` without looking at the error of the handshake.

* `Coherent`: how the state, the history and the operations in progress agree in every run.
* `log_neverReactivates_iff`: when a connection that has begun to close stays closed.
* `log_activeAfterHandshake_iff`: when a connection is active only after its handshake.
-/

namespace Malloy
namespace Websocket

/-! ## The state and the history -/

/-- The state becomes closing or closed. -/
def Event.closes : Event → Bool
  | .state s => s == .closing || s == .closed
  | _ => false

/-- The state becomes handshaking or active. -/
def Event.opens : Event → Bool
  | .state s => s == .handshaking || s == .active
  | _ => false

/-- A quiet segment leaves the state alone, or it closes the connection. -/
theorem foldl_quiet {l : List Event} (hq : ∀ e ∈ l, e.quiet = true) (s : State) :
    ((∀ e ∈ l, e.closes = false) ∧ l.foldl Event.next s = s) ∨
      (∃ t, (t = .closing ∨ t = .closed) ∧ l.foldl Event.next s = t ∧ .state t ∈ l) := by
  induction l generalizing s with
  | nil => exact .inl ⟨fun _ he => absurd he List.not_mem_nil, rfl⟩
  | cons e l ih =>
    obtain ⟨he, hl⟩ := List.forall_mem_cons.mp hq
    rcases ih hl (Event.next s e) with ⟨hno, hf⟩ | ⟨t, ht, hf, hm⟩
    · by_cases hc : e.closes = true
      · right
        cases e with
        | state t =>
          have ht : t = .closing ∨ t = .closed := by simpa [Event.closes] using hc
          exact ⟨t, ht, hf, List.mem_cons_self⟩
        | _ => cases hc
      · left
        refine ⟨List.forall_mem_cons.mpr ⟨by simpa using hc, hno⟩, hf.trans ?_⟩
        cases e with
        | state t => exact absurd he hc
        | _ => rfl
    · exact .inr ⟨t, ht, hf, List.mem_cons_of_mem _ hm⟩

theorem opens_of_quiet {e : Event} (h : e.quiet = true) : e.opens = false := by
  cases e with
  | state s => cases s <;> first | rfl | cases h
  | _ => rfl

namespace Connection

variable {c c' : Connection}

/-- What holds in every run: the state is one that was written, or the initial one, the initial
one is never written, and one operation at most leads to a handshake. -/
structure Coherent (c : Connection) : Prop where
  written : c.state = .inactive ∨ .state c.state ∈ c.log
  inactive : c.state = .inactive → ∀ e ∈ c.log, e.closes = false
  openings : c.openings + c.log.count (.handshake false) ≤ if c.called then 1 else 0

/-- The state after a quiet segment. -/
theorem written_foldl {l l' : List Event} {s : State} (hq : ∀ e ∈ l', e.quiet = true)
    (hs : s = .inactive ∨ .state s ∈ l) :
    l'.foldl Event.next s = .inactive ∨ .state (l'.foldl Event.next s) ∈ l ++ l' := by
  rcases foldl_quiet hq s with ⟨-, hf⟩ | ⟨t, -, hf, hm⟩
  · rw [hf]
    exact hs.imp id fun h => List.mem_append_left _ h
  · rw [hf]
    exact .inr (List.mem_append_right _ hm)

theorem inactive_foldl {l : List Event} {s : State} (hq : ∀ e ∈ l, e.quiet = true)
    (h : l.foldl Event.next s = .inactive) : s = .inactive ∧ ∀ e ∈ l, e.closes = false := by
  rcases foldl_quiet hq s with ⟨hno, hf⟩ | ⟨t, ht, hf, -⟩
  · exact ⟨hf.symm.trans h, hno⟩
  · rw [hf] at h
    rcases ht with rfl | rfl <;> cases h

theorem count_handshake_quiet {l : List Event} (hq : ∀ e ∈ l, e.quiet = true) :
    l.count (.handshake false) = 0 :=
  List.count_eq_zero.mpr fun hm => absurd (hq _ hm) (by decide)

theorem Quiet.coherent (h : Quiet c c') (hc : c.Coherent) : c'.Coherent := by
  obtain ⟨l, hl, hq, hs⟩ := h.log
  refine ⟨?_, fun hi => ?_, ?_⟩
  · rw [hs, hl]
    exact written_foldl hq hc.written
  · rw [hs] at hi
    obtain ⟨hi, hno⟩ := inactive_foldl hq hi
    rw [hl]
    exact List.forall_mem_append.mpr ⟨hc.inactive hi, hno⟩
  · have ho := hc.openings
    have hle := h.openings
    rw [h.called, hl, List.count_append, count_handshake_quiet hq]
    omega

theorem Opens.coherent (h : Opens c c') (hc : c.Coherent) : c'.Coherent := by
  have ho := hc.openings
  have hle := h.openings
  rw [h.before, if_neg (by decide)] at ho
  rcases h.log with ⟨hl, hs⟩ | ⟨hi, hl, hs⟩
  · refine ⟨by rw [hs, hl]; exact hc.written, by rw [hs, hl]; exact hc.inactive, ?_⟩
    rw [h.called, hl, if_pos rfl]
    omega
  · refine ⟨.inr ?_, fun hf => ?_, ?_⟩
    · rw [hs, hl]
      exact List.mem_append_right _ List.mem_cons_self
    · rw [hs] at hf
      cases hf
    · rw [h.called, hl, if_pos rfl, List.count_append]
      have : [Event.state .handshaking].count (.handshake false) = 0 := by decide
      omega

theorem wentActive_coherent {pre : List Event} (h : WentActive pre c c')
    (hcount : c'.openings + c.log.count (.handshake false) + pre.count (.handshake false) ≤
      if c'.called then 1 else 0) : c'.Coherent := by
  obtain ⟨l, hl, hq, hs⟩ := h
  refine ⟨?_, fun hi => ?_, ?_⟩
  · rw [hs, hl]
    rcases written_foldl (l := .state .active :: l) hq (.inr List.mem_cons_self) with hi | hm
    · exact .inl hi
    · right
      refine List.mem_append_right _ ?_
      simpa using hm
  · rw [hs] at hi
    exact absurd (inactive_foldl hq hi).1 (by decide)
  · rw [hl, List.count_append, List.count_append, List.count_cons, count_handshake_quiet hq]
    simpa [Nat.add_assoc] using hcount

theorem inductive_coherent : system.Inductive Lib.Sys.free Coherent where
  base c hc := by
    obtain ⟨isClient, isTls, rfl⟩ := hc
    exact ⟨.inl rfl, fun _ e he => absurd he List.not_mem_nil, Nat.le_refl _⟩
  keep c a c' hc _ hs := by
    rcases step_cases hs with ⟨-, -, hq | ho⟩ | ⟨-, pre, hw, hcalled, hcount⟩
    · exact hq.coherent hc
    · exact ho.coherent hc
    · have ho := hc.openings
      refine wentActive_coherent hw ?_
      rw [hcalled]
      rcases hcount with ⟨-, hpre, -, hle⟩ | ⟨-, rfl, hle⟩
      · have : pre.count (.handshake false) = 0 := by rcases hpre with rfl | rfl <;> decide
        omega
      · have : [Event.handshake false].count (.handshake false) = 1 := by decide
        omega

/-! ## Closing is final, unless a handshake is overtaken -/

/-- Once the state has become closing or closed it never becomes handshaking or active. -/
def NeverReactivates (log : List Event) : Prop :=
  log.Pairwise fun e e' => e.closes = true → e'.opens = false

instance (log : List Event) : Decidable (NeverReactivates log) :=
  inferInstanceAs (Decidable (log.Pairwise _))

/-- A handler that calls `go_active()` only runs while the connection is not closing. -/
def NotOvertaken (c : Connection) (a : Act) : Prop := c.goesActive a = true → c.isClosing = false

instance (c : Connection) (a : Act) : Decidable (NotOvertaken c a) :=
  inferInstanceAs (Decidable (_ → _))

theorem neverReactivates_append {l l' : List Event} :
    NeverReactivates (l ++ l') ↔ NeverReactivates l ∧ NeverReactivates l' ∧
      ∀ e ∈ l, e.closes = true → ∀ e' ∈ l', e'.opens = false := by
  unfold NeverReactivates
  rw [List.pairwise_append]
  refine and_congr_right fun _ => and_congr_right fun _ => ?_
  exact ⟨fun h e he hc e' he' => h e he e' he' hc, fun h e he e' he' hc => h e he hc e' he'⟩

theorem neverReactivates_quiet {l : List Event} (hq : ∀ e ∈ l, e.quiet = true) :
    NeverReactivates l :=
  List.pairwise_of_forall_mem_list fun _ _ e' he' _ => opens_of_quiet (hq e' he')

/-- A history in which nothing closes. -/
theorem neverReactivates_of_open {l : List Event} (h : ∀ e ∈ l, e.closes = false) :
    NeverReactivates l := by
  apply List.pairwise_of_forall_mem_list
  intro e he e' _ hc
  rw [h e he] at hc
  cases hc

/-- The invariant: the history is as it should be, and the state agrees with it. -/
structure StaysClosed (c : Connection) : Prop where
  log : NeverReactivates c.log
  state : ∀ e ∈ c.log, e.closes = true → c.isClosing = true

/-- A quiet segment that follows a history keeps it. -/
theorem staysClosed_append {l l' : List Event} {s : State} (hlog : NeverReactivates l)
    (hs : ∀ e ∈ l, e.closes = true → s = .closed ∨ s = .closing)
    (hq : ∀ e ∈ l', e.quiet = true) (hc' : c'.log = l ++ l')
    (hst : c'.state = l'.foldl Event.next s) : c'.StaysClosed := by
  refine ⟨?_, fun e he hc => ?_⟩
  · rw [hc']
    exact neverReactivates_append.mpr ⟨hlog, neverReactivates_quiet hq, fun _ _ _ e' he' =>
      opens_of_quiet (hq e' he')⟩
  · have hcl : c'.state = .closed ∨ c'.state = .closing := by
      rw [hst]
      rcases foldl_quiet hq s with ⟨hno, hf⟩ | ⟨t, ht, hf, -⟩
      · rw [hf]
        rw [hc'] at he
        rcases List.mem_append.mp he with he | he
        · exact hs e he hc
        · rw [hno e he] at hc
          cases hc
      · rw [hf]
        exact ht.symm
    exact isClosing_iff.mpr hcl

theorem staysClosed_of_open {l l' : List Event} {s : State} (hno : ∀ e ∈ l, e.closes = false)
    (hq : ∀ e ∈ l', e.quiet = true) (hc' : c'.log = l ++ l')
    (hst : c'.state = l'.foldl Event.next s) : c'.StaysClosed := by
  refine staysClosed_append (neverReactivates_of_open hno) (fun e he hc => ?_) hq hc' hst
  rw [hno e he] at hc
  cases hc

theorem step_staysClosed {a : Act} (hco : c.Coherent) (h : c.StaysClosed) (ha : NotOvertaken c a)
    (hs : c.step a = some c') : c'.StaysClosed := by
  have hstate : ∀ e ∈ c.log, e.closes = true → c.state = .closed ∨ c.state = .closing := by
    intro e he hc
    exact isClosing_iff.mp (h.state e he hc)
  rcases step_cases hs with ⟨-, -, hq | ho⟩ | ⟨hgo, pre, ⟨l, hl, hq, hst⟩, -, hcount⟩
  · obtain ⟨l, hl, hq, hst⟩ := hq.log
    exact staysClosed_append h.log hstate hq hl hst
  · have hnil : ∀ e ∈ ([] : List Event), e.quiet = true := fun _ he => absurd he List.not_mem_nil
    rcases ho.log with ⟨hl, hst⟩ | ⟨hi, hl, hst⟩
    · exact staysClosed_append h.log hstate hnil (by rw [hl, List.append_nil]) hst
    · -- the initial state is not a closing one, so nothing has closed
      exact staysClosed_of_open (l := c.log ++ [.state .handshaking])
        (List.forall_mem_append.mpr ⟨hco.inactive hi, by decide⟩) hnil
        (by rw [hl, List.append_nil]) hst
  · have hno : ∀ e ∈ c.log, e.closes = false := by
      intro e he
      have hcl := ha hgo
      by_contra hc
      rw [h.state e he (by simpa using hc)] at hcl
      cases hcl
    have hpre : ∀ e ∈ pre, e.closes = false := by
      rcases hcount with ⟨-, rfl | rfl, -⟩ | ⟨-, rfl, -⟩ <;> decide
    refine staysClosed_of_open (l := c.log ++ pre ++ [.state .active]) ?_ hq (s := .active) ?_ hst
    · exact List.forall_mem_append.mpr ⟨List.forall_mem_append.mpr ⟨hno, hpre⟩, by decide⟩
    · rw [hl]
      simp

theorem inductive_staysClosed :
    system.Inductive NotOvertaken (fun c => c.Coherent ∧ c.StaysClosed) where
  base c hc := by
    refine ⟨inductive_coherent.base c hc, ?_⟩
    obtain ⟨isClient, isTls, rfl⟩ := hc
    exact ⟨List.Pairwise.nil, fun e he => absurd he List.not_mem_nil⟩
  keep c a c' h ha hs :=
    ⟨inductive_coherent.keep c a c' h.1 trivial hs, step_staysClosed h.1 h.2 ha hs⟩

/-- A step only adds to the history. -/
theorem step_log {a : Act} (hs : c.step a = some c') : c.log <+: c'.log := by
  rcases step_cases hs with ⟨-, -, hq | ho⟩ | ⟨-, pre, ⟨l, hl, -, -⟩, -⟩
  · obtain ⟨l, hl, -⟩ := hq.log
    exact ⟨l, hl.symm⟩
  · rcases ho.log with ⟨hl, -⟩ | ⟨-, hl, -⟩
    · exact ⟨[], by rw [hl, List.append_nil]⟩
    · exact ⟨_, hl.symm⟩
  · exact ⟨pre ++ .state .active :: l, by rw [hl, List.append_assoc]⟩

/-- A condition on the steps, whose violation ends a property of the history, is met by the runs
that have the property. -/
theorem steps_of_log {P : List Event → Prop} {ok : Connection → Act → Prop}
    (hpre : ∀ l l', P (l ++ l') → P l)
    (hstep : ∀ {c c' : Connection} {a : Act}, c.Coherent → c.step a = some c' → ¬ ok c a →
      ¬ P c'.log)
    {tr : List (Connection × Act)} (h : system.Runs tr c) (hP : P c.log) :
    ∀ x ∈ tr, ok x.1 x.2 := by
  induction h with
  | init _ => exact fun x hx => absurd hx List.not_mem_nil
  | step a htr hs ih =>
    obtain ⟨l, hl⟩ := step_log hs
    refine List.forall_mem_append.mpr ⟨ih ?_, List.forall_mem_singleton.mpr ?_⟩
    · rw [← hl] at hP
      exact hpre _ _ hP
    · by_contra ha
      exact hstep (inductive_coherent.reach (htr.reach fun _ _ => trivial)) hs ha hP

/-- An overtaken handshake makes a closing connection active. -/
theorem overtaken_reactivates {a : Act} (hco : c.Coherent) (hs : c.step a = some c')
    (ha : ¬ NotOvertaken c a) : ¬ NeverReactivates c'.log := by
  obtain ⟨hgo, hcl⟩ := Classical.not_imp.mp ha
  have hst := isClosing_iff.mp (by simpa using hcl)
  rcases step_cases hs with ⟨hgo', -⟩ | ⟨-, pre, ⟨l, hl, -, -⟩, -⟩
  · rw [hgo] at hgo'
    cases hgo'
  · intro hnever
    rw [hl, List.append_assoc] at hnever
    have hmem : .state c.state ∈ c.log :=
      hco.written.resolve_left fun hi => by rw [hi] at hst; rcases hst with h | h <;> cases h
    have hclosing : (Event.state c.state).closes = true := by
      rcases hst with h | h <;> rw [h] <;> rfl
    have hopen := (neverReactivates_append.mp hnever).2.2 _ hmem hclosing (.state .active)
      (List.mem_append_right _ List.mem_cons_self)
    cases hopen

/-- **When closing is final.** In a run of a connection the state is never handshaking or active
after it was closing or closed, exactly if no handler that calls `go_active()` runs while the
connection is closing; and then a connection that has begun to close is closing or closed. -/
theorem log_neverReactivates_iff {tr : List (Connection × Act)} (h : system.Runs tr c) :
    ((∀ x ∈ tr, NotOvertaken x.1 x.2) ↔ NeverReactivates c.log) ∧
      (NeverReactivates c.log → (∃ e ∈ c.log, e.closes = true) →
        c.state = .closing ∨ c.state = .closed) := by
  have hall : NeverReactivates c.log → ∀ x ∈ tr, NotOvertaken x.1 x.2 :=
    steps_of_log (fun _ _ hl => (neverReactivates_append.mp hl).1)
      (fun hco hs ha => overtaken_reactivates hco hs ha) h
  have hclosed : (∀ x ∈ tr, NotOvertaken x.1 x.2) → c.StaysClosed := fun hok =>
    (inductive_staysClosed.reach (h.reach hok)).2
  refine ⟨⟨fun hok => (hclosed hok).log, hall⟩, fun hnever ⟨e, he, hc⟩ => ?_⟩
  exact (isClosing_iff.mp ((hclosed (hall hnever)).state e he hc)).symm

/-- A client that connects, closes with `disconnect()` and then fails to close. -/
def closedRun : List (Connection × Act) × Connection :=
  system.run { isClient := true, isTls := true }
    [.connect, .complete 0 false false false, .complete 0 false false false,
      .complete 0 false true true, .read 0 true, .disconnect true true, .complete 1 true false false]

theorem log_neverReactivates_closedRun :
    NeverReactivates closedRun.2.log ∧
      (closedRun.2.state = .closing ∨ closedRun.2.state = .closed) := by
  have hrun : system.Runs closedRun.1 closedRun.2 := runs_run true true _
  obtain ⟨hiff, hclosed⟩ := log_neverReactivates_iff hrun
  have hnever := hiff.mp (by decide)
  exact ⟨hnever, hclosed hnever ⟨.state .closing, by decide, rfl⟩⟩

/-- A client that calls `disconnect()` while its handshake is in progress. -/
def overtakenRun : List (Connection × Act) × Connection :=
  system.run { isClient := true, isTls := false }
    [.connect, .complete 0 false false false, .disconnect true true, .complete 0 false false false]

/-- The handshake that completes after `disconnect()` makes the closing connection active. -/
theorem overtaken_handshake_reactivates :
    ¬ ∀ tr c, system.Runs tr c → NeverReactivates c.log := by
  intro h
  have hrun : system.Runs overtakenRun.1 overtakenRun.2 := runs_run true false _
  exact absurd (h _ _ hrun) (by decide)

/-! ## Active only after the handshake, unless a handshake fails -/

/-- The state only becomes active after the websocket handshake has completed without error. -/
def ActiveAfterHandshake (log : List Event) : Prop :=
  ∀ l l', log = l ++ .state .active :: l' → .handshake false ∈ l

/-- No TLS or websocket handshake of a client completes with an error. -/
def HandshakeSucceeds (c : Connection) (a : Act) : Prop := c.failsHandshake a = false

instance (c : Connection) (a : Act) : Decidable (HandshakeSucceeds c a) :=
  inferInstanceAs (Decidable (_ = _))

theorem activeAfterHandshake_append {l l' : List Event} :
    ActiveAfterHandshake (l ++ l') ↔ ActiveAfterHandshake l ∧
      ∀ p r, l' = p ++ .state .active :: r → .handshake false ∈ l ++ p := by
  constructor
  · intro h
    refine ⟨fun p r he => h p (r ++ l') (by rw [he]; simp), fun p r he => h (l ++ p) r ?_⟩
    rw [he, List.append_assoc]
  · rintro ⟨hl, hl'⟩ p r he
    rcases List.append_eq_append_iff.mp he with ⟨m, rfl, hm⟩ | ⟨m, hlm, hm⟩
    · exact hl' m r hm
    · cases m with
      | nil =>
        rw [List.append_nil] at hlm
        have := hl' [] r hm.symm
        rwa [List.append_nil, hlm] at this
      | cons e m =>
        obtain ⟨rfl, -⟩ := List.cons.inj hm
        exact hl p m hlm

/-- A segment in which the state does not become active. -/
theorem activeAfterHandshake_of_inactive {l l' : List Event} (h : ActiveAfterHandshake l)
    (hl' : ∀ e ∈ l', e ≠ .state .active) : ActiveAfterHandshake (l ++ l') := by
  refine activeAfterHandshake_append.mpr ⟨h, fun p r he => ?_⟩
  exact absurd rfl (hl' _ (by rw [he]; exact List.mem_append_right _ List.mem_cons_self))

/-- After the handshake the state may become active. -/
theorem activeAfterHandshake_of_handshake {l l' : List Event} (h : ActiveAfterHandshake l)
    (hm : .handshake false ∈ l) : ActiveAfterHandshake (l ++ l') :=
  activeAfterHandshake_append.mpr ⟨h, fun _ _ _ => List.mem_append_left _ hm⟩

theorem ne_active_of_quiet {l : List Event} (hq : ∀ e ∈ l, e.quiet = true) :
    ∀ e ∈ l, e ≠ .state .active := by
  rintro e he rfl
  exact absurd (hq _ he) (by decide)

theorem step_activeAfterHandshake {a : Act} (h : ActiveAfterHandshake c.log)
    (ha : HandshakeSucceeds c a) (hs : c.step a = some c') : ActiveAfterHandshake c'.log := by
  rcases step_cases hs with ⟨-, -, hq | ho⟩ | ⟨-, pre, ⟨l, hl, hq, -⟩, -, hcount⟩
  · obtain ⟨l, hl, hq, -⟩ := hq.log
    rw [hl]
    exact activeAfterHandshake_of_inactive h (ne_active_of_quiet hq)
  · rcases ho.log with ⟨hl, -⟩ | ⟨-, hl, -⟩
    · rwa [hl]
    · rw [hl]
      exact activeAfterHandshake_of_inactive h (by decide)
  · rcases hcount with ⟨hf, -⟩ | ⟨-, rfl, -⟩
    · rw [show c.failsHandshake a = false from ha] at hf
      cases hf
    · have hpre : ActiveAfterHandshake (c.log ++ [.handshake false]) :=
        activeAfterHandshake_of_inactive h (by decide)
      rw [hl]
      exact activeAfterHandshake_of_handshake hpre (List.mem_append_right _ List.mem_cons_self)

theorem inductive_activeAfterHandshake :
    system.Inductive HandshakeSucceeds (fun c => ActiveAfterHandshake c.log) where
  base c hc := by
    obtain ⟨isClient, isTls, rfl⟩ := hc
    intro p r he
    exact absurd he.symm (List.append_ne_nil_of_right_ne_nil _ (List.cons_ne_nil _ _))
  keep _ _ _ h ha hs := step_activeAfterHandshake h ha hs

/-- A client whose handshake fails becomes active without one. -/
theorem failed_handshake_activates {a : Act} (hco : c.Coherent) (hs : c.step a = some c')
    (ha : ¬ HandshakeSucceeds c a) : ¬ ActiveAfterHandshake c'.log := by
  have hf : c.failsHandshake a = true := by simpa [HandshakeSucceeds] using ha
  rcases step_cases hs with ⟨-, hf', -⟩ | ⟨-, pre, ⟨l, hl, -, -⟩, -, hcount⟩
  · rw [hf] at hf'
    cases hf'
  · intro hactive
    have hmem := hactive _ _ hl
    have ho := hco.openings
    rcases hcount with ⟨-, hpre, hpos, -⟩ | ⟨hf', -⟩
    · -- the operation that failed is the only one that leads to a handshake
      have hnone : c.log.count (.handshake false) = 0 := by
        have : (if c.called then 1 else 0) ≤ 1 := by split <;> omega
        omega
      rcases List.mem_append.mp hmem with hm | hm
      · exact absurd hm (List.count_eq_zero.mp hnone)
      · rcases hpre with rfl | rfl
        · cases hm
        · exact absurd hm (by decide)
    · rw [hf] at hf'
      cases hf'

/-- **When a connection is active only after its handshake.** In a run of a connection the state
only becomes active after the websocket handshake has completed without error, exactly if no TLS
or websocket handshake of a client completes with an error; and then the handshake of an active
connection has completed without error. -/
theorem log_activeAfterHandshake_iff {tr : List (Connection × Act)} (h : system.Runs tr c) :
    ((∀ x ∈ tr, HandshakeSucceeds x.1 x.2) ↔ ActiveAfterHandshake c.log) ∧
      (ActiveAfterHandshake c.log → c.state = .active → .handshake false ∈ c.log) := by
  have hco : c.Coherent := inductive_coherent.reach (h.reach fun _ _ => trivial)
  refine ⟨⟨fun hok => inductive_activeAfterHandshake.reach (h.reach hok), fun hactive => ?_⟩, ?_⟩
  · exact steps_of_log (fun _ _ hl => (activeAfterHandshake_append.mp hl).1)
      (fun hco hs ha => failed_handshake_activates hco hs ha) h hactive
  · intro hactive hst
    rcases hco.written with hi | hm
    · rw [hst] at hi
      cases hi
    · rw [hst] at hm
      obtain ⟨p, r, he⟩ := List.append_of_mem hm
      rw [he]
      exact List.mem_append_left _ (hactive p r he)

/-- A server that accepts, and reads. -/
def acceptedRun : List (Connection × Act) × Connection :=
  system.run { isClient := false, isTls := true }
    [.read 0 false, .accept, .complete 0 false true true, .handler .read 0]

theorem log_activeAfterHandshake_acceptedRun :
    acceptedRun.2.state = .active ∧ .handshake false ∈ acceptedRun.2.log := by
  have hrun : system.Runs acceptedRun.1 acceptedRun.2 := runs_run false true _
  obtain ⟨hiff, hlog⟩ := log_activeAfterHandshake_iff hrun
  have hstate : acceptedRun.2.state = .active := by decide
  exact ⟨hstate, hlog (hiff.mp (by decide)) hstate⟩

/-- A client whose websocket handshake is refused. -/
def refusedRun : List (Connection × Act) × Connection :=
  system.run { isClient := true, isTls := false }
    [.connect, .complete 0 false false false, .complete 0 true true true]

/-- A client whose handshake completes with an error is active. -/
theorem refused_client_is_active :
    ¬ ∀ tr c, system.Runs tr c → c.state = .active → .handshake false ∈ c.log := by
  intro h
  have hrun : system.Runs refusedRun.1 refusedRun.2 := runs_run true false _
  exact absurd (h _ _ hrun (by decide)) (by decide)

end Connection

end Websocket
end Malloy
