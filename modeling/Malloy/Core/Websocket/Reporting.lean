import Malloy.Core.Websocket.Closing

/-!
# The callback of `connect()`

`connect()` reports through its callback: `async_connect`, the TLS handshake and the websocket
handshake are started one after the other, and the handler of each either calls the callback or
starts the next.

* `reports`: the calls that were made, and the operations that will make one.
* `Silent`: what a connection does without calling the callback. `dialing_step`: after `connect()` a
  step keeps `reports`, unless it completes a TLS handshake with an error.
-/

namespace Malloy
namespace Websocket

/-- The event is a call of the callback of `connect()` or `accept()`. -/
def Event.isDone : Event → Bool
  | .done _ => true
  | _ => false

namespace Connection

variable {c c' c'' : Connection}

/-- The calls of the callback that were made, and the operations that will make one. -/
def reports (c : Connection) : Nat := c.log.countP Event.isDone + c.openings

/-- What a connection does without calling the callback of `connect()`. -/
structure Silent (c c' : Connection) : Prop where
  reports : c'.reports = c.reports
  accept : .accept ∈ c'.pending → .accept ∈ c.pending
  isClient : c'.isClient = c.isClient

theorem Silent.refl (c : Connection) : Silent c c := ⟨rfl, id, rfl⟩

theorem Silent.trans (h : Silent c c') (h' : Silent c' c'') : Silent c c'' where
  reports := h'.reports.trans h.reports
  accept := h.accept ∘ h'.accept
  isClient := h'.isClient.trans h.isClient

theorem reports_record (e : Event) :
    (c.record e).reports = c.reports + if e.isDone then 1 else 0 := by
  simp only [reports, record, openings, List.countP_append, List.countP_singleton]
  omega

theorem reports_start (op : Pending) :
    (c.start op).reports = c.reports + if op.opens then 1 else 0 := by
  simp only [reports, start, openings, List.countP_append, List.countP_singleton]
  omega

theorem reports_takePending {i : Nat} {op : Pending} (h : c.pending[i]? = some op) :
    (c.takePending i).reports + (if op.opens then 1 else 0) = c.reports := by
  have ho := openings_takePending h
  have hlog : (c.takePending i).log = c.log := rfl
  unfold reports
  rw [hlog]
  omega

theorem silent_record {e : Event} (he : e.isDone = false) : Silent c (c.record e) where
  reports := by rw [reports_record, he]; rfl
  accept := id
  isClient := rfl

theorem silent_setState (s : State) : Silent c (c.setState s) :=
  have h : Silent c { c with state := s } := ⟨rfl, id, rfl⟩
  h.trans (silent_record rfl)

theorem silent_start {op : Pending} (hop : op.opens = false) : Silent c (c.start op) where
  reports := by rw [reports_start, hop]; rfl
  accept h := (List.mem_append.mp h).resolve_right fun h => by
    rw [← List.mem_singleton.mp h] at hop
    cases hop
  isClient := rfl

theorem Internal.silent (h : Internal c c') : Silent c c' := by
  induction h with
  | refl => exact .refl c
  | setQueue side q _ ih => cases side <;> exact ih.trans ⟨rfl, id, rfl⟩
  | start op hop _ ih => exact ih.trans (silent_start hop)
  | asyncClose _ ih => exact (ih.trans (silent_setState _)).trans (silent_record rfl)
  | onDone side act _ ih => exact ih.trans (silent_record rfl)

theorem silent_goActive {r w : Bool} : Silent c (c.goActive r w) :=
  (silent_setState _).trans (internal_onQueue.trans internal_onQueue).silent

/-- The callback of `connect()` is called once. -/
theorem reports_onHandshake (ec r w : Bool) :
    (c.onHandshake ec r w).reports = c.reports + 1 := by
  unfold onHandshake
  rw [reports_record, silent_goActive.reports]
  rfl

/-- The handler of an operation that does not lead to the handshake. -/
theorem silent_complete {op : Pending} (hop : op.opens = false) {ec r w : Bool} :
    Silent c (c.complete ec r w op) := by
  cases op with
  | connect => cases hop
  | tlsHandshake => cases hop
  | handshake => cases hop
  | accept => cases hop
  | io side act => exact silent_start rfl
  | close owner =>
    have hclosed : Silent c (if ec then c else c.setState .closed) := by
      split
      · exact .refl c
      · exact silent_setState .closed
    match owner with
    | some .read => exact hclosed.trans internal_callOnDone.silent
    | some .write => exact hclosed.trans internal_callOnDone.silent
    | none => exact hclosed
  | onDone side act => cases side <;> exact internal_callOnDone.silent

theorem silent_takePending {i : Nat} {op : Pending} (h : c.pending[i]? = some op)
    (hop : op.opens = false) : Silent c (c.takePending i) where
  reports := by
    have := reports_takePending h
    rw [hop] at this
    exact this
  accept := List.mem_of_mem_eraseIdx
  isClient := rfl

/-- **The handlers of `connect()`.** Each one calls the callback once or starts the operation that
will, but for the handler of a TLS handshake that failed, which does both. -/
theorem reports_complete {i : Nat} {op : Pending} (h : c.pending[i]? = some op)
    (hop : op ≠ .accept) {ec r w : Bool} :
    ((c.takePending i).complete ec r w op).reports =
      c.reports + if ec && op == .tlsHandshake then 1 else 0 := by
  cases hopens : op.opens with
  | false =>
    have hne : op ≠ .tlsHandshake := by
      rintro rfl
      cases hopens
    rw [if_neg (by simp [hne])]
    exact ((silent_takePending h hopens).trans (silent_complete hopens)).reports
  | true =>
    have htake := reports_takePending h
    rw [if_pos hopens] at htake
    cases op with
    | accept => exact absurd rfl hop
    | connect =>
      cases ec with
      | true => exact (reports_record _).trans htake
      | false =>
        have hstart : (c.takePending i).onConnect.reports = (c.takePending i).reports + 1 := by
          unfold onConnect
          split
          · exact reports_start .tlsHandshake
          · exact reports_start .handshake
        exact hstart.trans htake
    | tlsHandshake =>
      have hready : ∀ c : Connection, c.onReadyForHandshake.reports = c.reports + 1 :=
        fun c => reports_start .handshake
      cases ec with
      | true =>
        have hdone := reports_onHandshake (c := c.takePending i) true r w
        exact (hready _).trans (congrArg (· + 1) (hdone.trans htake))
      | false => exact (hready _).trans htake
    | handshake =>
      have hrecord : ((c.takePending i).record (.handshake ec)).reports =
          (c.takePending i).reports := reports_record _
      have hdone := reports_onHandshake (c := (c.takePending i).record (.handshake ec)) ec r w
      have hne : ¬ (ec && Pending.handshake == .tlsHandshake) = true := by simp
      rw [if_neg hne]
      exact hdone.trans (by omega)
    | io side act => cases hopens
    | close owner => cases hopens
    | onDone side act => cases hopens

/-! ## The connection of a client that has called `connect()` -/

/-- A connection that `connect()` was called on: nothing accepts a handshake on it. -/
structure Dialing (c : Connection) : Prop where
  isClient : c.isClient = true
  called : c.called = true
  accept : .accept ∉ c.pending

theorem Silent.dialing (h : Silent c c') (hcalled : c'.called = c.called) (hd : c.Dialing) :
    c'.Dialing where
  isClient := h.isClient.trans hd.isClient
  called := hcalled.trans hd.called
  accept hm := hd.accept (h.accept hm)

theorem dialing_start {op : Pending} (hop : op ≠ .accept) (h : c.Dialing) :
    (c.start op).Dialing where
  isClient := h.isClient
  called := h.called
  accept hm := (List.mem_append.mp hm).elim h.accept fun hm => hop (List.mem_singleton.mp hm).symm

theorem dialing_record (e : Event) (h : c.Dialing) : (c.record e).Dialing :=
  ⟨h.isClient, h.called, h.accept⟩

theorem dialing_onHandshake {ec r w : Bool} (h : c.Dialing) : (c.onHandshake ec r w).Dialing :=
  dialing_record _ (silent_goActive.dialing quiet_goActive.called h)

theorem dialing_complete {i : Nat} {op : Pending} (h : c.pending[i]? = some op)
    (hd : c.Dialing) {ec r w : Bool} : ((c.takePending i).complete ec r w op).Dialing := by
  have htake : (c.takePending i).Dialing :=
    ⟨hd.isClient, hd.called, fun hm => hd.accept (List.mem_of_mem_eraseIdx hm)⟩
  have hready : ∀ {c : Connection}, c.Dialing → c.onReadyForHandshake.Dialing :=
    dialing_start (by simp)
  cases op with
  | connect =>
    cases ec with
    | true => exact dialing_record _ htake
    | false =>
      show (onConnect _).Dialing
      unfold onConnect
      split
      · exact dialing_start (by simp) htake
      · exact hready htake
  | tlsHandshake =>
    cases ec with
    | true => exact hready (dialing_onHandshake htake)
    | false => exact hready htake
  | handshake => exact dialing_onHandshake (dialing_record _ htake)
  | accept => exact absurd (List.mem_of_getElem? h) hd.accept
  | io side act => exact dialing_start (by simp) htake
  | close owner =>
    exact (silent_complete rfl).dialing (complete_quiet h rfl).called htake
  | onDone side act =>
    exact (silent_complete rfl).dialing (complete_quiet h rfl).called htake

/-- **What a step reports.** After `connect()` a step calls the callback once for each operation
that it ends on the way to the handshake, and once more if it fails a TLS handshake. -/
theorem dialing_step {a : Act} (hd : c.Dialing) (hs : c.step a = some c') :
    c'.Dialing ∧ c'.reports = c.reports + if c.failsTls a then 1 else 0 := by
  have hinternal : Internal c c' → c'.Dialing ∧ c'.reports = c.reports := fun h =>
    ⟨h.silent.dialing h.quiet.called hd, h.silent.reports⟩
  cases a with
  | connect => simp [step, hd.called] at hs
  | accept => simp [step, hd.called] at hs
  | disconnect r w =>
    cases hs
    exact hinternal internal_disconnect
  | forceDisconnect =>
    cases hs
    exact hinternal internal_forceDisconnect
  | read call r =>
    cases hs
    exact hinternal internal_onQueue
  | send call w =>
    cases hs
    exact hinternal internal_onQueue
  | handler side i =>
    obtain ⟨x, -, rfl⟩ := Option.map_eq_some_iff.mp hs
    exact hinternal internal_onQueue
  | complete i ec r w =>
    obtain ⟨op, hop, rfl⟩ := Option.map_eq_some_iff.mp hs
    have hne : op ≠ .accept := by
      rintro rfl
      exact hd.accept (List.mem_of_getElem? hop)
    have hfails : c.failsTls (.complete i ec r w) = (ec && op == .tlsHandshake) := by
      simp [failsTls, hop]
    rw [hfails]
    exact ⟨dialing_complete hop hd, reports_complete hop hne⟩

end Connection

end Websocket
end Malloy
