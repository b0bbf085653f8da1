import Malloy.Core.Str
import Malloy.Lib.Sys
import Mathlib.Data.List.Perm.Basic

/-!
# `malloy::server::listener` and `malloy::server::http::connection_detector`

The listener accepts sockets, and gives each one to a detector, which looks for a TLS handshake and
launches an HTTP connection with the socket. Two chains of callbacks: `on_accept` starts the next
accept as its last action, so an error or an exception before it ends the chain; and `on_detect`
goes on after it launched a TLS connection, so it launches a plain one as well, with the socket that
is left in its stream: none.

* `Listener`: the accepts in progress, the detectors, the connections launched so far, and the
  detections that completed. `listening`: its runs.
* `OneAccept`, `OneConnection`: what is wanted of a run. `Clean` steps keep it, and no other step
  does: `accepts_and_launches_iff`.
* `released_once`: a socket itself is in one connection at most, however the steps go.
-/

namespace Malloy
namespace Server

/-! ## Detectors and the connections that they launch -/

/-- `http::connection_detector`. -/
structure ConnectionDetector where
  /-- Which of the accepted sockets it was made for. -/
  accepted : Nat
  /-- The socket in `m_stream`. -/
  socket : Option Nat := some accepted
  /-- `m_buffer`. -/
  buffer : Str := []

inductive ConnectionKind where
  | plain
  | tls
  deriving DecidableEq

/-- An HTTP connection that was made and run. -/
structure LaunchedConnection where
  kind : ConnectionKind
  /-- The accepted socket whose detector made it. -/
  accepted : Nat
  /-- The socket that it was given. -/
  socket : Option Nat
  buffer : Str
  /-- `cfg.agent_string`. -/
  agentString : Str

/-- The members of the listener that go to every connection. -/
structure ListenerConfig where
  /-- `MALLOY_FEATURE_TLS`. -/
  featureTls : Bool
  /-- There is a TLS context. -/
  tlsCtx : Bool
  agentString : Str

/-- The detection found TLS, and there is a TLS context. -/
def ListenerConfig.launchesTls (cfg : ListenerConfig) (result : Bool) : Bool :=
  cfg.featureTls && (result && cfg.tlsCtx)

namespace ConnectionDetector

/-- A connection is made with what is left in the stream and in the buffer, and run. -/
def launch (cfg : ListenerConfig) (kind : ConnectionKind) (d : ConnectionDetector) :
    LaunchedConnection × ConnectionDetector :=
  ({ kind, accepted := d.accepted, socket := d.socket, buffer := d.buffer,
     agentString := cfg.agentString },
    { d with socket := none, buffer := [] })

/-- `on_detect(ec, result)`: the connections that it launches. -/
def onDetect (cfg : ListenerConfig) (ec result : Bool) (d : ConnectionDetector) :
    List LaunchedConnection :=
  if ec then []
  else if cfg.launchesTls result then
    let (conn, d) := d.launch cfg .tls
    -- there is no `return` in this branch
    [conn, (d.launch cfg .plain).1]
  else [(d.launch cfg .plain).1]

end ConnectionDetector

/-! ## The listener -/

structure Listener where
  /-- The asynchronous accepts in progress. -/
  accepts : Nat := 0
  /-- How many sockets were accepted. -/
  sockets : Nat := 0
  /-- The detectors whose detection is in progress. -/
  detectors : List ConnectionDetector := []
  /-- The connections launched so far. -/
  connections : List LaunchedConnection := []
  /-- The detections that completed: the socket, and whether there was an error. -/
  detected : List (Nat × Bool) := []

/-- How an accept completes. -/
inductive AcceptResult where
  | error
  /-- A socket; the flag is whether `remote_endpoint()` returns. It throws when the peer is gone. -/
  | socket (hasPeer : Bool)
  deriving DecidableEq

inductive Listener.Act where
  | accept (r : AcceptResult)
  /-- The `i`-th detection completes, with these bytes in the buffer. -/
  | detect (i : Nat) (ec result : Bool) (buffer : Str)

namespace Listener

def doAccept (l : Listener) : Listener := { l with accepts := l.accepts + 1 }

/-- `on_accept(ec, socket)`. -/
def onAccept (r : AcceptResult) (l : Listener) : Listener :=
  match r with
  | .error => l
  | .socket false => { l with sockets := l.sockets + 1 }
  | .socket true => doAccept
      { l with sockets := l.sockets + 1, detectors := l.detectors ++ [{ accepted := l.sockets }] }

def step (cfg : ListenerConfig) (l : Listener) : Act → Option Listener
  | .accept r =>
    if l.accepts = 0 then none else some (onAccept r { l with accepts := l.accepts - 1 })
  | .detect i ec result buffer => l.detectors[i]?.map fun d =>
    { l with
      detectors := l.detectors.eraseIdx i
      connections := l.connections ++ { d with buffer }.onDetect cfg ec result
      detected := l.detected ++ [(d.accepted, ec)] }

/-- The runs of a listener, from `run()`. -/
def listening (cfg : ListenerConfig) : Lib.Sys Listener Act where
  init l := l = doAccept {}
  step := step cfg

/-! ## What is wanted -/

/-- When an accept completion has been handled, one accept is in progress. -/
def OneAccept (cfg : ListenerConfig) (tr : List (Listener × Act)) : Prop :=
  ∀ x ∈ tr, ∀ r l, x.2 = .accept r → step cfg x.1 x.2 = some l → l.accepts = 1

/-- The connections that were launched for this socket. -/
def launchedFor (socket : Nat) (cs : List LaunchedConnection) : List LaunchedConnection :=
  cs.filter fun c => c.accepted = socket

/-- One connection was launched for each socket whose detection completed without an error, and none
where it failed. -/
def OneConnection (l : Listener) : Prop :=
  ∀ x ∈ l.detected, (launchedFor x.1 l.connections).length = if x.2 then 0 else 1

/-- The step meets neither defect: an accept gives a socket whose peer is known, and a detection
fails, or does not find TLS where there is a TLS context. -/
def Clean (cfg : ListenerConfig) : Act → Prop
  | .accept r => r = .socket true
  | .detect _ ec result _ => ec = true ∨ cfg.launchesTls result = false

/-! ## What the steps do -/

section

variable {cfg : ListenerConfig} {l l' : Listener}

theorem step_cases {a : Act} (h : step cfg l a = some l') :
    (∃ r, a = .accept r ∧ 0 < l.accepts ∧
      l' = onAccept r { l with accepts := l.accepts - 1 }) ∨
    (∃ i ec result buffer d, a = .detect i ec result buffer ∧ l.detectors[i]? = some d ∧
      l' = { l with
        detectors := l.detectors.eraseIdx i
        connections := l.connections ++ { d with buffer := buffer }.onDetect cfg ec result
        detected := l.detected ++ [(d.accepted, ec)] }) := by
  cases a with
  | accept r =>
    left
    simp only [step] at h
    split at h
    · cases h
    · rename_i h0
      cases h
      exact ⟨r, rfl, Nat.pos_of_ne_zero h0, rfl⟩
  | detect i ec result buffer =>
    right
    obtain ⟨d, hd, rfl⟩ := Option.map_eq_some_iff.mp h
    exact ⟨i, ec, result, buffer, d, rfl, hd, rfl⟩

/-- A detector launches connections of its own, -/
theorem onDetect_accepted {ec result : Bool} {d : ConnectionDetector} {c : LaunchedConnection}
    (h : c ∈ d.onDetect cfg ec result) : c.accepted = d.accepted := by
  unfold ConnectionDetector.onDetect at h
  split at h
  · cases h
  · split at h
    · rcases List.mem_cons.mp h with rfl | h
      · rfl
      · rw [List.mem_singleton.mp h]
        rfl
    · rw [List.mem_singleton.mp h]
      rfl

/-- and one of them has its socket, unless there was an error: the first. -/
theorem onDetect_sockets (ec result : Bool) (d : ConnectionDetector) :
    (d.onDetect cfg ec result).filterMap (·.socket) = if ec then [] else d.socket.toList := by
  unfold ConnectionDetector.onDetect
  split
  · rfl
  · split
    · cases hd : d.socket <;> simp [ConnectionDetector.launch, hd]
    · cases hd : d.socket <;> simp [ConnectionDetector.launch, hd]

/-- It launches what is wanted exactly in a clean step. -/
theorem onDetect_length_iff (i : Nat) (ec result : Bool) (buffer : Str) (d : ConnectionDetector) :
    (d.onDetect cfg ec result).length = (if ec then 0 else 1) ↔
      Clean cfg (.detect i ec result buffer) := by
  unfold ConnectionDetector.onDetect Clean
  cases ec with
  | true => simp
  | false =>
    cases hb : cfg.launchesTls result with
    | true => simp [hb]
    | false => simp [hb]

/-! ## The numbers of the sockets -/

/-- The sockets that a detector has or had. -/
def numbers (l : Listener) : List Nat :=
  l.detectors.map (·.accepted) ++ l.detected.map (·.1)

/-- Each socket has one detector, which has the socket until it launches a connection. -/
structure Wellformed (l : Listener) : Prop where
  accepts : l.accepts ≤ 1
  nodup : l.numbers.Nodup
  below : ∀ n ∈ l.numbers, n < l.sockets
  held : ∀ d ∈ l.detectors, d.socket = some d.accepted
  launched : ∀ c ∈ l.connections, c.accepted ∈ l.detected.map (·.1)

/-- A detection completes: its number goes from one list to the other. -/
theorem numbers_detect {i : Nat} {d : ConnectionDetector} (hd : l.detectors[i]? = some d)
    (ec : Bool) : (((l.detectors.eraseIdx i).map (·.accepted)) ++
      (l.detected ++ [(d.accepted, ec)]).map (·.1)).Perm l.numbers := by
  obtain ⟨hlt, he⟩ := List.getElem?_eq_some_iff.mp hd
  have hperm : (d :: l.detectors.eraseIdx i).Perm l.detectors := by
    rw [← he]
    exact List.getElem_cons_eraseIdx_perm hlt
  have hnums : d.accepted :: ((l.detectors.eraseIdx i).map (·.accepted) ++
      l.detected.map (·.1)) |>.Perm l.numbers :=
    (hperm.map _).append_right _
  rw [List.map_append, ← List.append_assoc]
  exact (List.perm_append_singleton _ _).trans hnums

theorem step_wellformed {a : Act} (hw : Wellformed l) (h : step cfg l a = some l') :
    Wellformed l' := by
  rcases step_cases h with ⟨r, rfl, h0, rfl⟩ | ⟨i, ec, result, buffer, d, rfl, hd, rfl⟩
  · have hacc := hw.accepts
    cases r with
    | error => exact ⟨by show l.accepts - 1 ≤ 1; omega, hw.nodup, hw.below, hw.held, hw.launched⟩
    | socket hasPeer =>
      cases hasPeer with
      | false =>
        exact ⟨by show l.accepts - 1 ≤ 1; omega, hw.nodup,
          fun n hn => Nat.lt_succ_of_lt (hw.below n hn), hw.held, hw.launched⟩
      | true =>
        have hnum : (l.sockets :: l.numbers).Perm
            ((l.detectors ++ [({ accepted := l.sockets } : ConnectionDetector)]).map
              (·.accepted) ++ l.detected.map (·.1)) := by
          rw [List.map_append, List.append_assoc]
          exact List.perm_middle.symm
        refine ⟨by show l.accepts - 1 + 1 ≤ 1; omega, hnum.nodup_iff.mp ?_, fun n hn => ?_,
          fun d hd => ?_, hw.launched⟩
        · exact List.nodup_cons.mpr
            ⟨fun hm => Nat.lt_irrefl _ (hw.below _ hm), hw.nodup⟩
        · rcases List.mem_cons.mp (hnum.mem_iff.mpr hn) with rfl | hn
          · exact Nat.lt_succ_self _
          · exact Nat.lt_succ_of_lt (hw.below n hn)
        · rcases List.mem_append.mp hd with hd | hd
          · exact hw.held d hd
          · rw [List.mem_singleton.mp hd]
  · have hnum := numbers_detect hd ec
    refine ⟨hw.accepts, hnum.nodup_iff.mpr hw.nodup, fun n hn => hw.below n (hnum.mem_iff.mp hn),
      fun d' hd' => hw.held d' (List.eraseIdx_subset hd'), fun c hc => ?_⟩
    rw [List.map_append]
    rcases List.mem_append.mp hc with hc | hc
    · exact List.mem_append_left _ (hw.launched c hc)
    · rw [onDetect_accepted hc]
      exact List.mem_append_right _ List.mem_cons_self

theorem inductive_wellformed (cfg : ListenerConfig) :
    (listening cfg).Inductive Lib.Sys.free Wellformed where
  base l hl := by
    cases hl
    exact ⟨Nat.le_refl 1, List.nodup_nil, fun n hn => (by cases hn), fun d hd => (by cases hd),
      fun c hc => (by cases hc)⟩
  keep l a l' hw _ h := step_wellformed hw h

/-! ## The connections of a socket -/

/-- What a detection adds to the connections of a socket. -/
theorem launchedFor_onDetect (n : Nat) (cs : List LaunchedConnection) (ec result : Bool)
    (d : ConnectionDetector) : launchedFor n (cs ++ d.onDetect cfg ec result) =
      launchedFor n cs ++ if d.accepted = n then d.onDetect cfg ec result else [] := by
  unfold launchedFor
  rw [List.filter_append]
  congr 1
  split
  · rename_i hn
    exact List.filter_eq_self.mpr fun c hc => by simp [onDetect_accepted hc, hn]
  · rename_i hn
    exact List.filter_eq_nil_iff.mpr fun c hc => by simp [onDetect_accepted hc, hn]

/-- The detection of a socket that is with a detector has not completed. -/
theorem Wellformed.apart (hw : Wellformed l) {d : ConnectionDetector} (hd : d ∈ l.detectors)
    {n : Nat} (hn : n ∈ l.detected.map (·.1)) : d.accepted ≠ n :=
  (List.nodup_append.mp hw.nodup).2.2 _ (List.mem_map_of_mem hd) _ hn

/-- A socket that is with a detector has no connection. -/
theorem Wellformed.launchedFor_eq_nil (hw : Wellformed l) {d : ConnectionDetector}
    (hd : d ∈ l.detectors) : launchedFor d.accepted l.connections = [] := by
  refine List.filter_eq_nil_iff.mpr fun c hc => ?_
  have hne := hw.apart hd (hw.launched c hc)
  simpa using hne.symm

theorem detect_oneConnection_iff (hw : Wellformed l) {i : Nat} {d : ConnectionDetector}
    (hd : l.detectors[i]? = some d) (ec result : Bool) (buffer : Str) :
    OneConnection { l with
      detectors := l.detectors.eraseIdx i
      connections := l.connections ++ { d with buffer := buffer }.onDetect cfg ec result
      detected := l.detected ++ [(d.accepted, ec)] } ↔
    Clean cfg (.detect i ec result buffer) ∧ OneConnection l := by
  have hmem : d ∈ l.detectors := List.mem_of_getElem? hd
  rw [← onDetect_length_iff i ec result buffer { d with buffer := buffer }, and_comm]
  unfold OneConnection
  simp only [List.forall_mem_append, List.mem_singleton, forall_eq, launchedFor_onDetect,
    hw.launchedFor_eq_nil hmem, List.nil_append, if_true]
  refine and_congr_left fun _ => forall₂_congr fun x hx => ?_
  have hne : d.accepted ≠ x.1 := hw.apart hmem (List.mem_map_of_mem hx)
  rw [if_neg hne, List.append_nil]

/-- What is wanted of a step that handles an accept. -/
theorem accept_accepts_iff (hw : Wellformed l) (h0 : 0 < l.accepts) (r : AcceptResult) :
    (onAccept r { l with accepts := l.accepts - 1 }).accepts = 1 ↔ Clean cfg (.accept r) := by
  have h1 : l.accepts = 1 := Nat.le_antisymm hw.accepts h0
  unfold Clean
  cases r with
  | error => simp [onAccept, h1]
  | socket hasPeer => cases hasPeer <;> simp [onAccept, doAccept, h1]

/-- A step that handles an accept launches nothing. -/
theorem onAccept_oneConnection_iff (r : AcceptResult) :
    OneConnection (onAccept r { l with accepts := l.accepts - 1 }) ↔ OneConnection l := by
  cases r with
  | error => exact Iff.rfl
  | socket hasPeer => cases hasPeer <;> exact Iff.rfl

theorem step_iff {a : Act} (hw : Wellformed l) (h : step cfg l a = some l') :
    ((∀ r, a = .accept r → l'.accepts = 1) ∧ OneConnection l') ↔
      (Clean cfg a ∧ OneConnection l) := by
  rcases step_cases h with ⟨r, rfl, h0, rfl⟩ | ⟨i, ec, result, buffer, d, rfl, hd, rfl⟩
  · rw [onAccept_oneConnection_iff, ← accept_accepts_iff hw h0 r]
    exact and_congr_left fun _ => ⟨fun h => h r rfl, fun h _ _ => h⟩
  · rw [← detect_oneConnection_iff hw hd ec result buffer]
    exact and_iff_right (by rintro r ⟨⟩)

end

/-! ## Every run -/

/-- **One accept in progress, and one connection for each socket, in the runs whose steps are all
clean, and in no other.** -/
theorem accepts_and_launches_iff {cfg : ListenerConfig} {tr : List (Listener × Act)}
    {l : Listener} (h : (listening cfg).Runs tr l) :
    (OneAccept cfg tr ∧ OneConnection l) ↔ ∀ x ∈ tr, Clean cfg x.2 := by
  induction h with
  | init hi =>
    cases hi
    exact ⟨fun _ x hx => (by cases hx), fun _ => ⟨fun x hx => (by cases hx),
      fun x hx => (by cases hx)⟩⟩
  | @step tr l l' a hr hst ih =>
    have hw := (inductive_wellformed cfg).reach (hr.reach fun _ _ => trivial)
    have hone : OneAccept cfg (tr ++ [(l, a)]) ↔
        OneAccept cfg tr ∧ ∀ r, a = .accept r → l'.accepts = 1 := by
      unfold OneAccept
      rw [List.forall_mem_append]
      refine and_congr_right fun _ => ⟨fun h r ha => h _ List.mem_cons_self r l' ha hst, ?_⟩
      intro h x hx r m ha hm
      cases List.mem_singleton.mp hx
      have : m = l' := Option.some.inj (hm.symm.trans hst)
      exact this ▸ h r ha
    rw [hone, and_assoc, step_iff hw hst, List.forall_mem_append, ← ih, and_left_comm,
      and_comm (a := Clean cfg a)]
    simp only [and_assoc, List.mem_singleton, forall_eq]

/-- A listener with a TLS context. -/
def tlsListener : ListenerConfig where
  featureTls := true
  tlsCtx := true
  agentString := lit "malloy"

/-- Two clients, of which one speaks TLS to a listener without a context. -/
theorem accepts_and_launches_iff_plainListener :
    ∃ r ∈ [(listening { tlsListener with tlsCtx := false }).run (doAccept {})
      [.accept (.socket true), .accept (.socket true), .detect 0 false true [],
        .detect 0 false false (lit "GET")]],
      (OneAccept { tlsListener with tlsCtx := false } r.1 ∧ OneConnection r.2) ∧
        r.2.detected = [(0, false), (1, false)] := by
  refine ⟨_, List.mem_cons_self, ?_, by decide⟩
  refine (accepts_and_launches_iff (Lib.Sys.runs_run rfl _)).mpr fun x hx => ?_
  have hm := Lib.Sys.mem_of_mem_run hx
  simp only [List.mem_cons, List.not_mem_nil, or_false] at hm
  rcases hm with h | h | h | h
  · rw [h]; rfl
  · rw [h]; rfl
  · rw [h]; exact .inr rfl
  · rw [h]; exact .inr rfl

/-- An accept that fails is the last one, and a TLS client of a listener with a context gets a plain
connection as well. -/
theorem failed_accept_ends_listening :
    (¬ ∀ cfg tr l, (listening cfg).Runs tr l → OneAccept cfg tr) ∧
      ¬ ∀ cfg tr l, (listening cfg).Runs tr l → OneConnection l := by
  refine ⟨fun h => ?_, fun h => ?_⟩
  · have hrun := Lib.Sys.runs_run (S := listening tlsListener) rfl [.accept .error]
    have := h _ _ _ hrun _ List.mem_cons_self .error _ rfl rfl
    exact absurd this (by decide)
  · have hrun := Lib.Sys.runs_run (S := listening tlsListener) rfl
      [.accept (.socket true), .detect 0 false true []]
    have := h _ _ _ hrun (0, false) List.mem_cons_self
    exact absurd this (by decide)

/-! ## The sockets themselves -/

/-- The sockets that the connections were given. -/
def released (l : Listener) : List Nat := l.connections.filterMap (·.socket)

/-- The sockets whose detection completed without an error. -/
def identified (l : Listener) : List Nat := (l.detected.filter fun x => !x.2).map (·.1)

theorem step_released {cfg : ListenerConfig} {l l' : Listener} {a : Act} (hw : Wellformed l)
    (hr : l.released = l.identified) (h : step cfg l a = some l') :
    l'.released = l'.identified := by
  rcases step_cases h with ⟨r, rfl, h0, rfl⟩ | ⟨i, ec, result, buffer, d, rfl, hd, rfl⟩
  · cases r with
    | error => exact hr
    | socket hasPeer => cases hasPeer <;> exact hr
  · have hheld := hw.held d (List.mem_of_getElem? hd)
    unfold released identified at hr ⊢
    rw [List.filterMap_append, onDetect_sockets, hr, List.filter_append, List.map_append]
    cases ec with
    | true => simp
    | false => simp [hheld]

/-- **A socket itself is in one connection at most**, in every run: where a detection launches two
connections, the second one has no socket. -/
theorem released_once {cfg : ListenerConfig} {l : Listener}
    (h : (listening cfg).Reach Lib.Sys.free l) : l.released = l.identified ∧ l.released.Nodup := by
  have hI : (listening cfg).Inductive Lib.Sys.free fun l =>
      Wellformed l ∧ l.released = l.identified := by
    refine ⟨fun l hl => ⟨(inductive_wellformed cfg).base l hl, by cases hl; rfl⟩, ?_⟩
    intro l a l' hw _ h
    exact ⟨step_wellformed hw.1 h, step_released hw.1 hw.2 h⟩
  obtain ⟨hw, hr⟩ := hI.reach h
  refine ⟨hr, ?_⟩
  rw [hr]
  have hsub : l.identified.Sublist (l.detected.map (·.1)) := List.filter_sublist.map _
  exact hsub.nodup (List.nodup_append.mp hw.nodup).2.1

end Listener
end Server
end Malloy
