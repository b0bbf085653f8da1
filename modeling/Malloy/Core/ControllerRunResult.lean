import Malloy.Lib.Sys

/-!
# `malloy::detail::controller_run_result` (`core/detail/controller_run_result.hpp`)

What `start()` returns: the I/O context, a work guard and the threads that run the context. A run
result can be moved from one owner to the next (but not assigned, as its guard cannot be); the
threads keep a plain pointer to the context, so the last owner must stop and join them before it
destroys it.

* `IoContext`: the operations and the work guards that keep `io_context::run()` from returning. It
  stops when there are none left, or by `stop()`, and for good: nothing calls `restart()`.
* `ControllerRunResult`: the members of the class, and where the program is with the object.
* `IoSession`: a context with its threads and all run results that it went through. Two contexts
  share nothing, so a program is an interleaving of sessions. A step that the language does not
  define, or that ends the program, leaves a `Fault`.
* The program uses a run result from one place at a time: it is not moved or destroyed in its own
  `run()`. The destructor may also be called by a handler in a thread (`IoAct.destroyInThread`).
-/

namespace Malloy

/-! ## The configuration -/

/-- `controller_config`; `logger` says whether there is one. -/
structure ControllerConfig where
  numThreads : Nat := 1
  logger : Bool

/-- `validate()`, which the constructors of both controllers call. -/
def ControllerConfig.validate (cfg : ControllerConfig) : Except String Unit :=
  if !cfg.logger then .error "invalid config: logger is null"
  else if cfg.numThreads = 0 then .error "invalid config: cannot have 0 threads"
  else .ok ()

theorem ControllerConfig.numThreads_pos {cfg : ControllerConfig} (h : cfg.validate = .ok ()) :
    0 < cfg.numThreads := by
  unfold validate at h
  split at h
  · cases h
  · split at h
    · cases h
    · omega

/-! ## The I/O context -/

structure IoContext where
  /-- The operations that were started and have not completed. -/
  ops : Nat := 0
  /-- The work guards that own work. -/
  workguards : Nat := 0
  stopped : Bool := false
  destroyed : Bool := false
  /-- The operations that were started when the context had stopped: nothing runs their handlers. -/
  late : Nat := 0
  deriving DecidableEq

namespace IoContext

def stop (io : IoContext) : IoContext := { io with stopped := true }

/-- Work has finished: the context stops when none is left. -/
def workFinished (io : IoContext) : IoContext := if io.ops + io.workguards = 0 then io.stop else io

/-- An operation is started. -/
def post (io : IoContext) : IoContext :=
  { io with ops := io.ops + 1, late := if io.stopped then io.late + 1 else io.late }

/-- A handler runs: its operation is no longer in progress, and it starts `n` new ones. -/
def handle (n : Nat) (io : IoContext) : IoContext :=
  { io with ops := io.ops - 1 + n }.workFinished

/-- `workguard.reset()` of a guard that owns work. -/
def releaseGuard (io : IoContext) : IoContext :=
  { io with workguards := io.workguards - 1 }.workFinished

/-- There is a handler to run. -/
def ready (io : IoContext) : Bool := !io.stopped && 0 < io.ops

end IoContext

/-! ## Threads and run results -/

/-- Where a thread of the context is: it has not called `m_io_ctx->run()`, it is in it, it runs a
handler there that is in the destructor of the run result, it has returned from it, it was joined.
-/
inductive ThreadPhase where
  | created | inRun | inDestructor | returned | joined
  deriving DecidableEq

/-- Where the program is with a run result: in `run()`, in the loop of the destructor that joins the
threads, or past the destructor. -/
inductive RunStage where
  | idle
  | inRun
  | joining (rest : List Nat)
  | destroyed
  deriving DecidableEq

structure ControllerRunResult where
  /-- `m_io_ctx` is not null. -/
  ioCtx : Bool
  /-- `m_workguard` owns work. -/
  workguard : Bool
  /-- `m_io_threads`. -/
  ioThreads : List Nat
  stage : RunStage := .idle
  deriving DecidableEq

/-- `m_workguard.reset()`. -/
def ControllerRunResult.resetGuard (r : ControllerRunResult) (io : IoContext) : IoContext :=
  if r.workguard then io.releaseGuard else io

inductive Fault where
  /-- A context was used that had been destroyed. -/
  | useAfterFree
  /-- `std::terminate`: a thread was destroyed that had not been joined, or joined twice. -/
  | joinable
  /-- `std::terminate`: an exception left a handler in a thread of the context. -/
  | uncaught
  /-- The constructor was called without a context. -/
  | nullContext
  /-- The constructor was called without a logger. -/
  | nullLogger
  /-- `std::terminate`: a thread could not be made, and the ones made before are not joined. -/
  | threadCreation
  /-- `std::terminate`: the destructor joins the thread that it runs in. -/
  | selfJoin
  deriving DecidableEq

structure IoSession where
  io : IoContext := {}
  /-- The caller of `start()` has the context. -/
  held : Bool := true
  /-- The threads of the context. -/
  threads : List ThreadPhase := []
  /-- The run results, in the order in which they were constructed. -/
  results : List ControllerRunResult := []
  fault : Option Fault := none
  deriving DecidableEq

namespace IoSession

def fail (f : Fault) (s : IoSession) : IoSession := { s with fault := some f }

/-- The context is used. -/
def onIo (f : IoContext → IoContext) (s : IoSession) : IoSession :=
  if s.io.destroyed then s.fail .useAfterFree else { s with io := f s.io }

def setThread (t : Nat) (p : ThreadPhase) (s : IoSession) : IoSession :=
  { s with threads := s.threads.set t p }

def setResult (i : Nat) (r : ControllerRunResult) (s : IoSession) : IoSession :=
  { s with results := s.results.set i r }

/-! ## The member functions -/

/-- The constructor, which makes the threads. -/
def construct (cfg : ControllerConfig) (s : IoSession) : IoSession :=
  if !s.held then s.fail .nullContext
  else if !cfg.logger then s.fail .nullLogger
  else
    { s with
      held := false
      io := { s.io with workguards := s.io.workguards + 1 }
      threads := List.replicate cfg.numThreads .created
      results := s.results ++
        [{ ioCtx := true, workguard := true, ioThreads := List.range cfg.numThreads }] }

/-- The constructor, if the `k`-th thread cannot be made: it throws, and its members are destroyed.
-/
def constructFails (k : Nat) (s : IoSession) : IoSession :=
  if !s.held then s.fail .nullContext
  else if k = 0 then
    { s with
      held := false
      io :=
        { { s.io with workguards := s.io.workguards + 1 }.releaseGuard with destroyed := true } }
  else s.fail .threadCreation

/-- The move constructor, from the `i`-th run result. -/
def moveConstruct (i : Nat) (r : ControllerRunResult) (s : IoSession) : IoSession :=
  { s with
    results := s.results.set i { ioCtx := false, workguard := false, ioThreads := [] } ++ [r] }

/-- `run()`, up to the call of `m_io_ctx->run()`. -/
def run (i : Nat) (r : ControllerRunResult) (s : IoSession) : IoSession :=
  -- it throws if the run result was moved from
  if !r.ioCtx then s
  else (s.onIo r.resetGuard).setResult i { r with workguard := false, stage := .inRun }

/-- The members are destroyed, in reverse order: the threads, the guard, the context. -/
def destroyMembers (i : Nat) (r : ControllerRunResult) (s : IoSession) : IoSession :=
  if r.ioThreads.all fun t => s.threads[t]? == some .joined then
    let s := if r.workguard then s.onIo IoContext.releaseGuard else s
    let s := if r.ioCtx then s.onIo fun io => { io with destroyed := true } else s
    s.setResult i { r with stage := .destroyed }
  else s.fail .joinable

/-- The destructor, up to the loop that joins the threads. -/
def destructor (i : Nat) (r : ControllerRunResult) (s : IoSession) : IoSession :=
  -- We've been moved
  if !r.ioCtx then s.destroyMembers i r
  else (s.onIo fun io => r.resetGuard io.stop).setResult i
    { r with workguard := false, stage := .joining r.ioThreads }

/-- The next round of that loop: `join()` waits for the thread. -/
def join (i : Nat) (r : ControllerRunResult) (s : IoSession) : List Nat → Option IoSession
  | [] => some (s.destroyMembers i r)
  | t :: rest =>
    match s.threads[t]? with
    | some .returned => some ((s.setThread t .joined).setResult i { r with stage := .joining rest })
    | some .inDestructor => some (s.fail .selfJoin)
    | some .joined | none => some (s.fail .joinable)
    | some .created | some .inRun => none

end IoSession

/-! ## Runs -/

/-- The atomic steps. `i` is a run result, `t` a thread. -/
inductive IoAct where
  /-- An operation is started from outside the context. -/
  | post
  /-- `start()`. -/
  | start
  /-- `start()`, if the `k`-th thread cannot be made. -/
  | startFails (k : Nat)
  /-- The caller of `start()` destroys the context that it still has. -/
  | drop
  | move (i : Nat)
  | run (i : Nat)
  /-- `m_io_ctx->run()` returns, and so does `run()`. -/
  | runReturns (i : Nat)
  | destroy (i : Nat)
  /-- A handler that the thread runs destroys the run result. -/
  | destroyInThread (i t : Nat)
  /-- The destructor goes on. -/
  | join (i : Nat)
  /-- The thread calls `m_io_ctx->run()`. -/
  | enter (t : Nat)
  /-- `m_io_ctx->run()` returns in the thread. -/
  | leave (t : Nat)
  /-- A handler runs, in a thread or in `run()`, and starts `n` operations. -/
  | handle (n : Nat)
  /-- A handler throws, in a thread. -/
  | throwInThread (t : Nat)
  /-- A handler throws, and the exception leaves `run()`. -/
  | throwInRun (i : Nat)
  deriving DecidableEq

namespace IoSession

/-- Something is in `m_io_ctx->run()`. -/
def inRun (s : IoSession) : Bool :=
  s.threads.contains .inRun || s.results.any (·.stage == .inRun)

/-- The run result, if the program is there with it. -/
def at? (s : IoSession) (i : Nat) (stage : RunStage) : Option ControllerRunResult :=
  s.results[i]?.filter (·.stage == stage)

def stepOf (cfg : ControllerConfig) (s : IoSession) : IoAct → Option IoSession
  | .post => if s.io.destroyed then none else some { s with io := s.io.post }
  | .start => some (s.construct cfg)
  | .startFails k => if k < cfg.numThreads then some (s.constructFails k) else none
  | .drop =>
    if s.held then some { s with held := false, io := { s.io with destroyed := true } } else none
  | .move i => (s.at? i .idle).map fun r => s.moveConstruct i r
  | .run i => (s.at? i .idle).map fun r => s.run i r
  | .runReturns i => (s.at? i .inRun).bind fun r =>
    if s.io.stopped then some ((s.onIo id).setResult i { r with stage := .idle }) else none
  | .destroy i => (s.at? i .idle).map fun r => s.destructor i r
  | .destroyInThread i t => (s.at? i .idle).bind fun r =>
    if s.threads[t]? = some .inRun ∧ s.io.ready then
      let s := s.destructor i r
      some (if r.ioCtx then s.setThread t .inDestructor else s)
    else none
  | .join i => s.results[i]?.bind fun r =>
    match r.stage with
    | .joining rest => s.join i r rest
    | _ => none
  | .enter t =>
    if s.threads[t]? = some .created then some ((s.onIo id).setThread t .inRun) else none
  | .leave t =>
    if s.threads[t]? = some .inRun ∧ s.io.stopped then some ((s.onIo id).setThread t .returned)
    else none
  | .handle n => if s.inRun ∧ s.io.ready then some (s.onIo (IoContext.handle n)) else none
  | .throwInThread t =>
    if s.threads[t]? = some .inRun ∧ s.io.ready then some (s.fail .uncaught) else none
  | .throwInRun i => (s.at? i .inRun).bind fun r =>
    if s.io.ready then some ((s.onIo (IoContext.handle 0)).setResult i { r with stage := .idle })
    else none

/-- A program does not go on after a fault. -/
def step (cfg : ControllerConfig) (s : IoSession) (a : IoAct) : Option IoSession :=
  if s.fault.isSome then none else s.stepOf cfg a

theorem stepOf_of_step {cfg : ControllerConfig} {s s' : IoSession} {a : IoAct}
    (h : step cfg s a = some s') : s.fault = none ∧ s.stepOf cfg a = some s' := by
  unfold step at h
  split at h
  · cases h
  · rename_i hf
    exact ⟨by simpa using hf, h⟩

/-- The runs of a context that was just made. -/
def system (cfg : ControllerConfig) : Lib.Sys IoSession IoAct where
  init s := s = {}
  step := step cfg

end IoSession

end Malloy
