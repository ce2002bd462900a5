import Mathlib.Data.Int.Notation
import StreakKernel.Lib.Run

/-!
# Early suspend

Shallow embedding of `kernel/power/earlysuspend.c`. The works run one at a time, in
order. A section under `state_lock` is one step, and so is each call of a handler.
`early_suspend_lock` is held while handlers are called; a registration waits for it.
-/

namespace StreakKernel.EarlySuspend

/-- `struct early_suspend`: its address, its level, and which of its callbacks are not `NULL`. -/
structure Handler where
  addr : ℕ
  level : ℤ
  suspend : Bool
  resume : Bool
  deriving DecidableEq, Repr

inductive Call where
  | suspend
  | resume
  deriving DecidableEq, Repr

def Handler.has (handler : Handler) : Call → Bool
  | .suspend => handler.suspend
  | .resume => handler.resume

structure Flags where
  requested : Bool
  suspended : Bool
  deriving DecidableEq, Repr

def Flags.both : Flags := ⟨true, true⟩

inductive Work where
  | earlySuspend
  | lateResume
  deriving DecidableEq, Repr

inductive Worker where
  | idle
  /-- The work has been taken off the queue and wants `early_suspend_lock`. -/
  | entering (work : Work)
  /-- It holds `early_suspend_lock` and has these handlers still to call. -/
  | calling (kind : Call) (rest : List Handler)
  /-- `early_suspend` has released the lock and is before its label `abort`. -/
  | finishing
  deriving DecidableEq, Repr

def Worker.locked : Worker → Bool
  | calling _ _ => true
  | _ => false

structure System where
  state : Flags
  handlers : List Handler
  queue : List Work
  worker : Worker
  mainWakeLock : Bool
  requestedSuspendState : ℤ
  calls : Handler → List Call

def pmSuspendOn : ℤ := 0

def pmSuspendMem : ℤ := 3

def initial : System where
  state := ⟨false, false⟩
  handlers := []
  queue := []
  worker := .idle
  mainWakeLock := true
  requestedSuspendState := pmSuspendMem
  calls _ := []

/-- `queue_work`: a work that is pending is not queued again. -/
def queueWork (queue : List Work) (work : Work) : List Work :=
  if work ∈ queue then queue else queue ++ [work]

/-- A call of a callback, if it is not `NULL`. -/
def callback (calls : Handler → List Call) (handler : Handler) (kind : Call) :
    Handler → List Call :=
  if handler.has kind then Function.update calls handler (calls handler ++ [kind]) else calls

namespace System

def requestSuspendState (system : System) (newState : ℤ) : System :=
  if system.state.requested = false ∧ newState ≠ pmSuspendOn then
    { system with
      state.requested := true
      queue := queueWork system.queue .earlySuspend
      requestedSuspendState := newState }
  else if system.state.requested = true ∧ newState = pmSuspendOn then
    { system with
      state.requested := false
      mainWakeLock := true
      queue := queueWork system.queue .lateResume
      requestedSuspendState := newState }
  else { system with requestedSuspendState := newState }

/-- The list with the handler before the first one of a higher level. -/
def insertByLevel (handler : Handler) : List Handler → List Handler
  | [] => [handler]
  | entry :: rest =>
    if entry.level > handler.level then handler :: entry :: rest
    else entry :: insertByLevel handler rest

/-- `register_early_suspend`, of a handler that is not registered. -/
def registerEarlySuspend (system : System) (handler : Handler) : System :=
  if system.worker.locked ∨ handler ∈ system.handlers then system
  else
    { system with
      handlers := insertByLevel handler system.handlers
      calls :=
        let calls := Function.update system.calls handler []
        if system.state.suspended then callback calls handler .suspend else calls }

/-- `unregister_early_suspend`, of a handler that is registered. -/
def unregisterEarlySuspend (system : System) (handler : Handler) : System :=
  if system.worker.locked then system
  else { system with handlers := system.handlers.erase handler }

def runWorkqueue (system : System) : System :=
  match system.worker, system.queue with
  | .idle, work :: rest => { system with worker := .entering work, queue := rest }
  | _, _ => system

/-- The next section of `early_suspend` or `late_resume`. -/
def advance (system : System) : System :=
  match system.worker with
  | .idle => system
  | .entering .earlySuspend =>
    if system.state = ⟨true, false⟩ then
      { system with state.suspended := true, worker := .calling .suspend system.handlers }
    else { system with worker := .finishing }
  | .entering .lateResume =>
    if system.state = ⟨false, true⟩ then
      { system with state.suspended := false, worker := .calling .resume system.handlers.reverse }
    else { system with worker := .idle }
  | .calling kind (handler :: rest) =>
    { system with calls := callback system.calls handler kind, worker := .calling kind rest }
  | .calling .suspend [] => { system with worker := .finishing }
  | .calling .resume [] => { system with worker := .idle }
  | .finishing =>
    { system with
      mainWakeLock := system.mainWakeLock && !decide (system.state = Flags.both)
      worker := .idle }

end System

inductive Action where
  | requestSuspendState (newState : ℤ)
  | registerEarlySuspend (handler : Handler)
  | unregisterEarlySuspend (handler : Handler)
  | runWorkqueue
  | advance

def System.step (system : System) : Action → System
  | .requestSuspendState newState => system.requestSuspendState newState
  | .registerEarlySuspend handler => system.registerEarlySuspend handler
  | .unregisterEarlySuspend handler => system.unregisterEarlySuspend handler
  | .runWorkqueue => system.runWorkqueue
  | .advance => system.advance

end StreakKernel.EarlySuspend
