import Mathlib.Data.Int.Order.Basic
import Mathlib.Logic.Function.Basic

/-!
# System V semaphores

An array of semaphores of `ipc/sem.c` with the requests that sleep on it. A request
waits on the list of the array, and a request of a single operation also on the list of
its semaphore. Whoever changes the array has to find the requests that can go on;
`do_smart_update` looks only where the change can matter.

Each event is one section under the lock of the array.
-/

namespace StreakKernel.SysvSem

/-- `struct sembuf`, with the flags `SEM_UNDO` and `IPC_NOWAIT`. -/
structure Sembuf where
  semNum : ℕ
  semOp : ℤ
  undo : Bool
  nowait : Bool
  deriving DecidableEq, Repr

/-- `struct sem_queue`; `undo` names the undo structure. -/
structure Waiter where
  sleeper : ℕ
  first : Sembuf
  rest : List Sembuf
  undo : ℕ
  pid : ℕ
  alter : Bool
  deriving DecidableEq, Repr

namespace Waiter

variable (waiter : Waiter)

def sops : List Sembuf := waiter.first :: waiter.rest

def nsops : ℕ := waiter.sops.length

end Waiter

/-- What `try_atomic_semop` returns: 0, 1, `-EAGAIN` or `-ERANGE`. -/
inductive Result where
  | done
  | sleep
  | again
  | range
  deriving DecidableEq, Repr

/-- `SEMVMX`, which is also `SEMAEM`. -/
def semvmx : ℤ := 32767

/-- A value as it is kept in a `short`. -/
def shortOf (value : ℤ) : ℤ := (value + 32768) % 65536 - 32768

/-- `struct sem_array`. `tasks` collects the completed requests with their results; `bug` tells of
a `BUG_ON`. -/
structure SemArray where
  nsems : ℕ
  semval : ℕ → ℤ
  sempid : ℕ → ℕ
  semadj : ℕ → ℕ → ℤ
  pending : List Waiter
  simple : ℕ → List Waiter
  complexCount : ℤ
  tasks : List (ℕ × Result)
  bug : Bool

def wouldBlock (sop : Sembuf) : Result := if sop.nowait then .again else .sleep

/-- The operations one after the other. Those before one that fails are taken back in
the opposite order. -/
def attempt (semadj : ℕ → ℤ) : List Sembuf → (ℕ → ℤ) → Result × (ℕ → ℤ)
  | [], semval => (.done, semval)
  | sop :: rest, semval =>
    let result := semval sop.semNum + sop.semOp
    let undo := semadj sop.semNum - sop.semOp
    if sop.semOp = 0 ∧ semval sop.semNum ≠ 0 then (wouldBlock sop, semval)
    else if result < 0 then (wouldBlock sop, semval)
    else if semvmx < result then (.range, semval)
    else if sop.undo ∧ (undo < -semvmx - 1 ∨ semvmx < undo) then (.range, semval)
    else
      match attempt semadj rest (Function.update semval sop.semNum result) with
      | (.done, semval) => (.done, semval)
      | (failure, semval) =>
        (failure, Function.update semval sop.semNum (semval sop.semNum - sop.semOp))

namespace SemArray

variable (sma : SemArray)

def note (undo pid : ℕ) (sop : Sembuf) (sma : SemArray) : SemArray :=
  { sma with
    sempid := Function.update sma.sempid sop.semNum pid
    semadj :=
      if sop.undo then
        Function.update sma.semadj undo
          (Function.update (sma.semadj undo) sop.semNum
            (shortOf (sma.semadj undo sop.semNum - sop.semOp)))
      else sma.semadj }

def tryAtomicSemop (sops : List Sembuf) (undo pid : ℕ) : Result × SemArray :=
  match attempt (sma.semadj undo) sops sma.semval with
  | (.done, semval) => (.done, sops.foldr (note undo pid) { sma with semval := semval })
  | (failure, semval) => (failure, { sma with semval := semval })

def wakeUpPrepare (waiter : Waiter) (result : Result) : SemArray :=
  { sma with tasks := sma.tasks ++ [(waiter.sleeper, result)] }

/-- `unlink_queue`: the request leaves the lists that it is on. -/
def unlinkQueue (waiter : Waiter) : SemArray :=
  if waiter.nsops = 1 then
    { sma with
      pending := sma.pending.erase waiter
      simple := Function.update sma.simple waiter.first.semNum
        ((sma.simple waiter.first.semNum).erase waiter) }
  else
    { sma with
      pending := sma.pending.erase waiter
      complexCount := sma.complexCount - 1 }

/-- `check_restart`: whether the scan has to begin again after `waiter` was completed. -/
def checkRestart (waiter : Waiter) : SemArray × Bool :=
  let semNum := waiter.first.semNum
  if ¬ waiter.alter then (sma, false)
  else if sma.complexCount ≠ 0 then (sma, true)
  else if 1 < waiter.nsops then (sma, true)
  else
    match sma.simple semNum with
    | [] => (sma, false)
    | head :: _ =>
      if sma.semval semNum ≠ 0 then
        ({ sma with bug := sma.bug || decide (0 ≤ waiter.first.semOp) }, false)
      else
        ({ sma with
            bug := sma.bug || decide (head.nsops ≠ 1) || decide (head.first.semNum ≠ semNum) },
          head.first.semOp = 0)

def pendingList : Option ℕ → List Waiter
  | none => sma.pending
  | some semnum => sma.simple semnum

/-- The test for the end of a walk over the list of one semaphore. -/
def breaks (semnum : Option ℕ) (waiter : Waiter) : Bool :=
  match semnum with
  | none => false
  | some semnum => decide (sma.semval semnum = 0) && waiter.alter

end SemArray

inductive Pass where
  | finished (sma : SemArray)
  | again (sma : SemArray)

def scan (semnum : Option ℕ) : List Waiter → SemArray → Pass
  | [], sma => .finished sma
  | waiter :: walk, sma =>
    if sma.breaks semnum waiter then .finished sma
    else
      match sma.tryAtomicSemop waiter.sops waiter.undo waiter.pid with
      | (.sleep, sma) => scan semnum walk sma
      | (.done, sma) =>
        match (sma.unlinkQueue waiter).checkRestart waiter with
        | (sma, true) => .again (sma.wakeUpPrepare waiter .done)
        | (sma, false) => scan semnum walk (sma.wakeUpPrepare waiter .done)
      | (error, sma) => scan semnum walk ((sma.unlinkQueue waiter).wakeUpPrepare waiter error)

/-- The walks of `update_queue`, at most so many. -/
def rounds (semnum : Option ℕ) : ℕ → SemArray → SemArray
  | 0, sma => sma
  | fuel + 1, sma =>
    match scan semnum (sma.pendingList semnum) sma with
    | .finished sma => sma
    | .again sma => rounds semnum fuel sma

namespace SemArray

variable (sma : SemArray)

/-- `update_queue`; no semaphore stands for -1. A walk begins again only after a request
was taken off the list. -/
def updateQueue (semnum : Option ℕ) : SemArray :=
  rounds (if sma.complexCount ≠ 0 then none else semnum) (sma.pending.length + 1) sma

/-- One round of the loop of `do_smart_update`. -/
def smartStep (sma : SemArray) (sop : Sembuf) : SemArray :=
  if 0 < sop.semOp ∨ sop.semOp < 0 ∧ sma.semval sop.semNum = 0 then
    sma.updateQueue (some sop.semNum)
  else sma

/-- `do_smart_update`; no operations stand for `NULL`. -/
def doSmartUpdate (sops : Option (List Sembuf)) : SemArray :=
  match sops with
  | none => sma.updateQueue none
  | some sops =>
    if sma.complexCount ≠ 0 then sma.updateQueue none
    else sops.foldl smartStep sma

/-- The end of a list for requests that alter the array, and its front for others. -/
def place (waiter : Waiter) (waiters : List Waiter) : List Waiter :=
  if waiter.alter then waiters ++ [waiter] else waiter :: waiters

def enqueue (waiter : Waiter) : SemArray :=
  if waiter.nsops = 1 then
    { sma with
      pending := place waiter sma.pending
      simple := Function.update sma.simple waiter.first.semNum
        (place waiter (sma.simple waiter.first.semNum)) }
  else
    { sma with
      pending := place waiter sma.pending
      complexCount := sma.complexCount + 1 }

/-- `semtimedop` up to the point where the task sleeps or returns. The tests of the
permission are an input. -/
def semtimedop (task pid undo : ℕ) (permitted : Bool) (sops : List Sembuf) : SemArray :=
  match sops with
  | [] => sma
  | first :: rest =>
    let alter := sops.any fun sop => sop.semOp ≠ 0
    if (sops.any fun sop => sma.nsems ≤ sop.semNum) ∨ ¬ permitted then sma
    else
      match sma.tryAtomicSemop sops undo pid with
      | (.sleep, sma) => sma.enqueue ⟨task, first, rest, undo, pid, alter⟩
      | (.done, sma) => if alter then sma.doSmartUpdate (some sops) else sma
      | (_, sma) => sma

/-- A sleeping task that a signal or its timeout wakes. -/
def dequeue (task : ℕ) : SemArray :=
  match sma.pending.find? fun waiter => waiter.sleeper = task with
  | none => sma
  | some waiter => sma.unlinkQueue waiter

def setVal (semnum : ℕ) (value : ℤ) (pid : ℕ) : SemArray :=
  if sma.nsems ≤ semnum ∨ semvmx < value ∨ value < 0 then sma
  else
    { sma with
      semadj := fun undo => Function.update (sma.semadj undo) semnum 0
      semval := Function.update sma.semval semnum value
      sempid := Function.update sma.sempid semnum pid }.doSmartUpdate none

def setAll (values : ℕ → ℕ) : SemArray :=
  if (List.range sma.nsems).any fun index => semvmx < values index then sma
  else
    { sma with
      semval := fun index => if index < sma.nsems then values index else sma.semval index
      semadj := fun undo index =>
        if index < sma.nsems then 0 else sma.semadj undo index }.doSmartUpdate none

/-- `exit_sem` for the undo structure of this array. -/
def exitSem (undo pid : ℕ) : SemArray :=
  let adjusted := fun index => index < sma.nsems ∧ sma.semadj undo index ≠ 0
  { sma with
    semval := fun index =>
      if adjusted index then
        let value := sma.semval index + sma.semadj undo index
        if value < 0 then 0 else if semvmx < value then semvmx else value
      else sma.semval index
    sempid := fun index => if adjusted index then pid else sma.sempid index
    semadj := Function.update sma.semadj undo fun _ => 0 }.doSmartUpdate none

def newary (nsems : ℕ) : SemArray :=
  ⟨nsems, fun _ => 0, fun _ => 0, fun _ _ => 0, [], fun _ => [], 0, [], false⟩

end SemArray

inductive Event where
  | semtimedop (task pid undo : ℕ) (permitted : Bool) (sops : List Sembuf)
  | dequeue (task : ℕ)
  | setVal (semnum : ℕ) (value : ℤ) (pid : ℕ)
  | setAll (values : ℕ → ℕ)
  | exitSem (undo pid : ℕ)

/-- One event. A task that sleeps makes no calls. -/
def SemArray.step (sma : SemArray) : Event → SemArray
  | .semtimedop task pid undo permitted sops =>
    if sma.pending.any fun waiter => waiter.sleeper = task then sma
    else sma.semtimedop task pid undo permitted sops
  | .dequeue task => sma.dequeue task
  | .setVal semnum value pid => sma.setVal semnum value pid
  | .setAll values => sma.setAll values
  | .exitSem undo pid => sma.exitSem undo pid

end StreakKernel.SysvSem
