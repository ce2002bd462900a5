import Mathlib.Data.Fintype.Basic
import StreakKernel.Lib.Word

/-!
# Reader/writer semaphores

Shallow embedding of `lib/rwsem-spinlock.c`. What a function does under `wait_lock` is one step.
A task that has to wait puts a `rwsem_waiter` on the list and sleeps until the field `task` of it is
`NULL`; reading this field without the lock is a step of its own.
-/

namespace StreakKernel.RwSem

inductive Kind where
  | read
  | write
  deriving DecidableEq, Repr

structure Waiter (Task : Type) where
  task : Task
  kind : Kind
  deriving DecidableEq, Repr

structure RwSemaphore (Task : Type) where
  activity : ℤ
  waitList : List (Waiter Task)

def wrap (value : ℤ) : ℤ := Word.toSigned (Word.ofSigned value)

variable {Task : Type}

def initRwsem : RwSemaphore Task := ⟨0, []⟩

/-! ## Sections under the lock

A section returns the semaphore and the waiters it has woken, in this order. -/

/-- The loop of `__rwsem_do_wake` over the readers in front. -/
def wakeReaders : List (Waiter Task) → List (Waiter Task) × List (Waiter Task)
  | [] => ([], [])
  | waiter :: rest =>
    if waiter.kind = .read then
      let (woken, left) := wakeReaders rest
      (waiter :: woken, left)
    else ([], waiter :: rest)

def rwsemDoWake (sem : RwSemaphore Task) (wakewrite : Bool) :
    RwSemaphore Task × List (Waiter Task) :=
  match sem.waitList with
  | [] => (sem, [])
  | waiter :: rest =>
    if waiter.kind = .write then
      if wakewrite then (⟨-1, rest⟩, [waiter]) else (sem, [])
    else
      let (woken, left) := wakeReaders (waiter :: rest)
      (⟨wrap (sem.activity + woken.length), left⟩, woken)

def rwsemWakeOneWriter (sem : RwSemaphore Task) : RwSemaphore Task × List (Waiter Task) :=
  match sem.waitList with
  | [] => (sem, [])
  | waiter :: rest => (⟨-1, rest⟩, [waiter])

/-- The condition under which a request is granted at once. -/
def RwSemaphore.free (sem : RwSemaphore Task) : Kind → Bool
  | .read => decide (0 ≤ sem.activity) && sem.waitList.isEmpty
  | .write => decide (sem.activity = 0) && sem.waitList.isEmpty

def RwSemaphore.grant (sem : RwSemaphore Task) : Kind → RwSemaphore Task
  | .read => { sem with activity := wrap (sem.activity + 1) }
  | .write => { sem with activity := -1 }

/-- The first section of `__down_read` and `__down_write_nested`, and whether it grants the
request. -/
def down (kind : Kind) (sem : RwSemaphore Task) (task : Task) : RwSemaphore Task × Bool :=
  if sem.free kind then (sem.grant kind, true)
  else ({ sem with waitList := sem.waitList ++ [⟨task, kind⟩] }, false)

def downTrylock (kind : Kind) (sem : RwSemaphore Task) : RwSemaphore Task × Bool :=
  if sem.free kind then (sem.grant kind, true) else (sem, false)

def downRead (sem : RwSemaphore Task) (task : Task) : RwSemaphore Task × Bool := down .read sem task

def downReadTrylock (sem : RwSemaphore Task) : RwSemaphore Task × Bool := downTrylock .read sem

def downWriteNested (sem : RwSemaphore Task) (task : Task) : RwSemaphore Task × Bool :=
  down .write sem task

def downWriteTrylock (sem : RwSemaphore Task) : RwSemaphore Task × Bool := downTrylock .write sem

def upRead (sem : RwSemaphore Task) : RwSemaphore Task × List (Waiter Task) :=
  let sem := { sem with activity := wrap (sem.activity - 1) }
  if sem.activity = 0 ∧ sem.waitList.isEmpty = false then rwsemWakeOneWriter sem else (sem, [])

def upWrite (sem : RwSemaphore Task) : RwSemaphore Task × List (Waiter Task) :=
  let sem := { sem with activity := 0 }
  if sem.waitList.isEmpty = false then rwsemDoWake sem true else (sem, [])

def downgradeWrite (sem : RwSemaphore Task) : RwSemaphore Task × List (Waiter Task) :=
  let sem := { sem with activity := 1 }
  if sem.waitList.isEmpty = false then rwsemDoWake sem false else (sem, [])

/-! ## Tasks -/

/-- In the loop of a `down` with the field `task` of its waiter set or `NULL`, or between a `down`
and its `up`. -/
inductive Phase where
  | outside
  | waiting (kind : Kind)
  | woken (kind : Kind)
  | holding (kind : Kind)
  deriving DecidableEq, Repr

inductive Call where
  | downRead
  | downReadTrylock
  | downWrite
  | downWriteTrylock
  /-- The loop of a `down` reads the field `task`. -/
  | look
  | upRead
  | upWrite
  | downgradeWrite
  deriving DecidableEq, Repr

/-- The semaphore and its tasks, with all waiters in the order they were put on the list and in
the order they were woken. -/
structure System (Task : Type) where
  sem : RwSemaphore Task
  phase : Task → Phase
  arrived : List (Waiter Task)
  granted : List (Waiter Task)

namespace System

variable [DecidableEq Task]

def initial : System Task := ⟨initRwsem, fun _ => .outside, [], []⟩

def wake (phase : Task → Phase) (woken : List (Waiter Task)) : Task → Phase :=
  woken.foldl (fun phase waiter => Function.update phase waiter.task (.woken waiter.kind)) phase

def enter (system : System Task) (task : Task) (kind : Kind)
    (locked : RwSemaphore Task → Task → RwSemaphore Task × Bool) : System Task :=
  let (sem, granted) := locked system.sem task
  if granted then
    { system with sem := sem, phase := Function.update system.phase task (.holding kind) }
  else
    { system with
      sem := sem
      phase := Function.update system.phase task (.waiting kind)
      arrived := system.arrived ++ [⟨task, kind⟩] }

def tryEnter (system : System Task) (task : Task) (kind : Kind)
    (locked : RwSemaphore Task → RwSemaphore Task × Bool) : System Task :=
  let (sem, granted) := locked system.sem
  if granted then
    { system with sem := sem, phase := Function.update system.phase task (.holding kind) }
  else { system with sem := sem }

def leave (system : System Task) (task : Task) (next : Phase)
    (locked : RwSemaphore Task → RwSemaphore Task × List (Waiter Task)) : System Task :=
  let (sem, woken) := locked system.sem
  { system with
    sem := sem
    phase := wake (Function.update system.phase task next) woken
    granted := system.granted ++ woken }

/-- What a task may do next; the other calls are not made. -/
def step (system : System Task) (event : Task × Call) : System Task :=
  let (task, call) := event
  match system.phase task, call with
  | .outside, .downRead => system.enter task .read downRead
  | .outside, .downReadTrylock => system.tryEnter task .read downReadTrylock
  | .outside, .downWrite => system.enter task .write downWriteNested
  | .outside, .downWriteTrylock => system.tryEnter task .write downWriteTrylock
  | .woken kind, .look =>
    { system with phase := Function.update system.phase task (.holding kind) }
  | .holding .read, .upRead => system.leave task .outside upRead
  | .holding .write, .upWrite => system.leave task .outside upWrite
  | .holding .write, .downgradeWrite => system.leave task (.holding .read) downgradeWrite
  | _, _ => system

end System

end StreakKernel.RwSem
