import StreakKernel.Lib.Word

/-!
# Wake locks

Shallow embedding of `kernel/power/wakelock.c`: the lists of active locks, the timer that
expires them and the work that suspends the system. A lock is known by its place among
all locks that `wake_lock_init` has seen; one that is on no active list is on
`inactive_locks`, which nothing reads. `long` has 32 bits, and `jiffies` is the number of
ticks so far modulo 2^32.

`expire_timer` is set up statically, so its slack is 0 and `mod_timer` takes the time as it
is. The timer runs in two steps: it is taken off its list when its time has come, and its
function waits for `list_lock` before it does anything, so that other calls can come between.

Left out are the statistics, the watchdog, `current_event_num` and the messages.
-/

namespace StreakKernel.Wakelock

inductive LockType where
  | suspend
  | idle
  deriving DecidableEq

structure WakeLock where
  type : LockType
  active : Bool
  autoExpire : Bool
  expires : ℕ
  deriving DecidableEq

/-- What `list_lock` protects, the clock and the timer. -/
structure State where
  now : ℕ
  locks : List WakeLock
  active : LockType → List ℕ
  timer : Option ℕ
  expiring : Bool

namespace State

def initial (now : ℕ) : State := ⟨now, [], fun _ => [], none, false⟩

def jiffies (state : State) : ℕ := state.now % 4294967296

def listDel (state : State) (id : ℕ) : State :=
  { state with active := fun type => (state.active type).filter (· ≠ id) }

/-- Clear `WAKE_LOCK_ACTIVE` and `WAKE_LOCK_AUTO_EXPIRE` and put the lock on
`inactive_locks`. -/
def deactivate (state : State) (id : ℕ) : State :=
  { state.listDel id with
    locks := state.locks.modify id fun lock => { lock with active := false, autoExpire := false } }

def expireWakeLock (state : State) (id : ℕ) : State := state.deactivate id

/-- `lock->expires - jiffies` as a `long`. -/
def timeLeft (state : State) (lock : WakeLock) : ℤ :=
  Word.toSigned (Word.sub lock.expires state.jiffies)

def scanActive (state : State) : List ℕ → ℤ → State × ℤ
  | [], maxTimeout => (state, maxTimeout)
  | id :: rest, maxTimeout =>
    match state.locks[id]? with
    | none => scanActive state rest maxTimeout
    | some lock =>
      if lock.autoExpire = true then
        let timeout := state.timeLeft lock
        if timeout ≤ 0 then scanActive (state.expireWakeLock id) rest maxTimeout
        else if timeout > maxTimeout then scanActive state rest timeout
        else scanActive state rest maxTimeout
      else (state, -1)

def hasWakeLockLocked (state : State) (type : LockType) : State × ℤ :=
  state.scanActive (state.active type) 0

/-- Start the timer, or stop it and queue the work. The second component says whether `queue_work`
was called. -/
def adjustTimer (state : State) (hasLock : ℤ) : State × Bool :=
  if hasLock > 0 then
    ({ state with timer := some (Word.add state.jiffies hasLock.toNat) }, false)
  else ({ state with timer := none }, hasLock = 0)

def wakeLockInit (state : State) (type : LockType) : State :=
  { state with locks := state.locks ++ [⟨type, false, false, 0⟩] }

/-- `wake_lock_internal` links the lock: one that expires at the end of the list, one that does
not at the front. -/
def activate (state : State) (id : ℕ) (type : LockType) (timeout : Option Word.S32) : State :=
  let linked : List ℕ → List ℕ := fun ids =>
    match timeout with
    | some _ => ids ++ [id]
    | none => id :: ids
  let expires :=
    match timeout with
    | some ticks => Word.add state.jiffies (Word.ofSigned ticks.val)
    | none => 2147483647
  { state with
    locks := state.locks.set id ⟨type, true, timeout.isSome, expires⟩
    active := fun other =>
      if other = type then linked ((state.listDel id).active other)
      else (state.listDel id).active other }

/-- `wake_lock_internal`. On a lock that is not initialised it is a `BUG`, and nothing
happens here. -/
def wakeLockInternal (state : State) (id : ℕ) (timeout : Option Word.S32) : State × Bool :=
  match state.locks[id]? with
  | none => (state, false)
  | some lock =>
    let activated := state.activate id lock.type timeout
    if lock.type = .suspend then
      match timeout with
      | some _ =>
        let result := activated.hasWakeLockLocked .suspend
        result.1.adjustTimer result.2
      | none => activated.adjustTimer (-1)
    else (activated, false)

def wakeLock (state : State) (id : ℕ) : State × Bool := state.wakeLockInternal id none

def wakeLockTimeout (state : State) (id : ℕ) (timeout : Word.S32) : State × Bool :=
  state.wakeLockInternal id (some timeout)

def wakeUnlock (state : State) (id : ℕ) : State × Bool :=
  match state.locks[id]? with
  | none => (state, false)
  | some lock =>
    let released := state.deactivate id
    if lock.type = .suspend then
      let result := released.hasWakeLockLocked .suspend
      result.1.adjustTimer result.2
    else (released, false)

/-- The timer expires when `jiffies` has reached its time, and not while its function runs. -/
def fireTimer (state : State) : State :=
  match state.timer with
  | none => state
  | some expires =>
    if 0 ≤ Word.toSigned (Word.sub state.jiffies expires) ∧ state.expiring = false then
      { state with timer := none, expiring := true }
    else state

def expireWakeLocks (state : State) : State × Bool :=
  if state.expiring = true then
    let result := { state with expiring := false }.hasWakeLockLocked .suspend
    (result.1, result.2 = 0)
  else (state, false)

end State

/-- What can happen. `hasWakeLock` is the call of `has_wake_lock`. -/
inductive Event where
  | wakeLockInit (type : LockType)
  | wakeLock (id : ℕ)
  | wakeLockTimeout (id : ℕ) (timeout : Word.S32)
  | wakeUnlock (id : ℕ)
  | hasWakeLock (type : LockType)
  | tick (ticks : ℕ)
  | fireTimer
  | expireWakeLocks

/-- One event; the second component says whether it queued `suspend_work`. -/
def State.step (state : State) : Event → State × Bool
  | .wakeLockInit type => (state.wakeLockInit type, false)
  | .wakeLock id => state.wakeLock id
  | .wakeLockTimeout id timeout => state.wakeLockTimeout id timeout
  | .wakeUnlock id => state.wakeUnlock id
  | .hasWakeLock type => ((state.hasWakeLockLocked type).1, false)
  | .tick ticks => ({ state with now := state.now + ticks }, false)
  | .fireTimer => (state.fireTimer, false)
  | .expireWakeLocks => state.expireWakeLocks

end StreakKernel.Wakelock
