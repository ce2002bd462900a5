import Mathlib.Data.Int.Basic

/-!
# POSIX record locks

The model follows `fs/locks.c`. Every `struct file_lock` has a number that stands for its address,
the lists of the inodes hold such numbers, and `blocked_list` holds the waiting requests with the
lock each of them waits for. A structure that has been freed is not used again. The owners are
those that `posix_same_owner` tells apart.
-/

namespace StreakKernel.FileLocks

universe u v

variable {Owner : Type u} {Inode : Type v}

inductive LockType
  | readLock
  | writeLock
  | unlock
  deriving DecidableEq

/-- The fields of `struct file_lock` that the code reads; `posix` is `IS_POSIX`. -/
structure Lock (Owner : Type u) where
  posix : Bool
  owner : Owner
  flType : LockType
  start : ℤ
  finish : ℤ

def offsetMax : ℤ := 9223372036854775807

/-- A request with the range that `flock_to_posix_lock` lets through, and which of the two
allocations succeed. -/
structure Request (Owner : Type u) where
  owner : Owner
  flType : LockType
  start : ℤ
  finish : ℤ
  start_nonneg : 0 ≤ start
  start_le : start ≤ finish
  finish_le : finish ≤ offsetMax
  access : Bool
  sleep : Bool
  testExists : Bool
  allocates : Bool
  allocatesSecond : Bool

def Request.lock (request : Request Owner) : Lock Owner :=
  ⟨true, request.owner, request.flType, request.start, request.finish⟩

inductive Result
  | ok
  | eagain
  | edeadlk
  | deferred
  | enolck
  | enoent
  deriving DecidableEq

structure State (Owner : Type u) (Inode : Type v) where
  lock : ℕ → Lock Owner
  used : ℕ
  flock : Inode → List ℕ
  blocked : List (ℕ × ℕ)

/-! ## Conflicts -/

def locksOverlap (first second : Lock Owner) : Prop :=
  second.start ≤ first.finish ∧ first.start ≤ second.finish
  deriving Decidable

def locksConflict (caller sys : Lock Owner) : Prop :=
  sys.flType = .writeLock ∨ caller.flType = .writeLock
  deriving Decidable

def posixLocksConflict (caller sys : Lock Owner) : Prop :=
  (sys.posix = true ∧ caller.owner ≠ sys.owner) ∧ locksOverlap caller sys ∧ locksConflict caller sys
  deriving [DecidableEq Owner] → Decidable _

variable [DecidableEq Owner]

/-! ## Waiting -/

def wakeUpBlocks (blocked : List (ℕ × ℕ)) (blocker : ℕ) : List (ℕ × ℕ) :=
  blocked.filter fun entry => entry.2 != blocker

def whatOwnerIsWaitingFor (lock : ℕ → Lock Owner) (blocked : List (ℕ × ℕ)) (blockFl : ℕ) :
    Option ℕ :=
  (blocked.find? fun entry => (lock entry.1).owner = (lock blockFl).owner).map Prod.snd

def maxDeadlkIterations : ℕ := 10

/-- The loop of `posix_locks_deadlock`, with the number of comparisons that are left. -/
def deadlockLoop (lock : ℕ → Lock Owner) (blocked : List (ℕ × ℕ)) (caller : ℕ) : ℕ → ℕ → Bool
  | 0, _ => false
  | rest + 1, blockFl =>
    match whatOwnerIsWaitingFor lock blocked blockFl with
    | none => false
    | some next =>
      if (lock caller).owner = (lock next).owner then true
      else deadlockLoop lock blocked caller rest next

/-- `posix_locks_deadlock`: the counter is compared before it is increased. -/
def posixLocksDeadlock (lock : ℕ → Lock Owner) (blocked : List (ℕ × ℕ)) (caller blockFl : ℕ) :
    Bool :=
  deadlockLoop lock blocked caller (maxDeadlkIterations + 1) blockFl

/-! ## The locks of one owner -/

/-- The variables of the loop of `__posix_lock_file` over the owner's locks. `kept` are those
before `before`. -/
structure Pass (Owner : Type u) where
  lock : ℕ → Lock Owner
  blocked : List (ℕ × ℕ)
  request : ℕ
  added : Bool
  left : Option ℕ
  right : Option ℕ
  kept : List ℕ

def setStart (lock : ℕ → Lock Owner) (fl : ℕ) (start : ℤ) : ℕ → Lock Owner :=
  Function.update lock fl { lock fl with start := start }

def setFinish (lock : ℕ → Lock Owner) (fl : ℕ) (finish : ℤ) : ℕ → Lock Owner :=
  Function.update lock fl { lock fl with finish := finish }

def joinStarts (lock : ℕ → Lock Owner) (request fl : ℕ) : ℕ → Lock Owner :=
  if (lock request).start < (lock fl).start then setStart lock fl (lock request).start
  else setStart lock request (lock fl).start

def joinFinishes (lock : ℕ → Lock Owner) (request fl : ℕ) : ℕ → Lock Owner :=
  if (lock fl).finish < (lock request).finish then setFinish lock fl (lock request).finish
  else setFinish lock request (lock fl).finish

namespace Pass

/-- `before` moves on. -/
def keep (pass : Pass Owner) (fl : ℕ) : Pass Owner := { pass with kept := pass.kept ++ [fl] }

def deleteLock (pass : Pass Owner) (fl : ℕ) : Pass Owner :=
  { pass with blocked := wakeUpBlocks pass.blocked fl }

/-- The request and an adjacent or overlapping lock of its type become one. -/
def join (pass : Pass Owner) (fl : ℕ) : Pass Owner :=
  { pass with lock := joinFinishes (joinStarts pass.lock pass.request fl) pass.request fl }

/-- From now on the lock of the list stands for the request. -/
def adopt (pass : Pass Owner) (fl : ℕ) : Pass Owner :=
  { pass with request := fl, added := true }

/-- What a lock of another type tells about the ends of the request. -/
def mark (pass : Pass Owner) (fl : ℕ) : Pass Owner :=
  { pass with
    added := if (pass.lock pass.request).flType = .unlock then true else pass.added
    left := if (pass.lock fl).start < (pass.lock pass.request).start then some fl else pass.left }

/-- The lock of the list gets the range and the type of the request. -/
def replace (pass : Pass Owner) (fl : ℕ) : Pass Owner :=
  { pass with
    blocked := wakeUpBlocks pass.blocked fl
    lock := Function.update pass.lock fl
      { pass.lock fl with
        start := (pass.lock pass.request).start
        finish := (pass.lock pass.request).finish
        flType := (pass.lock pass.request).flType } }

/-- The loop over the locks of the owner; the result is the list from `before` on. -/
def locksOfOwner : Pass Owner → List ℕ → Pass Owner × List ℕ
  | pass, [] => (pass, [])
  | pass, fl :: rest =>
    let old := pass.lock fl
    let new := pass.lock pass.request
    if new.owner ≠ old.owner then (pass, fl :: rest)
    else if new.flType = old.flType then
      if old.finish < new.start - 1 then locksOfOwner (pass.keep fl) rest
      else if new.finish < old.start - 1 then (pass, fl :: rest)
      else if pass.added then locksOfOwner ((pass.join fl).deleteLock fl) rest
      else locksOfOwner (((pass.join fl).adopt fl).keep fl) rest
    else if old.finish < new.start then locksOfOwner (pass.keep fl) rest
    else if new.finish < old.start then (pass, fl :: rest)
    else if new.finish < old.finish then ({ pass.mark fl with right := some fl }, fl :: rest)
    else if new.start ≤ old.start then
      if (pass.mark fl).added then locksOfOwner ((pass.mark fl).deleteLock fl) rest
      else locksOfOwner ((((pass.mark fl).replace fl).adopt fl).keep fl) rest
    else locksOfOwner ((pass.mark fl).keep fl) rest

/-- The lock that reaches beyond the end of the request is cut off; if it also starts below, the
second new lock becomes its lower part. -/
def cutRight (pass : Pass Owner) (newFl2 : Option ℕ) (list : List ℕ) : Pass Owner × List ℕ :=
  match pass.right with
  | none => (pass, list)
  | some right =>
    let start := (pass.lock pass.request).finish + 1
    match newFl2 with
    | some second =>
      if pass.left = some right then
        ({ pass with
            lock := setStart (Function.update pass.lock second (pass.lock right)) right start
            left := some second
            blocked := wakeUpBlocks pass.blocked right }, second :: list)
      else
        ({ pass with
            lock := setStart pass.lock right start
            blocked := wakeUpBlocks pass.blocked right }, list)
    | none =>
      ({ pass with
          lock := setStart pass.lock right start
          blocked := wakeUpBlocks pass.blocked right }, list)

/-- The lock that reaches below the start of the request is cut off. -/
def cutLeft (pass : Pass Owner) : Pass Owner :=
  match pass.left with
  | none => pass
  | some left =>
    { pass with
      lock := setFinish pass.lock left ((pass.lock pass.request).start - 1)
      blocked := wakeUpBlocks pass.blocked left }

def cut (pass : Pass Owner) (newFl2 : Option ℕ) (list : List ℕ) : Pass Owner × List ℕ × Result :=
  ((pass.cutRight newFl2 list).1.cutLeft, (pass.cutRight newFl2 list).2, .ok)

/-- The end of `__posix_lock_file`. The result has the list from `before` on. -/
def settle (pass : Pass Owner) (newFl newFl2 : Option ℕ) (testExists : Bool) (list : List ℕ) :
    Pass Owner × List ℕ × Result :=
  if pass.right ≠ none ∧ pass.left = pass.right ∧ newFl2 = none then (pass, list, .enolck)
  else if pass.added then pass.cut newFl2 list
  else if (pass.lock pass.request).flType = .unlock then
    (pass, list, if testExists then .enoent else .ok)
  else
    match newFl with
    | none => (pass, list, .enolck)
    | some new =>
      { pass with lock := Function.update pass.lock new (pass.lock pass.request) }.cut newFl2
        (new :: list)

end Pass

/-! ## The whole request -/

namespace State

variable [DecidableEq Inode]

def conflict (state : State Owner Inode) (inode : Inode) (request : Request Owner) : Option ℕ :=
  if request.flType = .unlock then none
  else (state.flock inode).find? fun fl => posixLocksConflict request.lock (state.lock fl)

/-- The structures of the call: that of the request and, behind it, the two new locks. -/
def enter (state : State Owner Inode) (request : Request Owner) : State Owner Inode :=
  { state with
    lock := Function.update state.lock state.used request.lock
    used := state.used + 3 }

def others (state : State Owner Inode) (inode : Inode) (owner : Owner) : List ℕ :=
  (state.flock inode).takeWhile fun fl =>
    !(state.lock fl).posix || decide (owner ≠ (state.lock fl).owner)

def fromOwner (state : State Owner Inode) (inode : Inode) (owner : Owner) : List ℕ :=
  (state.flock inode).dropWhile fun fl =>
    !(state.lock fl).posix || decide (owner ≠ (state.lock fl).owner)

def wantsLocks (request : Request Owner) : Bool :=
  !request.access && (decide (request.flType ≠ .unlock) || decide (request.start ≠ 0) ||
    decide (request.finish ≠ offsetMax))

/-- What a request without a conflict does to the list of the inode. -/
def apply (state : State Owner Inode) (inode : Inode) (request : Request Owner) :
    State Owner Inode × Result :=
  let newFl := if wantsLocks request && request.allocates then some (state.used + 1) else none
  let newFl2 :=
    if wantsLocks request && request.allocatesSecond then some (state.used + 2) else none
  let entered := state.enter request
  let passed := Pass.locksOfOwner ⟨entered.lock, entered.blocked, state.used, false, none, none, []⟩
    (state.fromOwner inode request.owner)
  let settled := passed.1.settle newFl newFl2 request.testExists passed.2
  ({ entered with
      lock := settled.1.lock
      blocked := settled.1.blocked
      flock := Function.update state.flock inode
        (state.others inode request.owner ++ (settled.1.kept ++ settled.2.1)) }, settled.2.2)

def posixLockFile (state : State Owner Inode) (inode : Inode) (request : Request Owner) :
    State Owner Inode × Result :=
  let entered := state.enter request
  match state.conflict inode request with
  | some fl =>
    if request.sleep = false then (entered, .eagain)
    else if posixLocksDeadlock entered.lock entered.blocked state.used fl then
      (entered, .edeadlk)
    else ({ entered with blocked := (state.used, fl) :: entered.blocked }, .deferred)
  | none => if request.access then (entered, .ok) else state.apply inode request

/-- How a call of `__posix_lock_file` ends. -/
inductive Call (state : State Owner Inode) (inode : Inode) (request : Request Owner) :
    State Owner Inode × Result → Prop
  | busy (fl : ℕ) (isConflict : state.conflict inode request = some fl)
      (noSleep : request.sleep = false) : Call state inode request (state.enter request, .eagain)
  | deadlock (fl : ℕ) (isConflict : state.conflict inode request = some fl)
      (found : posixLocksDeadlock (state.enter request).lock state.blocked state.used fl = true) :
      Call state inode request (state.enter request, .edeadlk)
  | wait (fl : ℕ) (isConflict : state.conflict inode request = some fl)
      (notFound : posixLocksDeadlock (state.enter request).lock state.blocked state.used fl =
        false) :
      Call state inode request
        ({ state.enter request with blocked := (state.used, fl) :: state.blocked }, .deferred)
  | look (noConflict : state.conflict inode request = none) (isAccess : request.access = true) :
      Call state inode request (state.enter request, .ok)
  | apply (noConflict : state.conflict inode request = none) (isAccess : request.access = false) :
      Call state inode request (state.apply inode request)

theorem call_posixLockFile (state : State Owner Inode) (inode : Inode) (request : Request Owner) :
    Call state inode request (state.posixLockFile inode request) := by
  unfold posixLockFile
  cases isConflict : state.conflict inode request with
  | some fl =>
    simp only
    split_ifs with noSleep found
    · exact .busy fl isConflict noSleep
    · exact .deadlock fl isConflict found
    · exact .wait fl isConflict (Bool.not_eq_true _ ▸ found)
  | none =>
    simp only
    split_ifs with isAccess
    · exact .look isConflict isAccess
    · exact .apply isConflict (Bool.not_eq_true _ ▸ isAccess)

end State

end StreakKernel.FileLocks
