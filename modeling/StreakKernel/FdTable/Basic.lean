import Mathlib.Data.Nat.Size
import StreakKernel.Lib.Bitmap
import StreakKernel.Lib.Run
import StreakKernel.Lib.Word

/-!
# File descriptor tables

Shallow embedding of the tables of open files in `fs/file.c`, `fs/open.c` and `fs/fcntl.c`. What is
done under `file_lock` is one step; `expand_fdtable` releases the lock while it allocates, so that a
call that has to expand the table is two steps or more. The bits of `close_on_exec` are left out.
-/

namespace StreakKernel.FdTable

open Word (U32)

/-- `rlimit(RLIMIT_NOFILE)`, and `sysctl_nr_open` between its bounds. -/
structure Limits where
  rlimit : ℕ
  nrOpen : ℕ
  nrOpenMin : 32 ≤ nrOpen
  nrOpenMax : nrOpen ≤ 1073741792

instance : Inhabited Limits := ⟨⟨1024, 1048576, by decide, by decide⟩⟩

/-- `struct files_struct` with its table. -/
structure Files where
  maxFds : ℕ
  openFds : ℕ → Bool
  fd : ℕ → Option ℕ
  nextFd : ℕ

inductive Expansion where
  | emfile
  | fits
  | allocates
  deriving DecidableEq, Repr

/-- `expand_files`, where `nr` and `sysctl_nr_open` are compared as signed numbers. -/
def Limits.expandFiles (limits : Limits) (files : Files) (nr : ℕ) : Expansion :=
  if limits.rlimit ≤ nr then .emfile
  else if nr < files.maxFds then .fits
  else if limits.nrOpen ≤ Word.toSigned nr then .emfile
  else .allocates

/-- The size of the table that `alloc_fdtable` allocates. -/
def Limits.allocFdtable (limits : Limits) (nr : ℕ) : ℕ :=
  let nr := 2 ^ Nat.size (nr / 256) * 256 % 4294967296
  if limits.nrOpen < nr then ((limits.nrOpen - 1) ||| 31) + 1 else nr

inductive Result where
  | fd (fd : ℕ)
  | emfile
  | waits (nr : ℕ)
  deriving DecidableEq, Repr

namespace Files

def expandFdtable (files : Files) (nr maxFds : ℕ) : Files :=
  if files.maxFds ≤ nr then
    { files with
      maxFds := maxFds
      openFds := fun fd => if fd < files.maxFds then files.openFds fd else false
      fd := fun fd => if fd < files.maxFds then files.fd fd else none }
  else files

def candidate (files : Files) (start : ℕ) : ℕ :=
  let fd := if start < files.nextFd then files.nextFd else start
  if fd < files.maxFds then Bitmap.nextZero files.openFds (files.maxFds - fd) fd else fd

/-- `alloc_fd` from the label `repeat` on. -/
def allocFd (files : Files) (limits : Limits) (start : ℕ) : Files × Result :=
  let fd := files.candidate start
  match limits.expandFiles files fd with
  | .emfile => (files, .emfile)
  | .allocates => (files, .waits fd)
  | .fits =>
    ({ files with
        nextFd := if start ≤ files.nextFd then fd + 1 else files.nextFd
        openFds := Function.update files.openFds fd true
        fd := Function.update files.fd fd none }, .fd fd)

def putUnusedFd (files : Files) (fd : ℕ) : Files :=
  { files with
    openFds := Function.update files.openFds fd false
    nextFd := if fd < files.nextFd then fd else files.nextFd }

/-- `fd_install`, after its `BUG_ON`. -/
def fdInstall (files : Files) (fd file : ℕ) : Files :=
  { files with fd := Function.update files.fd fd (some file) }

def close (files : Files) (fd : ℕ) : Files :=
  if files.maxFds ≤ fd ∨ files.fd fd = none then files
  else { files with fd := Function.update files.fd fd none }.putUnusedFd fd

def fcheck (files : Files) (fd : ℕ) : Option ℕ := if fd < files.maxFds then files.fd fd else none

/-- The end of `sys_dup3`, where the table has the new descriptor. -/
def dup3 (files : Files) (oldfd newfd : ℕ) : Files :=
  match files.fcheck oldfd with
  | none => files
  | some file =>
    if files.fd newfd = none ∧ files.openFds newfd = true then files
    else
      { files with
        fd := Function.update files.fd newfd (some file)
        openFds := Function.update files.openFds newfd true }

end Files

inductive Waiting where
  | alloc (start : U32) (nr : ℕ)
  | dup (oldfd newfd : ℕ)

/-- The end of a call of `alloc_fd`, with the table at that time. -/
structure Event where
  start : U32
  files : Files
  result : Result

structure State where
  files : Files
  waiting : ℕ → Option Waiting
  /-- The descriptors that `alloc_fd` has returned and their owners have not yet installed or
  released. -/
  reserved : List ℕ
  events : List Event
  bug : Bool

/-- A table without reserved descriptors, as `dup_fd` leaves it. -/
def initial (maxFds : Fin 1073741825) (fd : Fin maxFds.1 → Option ℕ) : State :=
  let slot : ℕ → Option ℕ := fun number =>
    if small : number < maxFds.1 then fd ⟨number, small⟩ else none
  ⟨⟨maxFds.1, fun number => (slot number).isSome, slot, 0⟩, fun _ => none, [], [], false⟩

namespace State

/-- `alloc_fd` of a thread from the label `repeat` on. -/
def allocFd (state : State) (limits : Limits) (thread : ℕ) (start : U32) : State :=
  let outcome := state.files.allocFd limits start
  match outcome.2 with
  | .waits nr =>
    { state with waiting := Function.update state.waiting thread (some (.alloc start nr)) }
  | .emfile => { state with events := ⟨start, state.files, .emfile⟩ :: state.events }
  | .fd fd =>
    { state with
      files := outcome.1
      reserved := fd :: state.reserved
      events := ⟨start, state.files, .fd fd⟩ :: state.events }

/-- A thread takes the lock again in `expand_fdtable`. -/
def resume (state : State) (limits : Limits) (thread : ℕ) (allocated : Bool) : State :=
  let awake := { state with waiting := Function.update state.waiting thread none }
  match state.waiting thread with
  | none => state
  | some (.alloc start nr) =>
    if !allocated then awake
    else if limits.allocFdtable nr ≤ nr then
      { awake with events := ⟨start, state.files, .emfile⟩ :: state.events }
    else
      { awake with files := state.files.expandFdtable nr (limits.allocFdtable nr) }.allocFd
        limits thread start
  | some (.dup oldfd newfd) =>
    if !allocated || limits.allocFdtable newfd ≤ newfd then awake
    else
      { awake with
        files := (state.files.expandFdtable newfd (limits.allocFdtable newfd)).dup3 oldfd newfd }

end State

inductive Request where
  | allocFd (thread : ℕ) (start : U32)
  | dup3 (thread : ℕ) (oldfd newfd : U32)
  | resume (thread : ℕ) (allocated : Bool)
  | fdInstall (fd file : ℕ)
  | putUnusedFd (fd : ℕ)
  | close (fd : U32)

/-- A reserved descriptor is installed or released by its owner only. -/
def State.step (limits : Limits) (state : State) : Request → State
  | .allocFd thread start =>
    if (state.waiting thread).isSome then state else state.allocFd limits thread start
  | .dup3 thread oldfd newfd =>
    if (state.waiting thread).isSome ∨ oldfd = newfd then state
    else
      match limits.expandFiles state.files newfd with
      | .emfile => state
      | .fits => { state with files := state.files.dup3 oldfd newfd }
      | .allocates =>
        { state with waiting := Function.update state.waiting thread (some (.dup oldfd newfd)) }
  | .resume thread allocated => state.resume limits thread allocated
  | .fdInstall fd file =>
    if fd ∈ state.reserved then
      { state with
        files := state.files.fdInstall fd file
        reserved := state.reserved.erase fd
        bug := state.bug || (state.files.fd fd).isSome }
    else state
  | .putUnusedFd fd =>
    if fd ∈ state.reserved then
      { state with
        files := state.files.putUnusedFd fd
        reserved := state.reserved.erase fd }
    else state
  | .close fd => { state with files := state.files.close fd }

end StreakKernel.FdTable
