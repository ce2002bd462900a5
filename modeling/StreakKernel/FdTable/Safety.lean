import StreakKernel.FdTable.Reserved

/-!
# Threads that share a table

What a section of `alloc_fd` returns is right for the table it finds, whatever other threads did to
the table while the lock was released.
-/

namespace StreakKernel.FdTable

open Function Run
open Word (U32)

/-- A descriptor is the least one that is not open, and there is no error while there is one within
the limits. -/
def Event.Right (limits : Limits) (event : Event) : Prop :=
  match event.result with
  | .fd fd =>
    event.start.1 ≤ fd ∧ event.files.openFds fd = false ∧
      ∀ other, event.start.1 ≤ other → other < fd → event.files.openFds other = true
  | .emfile =>
    ∀ fd, event.start.1 ≤ fd → fd < min limits.rlimit limits.nrOpen → event.files.openFds fd = true
  | .waits _ => False

/-- A thread of `alloc_fd` waits for a table that can be allocated, or `start` is out of range. -/
def Waiting.Possible (limits : Limits) : Waiting → Prop
  | .alloc start nr => nr < limits.nrOpen ∨ 2147483648 ≤ start.1
  | .dup _ _ => True

namespace State

variable {limits : Limits} {state : State}

structure Sound (limits : Limits) (state : State) : Prop where
  files : state.files.Sound
  reserves : state.files.Reserves state.reserved
  waiting : ∀ thread, ∀ call ∈ state.waiting thread, call.Possible limits
  events : ∀ event ∈ state.events, event.Right limits
  bug : state.bug = false

section Steps

variable (sound : state.Sound limits)
include sound

theorem Sound.wait (thread : ℕ) {call : Option Waiting}
    (possible : ∀ waiting ∈ call, waiting.Possible limits) :
    Sound limits { state with waiting := update state.waiting thread call } := by
  refine ⟨sound.files, sound.reserves, fun other => ?_, sound.events, sound.bug⟩
  by_cases same : other = thread
  · simpa [same] using possible
  · simpa [same] using sound.waiting other

theorem Sound.record {event : Event} (right : event.Right limits) :
    Sound limits { state with events := event :: state.events } :=
  ⟨sound.files, sound.reserves, sound.waiting, List.forall_mem_cons.mpr ⟨right, sound.events⟩,
    sound.bug⟩

theorem Sound.change {files : Files} (isSound : files.Sound)
    (reserves : files.Reserves state.reserved) : Sound limits { state with files := files } :=
  ⟨isSound, reserves, sound.waiting, sound.events, sound.bug⟩

theorem Sound.allocFd (thread : ℕ) (start : U32) :
    (state.allocFd limits thread start).Sound limits := by
  rcases sound.files.candidate start with ⟨fromStart, before, clear, range, hint⟩
  have bound := sound.files.bound
  unfold State.allocFd Files.allocFd
  cases isExpansion : limits.expandFiles state.files (state.files.candidate start) with
  | emfile =>
    simp only [isExpansion]
    refine sound.record ?_
    intro fd start_le fd_lt
    refine before fd start_le ?_
    unfold Limits.expandFiles Word.toSigned at isExpansion
    split_ifs at isExpansion <;> omega
  | allocates =>
    simp only [isExpansion]
    refine sound.wait thread ?_
    rintro _ ⟨⟩
    unfold Limits.expandFiles Word.toSigned at isExpansion
    unfold Waiting.Possible
    dsimp only
    split_ifs at isExpansion <;> omega
  | fits =>
    have inTable : state.files.candidate start < state.files.maxFds := by
      unfold Limits.expandFiles at isExpansion
      split_ifs at isExpansion
      assumption
    have isClear := clear inTable
    simp only [isExpansion]
    generalize state.files.candidate start = fd at *
    have fresh : fd ∉ state.reserved := by
      intro mem
      rw [sound.reserves.isOpen fd mem] at isClear
      cases isClear
    have updated := sound.files.update inTable none
    have kept : Files.Reserves { state.files with
        openFds := update state.files.openFds fd true
        fd := update state.files.fd fd none } state.reserved :=
      sound.reserves.of_others fresh
        (fun other differ => update_of_ne differ true state.files.openFds)
        (fun other differ => update_of_ne differ none state.files.fd)
    refine ⟨⟨fun other below => ?_, updated.beyond, updated.installed, bound⟩, ⟨?_, ?_, ?_⟩,
      sound.waiting, List.forall_mem_cons.mpr ⟨⟨fromStart, isClear, before⟩, sound.events⟩,
      sound.bug⟩
    · by_cases isNew : other = fd
      · exact isNew ▸ update_self ..
      refine (update_of_ne isNew true state.files.openFds).trans ?_
      by_cases old : other < state.files.nextFd
      · exact sound.files.below other old
      refine before other ?_ ?_
      all_goals
        dsimp only at below
        split at below <;> omega
    · exact List.nodup_cons.mpr ⟨fresh, sound.reserves.nodup⟩
    · exact List.forall_mem_cons.mpr ⟨update_self .., kept.isOpen⟩
    · exact List.forall_mem_cons.mpr ⟨update_self .., kept.empty⟩

theorem Sound.resume (thread : ℕ) (allocated : Bool) :
    (state.resume limits thread allocated).Sound limits := by
  have awake := @Sound.wait limits state sound thread none fun _ isNone => (nomatch isNone)
  unfold State.resume
  cases isCall : state.waiting thread with
  | none => exact sound
  | some call =>
    have possible := sound.waiting thread call isCall
    cases call with
    | alloc start nr =>
      dsimp only
      split
      · exact awake
      split
      · next small =>
          refine awake.record ?_
          intro fd start_le fd_lt
          have bound := limits.nrOpenMax
          have grows := @Limits.lt_allocFdtable limits nr
          dsimp only at start_le fd_lt
          unfold Waiting.Possible at possible
          omega
      next grows =>
        have lt := Nat.not_le.mp grows
        have le := limits.allocFdtable_le nr
        refine Sound.allocFd (awake.change ?_ ?_) thread start
        · exact (sound.files.expandFdtable nr lt le).1
        · exact sound.reserves.expandFdtable sound.files nr lt le
    | dup oldfd newfd =>
      dsimp only
      split
      · exact awake
      next grows =>
        have lt : newfd < limits.allocFdtable newfd := by
          simp only [Bool.or_eq_true, decide_eq_true_eq, not_or] at grows
          exact Nat.not_le.mp grows.2
        have le := limits.allocFdtable_le newfd
        have expanded := sound.files.expandFdtable newfd lt le
        refine awake.change (expanded.1.dup3 oldfd expanded.2.2) ?_
        exact (sound.reserves.expandFdtable sound.files newfd lt le).dup3 oldfd newfd

theorem Sound.step (request : Request) : (state.step limits request).Sound limits := by
  cases request with
  | allocFd thread start =>
    unfold State.step
    dsimp only
    split
    · exact sound
    · exact sound.allocFd thread start
  | dup3 thread oldfd newfd =>
    unfold State.step
    dsimp only
    split
    · exact sound
    cases isExpansion : limits.expandFiles state.files newfd with
    | emfile => exact sound
    | allocates => exact sound.wait thread (by rintro _ ⟨⟩; trivial)
    | fits =>
      have inTable : newfd.1 < state.files.maxFds := by
        unfold Limits.expandFiles at isExpansion
        split_ifs at isExpansion
        assumption
      exact sound.change (sound.files.dup3 oldfd inTable) (sound.reserves.dup3 oldfd newfd)
  | resume thread allocated => exact sound.resume thread allocated
  | fdInstall fd file =>
    unfold State.step
    dsimp only
    split
    · next mem =>
        refine ⟨sound.files.fdInstall (sound.reserves.isOpen fd mem),
          sound.reserves.erase (fun _ _ => rfl) fun other differ => ?_, sound.waiting,
          sound.events, ?_⟩
        · exact update_of_ne differ _ _
        · simp [sound.bug, sound.reserves.empty fd mem]
    · exact sound
  | putUnusedFd fd =>
    unfold State.step
    dsimp only
    split
    · next mem =>
        refine ⟨sound.files.put fd (sound.reserves.empty fd mem),
          sound.reserves.erase (fun other differ => ?_) (fun _ _ => rfl), sound.waiting,
          sound.events, sound.bug⟩
        exact update_of_ne differ _ _
    · exact sound
  | close fd => exact sound.change (sound.files.close fd) (sound.reserves.close fd)

end Steps

theorem sound_initial (limits : Limits) (maxFds : Fin 1073741825) (fd : Fin maxFds.1 → Option ℕ) :
    (initial maxFds fd).Sound limits := by
  refine ⟨⟨fun _ below => absurd below (Nat.not_lt_zero _), fun number beyond => ?_,
    fun number present => ?_, Nat.le_of_lt_succ maxFds.2⟩, ⟨.nil, ?_, ?_⟩, ?_, ?_, rfl⟩
  · simp only [initial, Option.isSome_eq_false_iff, Option.isNone_iff_eq_none]
    exact dif_neg (Nat.not_lt.mpr beyond)
  · exact Option.isSome_iff_ne_none.mpr present
  all_goals
    simp [initial]

structure Safe (limits : Limits) (state : State) : Prop where
  below : ∀ fd < state.files.nextFd, state.files.openFds fd = true
  events : ∀ event ∈ state.events, event.Right limits
  nodup : state.reserved.Nodup
  reserved : ∀ fd ∈ state.reserved, state.files.openFds fd = true ∧ state.files.fd fd = none
  untouched : ∀ fd ∈ state.reserved,
    state.files.close fd = state.files ∧ ∀ oldfd, state.files.dup3 oldfd fd = state.files
  bug : state.bug = false

end State

end StreakKernel.FdTable
