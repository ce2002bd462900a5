import StreakKernel.SysvSem.Linked

/-!
# `update_queue` finds every request that can go on

A walk over a list leaves behind it only requests that have to sleep. After a request
that altered the array the walk begins again, or all that wait are simple and none waits
for the new value.
-/

namespace StreakKernel.SysvSem

open List

namespace SemArray

variable {sma mid next : SemArray} {waiter other : Waiter} {semnum : Option ℕ}

def Sleeps (sma : SemArray) (waiter : Waiter) : Prop :=
  (attempt (sma.semadj waiter.undo) waiter.sops sma.semval).1 = .sleep

theorem Linked.sleeps_single_iff (linked : sma.Linked) (mem : waiter ∈ sma.pending)
    (isSingle : waiter.nsops = 1) :
    sma.Sleeps waiter ↔ waiter.first.semOp = 0 ∧ sma.semval waiter.first.semNum ≠ 0 ∨
        sma.semval waiter.first.semNum + waiter.first.semOp < 0 := by
  rw [Sleeps, Waiter.sops_eq_of_nsops isSingle]
  exact attempt_single_sleep_iff ((linked.waits waiter mem).single isSingle).1

def performed (sma : SemArray) (waiter : Waiter) (semval : ℕ → ℤ) : SemArray :=
  waiter.sops.foldr (note waiter.undo waiter.pid) { sma with semval := semval }

section Performed

variable {semval : ℕ → ℤ}

theorem performed_same (sma : SemArray) (waiter : Waiter) (semval : ℕ → ℤ) :
    SameQueue sma (sma.performed waiter semval) := by
  have same := (foldr_note { sma with semval := semval } waiter.undo waiter.pid waiter.sops).2
  exact ⟨same.pending, same.simple, same.complexCount, same.bug⟩

theorem semval_performed (sma : SemArray) (waiter : Waiter) (semval : ℕ → ℤ) :
    (sma.performed waiter semval).semval = semval :=
  (foldr_note { sma with semval := semval } waiter.undo waiter.pid waiter.sops).1

theorem Linked.performed (linked : sma.Linked)
    (isDone : attempt (sma.semadj waiter.undo) waiter.sops sma.semval = (.done, semval)) :
    (sma.performed waiter semval).Linked := by
  refine linked.of_same (performed_same sma waiter semval) ?_ ?_
  · rw [semval_performed]
    exact attempt_nonneg isDone linked.nonneg
  · have short : { sma with semval := semval }.Short := linked.short
    exact short.foldr_note waiter.undo waiter.pid waiter.sops

theorem Linked.sleeps_performed_of_fixed (linked : sma.Linked)
    (unaltered : ∀ sop ∈ waiter.sops, sop.semOp = 0)
    (isDone : attempt (sma.semadj waiter.undo) waiter.sops sma.semval = (.done, semval))
    (asleep : sma.Sleeps other) : (sma.performed waiter semval).Sleeps other := by
  have isSame : semval = sma.semval := by
    funext index
    exact attempt_untouched isDone fun sop mem _ => unaltered sop mem
  have short : { sma with semval := semval }.Short := linked.short
  have isSemadj : (sma.performed waiter semval).semadj = sma.semadj :=
    short.semadj_foldr_note waiter.undo waiter.pid unaltered
  unfold Sleeps
  rw [isSemadj, semval_performed, isSame]
  exact asleep

theorem Linked.sleeps_performed (linked : sma.Linked) (waits : waiter.Waits)
    (isDone : attempt (sma.semadj waiter.undo) waiter.sops sma.semval = (.done, semval))
    (unlinked : ((sma.performed waiter semval).unlinkQueue waiter).Linked)
    (goesOn : (((sma.performed waiter semval).unlinkQueue waiter).checkRestart waiter).2 = false)
    (mem : other ∈ ((sma.performed waiter semval).unlinkQueue waiter).pending)
    (inPending : other ∈ sma.pending) (asleep : sma.Sleeps other) :
    ((sma.performed waiter semval).unlinkQueue waiter).Sleeps other := by
  cases isAlter : waiter.alter with
  | false =>
    have := linked.sleeps_performed_of_fixed (waits.unaltered isAlter) isDone asleep
    unfold Sleeps at this ⊢
    rw [semval_unlinkQueue, semadj_unlinkQueue]
    exact this
  | true =>
    obtain ⟨noComplex, isSingle, others⟩ := unlinked.of_not_restart isAlter goesOn
    have otherSingle := unlinked.nsops_of_complexCount noComplex mem
    have decrement := (waits.alter_single isSingle).mp isAlter
    have isSemval : ((sma.performed waiter semval).unlinkQueue waiter).semval = semval := by
      rw [semval_unlinkQueue, semval_performed]
    rw [unlinked.sleeps_single_iff mem otherSingle]
    rw [linked.sleeps_single_iff inPending otherSingle] at asleep
    rw [isSemval] at others ⊢
    rw [Waiter.sops_eq_of_nsops isSingle] at isDone
    by_cases isHere : other.first.semNum = waiter.first.semNum
    · have lower : semval waiter.first.semNum ≤ sma.semval waiter.first.semNum := by
        refine attempt_le isDone fun sop inOps _ => ?_
        rw [mem_singleton.mp inOps]
        omega
      rw [isHere] at asleep ⊢
      by_cases isZero : semval waiter.first.semNum = 0
      · have := others isZero other (unlinked.mem_simple.mpr ⟨mem, otherSingle, isHere⟩)
        omega
      · omega
    have isSame : semval other.first.semNum = sma.semval other.first.semNum := by
      refine attempt_untouched isDone fun sop inOps isNum => ?_
      rw [mem_singleton.mp inOps] at isNum
      exact absurd isNum.symm isHere
    rw [isSame]
    exact asleep

end Performed

/-! ## One walk -/

structure Frame (semnum : Option ℕ) (before after : SemArray) : Prop where
  pending : after.pending.Sublist before.pending
  elsewhere : ∀ here, semnum = some here → ∀ index, index ≠ here →
    after.simple index = before.simple index ∧ after.semval index = before.semval index

theorem Frame.refl (semnum : Option ℕ) (sma : SemArray) : Frame semnum sma sma :=
  ⟨List.Sublist.refl _, fun _ _ _ _ => ⟨rfl, rfl⟩⟩

theorem Frame.trans (first : Frame semnum sma mid) (second : Frame semnum mid next) :
    Frame semnum sma next := by
  refine ⟨second.pending.trans first.pending, fun here isHere index isOther => ?_⟩
  obtain ⟨simple, semval⟩ := first.elsewhere here isHere index isOther
  obtain ⟨simple', semval'⟩ := second.elsewhere here isHere index isOther
  exact ⟨simple'.trans simple, semval'.trans semval⟩

theorem Linked.mem_pending (linked : sma.Linked) (mem : waiter ∈ sma.pendingList semnum) :
    waiter ∈ sma.pending := by
  cases semnum with
  | none => exact mem
  | some here => exact (linked.mem_simple.mp mem).1

theorem Linked.nodup_pendingList (linked : sma.Linked) (semnum : Option ℕ) :
    (sma.pendingList semnum).Nodup := by
  cases semnum with
  | none => exact linked.nodup
  | some here =>
    rw [pendingList, linked.simple_eq]
    exact linked.nodup.sublist filter_sublist

theorem Linked.pendingList_unlinkQueue (linked : sma.Linked) (semnum : Option ℕ) (waiter : Waiter) :
    (sma.unlinkQueue waiter).pendingList semnum = (sma.pendingList semnum).erase waiter := by
  cases semnum with
  | none => exact pending_unlinkQueue sma waiter
  | some here =>
    simp only [pendingList]
    rw [linked.simple_unlinkQueue, linked.simple_eq, erase_filter]

/-- A walk that has this much of the list before it, and only requests that sleep behind. -/
structure Scanning (semnum : Option ℕ) (walk : List Waiter) (sma : SemArray) : Prop where
  linked : sma.Linked
  ahead : walk.Sublist (sma.pendingList semnum)
  asleep : ∀ waiter ∈ sma.pendingList semnum, waiter ∉ walk → sma.Sleeps waiter

inductive PassGood (semnum : Option ℕ) (sma : SemArray) : Pass → Prop where
  | finished {next : SemArray} (linked : next.Linked) (frame : Frame semnum sma next)
      (asleep : ∀ waiter ∈ next.pendingList semnum, next.Sleeps waiter) :
      PassGood semnum sma (.finished next)
  | again {next : SemArray} (linked : next.Linked) (frame : Frame semnum sma next)
      (fewer : next.pending.length < sma.pending.length) : PassGood semnum sma (.again next)

theorem PassGood.of_frame {pass : Pass} (frame : Frame semnum sma mid)
    (good : PassGood semnum mid pass) : PassGood semnum sma pass := by
  cases good with
  | finished linked further asleep => exact .finished linked (frame.trans further) asleep
  | again linked further fewer =>
    exact .again linked (frame.trans further) (Nat.lt_of_lt_of_le fewer frame.pending.length_le)

section Step

variable {walk : List Waiter}

section Head

variable (scanning : Scanning semnum (waiter :: walk) sma)
include scanning

theorem Scanning.mem_pending : waiter ∈ sma.pending :=
  scanning.linked.mem_pending (scanning.ahead.subset mem_cons_self)

theorem Scanning.skip (asleep : sma.Sleeps waiter) : Scanning semnum walk sma := by
  refine ⟨scanning.linked, (sublist_cons_self waiter walk).trans scanning.ahead, ?_⟩
  intro other inList notAhead
  by_cases isHead : other = waiter
  · rw [isHead]
    exact asleep
  refine scanning.asleep other inList fun inWalk => ?_
  rcases mem_cons.mp inWalk with isWaiter | ahead
  · exact isHead isWaiter
  · exact notAhead ahead

section

variable (same : SameQueue sma mid)
include same

theorem Scanning.frame_unlink (linked : mid.Linked) (result : Result)
    (values : waiter.nsops = 1 → ∀ index, index ≠ waiter.first.semNum → mid.semval index =
      sma.semval index) :
    Frame semnum sma ((mid.unlinkQueue waiter).wakeUpPrepare waiter result) := by
  refine ⟨?_, fun here isHere index isOther => ?_⟩
  · rw [← same.pending]
    exact (pending_unlinkQueue mid waiter) ▸ erase_sublist
  subst isHere
  have inSimple := scanning.ahead.subset mem_cons_self
  obtain ⟨_, isSingle, isNum⟩ := scanning.linked.mem_simple.mp inSimple
  constructor
  · change (mid.unlinkQueue waiter).simple index = sma.simple index
    rw [linked.simple_unlinkQueue, filter_erase_of_false, ← linked.simple_eq, same.simple]
    simp [Waiter.simpleOn, isNum, Ne.symm isOther]
  · change (mid.unlinkQueue waiter).semval index = sma.semval index
    rw [semval_unlinkQueue]
    exact values isSingle index (isNum ▸ isOther)

theorem Scanning.fewer_unlink (result : Result) :
    ((mid.unlinkQueue waiter).wakeUpPrepare waiter result).pending.length <
      sma.pending.length := by
  have mem := scanning.mem_pending
  have := length_pos_of_mem mem
  change (mid.unlinkQueue waiter).pending.length < _
  rw [pending_unlinkQueue, same.pending, length_erase_of_mem mem]
  omega

theorem Scanning.unlink (linked : mid.Linked) (result : Result)
    (keeps : ∀ other ∈ (mid.unlinkQueue waiter).pending, other ∈ sma.pending → sma.Sleeps other →
      (mid.unlinkQueue waiter).Sleeps other) :
    Scanning semnum walk ((mid.unlinkQueue waiter).wakeUpPrepare waiter result) := by
  have mem : waiter ∈ mid.pending := same.pending ▸ scanning.mem_pending
  have unlinked := linked.unlinkQueue mem
  have sameList : mid.pendingList semnum = sma.pendingList semnum := by
    cases semnum with
    | none => exact same.pending
    | some here => exact congrFun same.simple here
  have isList : ((mid.unlinkQueue waiter).wakeUpPrepare waiter result).pendingList semnum =
      (sma.pendingList semnum).erase waiter := by
    rw [← sameList, ← linked.pendingList_unlinkQueue]
    cases semnum <;> rfl
  refine ⟨unlinked.wakeUpPrepare waiter result, ?_, ?_⟩
  · rw [isList]
    have := scanning.ahead.erase waiter
    rwa [erase_cons_head] at this
  rw [isList]
  intro other inList notAhead
  obtain ⟨notWaiter, inOld⟩ := (scanning.linked.nodup_pendingList semnum).mem_erase_iff.mp inList
  have inPending := scanning.linked.mem_pending inOld
  refine keeps other ?_ inPending (scanning.asleep other inOld ?_)
  · rw [pending_unlinkQueue, same.pending]
    exact (mem_erase_of_ne notWaiter).mpr inPending
  intro inWalk
  rcases mem_cons.mp inWalk with isWaiter | ahead
  · exact notWaiter isWaiter
  · exact notAhead ahead

end

theorem Scanning.break_asleep (isBreak : sma.breaks semnum waiter = true) :
    ∀ other ∈ sma.pendingList semnum, sma.Sleeps other := by
  intro other inList
  by_cases inWalk : other ∈ waiter :: walk
  · cases semnum with
    | none => simp [breaks] at isBreak
    | some here =>
      simp only [breaks, Bool.and_eq_true, decide_eq_true_eq] at isBreak
      obtain ⟨isZero, isAlter⟩ := isBreak
      have order : (waiter :: walk).Pairwise
          fun first second => first.alter = true → second.alter = true := by
        refine List.Pairwise.sublist scanning.ahead ?_
        rw [pendingList, scanning.linked.simple_eq]
        exact scanning.linked.order.sublist filter_sublist
      have otherAlter : other.alter = true := by
        rcases mem_cons.mp inWalk with rfl | ahead
        · exact isAlter
        · exact (pairwise_cons.mp order).1 other ahead isAlter
      obtain ⟨inPending, isSingle, rfl⟩ := scanning.linked.mem_simple.mp inList
      have := ((scanning.linked.waits other inPending).alter_single isSingle).mp otherAlter
      rw [scanning.linked.sleeps_single_iff inPending isSingle, isZero]
      omega
  · exact scanning.asleep other inList inWalk

end Head

end Step

theorem SameQueue.refl (sma : SemArray) : SameQueue sma sma := ⟨rfl, rfl, rfl, rfl⟩

theorem scan_good {walk : List Waiter} (scanning : Scanning semnum walk sma) :
    PassGood semnum sma (scan semnum walk sma) := by
  induction walk generalizing sma with
  | nil =>
    exact .finished scanning.linked (Frame.refl semnum sma)
      fun waiter inList => scanning.asleep waiter inList (by simp)
  | cons waiter walk ih =>
    unfold scan
    split
    · rename_i isBreak
      exact .finished scanning.linked (Frame.refl semnum sma) (scanning.break_asleep isBreak)
    have mem := scanning.mem_pending
    have waits := scanning.linked.waits waiter mem
    rcases sma.tryAtomicSemop_cases waiter.sops waiter.undo waiter.pid with
      ⟨failure, notDone, isFailure, isTry⟩ | ⟨semval, isDone, isTry⟩
    · -- the attempt fails, and the array is as it was
      have unlinkKeeps : ∀ other ∈ (sma.unlinkQueue waiter).pending, other ∈ sma.pending →
          sma.Sleeps other → (sma.unlinkQueue waiter).Sleeps other := by
        intro other _ _ asleep
        unfold Sleeps at asleep ⊢
        rw [semval_unlinkQueue, semadj_unlinkQueue]
        exact asleep
      have dropped := scanning.unlink (SameQueue.refl sma) scanning.linked failure unlinkKeeps
      have frame := scanning.frame_unlink (SameQueue.refl sma) scanning.linked failure
        fun _ _ _ => rfl
      rw [isTry]
      cases failure with
      | done => exact absurd rfl notDone
      | sleep => exact ih (scanning.skip isFailure)
      | again | range => exact .of_frame frame (ih dropped)
    · -- the request is completed
      have same := performed_same sma waiter semval
      have linked := scanning.linked.performed isDone
      have unlinked := linked.unlinkQueue (same.pending ▸ mem)
      have noBug := unlinked.checkRestart_fst waits
      have frame := scanning.frame_unlink same linked .done (by
        intro isSingle index isOther
        rw [semval_performed]
        rw [Waiter.sops_eq_of_nsops isSingle] at isDone
        refine attempt_untouched isDone fun sop inOps isNum => ?_
        rw [mem_singleton.mp inOps] at isNum
        exact absurd isNum.symm isOther)
      rw [isTry]
      dsimp only
      split
      · rename_i restarted isRestart
        obtain rfl : _ = restarted := noBug.symm.trans (Prod.ext_iff.mp isRestart).1
        exact .again (unlinked.wakeUpPrepare waiter .done) frame (scanning.fewer_unlink same .done)
      rename_i continued isContinued
      have goesOn := (Prod.ext_iff.mp isContinued).2
      obtain rfl : _ = continued := noBug.symm.trans (Prod.ext_iff.mp isContinued).1
      refine .of_frame frame (ih (scanning.unlink same linked .done ?_))
      exact fun other inUnlinked inPending asleep =>
        scanning.linked.sleeps_performed waits isDone unlinked goesOn inUnlinked inPending asleep

/-! ## All walks -/

theorem rounds_spec {fuel : ℕ} (linked : sma.Linked) (enough : sma.pending.length < fuel) :
    (rounds semnum fuel sma).Linked ∧ Frame semnum sma (rounds semnum fuel sma) ∧
      ∀ waiter ∈ (rounds semnum fuel sma).pendingList semnum,
        (rounds semnum fuel sma).Sleeps waiter := by
  induction fuel generalizing sma with
  | zero => omega
  | succ fuel ih =>
    have good : PassGood semnum sma (scan semnum (sma.pendingList semnum) sma) :=
      scan_good ⟨linked, List.Sublist.refl _, fun waiter inList notIn => absurd inList notIn⟩
    unfold rounds
    generalize scan semnum (sma.pendingList semnum) sma = pass at good
    cases good with
    | finished nextLinked frame asleep => exact ⟨nextLinked, frame, asleep⟩
    | again nextLinked frame fewer =>
      obtain ⟨finalLinked, finalFrame, asleep⟩ := ih nextLinked (by omega)
      exact ⟨finalLinked, frame.trans finalFrame, asleep⟩

def Quiet (sma : SemArray) : Prop := ∀ waiter ∈ sma.pending, sma.Sleeps waiter

theorem Linked.updateQueue_none (linked : sma.Linked) :
    (sma.updateQueue none).Linked ∧ (sma.updateQueue none).Quiet := by
  unfold updateQueue
  rw [ite_self]
  obtain ⟨nextLinked, _, asleep⟩ := rounds_spec linked (Nat.lt_succ_self _)
  exact ⟨nextLinked, asleep⟩

theorem Linked.updateQueue_some (linked : sma.Linked) (noComplex : sma.complexCount = 0)
    (here : ℕ) :
    (sma.updateQueue (some here)).Linked ∧ Frame (some here) sma (sma.updateQueue (some here)) ∧
      ∀ waiter ∈ (sma.updateQueue (some here)).simple here,
        (sma.updateQueue (some here)).Sleeps waiter := by
  unfold updateQueue
  rw [if_neg (not_not.mpr noComplex)]
  exact rounds_spec linked (Nat.lt_succ_self _)

end SemArray

end StreakKernel.SysvSem
