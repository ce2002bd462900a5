import StreakKernel.Lib.Run
import StreakKernel.SysvSem.Update

/-!
# No wake-up is missed

The events that change many values scan the whole list. An operation that was performed
scans the lists of the semaphores that it may have released, one after the other.
-/

namespace StreakKernel.SysvSem

open List

namespace SemArray

variable {sma next : SemArray} {waiter : Waiter}

/-! ## `do_smart_update` -/

/-- No simple request on this semaphore could be completed. -/
def Settled (sma : SemArray) (index : ℕ) : Prop :=
  ∀ waiter ∈ sma.simple index, sma.Sleeps waiter

/-- A semaphore that is not settled is still named by an operation for which its list is
scanned. -/
def Due (sops : List Sembuf) (sma : SemArray) : Prop :=
  ∀ index, sma.Settled index ∨ ∃ sop ∈ sops, sop.semNum = index ∧
      (0 < sop.semOp ∨ sop.semOp < 0 ∧ sma.semval index = 0)

section

variable (linked : sma.Linked)
include linked

theorem Linked.complexCount_of_sublist (nextLinked : next.Linked)
    (sublist : next.pending.Sublist sma.pending) (isZero : sma.complexCount = 0) :
    next.complexCount = 0 := by
  have isCount := linked.complexCount_eq
  have nextCount := nextLinked.complexCount_eq
  have := (sublist.filter Waiter.isComplex).length_le
  omega

theorem Linked.settled_of_frame (nextLinked : next.Linked) {index : ℕ}
    (simple : next.simple index = sma.simple index) (semval : next.semval index = sma.semval index)
    (settled : sma.Settled index) : next.Settled index := by
  intro waiter inSimple
  obtain ⟨inNext, isSingle, isNum⟩ := nextLinked.mem_simple.mp inSimple
  rw [simple] at inSimple
  have asleep := settled waiter inSimple
  rw [linked.sleeps_single_iff (linked.mem_simple.mp inSimple).1 isSingle, isNum] at asleep
  rw [nextLinked.sleeps_single_iff inNext isSingle, isNum, semval]
  exact asleep

section

variable (noComplex : sma.complexCount = 0)
include noComplex

theorem Linked.smartStep {sop : Sembuf} {rest : List Sembuf} (due : sma.Due (sop :: rest)) :
    (sma.smartStep sop).Linked ∧ (sma.smartStep sop).complexCount = 0 ∧
      (sma.smartStep sop).Due rest := by
  unfold SemArray.smartStep
  split
  · obtain ⟨nextLinked, frame, settled⟩ := linked.updateQueue_some noComplex sop.semNum
    refine ⟨nextLinked,
      linked.complexCount_of_sublist nextLinked frame.pending noComplex, fun index => ?_⟩
    by_cases isHere : index = sop.semNum
    · rw [isHere]
      exact .inl settled
    obtain ⟨simple, semval⟩ := frame.elsewhere sop.semNum rfl index isHere
    rcases due index with isSettled | ⟨other, mem, isNum, matters⟩
    · exact .inl (linked.settled_of_frame nextLinked simple semval isSettled)
    rw [← semval] at matters
    rcases mem_cons.mp mem with rfl | inRest
    · exact absurd isNum.symm isHere
    · exact .inr ⟨other, inRest, isNum, matters⟩
  · rename_i noMatter
    refine ⟨linked, noComplex, fun index => (due index).imp_right ?_⟩
    rintro ⟨other, mem, isNum, matters⟩
    rcases mem_cons.mp mem with rfl | inRest
    · rw [← isNum] at matters
      exact absurd matters noMatter
    · exact ⟨other, inRest, isNum, matters⟩

theorem Linked.quiet_of_settled (due : sma.Due []) : sma.Quiet := by
  intro waiter mem
  have isSingle := linked.nsops_of_complexCount noComplex mem
  rcases due waiter.first.semNum with settled | ⟨_, isNone, _⟩
  · exact settled waiter (linked.mem_simple.mpr ⟨mem, isSingle, rfl⟩)
  · simp at isNone

theorem Linked.foldl_smartStep {sops : List Sembuf} (due : sma.Due sops) :
    (sops.foldl SemArray.smartStep sma).Linked ∧
      (sops.foldl SemArray.smartStep sma).Quiet := by
  induction sops generalizing sma with
  | nil => exact ⟨linked, linked.quiet_of_settled noComplex due⟩
  | cons sop rest ih =>
    obtain ⟨nextLinked, nextComplex, nextDue⟩ := linked.smartStep noComplex due
    exact ih nextLinked nextComplex nextDue

end

theorem Linked.doSmartUpdate {sops : List Sembuf} (due : sma.complexCount = 0 → sma.Due sops) :
    (sma.doSmartUpdate (some sops)).Linked ∧ (sma.doSmartUpdate (some sops)).Quiet := by
  unfold SemArray.doSmartUpdate
  dsimp only
  split
  · exact linked.updateQueue_none
  · rename_i noComplex
    exact linked.foldl_smartStep (not_not.mp noComplex) (due (not_not.mp noComplex))

theorem Linked.due_performed (quiet : sma.Quiet) {semval : ℕ → ℤ}
    (isDone : attempt (sma.semadj waiter.undo) waiter.sops sma.semval = (.done, semval)) :
    (sma.performed waiter semval).Due waiter.sops := by
  have nextLinked := linked.performed isDone
  have same := performed_same sma waiter semval
  intro index
  by_cases increased : ∃ sop ∈ waiter.sops, sop.semNum = index ∧ 0 < sop.semOp
  · obtain ⟨sop, mem, isNum, pos⟩ := increased
    exact .inr ⟨sop, mem, isNum, .inl pos⟩
  by_cases zeroed : ∃ sop ∈ waiter.sops, sop.semNum = index ∧ sop.semOp < 0 ∧ semval index = 0
  · obtain ⟨sop, mem, isNum, negative, isZero⟩ := zeroed
    refine .inr ⟨sop, mem, isNum, .inr ⟨negative, ?_⟩⟩
    rw [semval_performed]
    exact isZero
  refine .inl fun other inSimple => ?_
  obtain ⟨inNext, isSingle, isNum⟩ := nextLinked.mem_simple.mp inSimple
  have inPending : other ∈ sma.pending := same.pending ▸ inNext
  have asleep := quiet other inPending
  have lower : semval index ≤ sma.semval index := by
    refine attempt_le isDone fun sop mem isIndex => ?_
    by_contra pos
    exact increased ⟨sop, mem, isIndex, by omega⟩
  rw [linked.sleeps_single_iff inPending isSingle, isNum] at asleep
  rw [nextLinked.sleeps_single_iff inNext isSingle, semval_performed, isNum]
  by_cases isZero : semval index = 0
  · have isSame : semval index = sma.semval index := by
      refine attempt_untouched isDone fun sop mem isIndex => ?_
      by_contra nonzero
      rcases Int.lt_or_gt_of_ne nonzero with negative | pos
      · exact zeroed ⟨sop, mem, isIndex, negative, isZero⟩
      · exact increased ⟨sop, mem, isIndex, pos⟩
    rw [isSame]
    exact asleep
  · omega

end

/-! ## The events -/

structure Calm (sma : SemArray) : Prop where
  linked : sma.Linked
  quiet : sma.Quiet

theorem Calm.enqueue (calm : sma.Calm) (fresh : waiter ∉ sma.pending)
    (isAlter : waiter.alter = waiter.sops.any fun sop => sop.semOp ≠ 0)
    (asleep : sma.Sleeps waiter) : (sma.enqueue waiter).Calm := by
  have waits : waiter.Waits := by
    refine ⟨by rw [isAlter]; simp, fun isSingle => ?_⟩
    unfold Sleeps at asleep
    rw [Waiter.sops_eq_of_nsops isSingle] at asleep
    have isWaiting := nowait_of_attempt_single asleep
    have nonneg := calm.linked.nonneg waiter.first.semNum
    rw [attempt_single_sleep_iff isWaiting] at asleep
    exact ⟨isWaiting, by omega⟩
  have sleeps_enqueue : ∀ other, sma.Sleeps other → (sma.enqueue waiter).Sleeps other := by
    intro other otherAsleep
    unfold SemArray.enqueue
    split <;> exact otherAsleep
  refine ⟨calm.linked.enqueue waits fresh, fun other mem => sleeps_enqueue other ?_⟩
  rw [pending_enqueue, mem_place] at mem
  rcases mem with rfl | inPending
  · exact asleep
  · exact calm.quiet other inPending

section

variable (calm : sma.Calm)
include calm

theorem Calm.semtimedop {task : ℕ} (awake : ∀ waiter ∈ sma.pending, waiter.sleeper ≠ task)
    (pid undo : ℕ) (permitted : Bool) (sops : List Sembuf) :
    (sma.semtimedop task pid undo permitted sops).Calm := by
  unfold SemArray.semtimedop
  split
  · exact calm
  rename_i first rest
  dsimp only
  split
  · exact calm
  generalize isAlter : ((first :: rest).any fun sop => sop.semOp ≠ 0) = alter
  rcases sma.tryAtomicSemop_cases (first :: rest) undo pid with
    ⟨failure, notDone, isFailure, isTry⟩ | ⟨semval, isDone, isTry⟩
  · rw [isTry]
    cases failure with
    | done => exact absurd rfl notDone
    | sleep => exact calm.enqueue (fun mem => awake _ mem rfl) isAlter.symm isFailure
    | again => exact calm
    | range => exact calm
  -- the request is like one that was asleep and is completed
  let waiter : Waiter := ⟨task, first, rest, undo, pid, alter⟩
  have performedLinked : (sma.performed waiter semval).Linked := calm.linked.performed isDone
  rw [isTry]
  dsimp only
  split
  · have due : (sma.performed waiter semval).Due waiter.sops :=
      calm.linked.due_performed calm.quiet isDone
    obtain ⟨linked, quiet⟩ := performedLinked.doSmartUpdate fun _ => due
    exact ⟨linked, quiet⟩
  rename_i isFixed
  rw [← isAlter] at isFixed
  have unaltered : ∀ sop ∈ waiter.sops, sop.semOp = 0 := by
    intro sop inOps
    by_contra nonzero
    exact isFixed (any_eq_true.mpr ⟨sop, inOps, by simpa using nonzero⟩)
  refine ⟨performedLinked, fun other mem => ?_⟩
  exact calm.linked.sleeps_performed_of_fixed unaltered isDone
    (calm.quiet other ((performed_same sma waiter semval).pending ▸ mem))

theorem Calm.dequeue (task : ℕ) : (sma.dequeue task).Calm := by
  unfold SemArray.dequeue
  split
  · exact calm
  rename_i waiter isFound
  refine ⟨calm.linked.unlinkQueue (mem_of_find?_eq_some isFound), fun other mem => ?_⟩
  rw [pending_unlinkQueue] at mem
  have asleep := calm.quiet other (mem_of_mem_erase mem)
  unfold Sleeps at asleep ⊢
  rw [semval_unlinkQueue, semadj_unlinkQueue]
  exact asleep

theorem Calm.of_scan (same : SameQueue sma next) (nonneg : ∀ index, 0 ≤ next.semval index)
    (short : next.Short) : (next.doSmartUpdate none).Calm := by
  obtain ⟨linked, quiet⟩ := (calm.linked.of_same same nonneg short).updateQueue_none
  exact ⟨linked, quiet⟩

theorem Calm.setVal (semnum : ℕ) (value : ℤ) (pid : ℕ) : (sma.setVal semnum value pid).Calm := by
  unfold SemArray.setVal
  split
  · exact calm
  rename_i inRange
  refine calm.of_scan ⟨rfl, rfl, rfl, rfl⟩ (fun index => ?_) (fun undo index => ?_)
  · have := calm.linked.nonneg index
    dsimp only
    rw [Function.update_apply]
    split <;> omega
  have := calm.linked.short undo index
  dsimp only
  rw [Function.update_apply]
  split <;> omega

theorem Calm.setAll (values : ℕ → ℕ) : (sma.setAll values).Calm := by
  unfold SemArray.setAll
  split
  · exact calm
  refine calm.of_scan ⟨rfl, rfl, rfl, rfl⟩ (fun index => ?_) (fun undo index => ?_)
  · have := calm.linked.nonneg index
    dsimp only
    split <;> omega
  · have := calm.linked.short undo index
    dsimp only
    split <;> omega

theorem Calm.exitSem (undo pid : ℕ) : (sma.exitSem undo pid).Calm := by
  unfold SemArray.exitSem
  dsimp only
  refine calm.of_scan ⟨rfl, rfl, rfl, rfl⟩ (fun index => ?_) (fun other index => ?_)
  · have := calm.linked.nonneg index
    dsimp only
    unfold semvmx
    split_ifs <;> omega
  have := calm.linked.short other index
  dsimp only
  rw [Function.update_apply]
  split
  · simp
  · exact this

end

theorem Calm.step (calm : sma.Calm) (event : Event) : (sma.step event).Calm := by
  cases event with
  | semtimedop task pid undo permitted sops =>
    unfold SemArray.step
    dsimp only
    split
    · exact calm
    · rename_i awake
      refine calm.semtimedop (fun waiter mem isTask => awake ?_) pid undo permitted sops
      exact any_eq_true.mpr ⟨waiter, mem, by simpa using isTask⟩
  | dequeue task => exact calm.dequeue task
  | setVal semnum value pid => exact calm.setVal semnum value pid
  | setAll values => exact calm.setAll values
  | exitSem undo pid => exact calm.exitSem undo pid

theorem newary_calm (nsems : ℕ) : (newary nsems).Calm := by
  refine ⟨⟨List.Pairwise.nil, fun _ => rfl, rfl, List.Pairwise.nil, ?_, fun _ => Int.le_refl _, ?_,
    rfl⟩, ?_⟩
  · simp [newary]
  · intro undo index
    simp [newary]
  · simp [Quiet, newary]

theorem Quiet.try_sleep (quiet : sma.Quiet) (mem : waiter ∈ sma.pending) :
    (sma.tryAtomicSemop waiter.sops waiter.undo waiter.pid).1 = .sleep := by
  have asleep := quiet waiter mem
  rcases sma.tryAtomicSemop_cases waiter.sops waiter.undo waiter.pid with
    ⟨failure, _, isFailure, isTry⟩ | ⟨semval, isDone, _⟩
  · rw [isTry]
    exact isFailure.symm.trans asleep
  · rw [Sleeps, isDone] at asleep
    simp at asleep

theorem Linked.zero_first (linked : sma.Linked) (index : ℕ) :
    (sma.simple index).Pairwise fun earlier later =>
      later.first.semOp = 0 → earlier.first.semOp = 0 := by
  have sublist : (sma.simple index).Sublist sma.pending := by
    rw [linked.simple_eq]
    exact filter_sublist
  have order := linked.order.sublist sublist
  refine order.imp_of_mem fun {earlier later} earlierIn laterIn altered isZero => ?_
  obtain ⟨earlierPending, earlierSingle, _⟩ := linked.mem_simple.mp earlierIn
  obtain ⟨laterPending, laterSingle, _⟩ := linked.mem_simple.mp laterIn
  have earlierWaits := linked.waits earlier earlierPending
  have laterWaits := linked.waits later laterPending
  rw [earlierWaits.alter_single earlierSingle, laterWaits.alter_single laterSingle] at altered
  have := (earlierWaits.single earlierSingle).2
  omega

/-- After any calls, timeouts and signals no request on the list of the array could be completed,
the lists are linked as they should be, and no `BUG_ON` was hit. -/
theorem never_misses (nsems : ℕ) (events : List Event) :
    let sma := Run.run SemArray.step (newary nsems) events
    (∀ waiter ∈ sma.pending, (sma.tryAtomicSemop waiter.sops waiter.undo waiter.pid).1 = .sleep) ∧
    sma.complexCount = (sma.pending.filter fun waiter => 1 < waiter.nsops).length ∧
    (∀ waiter index, waiter ∈ sma.simple index ↔
      waiter ∈ sma.pending ∧ waiter.nsops = 1 ∧ waiter.first.semNum = index) ∧
    (∀ index, (sma.simple index).Pairwise fun earlier later =>
      later.first.semOp = 0 → earlier.first.semOp = 0) ∧
    sma.bug = false := by
  have calm := Run.invariant_always SemArray.Calm (fun _ event calm => calm.step event)
    (newary_calm nsems) events
  exact ⟨fun _ mem => calm.quiet.try_sleep mem, calm.linked.complexCount_eq,
    fun _ _ => calm.linked.mem_simple, calm.linked.zero_first, calm.linked.noBug⟩

end SemArray

end StreakKernel.SysvSem
