import StreakKernel.SysvSem.Attempt

/-!
# The lists of the sleeping requests

The list of a semaphore is the part of the list of the array that waits on it alone,
`complex_count` counts the others, and on all lists the requests that wait for zero come
first.
-/

namespace StreakKernel.SysvSem

open List

structure Waiter.Waits (waiter : Waiter) : Prop where
  alter_iff : waiter.alter = true ↔ ∃ sop ∈ waiter.sops, sop.semOp ≠ 0
  single : waiter.nsops = 1 → waiter.first.nowait = false ∧ waiter.first.semOp ≤ 0

namespace Waiter

variable {waiter : Waiter}

def simpleOn (index : ℕ) (waiter : Waiter) : Bool :=
  waiter.nsops = 1 ∧ waiter.first.semNum = index

def isComplex (waiter : Waiter) : Bool := 1 < waiter.nsops

theorem sops_eq_of_nsops (isSingle : waiter.nsops = 1) : waiter.sops = [waiter.first] := by
  have isNil : waiter.rest = [] := by
    unfold nsops sops at isSingle
    exact eq_nil_of_length_eq_zero (by simpa using isSingle)
  rw [sops, isNil]

theorem nsops_pos (waiter : Waiter) : 0 < waiter.nsops := by
  unfold nsops sops
  simp

theorem Waits.alter_single (waits : waiter.Waits) (isSingle : waiter.nsops = 1) :
    waiter.alter = true ↔ waiter.first.semOp < 0 := by
  have := (waits.single isSingle).2
  rw [waits.alter_iff, sops_eq_of_nsops isSingle]
  simp only [mem_singleton, exists_eq_left]
  omega

theorem Waits.unaltered (waits : waiter.Waits) (isFixed : waiter.alter = false) :
    ∀ sop ∈ waiter.sops, sop.semOp = 0 := by
  intro sop mem
  by_contra nonzero
  rw [waits.alter_iff.mpr ⟨sop, mem, nonzero⟩] at isFixed
  simp at isFixed

end Waiter

namespace SemArray

variable {sma next : SemArray} {waiter other : Waiter}

structure Linked (sma : SemArray) : Prop where
  nodup : sma.pending.Nodup
  simple_eq : ∀ index, sma.simple index = sma.pending.filter (Waiter.simpleOn index)
  complexCount_eq : sma.complexCount = (sma.pending.filter Waiter.isComplex).length
  order : sma.pending.Pairwise fun first second => first.alter = true → second.alter = true
  waits : ∀ waiter ∈ sma.pending, waiter.Waits
  nonneg : ∀ index, 0 ≤ sma.semval index
  short : sma.Short
  noBug : sma.bug = false

theorem Linked.of_same (linked : sma.Linked) (same : SameQueue sma next)
    (nonneg : ∀ index, 0 ≤ next.semval index) (short : next.Short) : next.Linked := by
  refine ⟨?_, ?_, ?_, ?_, ?_, nonneg, short, ?_⟩
  · rw [same.pending]
    exact linked.nodup
  · rw [same.simple, same.pending]
    exact linked.simple_eq
  · rw [same.complexCount, same.pending]
    exact linked.complexCount_eq
  · rw [same.pending]
    exact linked.order
  · rw [same.pending]
    exact linked.waits
  · rw [same.bug]
    exact linked.noBug

/-! ## Off the lists -/

theorem filter_erase_of_false {test : Waiter → Bool} (isFalse : test waiter = false)
    (waiters : List Waiter) : (waiters.erase waiter).filter test = waiters.filter test := by
  rw [← erase_filter, erase_of_not_mem]
  simp [isFalse]

theorem pending_unlinkQueue (sma : SemArray) (waiter : Waiter) :
    (sma.unlinkQueue waiter).pending = sma.pending.erase waiter := by
  unfold unlinkQueue
  split <;> rfl

theorem semval_unlinkQueue (sma : SemArray) (waiter : Waiter) :
    (sma.unlinkQueue waiter).semval = sma.semval := by
  unfold unlinkQueue
  split <;> rfl

theorem semadj_unlinkQueue (sma : SemArray) (waiter : Waiter) :
    (sma.unlinkQueue waiter).semadj = sma.semadj := by
  unfold unlinkQueue
  split <;> rfl

theorem Linked.simple_unlinkQueue (linked : sma.Linked) (waiter : Waiter) (index : ℕ) :
    (sma.unlinkQueue waiter).simple index =
      (sma.pending.erase waiter).filter (Waiter.simpleOn index) := by
  unfold unlinkQueue
  split
  · dsimp only
    rw [Function.update_apply]
    split
    · rename_i isIndex
      rw [isIndex, linked.simple_eq, erase_filter]
    · rename_i isOther
      rw [linked.simple_eq, filter_erase_of_false]
      simp [Waiter.simpleOn, Ne.symm isOther]
  rename_i isComplex
  dsimp only
  rw [linked.simple_eq, filter_erase_of_false]
  simp [Waiter.simpleOn, isComplex]

theorem mem_filter_isComplex (mem : waiter ∈ sma.pending) (isComplex : waiter.nsops ≠ 1) :
    waiter ∈ sma.pending.filter Waiter.isComplex := by
  have pos := waiter.nsops_pos
  rw [mem_filter]
  exact ⟨mem, by simp only [Waiter.isComplex, decide_eq_true_eq]; omega⟩

theorem Linked.unlinkQueue (linked : sma.Linked) (mem : waiter ∈ sma.pending) :
    (sma.unlinkQueue waiter).Linked := by
  have isPending := sma.pending_unlinkQueue waiter
  have sublist : (sma.pending.erase waiter).Sublist sma.pending := erase_sublist
  refine ⟨?_, ?_, ?_, ?_, ?_, ?_, ?_, ?_⟩
  · rw [isPending]
    exact linked.nodup.sublist sublist
  · intro index
    rw [isPending, linked.simple_unlinkQueue]
  · rw [isPending]
    have isCount := linked.complexCount_eq
    unfold SemArray.unlinkQueue
    split
    · rename_i isSingle
      rw [filter_erase_of_false (by simp [Waiter.isComplex, isSingle])]
      exact isCount
    rename_i isComplex
    have inFilter := mem_filter_isComplex mem isComplex
    have := length_pos_of_mem inFilter
    rw [← erase_filter, length_erase_of_mem inFilter]
    dsimp only
    omega
  · rw [isPending]
    exact linked.order.sublist sublist
  · rw [isPending]
    exact fun other inErase => linked.waits other (sublist.subset inErase)
  · rw [semval_unlinkQueue]
    exact linked.nonneg
  · intro undo index
    rw [semadj_unlinkQueue]
    exact linked.short undo index
  · unfold SemArray.unlinkQueue
    split <;> exact linked.noBug

theorem Linked.wakeUpPrepare (linked : sma.Linked) (waiter : Waiter) (result : Result) :
    (sma.wakeUpPrepare waiter result).Linked :=
  linked.of_same ⟨rfl, rfl, rfl, rfl⟩ linked.nonneg linked.short

/-! ## Onto the lists -/

theorem filter_place (test : Waiter → Bool) (waiter : Waiter) (waiters : List Waiter) :

    (place waiter waiters).filter test =
      if test waiter then place waiter (waiters.filter test) else waiters.filter test := by
  unfold place
  split <;> cases isTest : test waiter <;> simp [isTest]
variable {waiters : List Waiter}

theorem mem_place :
    other ∈ place waiter waiters ↔ other = waiter ∨ other ∈ waiters := by
  unfold place
  split
  · simp [or_comm]
  · simp

theorem nodup_place (nodup : waiters.Nodup) (fresh : waiter ∉ waiters) :
    (place waiter waiters).Nodup := by
  unfold place
  split
  · rw [nodup_append]
    refine ⟨nodup, pairwise_singleton _ _, ?_⟩
    intro first inWaiters second isWaiter
    rw [mem_singleton.mp isWaiter]
    rintro rfl
    exact fresh inWaiters
  · exact nodup_cons.mpr ⟨fresh, nodup⟩

theorem order_place
    (order : waiters.Pairwise fun first second => first.alter = true → second.alter = true) :
    (place waiter waiters).Pairwise fun first second =>
      first.alter = true → second.alter = true := by
  unfold place
  split
  · rename_i isAlter
    rw [pairwise_append]
    refine ⟨order, pairwise_singleton _ _, ?_⟩
    intro first _ second isWaiter _
    rw [mem_singleton.mp isWaiter]
    exact isAlter
  · rename_i isFixed
    exact pairwise_cons.mpr ⟨fun second _ isAlter => absurd isAlter isFixed, order⟩

theorem pending_enqueue (sma : SemArray) (waiter : Waiter) :
    (sma.enqueue waiter).pending = place waiter sma.pending := by
  unfold enqueue
  split <;> rfl

theorem Linked.simple_enqueue (linked : sma.Linked) (waiter : Waiter) (index : ℕ) :
    (sma.enqueue waiter).simple index =
      (place waiter sma.pending).filter (Waiter.simpleOn index) := by
  rw [filter_place]
  unfold enqueue
  split
  · rename_i isSingle
    dsimp only
    rw [Function.update_apply]
    by_cases isIndex : index = waiter.first.semNum
    · rw [if_pos isIndex, if_pos (by simp [Waiter.simpleOn, isSingle, isIndex]), isIndex,
        linked.simple_eq]
    · rw [if_neg isIndex, if_neg (by simp [Waiter.simpleOn, Ne.symm isIndex]), linked.simple_eq]
  · rename_i isComplex
    rw [if_neg (by simp [Waiter.simpleOn, isComplex])]
    exact linked.simple_eq index

theorem Linked.enqueue (linked : sma.Linked) (waits : waiter.Waits)
    (fresh : waiter ∉ sma.pending) : (sma.enqueue waiter).Linked := by
  have isPending := sma.pending_enqueue waiter
  refine ⟨?_, ?_, ?_, ?_, ?_, ?_, ?_, ?_⟩
  · rw [isPending]
    exact nodup_place linked.nodup fresh
  · intro index
    rw [isPending, linked.simple_enqueue]
  · rw [isPending, filter_place]
    have pos := waiter.nsops_pos
    have isCount := linked.complexCount_eq
    unfold SemArray.enqueue
    split
    · rename_i isSingle
      rw [if_neg (by simp [Waiter.isComplex, isSingle])]
      exact isCount
    rename_i isComplex
    rw [if_pos (by simp only [Waiter.isComplex, decide_eq_true_eq]; omega)]
    have isLength : (place waiter (sma.pending.filter Waiter.isComplex)).length =
        (sma.pending.filter Waiter.isComplex).length + 1 := by
      unfold place
      split <;> simp
    rw [isLength]
    dsimp only
    omega
  · rw [isPending]
    exact order_place linked.order
  · rw [isPending]
    intro other inPlace
    rcases mem_place.mp inPlace with rfl | inPending
    · exact waits
    · exact linked.waits other inPending
  · unfold SemArray.enqueue
    split <;> exact linked.nonneg
  · unfold SemArray.enqueue
    split <;> exact linked.short
  · unfold SemArray.enqueue
    split <;> exact linked.noBug

/-! ## The tests of `check_restart` -/

section

variable (linked : sma.Linked)
include linked

theorem Linked.mem_simple {index : ℕ} : waiter ∈ sma.simple index ↔
      waiter ∈ sma.pending ∧ waiter.nsops = 1 ∧ waiter.first.semNum = index := by
  rw [linked.simple_eq, mem_filter]
  simp [Waiter.simpleOn]

theorem Linked.nsops_of_complexCount (isZero : sma.complexCount = 0) (mem : waiter ∈ sma.pending) :
    waiter.nsops = 1 := by
  have isCount := linked.complexCount_eq
  by_contra isComplex
  have := length_pos_of_mem (mem_filter_isComplex mem isComplex)
  omega

theorem Linked.checkRestart_fst (waits : waiter.Waits) : (sma.checkRestart waiter).1 = sma := by
  have pos := waiter.nsops_pos
  unfold checkRestart
  dsimp only
  split
  · rfl
  rename_i isAlter
  split
  · rfl
  split
  · rfl
  rename_i notComplex
  have isSingle : waiter.nsops = 1 := by omega
  split
  · rfl
  rename_i head rest isSimple
  have inSimple : head ∈ sma.simple waiter.first.semNum := by
    rw [isSimple]
    exact mem_cons_self
  obtain ⟨_, headSingle, headNum⟩ := linked.mem_simple.mp inSimple
  split
  · have := (waits.alter_single isSingle).mp (by simpa using isAlter)
    have isBug : (sma.bug || decide (0 ≤ waiter.first.semOp)) = sma.bug := by
      rw [decide_eq_false (by omega), Bool.or_false]
    dsimp only
    rw [isBug]
  have isBug : (sma.bug || decide (head.nsops ≠ 1) ||
      decide (head.first.semNum ≠ waiter.first.semNum)) = sma.bug := by
    simp [headSingle, headNum]
  dsimp only
  rw [isBug]

/-- When the scan goes on after a request that altered the array, all that sleep are simple,
and those on the same semaphore do not wait for its new value. -/
theorem Linked.of_not_restart (isAlter : waiter.alter = true)
    (goesOn : (sma.checkRestart waiter).2 = false) :
    sma.complexCount = 0 ∧ waiter.nsops = 1 ∧ (sma.semval waiter.first.semNum = 0 →
        ∀ other ∈ sma.simple waiter.first.semNum, other.first.semOp < 0) := by
  have pos := waiter.nsops_pos
  unfold checkRestart at goesOn
  rw [if_neg (by simpa using isAlter)] at goesOn
  split at goesOn
  · simp at goesOn
  rename_i noComplex
  split at goesOn
  · simp at goesOn
  rename_i notComplex
  refine ⟨not_not.mp noComplex, by omega, ?_⟩
  intro isZero other inSimple
  split at goesOn
  · rename_i isEmpty
    rw [isEmpty] at inSimple
    simp at inSimple
  rename_i head rest isSimple
  rw [if_neg (by simpa using isZero)] at goesOn
  have headIn : head ∈ sma.simple waiter.first.semNum := by
    rw [isSimple]
    exact mem_cons_self
  obtain ⟨headPending, headSingle, _⟩ := linked.mem_simple.mp headIn
  obtain ⟨otherPending, otherSingle, _⟩ := linked.mem_simple.mp inSimple
  have headNonzero : head.first.semOp ≠ 0 := by simpa using goesOn
  have headAlter : head.alter = true := by
    have := ((linked.waits head headPending).single headSingle).2
    rw [(linked.waits head headPending).alter_single headSingle]
    omega
  have order : (sma.simple waiter.first.semNum).Pairwise
      fun first second => first.alter = true → second.alter = true := by
    rw [linked.simple_eq]
    exact linked.order.sublist filter_sublist
  rw [isSimple] at order inSimple
  refine ((linked.waits other otherPending).alter_single otherSingle).mp ?_
  rcases mem_cons.mp inSimple with rfl | inRest
  · exact headAlter
  · exact (pairwise_cons.mp order).1 other inRest headAlter

end

end SemArray

end StreakKernel.SysvSem
