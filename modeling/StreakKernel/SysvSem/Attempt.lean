import StreakKernel.SysvSem.Basic

/-!
# What an attempt does

An attempt that fails leaves the array as it was. One that succeeds changes the values of
the semaphores that it names, and a request that alters nothing changes no value.
-/

namespace StreakKernel.SysvSem

open List Function

section Attempt

variable {semadj : ℕ → ℤ} {sop : Sembuf} {rest sops : List Sembuf} {semval after : ℕ → ℤ}

theorem wouldBlock_ne_done (sop : Sembuf) : wouldBlock sop ≠ .done := by
  unfold wouldBlock
  split <;> simp

theorem attempt_cons_done (isDone : attempt semadj (sop :: rest) semval = (.done, after)) :
    0 ≤ semval sop.semNum + sop.semOp ∧
      attempt semadj rest
        (update semval sop.semNum (semval sop.semNum + sop.semOp)) = (.done, after) := by
  unfold attempt at isDone
  dsimp only at isDone
  split_ifs at isDone with isZero negative large undone
  · exact absurd (Prod.ext_iff.mp isDone).1 (wouldBlock_ne_done sop)
  · exact absurd (Prod.ext_iff.mp isDone).1 (wouldBlock_ne_done sop)
  · simp at isDone
  · simp at isDone
  · refine ⟨by omega, ?_⟩
    split at isDone
    · rename_i isRest
      rw [isRest, isDone]
    · rename_i failure _ isFailure _
      exact absurd (Prod.ext_iff.mp isDone).1 isFailure

theorem attempt_restores (fails : (attempt semadj sops semval).1 ≠ .done) :
    (attempt semadj sops semval).2 = semval := by
  induction sops generalizing semval with
  | nil => exact absurd rfl fails
  | cons sop rest ih =>
    unfold attempt at fails ⊢
    dsimp only at fails ⊢
    split_ifs at fails ⊢
    · rfl
    · rfl
    · rfl
    · rfl
    · split at fails
      · exact absurd rfl fails
      rename_i failure left isFailure isRest
      have isLeft := @ih (update semval sop.semNum (semval sop.semNum + sop.semOp))
        (by rw [isRest]; exact isFailure)
      rw [isRest] at isLeft
      dsimp only at isLeft ⊢
      rw [isLeft]
      simp

section

variable (isDone : attempt semadj sops semval = (.done, after))
include isDone

theorem attempt_nonneg (nonneg : ∀ index, 0 ≤ semval index) (index : ℕ) : 0 ≤ after index := by
  induction sops generalizing semval with
  | nil =>
    obtain ⟨_, rfl⟩ := Prod.mk.inj isDone
    exact nonneg index
  | cons sop rest ih =>
    obtain ⟨enough, isRest⟩ := attempt_cons_done isDone
    refine ih isRest fun other => ?_
    rw [update_apply]
    split
    · exact enough
    · exact nonneg other

theorem attempt_untouched {index : ℕ}
    (untouched : ∀ sop ∈ sops, sop.semNum = index → sop.semOp = 0) :
    after index = semval index := by
  induction sops generalizing semval with
  | nil =>
    obtain ⟨_, rfl⟩ := Prod.mk.inj isDone
    rfl
  | cons sop rest ih =>
    obtain ⟨_, isRest⟩ := attempt_cons_done isDone
    rw [ih isRest fun other mem => untouched other (mem_cons_of_mem _ mem), update_apply]
    split
    · rename_i isIndex
      rw [untouched sop mem_cons_self isIndex.symm, isIndex, Int.add_zero]
    · rfl

theorem attempt_le {index : ℕ} (decreased : ∀ sop ∈ sops, sop.semNum = index → sop.semOp ≤ 0) :
    after index ≤ semval index := by
  induction sops generalizing semval with
  | nil =>
    obtain ⟨_, rfl⟩ := Prod.mk.inj isDone
    exact le_refl _
  | cons sop rest ih =>
    obtain ⟨_, isRest⟩ := attempt_cons_done isDone
    refine Int.le_trans (ih isRest fun other mem =>
      decreased other (mem_cons_of_mem _ mem)) ?_
    rw [update_apply]
    split
    · rename_i isIndex
      have := decreased sop mem_cons_self isIndex.symm
      rw [isIndex]
      omega
    · exact le_refl _

end

theorem attempt_single_sleep_iff (waits : sop.nowait = false) :
    (attempt semadj [sop] semval).1 = .sleep ↔
      sop.semOp = 0 ∧ semval sop.semNum ≠ 0 ∨ semval sop.semNum + sop.semOp < 0 := by
  unfold attempt
  dsimp only
  split_ifs <;> simp_all [wouldBlock, attempt]

theorem nowait_of_attempt_single (isSleep : (attempt semadj [sop] semval).1 = .sleep) :
    sop.nowait = false := by
  unfold attempt at isSleep
  dsimp only at isSleep
  split_ifs at isSleep <;> simp_all [wouldBlock, attempt]

end Attempt

/-! ## The array -/

theorem shortOf_bounds (value : ℤ) : -32768 ≤ shortOf value ∧ shortOf value ≤ 32767 := by
  unfold shortOf
  omega

theorem shortOf_eq {value : ℤ} (lower : -32768 ≤ value) (upper : value ≤ 32767) :
    shortOf value = value := by
  unfold shortOf
  omega

namespace SemArray

variable {sma next : SemArray} {sops : List Sembuf} {undo pid : ℕ}

def Short (sma : SemArray) : Prop :=
  ∀ undo index, -32768 ≤ sma.semadj undo index ∧ sma.semadj undo index ≤ 32767

structure SameQueue (before after : SemArray) : Prop where
  pending : after.pending = before.pending
  simple : after.simple = before.simple
  complexCount : after.complexCount = before.complexCount
  bug : after.bug = before.bug

theorem foldr_note (sma : SemArray) (undo pid : ℕ) (sops : List Sembuf) :
    (sops.foldr (note undo pid) sma).semval = sma.semval ∧
      SameQueue sma (sops.foldr (note undo pid) sma) := by
  induction sops with
  | nil => exact ⟨rfl, rfl, rfl, rfl, rfl⟩
  | cons sop rest ih =>
    obtain ⟨semval, same⟩ := ih
    exact ⟨semval, same.pending, same.simple, same.complexCount, same.bug⟩

theorem Short.note (short : sma.Short) (undo pid : ℕ) (sop : Sembuf) :
    (note undo pid sop sma).Short := by
  intro other index
  unfold SemArray.note
  dsimp only
  split
  · rw [update_apply]
    split
    · rw [update_apply]
      split
      · exact shortOf_bounds _
      · exact short undo index
    · exact short other index
  · exact short other index

theorem Short.foldr_note (short : sma.Short) (undo pid : ℕ) (sops : List Sembuf) :
    (sops.foldr (SemArray.note undo pid) sma).Short := by
  induction sops with
  | nil => exact short
  | cons sop rest ih => exact ih.note undo pid sop

theorem Short.semadj_note (short : sma.Short) (undo pid : ℕ) {sop : Sembuf}
    (unaltered : sop.semOp = 0) : (SemArray.note undo pid sop sma).semadj = sma.semadj := by
  unfold SemArray.note
  dsimp only
  split
  · rw [unaltered, Int.sub_zero, shortOf_eq (short undo sop.semNum).1 (short undo sop.semNum).2]
    simp
  · rfl

theorem Short.semadj_foldr_note (short : sma.Short) (undo pid : ℕ) {sops : List Sembuf}
    (unaltered : ∀ sop ∈ sops, sop.semOp = 0) :
    (sops.foldr (SemArray.note undo pid) sma).semadj = sma.semadj := by
  induction sops with
  | nil => rfl
  | cons sop rest ih =>
    rw [foldr_cons, (short.foldr_note undo pid rest).semadj_note undo pid
      (unaltered sop mem_cons_self)]
    exact ih fun other mem => unaltered other (mem_cons_of_mem _ mem)

theorem tryAtomicSemop_cases (sma : SemArray) (sops : List Sembuf) (undo pid : ℕ) :
    (∃ failure, failure ≠ .done ∧ (attempt (sma.semadj undo) sops sma.semval).1 = failure ∧
        sma.tryAtomicSemop sops undo pid = (failure, sma)) ∨
      ∃ semval, attempt (sma.semadj undo) sops sma.semval = (.done, semval) ∧
        sma.tryAtomicSemop sops undo pid =
          (.done, sops.foldr (note undo pid) { sma with semval := semval }) := by
  have restores := @attempt_restores (sma.semadj undo) sops sma.semval
  unfold tryAtomicSemop
  split
  · rename_i semval isDone
    exact .inr ⟨semval, isDone, rfl⟩
  rename_i failure semval isFailure isResult
  rw [isResult] at restores
  dsimp only at restores
  rw [isResult, restores isFailure]
  exact .inl ⟨failure, isFailure, rfl, rfl⟩

end SemArray

end StreakKernel.SysvSem
