import Mathlib.Algebra.BigOperators.Group.List.Basic
import Mathlib.Algebra.Ring.Int.Defs
import StreakKernel.Lib.Run
import StreakKernel.SysvSem.Attempt

/-!
# Undo values

The undo value of a semaphore is minus the sum of the operations with `SEM_UNDO` since it was last
cleared. Each operation is tested against the value from before the call, so that a call with
several operations on one semaphore may leave the range where none of them does alone.
-/

namespace StreakKernel.SysvSem

open List Function

def undoSum (sops : List Sembuf) (index : ℕ) : ℤ :=
  (sops.map fun sop => if sop.undo ∧ sop.semNum = index then sop.semOp else 0).sum

def InRange (value : ℤ) : Prop := -semvmx - 1 ≤ value ∧ value ≤ semvmx

theorem inRange_zero : InRange 0 := ⟨by decide, by decide⟩

/-- All operations of a call together keep the undo values in range, or one of them leaves it
alone, which the test finds. -/
def Tested (semadj : ℕ → ℤ) (sops : List Sembuf) : Prop :=
  (∀ index, InRange (semadj index - undoSum sops index)) ∨
    ∃ sop ∈ sops, sop.undo = true ∧ ¬InRange (semadj sop.semNum - sop.semOp)

/-- The operations as far as the values of the semaphores are concerned. -/
def withoutUndo (sops : List Sembuf) : List Sembuf := sops.map fun sop => { sop with undo := false }

section Sops

variable {semadj semval after : ℕ → ℤ} {sops : List Sembuf} {index : ℕ}

theorem inRange_of_attempt (isDone : attempt semadj sops semval = (.done, after)) :
    ∀ sop ∈ sops, sop.undo = true → InRange (semadj sop.semNum - sop.semOp) := by
  induction sops generalizing semval with
  | nil => exact fun _ never => absurd never not_mem_nil
  | cons sop rest ih =>
    refine forall_mem_cons.mpr ⟨fun isUndo => ?_, ih (attempt_cons_done isDone).2⟩
    by_contra outside
    have tested : semadj sop.semNum - sop.semOp < -semvmx - 1 ∨
        semvmx < semadj sop.semNum - sop.semOp := by
      unfold InRange at outside
      omega
    unfold attempt at isDone
    dsimp only at isDone
    split_ifs at isDone with isZero negative large undone
    · exact wouldBlock_ne_done sop (Prod.mk.inj isDone).1
    · exact wouldBlock_ne_done sop (Prod.mk.inj isDone).1
    · exact Result.noConfusion (Prod.mk.inj isDone).1
    · exact Result.noConfusion (Prod.mk.inj isDone).1
    · exact undone ⟨isUndo, tested⟩

theorem attempt_of_withoutUndo (fits : (attempt semadj (withoutUndo sops) semval).1 = .done) :
    (attempt semadj sops semval).1 = .done ∨ (attempt semadj sops semval).1 = .range := by
  induction sops generalizing semval with
  | nil => exact .inl rfl
  | cons sop rest ih =>
    rcases attempt_cons_done (Prod.ext fits rfl) with ⟨_, isRest⟩
    have restCases := ih (congrArg Prod.fst isRest)
    unfold withoutUndo attempt at fits
    rw [map_cons] at fits
    unfold attempt at fits ⊢
    dsimp only at fits ⊢
    split_ifs at fits ⊢ with isZero negative large undone
    · exact absurd fits (wouldBlock_ne_done _)
    · exact absurd fits (wouldBlock_ne_done _)
    · exact .inr rfl
    · split
      · exact .inl rfl
      · next failure _ notDone isFailure =>
        rw [isFailure] at restCases
        exact restCases

end Sops

namespace SemArray

theorem Short.semadj_foldr {sma : SemArray} (short : sma.Short) (undo pid : ℕ)
    (sops : List Sembuf) (other index : ℕ) :
    (sops.foldr (SemArray.note undo pid) sma).semadj other index =
      if other = undo then shortOf (sma.semadj undo index - undoSum sops index)
      else sma.semadj other index := by
  induction sops with
  | nil =>
    have isSum : undoSum [] index = 0 := rfl
    rw [isSum, sub_zero, shortOf_eq (short undo index).1 (short undo index).2]
    split_ifs with isUndo
    · rw [isUndo]
      rfl
    · rfl
  | cons sop rest ih =>
    have isSum : undoSum (sop :: rest) index =
        (if sop.undo ∧ sop.semNum = index then sop.semOp else 0) + undoSum rest index :=
      sum_cons
    rw [foldr_cons]
    generalize sops : rest.foldr (SemArray.note undo pid) sma = noted at *
    unfold SemArray.note
    dsimp only
    by_cases isUndo : other = undo
    · subst isUndo
      rw [if_pos rfl] at ih ⊢
      rw [isSum]
      by_cases isHere : sop.undo ∧ sop.semNum = index
      · rcases isHere with ⟨hasUndo, rfl⟩
        rw [if_pos hasUndo, if_pos ⟨hasUndo, rfl⟩, update_self, update_self, ih]
        unfold shortOf
        omega
      rw [if_neg isHere, zero_add, ← ih]
      split_ifs with hasUndo
      · rw [update_self, update_of_ne fun isIndex => isHere ⟨hasUndo, isIndex.symm⟩]
      · rfl
    · rw [if_neg isUndo] at ih ⊢
      rw [← ih]
      split_ifs
      · rw [update_of_ne isUndo]
      · rfl

end SemArray

/-- An array with the sums of the `SEM_UNDO` operations of each undo structure since its values
were last cleared. -/
structure Ledger where
  sma : SemArray
  sum : ℕ → ℕ → ℤ

/-- A call of `semop`, or anything else that clears undo values and sets values. -/
inductive Call where
  | semop (sops : List Sembuf) (undo pid : ℕ)
  | clear (semval : ℕ → ℤ) (cleared : ℕ → ℕ → Bool)

namespace Ledger

def init (nsems : ℕ) : Ledger := ⟨.newary nsems, fun _ _ => 0⟩

def step (ledger : Ledger) : Call → Ledger
  | .semop sops undo pid =>
    match ledger.sma.tryAtomicSemop sops undo pid with
    | (.done, sma) =>
      ⟨sma, fun other index => if other = undo then ledger.sum undo index + undoSum sops index
        else ledger.sum other index⟩
    | (_, sma) => ⟨sma, ledger.sum⟩
  | .clear semval cleared =>
    ⟨{ ledger.sma with
        semval := semval
        semadj := fun other index =>
          if cleared other index then 0 else ledger.sma.semadj other index },
      fun other index => if cleared other index then 0 else ledger.sum other index⟩

def Regular (ledger : Ledger) : Call → Prop
  | .semop sops undo _ => Tested (ledger.sma.semadj undo) sops
  | .clear _ _ => True

/-- The undo values are minus the sums, and they are in range. -/
def Exact (ledger : Ledger) : Prop :=
  ∀ undo index, ledger.sma.semadj undo index = -ledger.sum undo index ∧
    InRange (ledger.sma.semadj undo index)

/-- A call that would take an undo value out of the range fails and changes nothing. -/
def Refuses (ledger : Ledger) (sops : List Sembuf) (undo pid : ℕ) : Prop :=
  (∃ index, ¬InRange (-(ledger.sum undo index + undoSum sops index))) →
    (ledger.sma.tryAtomicSemop sops undo pid).1 ≠ .done ∧
      (ledger.sma.tryAtomicSemop sops undo pid).2 = ledger.sma ∧
      ((attempt (ledger.sma.semadj undo) (withoutUndo sops) ledger.sma.semval).1 = .done →
        (ledger.sma.tryAtomicSemop sops undo pid).1 = .range)

variable {ledger : Ledger} {sops : List Sembuf} {semval : ℕ → ℤ} {undo pid : ℕ}

theorem Tested.inRange (tested : Tested (ledger.sma.semadj undo) sops)
    (isDone : attempt (ledger.sma.semadj undo) sops ledger.sma.semval = (.done, semval))
    (index : ℕ) : InRange (ledger.sma.semadj undo index - undoSum sops index) := by
  rcases tested with together | ⟨sop, mem, isUndo, outside⟩
  · exact together index
  · exact absurd (inRange_of_attempt isDone sop mem isUndo) outside

theorem Exact.step (exact : ledger.Exact) {call : Call} (regular : ledger.Regular call) :
    (ledger.step call).Exact := by
  cases call with
  | semop sops undo pid =>
    unfold Ledger.step
    dsimp only
    rcases ledger.sma.tryAtomicSemop_cases sops undo pid with
      ⟨failure, fails, _, isFailure⟩ | ⟨semval, isDone, isResult⟩
    · rw [isFailure]
      cases failure with
      | done => exact absurd rfl fails
      | sleep => exact exact
      | again => exact exact
      | range => exact exact
    rw [isResult]
    intro other index
    have short : SemArray.Short { ledger.sma with semval := semval } :=
      fun other index => (exact other index).2
    have inRange := Tested.inRange regular isDone index
    dsimp only
    rw [short.semadj_foldr]
    split_ifs with isUndo
    · rw [shortOf_eq inRange.1 inRange.2]
      refine ⟨?_, inRange⟩
      rw [(exact undo index).1]
      omega
    · exact exact other index
  | clear semval cleared =>
    intro other index
    unfold Ledger.step
    dsimp only
    split_ifs
    · exact ⟨rfl, inRange_zero⟩
    · exact exact other index

theorem Exact.refuses (exact : ledger.Exact) (tested : Tested (ledger.sma.semadj undo) sops)
    (pid : ℕ) : ledger.Refuses sops undo pid := by
  rintro ⟨index, outside⟩
  rcases ledger.sma.tryAtomicSemop_cases sops undo pid with
    ⟨failure, fails, isAttempt, isFailure⟩ | ⟨semval, isDone, -⟩
  · rw [isFailure]
    refine ⟨fails, rfl, fun fits => ?_⟩
    rcases attempt_of_withoutUndo fits with isDone | isRange
    · exact absurd (isAttempt.symm.trans isDone) fails
    · exact isAttempt.symm.trans isRange
  · refine absurd ?_ outside
    have inRange := Tested.inRange tested isDone index
    rwa [(exact undo index).1, ← neg_add'] at inRange

/-- After any calls for which the test of the single operations is enough, the undo values are exact
and in range, and such a call that would leave the range is refused. -/
theorem undo_exact (nsems : ℕ) (calls : List Call)
    (regular : Run.Admits Ledger.step Ledger.Regular (init nsems) calls) :
    let ledger := Run.run Ledger.step (init nsems) calls
    ledger.Exact ∧ ∀ sops undo pid, Tested (ledger.sma.semadj undo) sops →
      ledger.Refuses sops undo pid := by
  have exact := Run.invariant_run Exact (fun _ _ exact regular => exact.step regular)
      (fun _ _ => ⟨rfl, inRange_zero⟩) regular
  exact ⟨exact, fun sops undo pid tested => exact.refuses tested pid⟩

/-- Two operations with `SEM_UNDO` on one semaphore in a call, and then one that is refused. -/
theorem undo_exact_pair :
    let calls := [Call.semop [⟨0, 20000, true, false⟩, ⟨0, 7, true, false⟩] 5 100,
      Call.semop [⟨0, -3, true, false⟩, ⟨0, 20000, true, false⟩] 5 100]
    let ledger := Run.run Ledger.step (init 2) calls
    ledger.Exact ∧ ∀ sops undo pid, Tested (ledger.sma.semadj undo) sops →
      ledger.Refuses sops undo pid := by
  refine undo_exact 2 _ ⟨.inl fun index => ?_, .inr ⟨_, .tail _ (.head _), rfl, ?_⟩, trivial⟩
  · by_cases isZero : 0 = index
    · subst isZero
      exact ⟨by decide, by decide⟩
    · have isSum : undoSum [⟨0, 20000, true, false⟩, ⟨0, 7, true, false⟩] index = 0 := by
        simp [undoSum, isZero]
      rw [isSum]
      exact inRange_zero
  · exact fun inRange => absurd inRange.1 (by decide)

/-- Two operations of one call that add 30000 with `SEM_UNDO` to a semaphore. Each passes the test,
the call succeeds, and the undo value is 5536 and not -60000. -/
theorem undo_overflows :
    let call := [Sembuf.mk 0 30000 true false, ⟨0, -30000, false, false⟩, ⟨0, 30000, true, false⟩]
    let ledger := (init 1).step (.semop call 5 100)
    ((init 1).sma.tryAtomicSemop call 5 100).1 = .done ∧
      ledger.sum 5 0 = 60000 ∧ ledger.sma.semadj 5 0 = 5536 ∧ ¬ledger.Exact := by
  refine ⟨by decide, by decide, by decide, fun exact => ?_⟩
  exact absurd (exact 5 0).1 (by decide)

end Ledger

end StreakKernel.SysvSem
