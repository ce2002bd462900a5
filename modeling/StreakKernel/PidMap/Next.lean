import Mathlib.Order.Bounds.Defs
import StreakKernel.Lib.Word
import StreakKernel.PidMap.Search

/-!
# The next id in use

`next_pidmap` of `kernel/pid.c`, with which the directory of the processes is read. The caller
passes any `int`.
-/

namespace StreakKernel.PidMap

open Word

/-- The loop of `next_pidmap`, with `rest` pages to go. -/
def nextPages (layout : Layout) (ns : PidNamespace) : ℕ → ℕ → ℕ → Option ℕ
  | 0, _, _ => none
  | rest + 1, index, offset =>
    match (ns.pidmap index).page with
    | none => nextPages layout ns rest (index + 1) 0
    | some page =>
      let found := Bitmap.nextZero (fun bit => !page bit) (layout.bitsPerPage - offset) offset
      if found < layout.bitsPerPage then some (mkPid layout index found)
      else nextPages layout ns rest (index + 1) 0

/-- `BITS_PER_PAGE` is an `unsigned long`, and so is the index of the first page. -/
def nextPidmap (layout : Layout) (ns : PidNamespace) (last : Word.S32) : Option ℕ :=
  let pid := ofSigned (last + 1)
  let index := pid / layout.bitsPerPage
  nextPages layout ns (layout.pidmapEntries - index) index (pid % layout.bitsPerPage)

def idsAfter (layout : Layout) (ns : PidNamespace) (last : ℤ) : Set ℕ :=
  {pid | last < pid ∧ pid < mkPid layout layout.pidmapEntries 0 ∧ ns.InUse layout pid}

def LeastOf (ids : Set ℕ) : Option ℕ → Prop
  | some pid => IsLeast ids pid
  | none => ids = ∅

variable {layout : Layout} {ns other : PidNamespace} {index offset rest pid : ℕ}

theorem exists_bit (after : mkPid layout index offset ≤ pid)
    (before : pid < mkPid layout (index + 1) 0) (inUse : ns.InUse layout pid) :
    ∃ pos, offset ≤ pos ∧ pos < layout.bitsPerPage ∧ (ns.pidmap index).bits pos = true ∧
      pid = mkPid layout index pos := by
  rcases exists_offset ((Nat.le_add_right _ offset).trans after) before with ⟨pos, lt, rfl⟩
  exact ⟨pos, Nat.le_of_add_le_add_left after, lt, (inUse_mkPid lt).mp inUse, rfl⟩

theorem idsAfter_skip (le : offset ≤ layout.bitsPerPage)
    (clear : ∀ pos, offset ≤ pos → (ns.pidmap index).bits pos = true → layout.bitsPerPage ≤ pos) :
    idsAfter layout ns (mkPid layout index offset - 1) =
      idsAfter layout ns (mkPid layout (index + 1) 0 - 1) := by
  ext pid
  have startLe : mkPid layout index offset ≤ mkPid layout (index + 1) 0 := by
    rw [mkPid_succ]
    exact Nat.add_le_add_left le _
  refine and_congr_left ?_
  rintro ⟨_, inUse⟩
  refine ⟨fun after => ?_, by omega⟩
  by_contra before
  have starts : mkPid layout index offset ≤ pid := by omega
  rcases exists_bit starts (by omega) inUse with ⟨pos, posLe, lt, isSet, _⟩
  exact absurd (clear pos posLe isSet) (not_le.mpr lt)

theorem nextPages_least (le : offset ≤ layout.bitsPerPage)
    (isRest : rest = layout.pidmapEntries - index) :
    LeastOf (idsAfter layout ns (mkPid layout index offset - 1))
      (nextPages layout ns rest index offset) := by
  fun_induction nextPages layout ns rest index offset with
  | case1 index offset =>
    refine Set.eq_empty_of_forall_notMem ?_
    rintro pid ⟨after, before, _⟩
    have stopLe := Nat.mul_le_mul_right layout.bitsPerPage (Nat.sub_eq_zero_iff_le.mp isRest.symm)
    unfold mkPid at after before
    omega
  | case2 rest index offset isPage ih =>
    rw [idsAfter_skip le (by simp [Pidmap.bits, isPage])]
    exact ih (Nat.zero_le _) (by omega)
  | case3 rest index offset page isPage found lt =>
    have isSet := Bitmap.clear_nextZero (show found < offset + (layout.bitsPerPage - offset) by
      omega)
    have startLe : offset ≤ found := Bitmap.le_nextZero _ _
    have stopLe := Nat.mul_le_mul_right layout.bitsPerPage
      (show index + 1 ≤ layout.pidmapEntries by omega)
    rw [Nat.succ_mul] at stopLe
    refine ⟨⟨?_, ?_, ?_⟩, ?_⟩
    · unfold mkPid
      omega
    · unfold mkPid
      omega
    · rw [inUse_mkPid lt]
      simpa [Pidmap.bits, isPage] using isSet
    · rintro pid ⟨after, _, inUse⟩
      by_contra before
      have ends : pid < mkPid layout (index + 1) 0 := by
        rw [mkPid_succ]
        unfold mkPid at before ⊢
        omega
      have starts : mkPid layout index offset ≤ pid := by omega
      rcases exists_bit starts ends inUse with ⟨pos, posLe, _, isUsed, rfl⟩
      have isClear := Bitmap.set_of_lt_nextZero posLe (Nat.lt_of_add_lt_add_left (not_le.mp before))
      simp_all [Pidmap.bits]
  | case4 rest index offset page isPage found notLt ih =>
    rw [idsAfter_skip le fun pos after isSet => ?_]
    · exact ih (Nat.zero_le _) (by omega)
    · by_contra before
      have isClear := Bitmap.set_of_lt_nextZero after
        ((not_le.mp before).trans_le (not_lt.mp notLt))
      simp_all [Pidmap.bits]

theorem nextPages_congr (isRest : rest = layout.pidmapEntries - index)
    (same : ∀ index < layout.pidmapEntries, (ns.pidmap index).page = (other.pidmap index).page) :
    nextPages layout ns rest index offset = nextPages layout other rest index offset := by
  induction rest generalizing index offset with
  | zero => rfl
  | succ rest ih =>
    rw [nextPages, nextPages, same index (by omega), @ih (index + 1) 0 (by omega)]

/-- Only the pages of the map decide, and the answer is the least id after `last`. A number below
-1 is taken for one past the last page. -/
theorem nextPidmap_least (ns : PidNamespace) (last : Word.S32) :
    (∀ other : PidNamespace, (∀ index < Layout.arm.pidmapEntries,
        (ns.pidmap index).page = (other.pidmap index).page) →
      nextPidmap .arm ns last = nextPidmap .arm other last) ∧
    if -1 ≤ last.1 then LeastOf (idsAfter .arm ns last) (nextPidmap .arm ns last)
    else nextPidmap .arm ns last = none := by
  refine ⟨fun other same => nextPages_congr rfl same, ?_⟩
  rcases last with ⟨last, low, high⟩
  split_ifs with natural
  · have isLast : (ofSigned (last + 1) : ℤ) - 1 = last := by
      unfold ofSigned
      simp only at natural
      omega
    have isLeast : LeastOf (idsAfter .arm ns (ofSigned (last + 1) - 1))
        (nextPidmap .arm ns ⟨last, low, high⟩) := by
      rw [← @mkPid_div_mod .arm (ofSigned (last + 1))]
      exact nextPages_least (Nat.mod_lt _ Layout.arm.bitsPerPage_pos).le rfl
    rwa [isLast] at isLeast
  · have isPast : 1 - ofSigned (last + 1) / 32768 = 0 := by
      unfold ofSigned
      simp only at natural
      omega
    change nextPages .arm ns (1 - ofSigned (last + 1) / 32768) _ _ = none
    rw [isPast]
    rfl

def oneId : PidNamespace := ⟨fun _ => ⟨32767, some fun bit => bit == 1⟩, 1⟩

theorem nextPidmap_misses : nextPidmap .arm oneId ⟨-2, by decide⟩ = none ∧ oneId.InUse .arm 1 := by
  decide +kernel

end StreakKernel.PidMap
