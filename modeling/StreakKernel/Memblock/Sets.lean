import StreakKernel.Lib.Run
import StreakKernel.Memblock.Basic

/-!
# The tables are sets

The regions of a table are the addresses that the calls have added and not removed, as
long as no range is added to a table that has lost its last region: such a table takes
what its first places still hold for regions.
-/

namespace StreakKernel.Memblock

open Option Function Word Segment Set
open Segment (points)

theorem add64_eq {left right : ℕ} (fits : left + right < 18446744073709551616) :
    add64 left right = left + right :=
  Nat.mod_eq_of_lt fits

theorem sub64_eq {left right : ℕ} (le : right ≤ left) (fits : left < 18446744073709551616) :
    sub64 left right = left - right := by
  unfold sub64
  omega

theorem addrsAdjacent_eq {base1 size1 base2 size2 : ℕ}
    (first : base1 + size1 < 18446744073709551616) (second : base2 + size2 < 18446744073709551616) :
    addrsAdjacent base1 size1 base2 size2 =
      if base2 = base1 + size1 then 1 else if base1 = base2 + size2 then -1 else 0 := by
  rw [addrsAdjacent, add64_eq first, add64_eq second]

namespace Table

structure Tidy (table : Table) : Prop where
  count : table.cnt ≤ maxRegions
  separated : Separated table.cnt table.region
  positive : ∀ i < table.cnt, 0 < (table.region i).size
  small : ∀ i < table.cnt, (table.region i).stop < 18446744073709551616

section Loops

variable {table : Table} {region : ℕ → Segment} {base size i rest r : ℕ}

theorem shiftDown_spec (inside : i + rest ≤ maxRegions) :
    ∃ shifted, shiftDown region i rest = some shifted ∧ ∀ k,
      shifted k = if i ≤ k ∧ k < i + rest then region (k + 1) else region k := by
  induction rest generalizing i region with
  | zero =>
    refine ⟨region, rfl, ?_⟩
    intro k
    rw [if_neg (by omega)]
  | succ rest ih =>
    rcases @ih (Function.update region i (region (i + 1))) (i + 1) (by omega) with
      ⟨shifted, isShifted, agrees⟩
    refine ⟨shifted, ?_, ?_⟩
    · rw [shiftDown, if_pos (by omega), isShifted]
    intro k
    rw [agrees k]
    by_cases isFirst : k = i
    · subst isFirst
      rw [if_neg (by omega : ¬ (k + 1 ≤ k ∧ k < k + 1 + rest)),
        if_pos (by omega : k ≤ k ∧ k < k + (rest + 1)), update_self]
    split_ifs with after within within
    · rw [update_of_ne (by omega)]
    · omega
    · omega
    · rw [update_of_ne isFirst]

theorem removeRegion_spec (count : table.cnt ≤ maxRegions) (bound : r < table.cnt) :
    ∃ region, table.removeRegion r = some ⟨table.cnt - 1, region⟩ ∧
      ∀ k < table.cnt - 1, region k = removeAt r table.region k := by
  unfold maxRegions at count
  have isCount : sub table.cnt 1 = table.cnt - 1 := sub_eq (by omega) (by omega)
  have inside : r + (table.cnt - 1 - r) ≤ maxRegions := by
    unfold maxRegions
    omega
  rcases @shiftDown_spec table.region r (table.cnt - 1 - r) inside with
    ⟨shifted, isShifted, agrees⟩
  refine ⟨shifted, ?_, ?_⟩
  · rw [Table.removeRegion, isCount, isShifted, map_some]
  intro k within
  rw [agrees k, removeAt]
  split_ifs with after before before
  · omega
  · rfl
  · rfl
  · omega

theorem Tidy.of (count : table.cnt ≤ maxRegions) (separated : Separated table.cnt table.region)
    (proper : ∀ i < table.cnt, 0 < (table.region i).size ∧
      (table.region i).stop < 18446744073709551616) : table.Tidy :=
  ⟨count, separated, fun i bound => (proper i bound).1, fun i bound => (proper i bound).2⟩

section

variable (tidy : table.Tidy)
include tidy

theorem Tidy.proper (bound : i < table.cnt) :
    0 < (table.region i).size ∧ (table.region i).stop < 18446744073709551616 :=
  ⟨tidy.positive i bound, tidy.small i bound⟩

theorem Tidy.congr {region : ℕ → Segment} (agrees : ∀ k < table.cnt, region k = table.region k) :
    Tidy ⟨table.cnt, region⟩ := by
  refine .of tidy.count (tidy.separated.congr agrees) ?_
  intro k within
  simp only [agrees k within]
  exact tidy.proper within

theorem Tidy.removeAt (r : ℕ) : Tidy ⟨table.cnt - 1, Segment.removeAt r table.region⟩ := by
  refine .of ((Nat.sub_le _ _).trans tidy.count) tidy.separated.removeAt ?_
  intro k within
  simp only [Segment.removeAt] at within ⊢
  split_ifs with before
  all_goals exact tidy.proper (by omega)

theorem Tidy.removeRegion (bound : r < table.cnt) :
    ∃ after, table.removeRegion r = some after ∧ after.Tidy ∧ covered after.cnt after.region =
        covered table.cnt table.region \ (table.region r).points := by
  rcases removeRegion_spec tidy.count bound with ⟨region, isRemoved, agrees⟩
  refine ⟨_, isRemoved, (tidy.removeAt r).congr agrees, ?_⟩
  rw [covered_congr agrees, covered_removeAt tidy.separated bound]

end

/-- The last loop opens a gap at some place `p`. If that is the first place, it stays as
it was. -/
theorem shiftUp_spec (n : ℕ) (region : ℕ → Segment) :
    ∃ p ≤ n, (∀ j, p ≤ j → j < n → base < (region j).base) ∧
      (0 < p → (region (p - 1)).base ≤ base) ∧
      ∀ k, shiftUp base size n region k =
        if k < p then region k
        else if k = p then if p = 0 then region 0 else ⟨base, size⟩
        else if k ≤ n then region (k - 1) else region k := by
  induction n generalizing region with
  | zero =>
    refine ⟨0, le_rfl, ?_, ?_, ?_⟩
    · intro j _ within
      omega
    · intro positive
      omega
    intro k
    simp only [shiftUp]
    split_ifs with before isFirst within
    · rfl
    · rw [isFirst]
    · omega
    · rfl
  | succ n ih =>
    by_cases above : base < (region n).base
    · rcases ih (Function.update region (n + 1) (region n)) with
        ⟨p, within, allAbove, below, agrees⟩
      refine ⟨p, by omega, ?_, ?_, ?_⟩
      · intro j after before
        by_cases isLast : j = n
        · rw [isLast]
          exact above
        · have := allAbove j after (by omega)
          rwa [update_of_ne (by omega)] at this
      · intro positive
        have := below positive
        rwa [update_of_ne (by omega)] at this
      intro k
      rw [shiftUp, if_pos above, agrees k]
      by_cases isTop : k = n + 1
      · subst isTop
        rw [if_neg (by omega), if_neg (by omega), if_neg (by omega), if_neg (by omega),
          if_neg (by omega), if_pos le_rfl, update_self, Nat.add_sub_cancel]
      rw [update_of_ne isTop, update_of_ne (by omega : 0 ≠ n + 1)]
      split_ifs with before same isFirst inner outer outer
      · rfl
      · rfl
      · rfl
      · rw [update_of_ne (by omega)]
      · omega
      · omega
      · rfl
    · refine ⟨n + 1, le_rfl, ?_, ?_, ?_⟩
      · intro j after before
        omega
      · intro _
        rw [Nat.add_sub_cancel]
        exact not_lt.mp above
      intro k
      rw [shiftUp, if_neg above]
      by_cases isTop : k = n + 1
      · subst isTop
        rw [update_self, if_neg (lt_irrefl _), if_pos rfl, if_neg (by omega)]
      rw [update_of_ne isTop]
      split_ifs with before within
      · rfl
      · omega
      · rfl

theorem insertSorted_spec (separated : Separated table.cnt table.region)
    (first : table.cnt = 0 → base < (table.region 0).base) :
    ∃ p ≤ table.cnt, (∀ j < p, (table.region j).base ≤ base) ∧
      (∀ j, p ≤ j → j < table.cnt → base < (table.region j).base) ∧
      ∀ k < table.cnt + 1,
        (table.insertSorted base size).region k = insertAt p ⟨base, size⟩ table.region k := by
  rcases @shiftUp_spec base size table.cnt table.region with ⟨p, within, above, last, agrees⟩
  have ordered : ∀ j < p, (table.region j).base ≤ base := by
    intro j before
    have lastBelow := last (by omega)
    by_cases isLast : j = p - 1
    · rw [isLast]
      exact lastBelow
    · have := separated j (p - 1) (by omega) (by omega)
      unfold stop at this
      omega
  refine ⟨p, within, ordered, above, ?_⟩
  intro k inTable
  simp only [insertSorted, insertAt]
  have isFirst := agrees 0
  by_cases atFront : p = 0
  · subst atFront
    rw [if_neg (lt_irrefl 0), if_pos rfl, if_pos rfl] at isFirst
    have front : base < (table.region 0).base := by
      by_cases isEmpty : table.cnt = 0
      · exact first isEmpty
      · exact above 0 le_rfl (by omega)
    rw [isFirst, if_pos front]
    by_cases isZero : k = 0
    · rw [isZero, update_self, if_neg (lt_irrefl 0), if_pos rfl]
    · rw [update_of_ne isZero, agrees k, if_neg (by omega), if_neg isZero,
        if_pos (by omega), if_neg (by omega), if_neg isZero]
  · rw [if_pos (by omega)] at isFirst
    rw [isFirst, if_neg (not_lt.mpr (ordered 0 (by omega))), agrees k]
    split_ifs with before same after
    · rfl
    · rfl
    · rfl
    · omega

def adjacentAt (table : Table) (base size place : ℕ) : ℤ :=
  addrsAdjacent base size (table.region place).base (table.region place).size

/-- The first loop ends at the end of the table, at the same region, or at the first region
that is adjacent. -/
theorem tryCoalesce_cases (table : Table) (base size i rest : ℕ) :
    (table.tryCoalesce base size i rest = .exhausted ∧
      ∀ j, i ≤ j → j < i + rest → table.adjacentAt base size j = 0) ∨
    (∃ j < i + rest, table.region j = ⟨base, size⟩) ∨
    ∃ j < i + rest, (∀ k, i ≤ k → k < j → table.adjacentAt base size k = 0) ∧
      ((0 < table.adjacentAt base size j ∧ table.tryCoalesce base size i rest =
          .extended j ⟨sub64 (table.region j).base size, add64 (table.region j).size size⟩) ∨
        (table.adjacentAt base size j < 0 ∧ table.tryCoalesce base size i rest =
          .extended j ⟨(table.region j).base, add64 (table.region j).size size⟩)) := by
  induction rest generalizing i with
  | zero =>
    refine .inl ⟨rfl, ?_⟩
    intro j after before
    omega
  | succ rest ih =>
    by_cases same : (table.region i).base = base ∧ (table.region i).size = size
    · refine .inr (.inl ⟨i, by omega, ?_⟩)
      rw [← same.1, ← same.2]
    by_cases isBefore : 0 < table.adjacentAt base size i
    · refine .inr (.inr ⟨i, by omega, fun k after before => by omega, .inl ⟨isBefore, ?_⟩⟩)
      unfold adjacentAt at isBefore
      simp [tryCoalesce, if_neg same, if_pos isBefore]
    by_cases isAfter : table.adjacentAt base size i < 0
    · refine .inr (.inr ⟨i, by omega, fun k after before => by omega,
        .inr ⟨isAfter, ?_⟩⟩)
      unfold adjacentAt at isBefore isAfter
      simp [tryCoalesce, if_neg same, if_neg isBefore, if_pos isAfter]
    have isApart : table.adjacentAt base size i = 0 := by omega
    have next : table.tryCoalesce base size i (rest + 1) =
        table.tryCoalesce base size (i + 1) rest := by
      unfold adjacentAt at isBefore isAfter
      simp [tryCoalesce, if_neg same, if_neg isBefore, if_neg isAfter]
    rw [next]
    have extend : ∀ {j}, (∀ k, i + 1 ≤ k → k < j → table.adjacentAt base size k = 0) →
        ∀ k, i ≤ k → k < j → table.adjacentAt base size k = 0 := by
      intro j apart k after before
      by_cases isFirst : k = i
      · rw [isFirst]
        exact isApart
      · exact apart k (by omega) before
    rcases ih (i + 1) with ⟨ended, apart⟩ | ⟨j, bound, found⟩ | ⟨j, bound, apart, found⟩
    · refine .inl ⟨ended, extend ?_⟩
      intro k after before
      exact apart k after (by omega)
    · exact .inr (.inl ⟨j, by omega, found⟩)
    · exact .inr (.inr ⟨j, by omega, extend apart, found⟩)

end Loops

/-! ## Adding a range -/

/-- What the callers of `memblock_add` and `memblock_reserve` ensure: no wrap, a range not in the
table yet, and room for it. -/
structure Accepts (table : Table) (base size : ℕ) : Prop where
  nonempty : 0 < size
  small : base + size < 18446744073709551616
  fresh : Disjoint (covered table.cnt table.region) (points ⟨base, size⟩)
  room : table.cnt < maxRegions ∨ ∃ i < table.cnt, table.adjacentAt base size i ≠ 0

/-- The first two places of an empty table do not look adjacent, and the range lies before the
first of them. -/
def Refillable (table : Table) (base : ℕ) : Prop :=
  table.cnt = 0 → table.regionsAdjacent 0 1 = 0 ∧ base < (table.region 0).base

def Yields (result : Option (Table × ℤ)) (set : Set ℕ) : Prop :=
  ∃ after code, result = some (after, code) ∧ after.Tidy ∧ covered after.cnt after.region = set

section Add

variable {table : Table} {base size i j : ℕ}

theorem Tidy.apart (tidy : table.Tidy) (accepts : table.Accepts base size) (bound : i < table.cnt) :
    (table.region i).stop ≤ base ∨ base + size ≤ (table.region i).base :=
  apart_of_disjoint (tidy.positive i bound) accepts.nonempty
    (accepts.fresh.mono_left (points_subset_covered bound))

theorem Tidy.adjacentAt_eq (tidy : table.Tidy) (small : base + size < 18446744073709551616)
    (bound : i < table.cnt) : table.adjacentAt base size i =
      if (table.region i).base = base + size then 1
      else if base = (table.region i).stop then -1 else 0 :=
  addrsAdjacent_eq small (tidy.small i bound)

theorem Tidy.update {new : Segment} (tidy : table.Tidy) (positive : 0 < new.size)
    (small : new.stop < 18446744073709551616)
    (below : ∀ left, left < j → (table.region left).stop < new.base)
    (above : ∀ right, j < right → right < table.cnt → new.stop < (table.region right).base) :
    (table.put j new).Tidy := by
  refine .of tidy.count (tidy.separated.update below above) ?_
  intro i bound
  by_cases isNew : i = j
  · subst isNew
    rw [put_region_self]
    exact ⟨positive, small⟩
  · rw [put_region_of_ne table new isNew]
    exact tidy.proper bound

theorem regionsAdjacent_put (table : Table) (j base size : ℕ) :
    (table.put j ⟨base, size⟩).regionsAdjacent j (j + 1) =
      addrsAdjacent base size (table.region (j + 1)).base (table.region (j + 1)).size := by
  rw [regionsAdjacent, put_region_self, put_region_of_ne table _ (Nat.succ_ne_self j)]

theorem finishAdd_done {coalesced : ℕ} (some : coalesced ≠ 0)
    (alone : ¬ (j < sub table.cnt 1 ∧ table.regionsAdjacent j (j + 1) ≠ 0)) :
    table.finishAdd base size j coalesced = .some (table, coalesced) := by
  rw [finishAdd, if_neg alone, if_pos some]

theorem Tidy.isCount (tidy : table.Tidy) (bound : j < table.cnt) :
    sub table.cnt 1 = table.cnt - 1 := by
  have := tidy.count
  unfold maxRegions at this
  exact sub_eq (by omega) (by omega)

section Accepted

variable (tidy : table.Tidy) (accepts : table.Accepts base size)
include tidy accepts

theorem Tidy.extend_before (bound : j < table.cnt) (isBase : (table.region j).base = base + size)
    (first : ∀ i < j, base ≠ (table.region i).stop) :
    Yields ((table.put j
        ⟨sub64 (table.region j).base size, add64 (table.region j).size size⟩).finishAdd base size j
          1)
      (covered table.cnt table.region ∪ points ⟨base, size⟩) := by
  have regionSmall := tidy.small j bound
  have nonempty := accepts.nonempty
  unfold stop at regionSmall
  have isNew : (⟨sub64 (table.region j).base size, add64 (table.region j).size size⟩ : Segment) =
      ⟨base, (table.region j).size + size⟩ := by
    rw [sub64_eq (by omega) (by omega), add64_eq (by omega), isBase, Nat.add_sub_cancel]
  rw [isNew]
  have newStop : stop ⟨base, (table.region j).size + size⟩ = (table.region j).stop := by
    unfold stop
    simp only
    omega
  have below : ∀ left, left < j → (table.region left).stop < base := by
    intro left before
    have := tidy.apart accepts (before.trans bound)
    have := tidy.separated left j before bound
    have := first left before
    unfold stop at *
    omega
  have above : ∀ right, j < right → right < table.cnt →
      stop ⟨base, (table.region j).size + size⟩ < (table.region right).base := by
    intro right after rightBound
    rw [newStop]
    exact tidy.separated j right after rightBound
  have grown := tidy.update (by simp only; omega) (by rw [newStop]; exact tidy.small j bound)
    below above
  refine ⟨_, _, finishAdd_done Nat.one_ne_zero ?_, grown, ?_⟩
  · rintro ⟨hasNext, adjacent⟩
    rw [put_cnt, tidy.isCount bound] at hasNext
    have nextSmall := tidy.small (j + 1) (by omega)
    have gap := tidy.separated j (j + 1) (by omega) (by omega)
    refine adjacent ?_
    rw [regionsAdjacent_put]
    unfold stop at nextSmall gap
    rw [addrsAdjacent_eq (by omega) nextSmall, if_neg (by omega), if_neg (by omega)]
  refine covered_update_union tidy.separated bound ?_
  ext point
  simp only [mem_points, mem_union, stop]
  omega

theorem Tidy.extend_after (bound : j < table.cnt) (isStop : base = (table.region j).stop)
    (alone : j + 1 < table.cnt → (table.region (j + 1)).base ≠ base + size) :
    (table.put j ⟨(table.region j).base, (table.region j).size + size⟩).Tidy := by
  have nonempty := accepts.nonempty
  have small := accepts.small
  unfold stop at isStop
  refine tidy.update (by simp only; omega) (by unfold stop; simp only; omega) ?_ ?_
  · intro left before
    exact tidy.separated left j before bound
  intro right after rightBound
  have nextApart := tidy.apart accepts (show j + 1 < table.cnt by omega)
  have nextGap := tidy.separated j (j + 1) (by omega) (by omega)
  by_cases isNext : right = j + 1
  · subst isNext
    unfold stop at *
    simp only
    omega
  have far := tidy.separated (j + 1) right (by omega) rightBound
  unfold stop at *
  simp only
  omega

theorem Tidy.join_next (nextBound : j + 1 < table.cnt) (isStop : base = (table.region j).stop)
    (isNext : (table.region (j + 1)).base = base + size) :
    ∃ after, (table.put j ⟨(table.region j).base, (table.region j).size + size⟩).coalesceRegions j
        (j + 1) = some after ∧ after.Tidy ∧
      covered after.cnt after.region =
        covered table.cnt table.region ∪ points ⟨base, size⟩ := by
  have nonempty := accepts.nonempty
  have nextSmall := tidy.small (j + 1) nextBound
  unfold stop at isStop nextSmall
  let joined : Segment := ⟨(table.region j).base,
    (table.region j).size + size + (table.region (j + 1)).size⟩
  have isJoined : (table.put j
      ⟨(table.region j).base, (table.region j).size + size⟩).coalesceRegions j (j + 1) =
      (table.put j joined).removeRegion (j + 1) := by
    have ne : j + 1 ≠ j := by omega
    simp only [coalesceRegions, put_region_self, put_put, put_region_of_ne table _ ne]
    rw [add64_eq (by omega)]
  have joinedStop : joined.stop = (table.region (j + 1)).stop := by
    simp only [joined, stop]
    omega
  rcases @removeRegion_spec (table.put j joined) (j + 1) tidy.count nextBound with
    ⟨region, isRemoved, agrees⟩
  have isUpdate : ∀ k < table.cnt - 1, region k =
      Function.update (Segment.removeAt (j + 1) table.region) j joined k := by
    intro k within
    rw [← removeAt_update (Nat.lt_succ_self j)]
    exact agrees k within
  have placeJ : Segment.removeAt (j + 1) table.region j = table.region j :=
    if_pos (Nat.lt_succ_self j)
  have shorter := @Tidy.update _ j joined (tidy.removeAt (j + 1))
    (by simp only [joined]; omega) (by rw [joinedStop]; exact tidy.small (j + 1) nextBound) ?_ ?_
  · refine ⟨_, isJoined.trans isRemoved, shorter.congr isUpdate, ?_⟩
    have grown : joined.points = (Segment.removeAt (j + 1) table.region j).points ∪
        ((table.region (j + 1)).points ∪ points ⟨base, size⟩) := by
      rw [placeJ]
      ext point
      simp only [joined, mem_points, mem_union, stop]
      omega
    show covered (table.cnt - 1) region = _
    rw [covered_congr isUpdate, covered_update_union tidy.separated.removeAt (by omega) grown,
      covered_removeAt tidy.separated nextBound, ← union_assoc,
      sdiff_union_of_subset (points_subset_covered nextBound)]
  · intro left before
    show (Segment.removeAt (j + 1) table.region left).stop < _
    rw [Segment.removeAt, if_pos (by omega)]
    exact tidy.separated left j before (by omega)
  · intro right after rightBound
    simp only at rightBound
    show _ < (Segment.removeAt (j + 1) table.region right).base
    rw [Segment.removeAt, if_neg (by omega), joinedStop]
    exact tidy.separated (j + 1) (right + 1) (by omega) (by omega)

theorem Tidy.finish_after (bound : j < table.cnt) (isStop : base = (table.region j).stop) :
    Yields ((table.put j
        ⟨(table.region j).base, add64 (table.region j).size size⟩).finishAdd base size j 1)
      (covered table.cnt table.region ∪ points ⟨base, size⟩) := by
  have small := accepts.small
  have sum : add64 (table.region j).size size = (table.region j).size + size := by
    unfold stop at isStop
    exact add64_eq (by omega)
  rw [sum]
  by_cases joins : j + 1 < table.cnt ∧ (table.region (j + 1)).base = base + size
  · rcases joins with ⟨nextBound, isNext⟩
    have adjacent : j < sub table.cnt 1 ∧
        (table.put j ⟨(table.region j).base, (table.region j).size + size⟩).regionsAdjacent j
          (j + 1) ≠ 0 := by
      have nextSmall := tidy.small (j + 1) nextBound
      refine ⟨by rw [tidy.isCount bound]; omega, ?_⟩
      rw [regionsAdjacent_put]
      unfold stop at isStop nextSmall
      rw [addrsAdjacent_eq (by omega) nextSmall, if_pos (by omega)]
      decide
    rcases tidy.join_next accepts nextBound isStop isNext with ⟨after, joined, afterTidy, isSet⟩
    refine ⟨after, ((1 : ℕ) : ℤ) + 1, ?_, afterTidy, isSet⟩
    rw [finishAdd, put_cnt, if_pos adjacent, joined, map_some]
  · have alone : ¬ (j < sub table.cnt 1 ∧
        (table.put j ⟨(table.region j).base, (table.region j).size + size⟩).regionsAdjacent j
          (j + 1) ≠ 0) := by
      rintro ⟨hasNext, adjacent⟩
      rw [tidy.isCount bound] at hasNext
      have nextBound : j + 1 < table.cnt := by omega
      have nextSmall := tidy.small (j + 1) nextBound
      have gap := tidy.separated j (j + 1) (by omega) nextBound
      refine adjacent ?_
      rw [regionsAdjacent_put]
      unfold stop at isStop nextSmall gap
      rw [addrsAdjacent_eq (by omega) nextSmall, if_neg (by omega), if_neg (by omega)]
    refine ⟨_, _, finishAdd_done Nat.one_ne_zero alone,
      tidy.extend_after accepts bound isStop fun nextBound isNext => joins ⟨nextBound, isNext⟩, ?_⟩
    refine covered_update_union tidy.separated bound ?_
    ext point
    simp only [mem_points, mem_union, stop]
    unfold stop at isStop
    omega

theorem Tidy.insertSorted (room : table.cnt < maxRegions)
    (first : table.cnt = 0 → base < (table.region 0).base)
    (apart : ∀ i < table.cnt, table.adjacentAt base size i = 0) :
    (table.insertSorted base size).Tidy ∧
      covered (table.cnt + 1) (table.insertSorted base size).region =
        covered table.cnt table.region ∪ points ⟨base, size⟩ := by
  rcases @insertSorted_spec table base size tidy.separated first with
    ⟨p, within, below, above, agrees⟩
  have gaps : ∀ i < table.cnt,
      (table.region i).stop < base ∨ base + size < (table.region i).base := by
    intro i bound
    have isApart := apart i bound
    rw [tidy.adjacentAt_eq accepts.small bound] at isApart
    have := tidy.apart accepts bound
    split_ifs at isApart with isNext isLast <;> omega
  constructor
  · refine .of room ?_ ?_
    · refine Separated.congr (tidy.separated.insertAt within ?_ ?_) agrees
      · intro left before
        have := gaps left (by omega)
        have := below left before
        simp only
        omega
      intro right after bound
      have := gaps right bound
      have := above right after bound
      unfold stop at *
      simp only
      omega
    · intro k bound
      rw [agrees k bound, insertAt]
      have : k < table.cnt + 1 := bound
      split_ifs with before same
      · exact tidy.proper (by omega)
      · exact ⟨accepts.nonempty, accepts.small⟩
      · exact tidy.proper (by omega)
  · rw [covered_congr agrees, covered_insertAt within]

theorem Tidy.addRegion (refillable : table.Refillable base) : Yields (table.addRegion base size)
      (covered table.cnt table.region ∪ points ⟨base, size⟩) := by
  have ordinary : ¬ (table.cnt = 1 ∧ (table.region 0).size = 0) := by
    rintro ⟨isOne, isZero⟩
    have := tidy.positive 0 (by omega)
    omega
  rw [Table.addRegion, if_neg ordinary]
  rcases tryCoalesce_cases table base size 0 table.cnt with
    ⟨isExhausted, apart⟩ | ⟨j, bound, isSame⟩ |
      ⟨j, bound, apart, ⟨adjacent, found⟩ | ⟨adjacent, found⟩⟩
  · have room : table.cnt < maxRegions := by
      rcases accepts.room with free | ⟨i, bound, adjacent⟩
      · exact free
      · exact absurd (apart i (Nat.zero_le i) (by omega)) adjacent
    rcases tidy.insertSorted accepts room (fun isEmpty => (refillable isEmpty).2)
      (fun i bound => apart i (Nat.zero_le i) (by omega)) with ⟨inserted, isSet⟩
    have alone : ¬ (table.cnt < sub table.cnt 1 ∧
        table.regionsAdjacent table.cnt (table.cnt + 1) ≠ 0) := by
      rintro ⟨hasNext, adjacent⟩
      by_cases isEmpty : table.cnt = 0
      · rw [isEmpty] at adjacent
        exact adjacent (refillable isEmpty).1
      · rw [tidy.isCount (show table.cnt - 1 < table.cnt by omega)] at hasNext
        omega
    refine ⟨table.insertSorted base size, 0, ?_, inserted, isSet⟩
    simp only [isExhausted]
    rw [finishAdd, if_neg alone, if_neg (by simp), if_neg (by omega)]
  · have overlap : (table.region j).points ⊆ covered table.cnt table.region :=
      points_subset_covered (by omega)
    have inside : base ∈ (table.region j).points := by
      rw [isSame, mem_points, stop]
      have := accepts.nonempty
      simp only
      omega
    rw [isSame] at inside overlap
    exact absurd inside (disjoint_left.mp accepts.fresh (overlap inside))
  · have bound : j < table.cnt := by omega
    simp only [found]
    rw [tidy.adjacentAt_eq accepts.small bound] at adjacent
    refine tidy.extend_before accepts bound ?_ ?_
    · split_ifs at adjacent with isNext isLast
      · exact isNext
      · omega
      · omega
    intro i before isLast
    have := apart i (Nat.zero_le i) before
    rw [tidy.adjacentAt_eq accepts.small (before.trans bound)] at this
    split_ifs at this
    omega
  · have bound : j < table.cnt := by omega
    simp only [found]
    rw [tidy.adjacentAt_eq accepts.small bound] at adjacent
    refine tidy.finish_after accepts bound ?_
    split_ifs at adjacent with isNext isLast
    · omega
    · exact isLast
    · omega

end Accepted

end Add

/-! ## Removing a range -/

section Remove

variable {table : Table} {base size stop i rest : ℕ}

theorem findRegion_cases (table : Table) (base stop i rest : ℕ) :
    (table.findRegion base stop i rest = none ∧ ∀ j, i ≤ j → j < i + rest →
      ¬ ((table.region j).base ≤ base ∧ stop ≤ add64 (table.region j).base (table.region j).size)) ∨
    ∃ j < i + rest, table.findRegion base stop i rest = some j ∧
      (table.region j).base ≤ base ∧ stop ≤ add64 (table.region j).base (table.region j).size ∧
      ∀ k, i ≤ k → k < j → ¬ ((table.region k).base ≤ base ∧
        stop ≤ add64 (table.region k).base (table.region k).size) := by
  induction rest generalizing i with
  | zero =>
    refine .inl ⟨rfl, ?_⟩
    intro j after before
    omega
  | succ rest ih =>
    by_cases contains : (table.region i).base ≤ base ∧
        stop ≤ add64 (table.region i).base (table.region i).size
    · refine .inr ⟨i, by omega, ?_, contains.1, contains.2, fun k after before => by omega⟩
      simp [findRegion, if_pos contains]
    have next : table.findRegion base stop i (rest + 1) =
        table.findRegion base stop (i + 1) rest := by
      simp [findRegion, if_neg contains]
    rw [next]
    have extend : ∀ {last}, (∀ k, i + 1 ≤ k → k < last → ¬ ((table.region k).base ≤ base ∧
          stop ≤ add64 (table.region k).base (table.region k).size)) →
        ∀ k, i ≤ k → k < last → ¬ ((table.region k).base ≤ base ∧
          stop ≤ add64 (table.region k).base (table.region k).size) := by
      intro last misses k after before
      by_cases isFirst : k = i
      · rw [isFirst]
        exact contains
      · exact misses k (by omega) before
    rcases ih (i + 1) with ⟨isNone, misses⟩ | ⟨j, bound, found, low, high, first⟩
    · refine .inl ⟨isNone, extend ?_⟩
      intro k after before
      exact misses k after (by omega)
    · exact .inr ⟨j, by omega, found, low, high, extend first⟩

/-- What the callers of `memblock_remove` and `memblock_free` ensure: no wrap, and room for both
parts if a region is split. -/
structure Fits (table : Table) (base size : ℕ) : Prop where
  small : base + size < 18446744073709551616
  room : table.cnt < maxRegions ∨ ∀ i < table.cnt,
    ¬ ((table.region i).base < base ∧ base + size < (table.region i).stop ∧ 0 < size)

def Whole (table : Table) (base size : ℕ) : Prop :=
  (∃ i < table.cnt, (table.region i).base ≤ base ∧ base + size ≤ (table.region i).stop) ∨
    Disjoint (covered table.cnt table.region) (points ⟨base, size⟩)

section

variable (tidy : table.Tidy)
include tidy

theorem Tidy.shrink {new : Segment} (bound : i < table.cnt) (positive : 0 < new.size)
    (low : (table.region i).base ≤ new.base) (high : new.stop ≤ (table.region i).stop) :
    (table.put i new).Tidy := by
  refine tidy.update positive (high.trans_lt (tidy.small i bound)) ?_ ?_
  · intro left before
    exact (tidy.separated left i before bound).trans_le low
  · intro right after rightBound
    exact high.trans_lt (tidy.separated i right after rightBound)

theorem Tidy.split (fits : table.Fits base size) (bound : i < table.cnt)
    (low : (table.region i).base < base) (high : base + size < (table.region i).stop) :
    Yields ((table.put i ⟨(table.region i).base, base - (table.region i).base⟩).addRegion
        (base + size) ((table.region i).stop - (base + size)))
      (covered table.cnt table.region \ points ⟨base, size⟩) := by
  have small := tidy.small i bound
  have shorter : (table.put i ⟨(table.region i).base, base - (table.region i).base⟩).Tidy :=
    tidy.shrink bound (by simp only; omega) le_rfl
      (by unfold Segment.stop at *; simp only; omega)
  have lost : points ⟨base, (table.region i).stop - base⟩ ⊆ (table.region i).points := by
    intro point
    simp only [mem_points, Segment.stop] at high ⊢
    omega
  have isShorter : covered table.cnt
      (table.put i ⟨(table.region i).base, base - (table.region i).base⟩).region =
      covered table.cnt table.region \ points ⟨base, (table.region i).stop - base⟩ := by
    refine covered_update_sdiff tidy.separated bound lost ?_
    ext point
    simp only [mem_points, mem_sdiff, Segment.stop] at high ⊢
    omega
  have accepts : (table.put i ⟨(table.region i).base, base - (table.region i).base⟩).Accepts
      (base + size) ((table.region i).stop - (base + size)) := by
    refine ⟨by omega, by omega, ?_, ?_⟩
    · rw [put_cnt, isShorter]
      refine disjoint_left.mpr ?_
      rintro point ⟨_, outside⟩ inside
      refine outside ?_
      simp only [mem_points, Segment.stop] at inside ⊢
      omega
    rcases fits.room with free | full
    · exact .inl free
    refine .inr ⟨i, bound, ?_⟩
    have isEmpty : size = 0 := by
      have := full i bound
      omega
    rw [shorter.adjacentAt_eq (by omega) bound, put_region_self]
    rw [if_neg (by simp only; omega), if_pos (by simp only [Segment.stop]; omega)]
    decide
  rcases shorter.addRegion accepts (fun isEmpty => by rw [put_cnt] at isEmpty; omega) with
    ⟨after, code, isAdded, afterTidy, isSet⟩
  refine ⟨after, code, isAdded, afterTidy, ?_⟩
  rw [isSet, put_cnt, isShorter]
  ext point
  have within : point ∈ (table.region i).points → point ∈ covered table.cnt table.region :=
    fun mem => points_subset_covered bound mem
  simp only [mem_points, mem_union, mem_sdiff, Segment.stop] at high within ⊢
  constructor
  · rintro (⟨mem, outside⟩ | inside)
    · exact ⟨mem, by omega⟩
    · exact ⟨within (by omega), by omega⟩
  rintro ⟨mem, outside⟩
  by_cases back : base + size ≤ point ∧ point < (table.region i).base + (table.region i).size
  · exact .inr (by omega)
  · exact .inl ⟨mem, by omega⟩

theorem Tidy.trim {start : ℕ} (bound : i < table.cnt) (low : (table.region i).base ≤ base)
    (high : base + size ≤ (table.region i).stop)
    (partly : ¬((table.region i).base = base ∧ (table.region i).stop = base + size))
    (atEnd : start = base + size ∧ (table.region i).base = base ∨
      start = (table.region i).base ∧ (table.region i).stop = base + size) :
    Yields (some (table.put i ⟨start, sub64 (table.region i).size size⟩, 0))
      (covered table.cnt table.region \ points ⟨base, size⟩) := by
  have small := tidy.small i bound
  unfold Segment.stop at high partly atEnd small
  rw [sub64_eq (by omega) (by omega)]
  refine ⟨_, 0, rfl, tidy.shrink bound (by simp only; omega) (by simp only; omega)
    (by unfold Segment.stop; simp only; omega), ?_⟩
  refine covered_update_sdiff tidy.separated bound ?_ ?_
  · intro point
    simp only [mem_points, Segment.stop]
    omega
  · ext point
    simp only [mem_points, mem_sdiff, Segment.stop]
    omega

theorem Tidy.remove (fits : table.Fits base size) (whole : table.Whole base size) :
    Yields (table.remove base size)
      (covered table.cnt table.region \ points ⟨base, size⟩) := by
  have isStop : add64 base size = base + size := add64_eq fits.small
  simp only [Table.remove, isStop]
  rcases findRegion_cases table base (base + size) 0 table.cnt with
    ⟨isNone, misses⟩ | ⟨j, bound, found, low, high, _⟩
  · simp only [isNone]
    refine ⟨table, -1, rfl, tidy, ?_⟩
    rcases whole with ⟨i, bound, low, high⟩ | disjoint
    · refine absurd ⟨low, ?_⟩ (misses i (Nat.zero_le i) (by omega))
      rw [add64_eq (tidy.small i bound)]
      exact high
    · exact (sdiff_eq_left.mpr disjoint).symm
  have bound : j < table.cnt := by omega
  have small := tidy.small j bound
  have isEnd : add64 (table.region j).base (table.region j).size = (table.region j).stop :=
    add64_eq small
  rw [isEnd] at high
  simp only [found, isEnd]
  split_ifs with isWhole isFront isBack
  · rcases tidy.removeRegion bound with ⟨after, isRemoved, afterTidy, isSet⟩
    refine ⟨after, 0, by rw [isRemoved, map_some], afterTidy, ?_⟩
    rw [isSet]
    congr 1
    ext point
    simp only [mem_points, Segment.stop]
    unfold Segment.stop at isWhole
    omega
  · exact tidy.trim bound low high isWhole (.inl ⟨rfl, isFront⟩)
  · exact tidy.trim bound low high isWhole (.inr ⟨rfl, isBack⟩)
  · rw [sub64_eq low (by omega), sub64_eq high small]
    exact tidy.split fits bound (by omega) (by omega)

end

end Remove

/-! ## Calls that fail -/

section Fail

variable {table after : Table} {base size i coalesced : ℕ} {code : ℤ}

theorem finishAdd_failed (done : table.finishAdd base size i coalesced = some (after, code))
    (failed : code < 0) : after = table ∧ maxRegions ≤ table.cnt ∧ coalesced = 0 := by
  unfold finishAdd at done
  split_ifs at done with joins grown full
  · rcases map_eq_some_iff.mp done with ⟨_, _, isResult⟩
    cases isResult
    omega
  · cases done
    omega
  · cases done
    exact ⟨rfl, full, not_not.mp grown⟩
  · cases done
    contradiction

theorem tryCoalesce_exhausted_iff (table : Table) (base size i rest : ℕ) :
    table.tryCoalesce base size i rest = .exhausted ↔ ∀ j, i ≤ j → j < i + rest →
      table.region j ≠ ⟨base, size⟩ ∧ table.adjacentAt base size j = 0 := by
  induction rest generalizing i with
  | zero => exact iff_of_true rfl fun j after before => by omega
  | succ rest ih =>
    have isSame : table.region i = ⟨base, size⟩ ↔
        (table.region i).base = base ∧ (table.region i).size = size := by
      cases table.region i
      simp
    have split : (∀ j, i ≤ j → j < i + (rest + 1) →
          table.region j ≠ ⟨base, size⟩ ∧ table.adjacentAt base size j = 0) ↔
        (table.region i ≠ ⟨base, size⟩ ∧ table.adjacentAt base size i = 0) ∧
          table.tryCoalesce base size (i + 1) rest = .exhausted := by
      rw [ih]
      refine ⟨fun all => ⟨all i le_rfl (by omega),
          fun j after before => all j (by omega) (by omega)⟩,
        fun all j after before => ?_⟩
      by_cases isFirst : j = i
      · exact isFirst ▸ all.1
      · exact all.2 j (by omega) (by omega)
    rw [split, tryCoalesce, Ne, isSame]
    unfold adjacentAt
    dsimp only
    split_ifs with same before after
    · exact iff_of_false (by simp) fun all => all.1.1 same
    · exact iff_of_false (by simp) fun all => by omega
    · exact iff_of_false (by simp) fun all => by omega
    · exact ⟨fun ended => ⟨⟨same, by omega⟩, ended⟩, And.right⟩

theorem addRegion_failed (done : table.addRegion base size = some (after, code))
    (failed : code < 0) : after = table ∧ maxRegions ≤ table.cnt ∧
      table.tryCoalesce base size 0 table.cnt = .exhausted := by
  unfold addRegion at done
  split_ifs at done with dummy
  · cases done
    contradiction
  split at done
  · cases done
    contradiction
  · exact absurd (finishAdd_failed done failed).2.2 Nat.one_ne_zero
  · next isExhausted =>
    exact ⟨(finishAdd_failed done failed).1, (finishAdd_failed done failed).2.1, isExhausted⟩

def FailsUnchanged (table : Table) (result : Option (Table × ℤ)) : Prop :=
  ∀ after code, result = some (after, code) → code < 0 →
    covered after.cnt after.region = covered table.cnt table.region

structure Sorted (table : Table) : Prop where
  count : table.cnt ≤ maxRegions
  ordered : ∀ left right, left < right → right < table.cnt →
    (table.region left).stop ≤ (table.region right).base
  positive : ∀ i < table.cnt, 0 < (table.region i).size
  small : ∀ i < table.cnt, (table.region i).stop < 18446744073709551616

/-- The table is full, and a region has to be split by the range, which ends before its end and
behind all regions before it. No region begins where it ends, so that there is nothing that the
part behind the range could be joined to. -/
def Torn (table : Table) (base size : ℕ) : Prop :=
  maxRegions ≤ table.cnt ∧ size ≠ 0 ∧ ∃ i < table.cnt, (table.region i).base < base ∧
    add64 base size < (table.region i).stop ∧ base ≠ (table.region i).stop ∧
    (∀ j < i, (table.region j).stop < add64 base size) ∧
    ∀ j < table.cnt, (table.region j).base ≠ (table.region i).stop

section Ordered

variable (sorted : table.Sorted) (isBase : base < 18446744073709551616)
  (isSize : size < 18446744073709551616)
include sorted

theorem Sorted.isEnd (bound : i < table.cnt) :
    add64 (table.region i).base (table.region i).size = (table.region i).stop :=
  add64_eq (sorted.small i bound)

theorem Sorted.notMem {point j : ℕ} (bound : i < table.cnt) (low : (table.region i).base ≤ point)
    (high : point ≤ (table.region i).stop) (other : j ≠ i) (otherBound : j < table.cnt)
    (next : (table.region j).base ≠ (table.region i).stop) : point ∉ (table.region j).points := by
  rw [mem_points]
  rcases Nat.lt_or_gt_of_ne other with before | after
  · have := sorted.ordered j i before bound
    omega
  · have := sorted.ordered i j after otherBound
    omega

include isBase isSize

/-- With nothing to join it to, the part behind the range is not added. -/
theorem Sorted.exhausted_iff (bound : i < table.cnt) (low : (table.region i).base < base)
    (high : add64 base size < (table.region i).stop)
    (first : ∀ j < i, (table.region j).stop < add64 base size)
    (moved : base ≠ (table.region i).stop) :
    (table.put i ⟨(table.region i).base, sub64 base (table.region i).base⟩).tryCoalesce
        (add64 base size) (sub64 (table.region i).stop (add64 base size)) 0 table.cnt = .exhausted ↔
      size ≠ 0 ∧ ∀ j < table.cnt, (table.region j).base ≠ (table.region i).stop := by
  have small := sorted.small i bound
  have positive := sorted.positive i bound
  rw [tryCoalesce_exhausted_iff, sub64_eq (Nat.le_of_lt low) isBase,
    sub64_eq (Nat.le_of_lt high) small]
  have isEmpty : add64 base size = base ↔ size = 0 := by
    unfold add64
    omega
  have atPlace : ∀ j < table.cnt, ((table.put i
        ⟨(table.region i).base, base - (table.region i).base⟩).region j ≠
          ⟨add64 base size, (table.region i).stop - add64 base size⟩ ∧
        (table.put i ⟨(table.region i).base, base - (table.region i).base⟩).adjacentAt
          (add64 base size) ((table.region i).stop - add64 base size) j = 0) ↔
      (table.region j).base ≠ (table.region i).stop ∧ (j = i → size ≠ 0) := by
    intro j jBound
    have jSmall := sorted.small j jBound
    unfold adjacentAt
    by_cases isPlace : j = i
    · subst isPlace
      rw [put_region_self, addrsAdjacent_eq (by omega) (by simp only; omega)]
      unfold stop at *
      simp only [ne_eq, Segment.mk.injEq, true_imp_iff, ← isEmpty]
      rw [if_neg (by omega)]
      split_ifs with isJoined
      · exact iff_of_false (by simp) (by omega)
      · exact iff_of_true ⟨by omega, rfl⟩ (by omega)
    · rw [put_region_of_ne table _ isPlace, addrsAdjacent_eq (by omega) jSmall]
      have jPositive := sorted.positive j jBound
      have apart : j < i ∧ (table.region j).stop < add64 base size ∨
          i < j ∧ (table.region i).stop ≤ (table.region j).base := by
        rcases Nat.lt_or_gt_of_ne isPlace with before | after
        · exact .inl ⟨before, first j before⟩
        · exact .inr ⟨after, sorted.ordered i j after jBound⟩
      have isSegment : table.region j =
          ⟨add64 base size, (table.region i).stop - add64 base size⟩ ↔
          (table.region j).base = add64 base size ∧
            (table.region j).size = (table.region i).stop - add64 base size := by
        cases table.region j
        simp
      rw [Ne, isSegment]
      unfold stop at *
      split_ifs <;> omega
  constructor
  · intro all
    exact ⟨((atPlace i bound).mp (all i (Nat.zero_le i) (by omega))).2 rfl, fun j jBound =>
      ((atPlace j jBound).mp (all j (Nat.zero_le j) (by omega))).1⟩
  · intro fine j _ jBound
    exact (atPlace j (by omega)).mpr ⟨fine.2 j (by omega), fun _ => fine.1⟩

end Ordered

/-- `memblock_add_region` is atomic, and `__memblock_remove` is just when no region is torn. -/
theorem failsUnchanged_iff (table : Table) {base size : ℕ} (sorted : table.Sorted)
    (isBase : base < 18446744073709551616) (isSize : size < 18446744073709551616) :
    table.FailsUnchanged (table.addRegion base size) ∧
      (table.FailsUnchanged (table.remove base size) ↔ ¬table.Torn base size) := by
  refine ⟨fun after code done failed => by rw [(addRegion_failed done failed).1], ?_, ?_⟩
  · rintro unchanged ⟨full, isNonempty, i, bound, low, high, moved, first, alone⟩
    have isFound : table.findRegion base (add64 base size) 0 table.cnt = some i := by
      rcases findRegion_cases table base (add64 base size) 0 table.cnt with
        ⟨_, misses⟩ | ⟨j, jBound, found, _, jHigh, jFirst⟩
      · refine absurd ⟨Nat.le_of_lt low, ?_⟩ (misses i (Nat.zero_le i) (by omega))
        rw [sorted.isEnd bound]
        exact Nat.le_of_lt high
      rw [sorted.isEnd (by omega)] at jHigh
      rcases Nat.lt_trichotomy j i with before | rfl | after
      · exact absurd jHigh (Nat.not_le.mpr (first j before))
      · exact found
      · refine absurd ⟨Nat.le_of_lt low, ?_⟩ (jFirst i (Nat.zero_le i) after)
        rw [sorted.isEnd bound]
        exact Nat.le_of_lt high
    have isExhausted := (sorted.exhausted_iff isBase isSize bound low high first moved).mpr
      ⟨isNonempty, alone⟩
    have large : table.cnt ≠ 1 := by
      unfold maxRegions at full
      omega
    have isRemoved : table.remove base size =
        some (table.put i ⟨(table.region i).base, sub64 base (table.region i).base⟩, -1) := by
      have notLast : ¬ table.cnt < sub table.cnt 1 := by
        have := sorted.count
        unfold maxRegions at this
        rw [sub_eq (by omega) (by omega)]
        omega
      simp only [remove, isFound, sorted.isEnd bound, low.ne, high.ne', false_and, if_false,
        addRegion, put_cnt, large, isExhausted, finishAdd, notLast, ne_eq, not_true, full, if_true]
    have same := unchanged _ _ isRemoved (by decide)
    rw [put_cnt, sub64_eq (Nat.le_of_lt low) isBase] at same
    -- an address between the old and the new end of the region
    have edge : ∀ point, (table.region i).base ≤ point → point ≤ (table.region i).stop →
        (point ∈ covered table.cnt table.region ↔ point < (table.region i).stop) ∧
        (point ∈ covered table.cnt (table.put i ⟨(table.region i).base,
          base - (table.region i).base⟩).region ↔ point < base) := by
      intro point atLeast atMost
      have others := fun j other jBound =>
        sorted.notMem bound atLeast atMost other jBound (alone j jBound)
      constructor
      · refine ⟨?_, fun before => ⟨i, bound, atLeast, before⟩⟩
        rintro ⟨j, jBound, mem⟩
        by_cases isPlace : j = i
        · exact (mem_points.mp (isPlace ▸ mem)).2
        · exact absurd mem (others j isPlace jBound)
      · refine ⟨?_, fun before => ⟨i, bound, ?_⟩⟩
        · rintro ⟨j, jBound, mem⟩
          by_cases isPlace : j = i
          · subst isPlace
            rw [put_region_self, mem_points, stop] at mem
            simp only at mem
            omega
          · rw [put_region_of_ne table _ isPlace] at mem
            exact absurd mem (others j isPlace jBound)
        · rw [put_region_self, mem_points, stop]
          simp only
          omega
    have atEdge := edge (min base (table.region i).stop) (by unfold stop; omega) (by omega)
    rw [same, atEdge.1] at atEdge
    have := atEdge.2
    omega
  · intro whole after code done failed
    unfold remove at done
    simp only at done
    rcases findRegion_cases table base (add64 base size) 0 table.cnt with
      ⟨isNone, _⟩ | ⟨i, bound, found, low, high, first⟩
    · rw [isNone] at done
      cases done
      rfl
    have bound : i < table.cnt := by omega
    rw [sorted.isEnd bound] at high
    simp only [found, sorted.isEnd bound] at done
    split_ifs at done with isWhole isFront isBack
    · rcases map_eq_some_iff.mp done with ⟨_, _, isResult⟩
      cases isResult
      contradiction
    · cases done
      contradiction
    · cases done
      contradiction
    rcases addRegion_failed done failed with ⟨rfl, full, isExhausted⟩
    rw [put_cnt] at full isExhausted ⊢
    by_cases moved : base = (table.region i).stop
    · rw [sub64_eq low isBase, moved, stop, Nat.add_sub_cancel_left, put, update_eq_self]
    have before : ∀ j < i, (table.region j).stop < add64 base size := by
      intro j earlier
      have misses := first j (Nat.zero_le j) earlier
      have ordered := sorted.ordered j i earlier bound
      rw [sorted.isEnd (by omega)] at misses
      unfold stop at *
      omega
    rcases (sorted.exhausted_iff isBase isSize bound (by omega) (by omega) before moved).mp
      isExhausted with ⟨isNonempty, alone⟩
    exact absurd ⟨full, isNonempty, i, bound, by omega, by omega, moved, before, alone⟩ whole

def fullTable : Table := ⟨maxRegions, fun i => ⟨16 * i, 8⟩⟩

theorem tidy_fullTable : fullTable.Tidy := by
  refine .of le_rfl ?_ ?_
  · intro left right before _
    simp only [fullTable, stop]
    omega
  · intro i bound
    simp only [fullTable, stop, maxRegions] at bound ⊢
    omega

/-- The range lies between two regions. -/
theorem failsUnchanged_fullTable : fullTable.FailsUnchanged (fullTable.remove 8 4) := by
  have sorted : fullTable.Sorted := ⟨tidy_fullTable.count, fun left right before bound =>
    Nat.le_of_lt (tidy_fullTable.separated left right before bound), tidy_fullTable.positive,
    tidy_fullTable.small⟩
  refine (failsUnchanged_iff fullTable sorted (by decide) (by decide)).2.mpr ?_
  rintro ⟨_, _, i, _, low, high, _⟩
  simp only [fullTable, stop, add64] at low high
  omega

/-- Two addresses behind the hole are lost. -/
theorem not_failsUnchanged_fullTable : fullTable.Tidy ∧
    ¬ fullTable.FailsUnchanged (fullTable.remove 2 4) := by
  refine ⟨tidy_fullTable, fun unchanged => ?_⟩
  have isLost : (fullTable.remove 2 4).map (fun result => (result.2, decide (∀ place <
      result.1.cnt, ¬ ((result.1.region place).base ≤ 6 ∧ 6 < (result.1.region place).stop)))) =
      some (-1, true) := by
    decide +kernel
  rcases map_eq_some_iff.mp isLost with ⟨⟨after, code⟩, isRemoved, isResult⟩
  rcases Prod.mk.inj isResult with ⟨rfl, outside⟩
  have inside : 6 ∈ covered fullTable.cnt fullTable.region :=
    ⟨0, by decide, mem_points.mpr (by decide)⟩
  rw [← unchanged after _ isRemoved (by decide)] at inside
  rcases inside with ⟨place, bound, inPlace⟩
  exact of_decide_eq_true outside place bound (mem_points.mp inPlace)

end Fail

/-! ## The table of `memblock_init` -/

def Dummy (table : Table) : Prop := table.cnt = 1 ∧ table.region 0 = ⟨0, 0⟩

structure IsSet (table : Table) (set : Set ℕ) : Prop where
  covered : Segment.covered table.cnt table.region = set
  separated : Separated table.cnt table.region

def Holds (table : Table) (set : Set ℕ) : Prop :=
  (table.Tidy ∧ covered table.cnt table.region = set) ∨ (table.Dummy ∧ set = ∅)

section Calls

variable {table : Table} {set : Set ℕ} {base size : ℕ}

theorem Dummy.covered_eq (dummy : table.Dummy) : covered table.cnt table.region = ∅ := by
  rw [dummy.1]
  ext point
  constructor
  · rintro ⟨place, bound, inside⟩
    obtain rfl : place = 0 := by omega
    rw [dummy.2, mem_points] at inside
    exact absurd inside.2 (Nat.not_lt_zero point)
  · exact fun never => never.elim

section

variable (holds : table.Holds set)
include holds

theorem Holds.isSet : table.IsSet set := by
  rcases holds with ⟨tidy, isSet⟩ | ⟨dummy, isEmpty⟩
  · exact ⟨isSet, tidy.separated⟩
  refine ⟨dummy.covered_eq.trans isEmpty.symm, ?_⟩
  intro left right before bound
  rw [dummy.1] at bound
  omega

theorem Holds.addRegion (accepts : table.Accepts base size) (refillable : table.Refillable base) :
    ∃ after code, table.addRegion base size = some (after, code) ∧
      after.Holds (set ∪ points ⟨base, size⟩) := by
  rcases holds with ⟨tidy, rfl⟩ | ⟨dummy, rfl⟩
  · rcases tidy.addRegion accepts refillable with ⟨after, code, isAdded, afterTidy, isSet⟩
    exact ⟨after, code, isAdded, .inl ⟨afterTidy, isSet⟩⟩
  have isDummy : table.cnt = 1 ∧ (table.region 0).size = 0 := ⟨dummy.1, by rw [dummy.2]⟩
  have isFirst : ∀ i < (table.put 0 ⟨base, size⟩).cnt,
      (table.put 0 ⟨base, size⟩).region i = ⟨base, size⟩ := by
    intro i bound
    rw [put_cnt, dummy.1] at bound
    obtain rfl : i = 0 := by omega
    exact put_region_self table 0 ⟨base, size⟩
  refine ⟨table.put 0 ⟨base, size⟩, 0, by rw [Table.addRegion, if_pos isDummy],
    .inl ⟨.of ?_ ?_ ?_, ?_⟩⟩
  · rw [put_cnt, dummy.1]
    decide
  · intro left right before bound
    rw [put_cnt, dummy.1] at bound
    omega
  · intro i bound
    rw [isFirst i bound]
    exact ⟨accepts.nonempty, accepts.small⟩
  · rw [covered_congr isFirst, empty_union, put_cnt, dummy.1]
    ext point
    constructor
    · rintro ⟨_, _, inside⟩
      exact inside
    · intro inside
      exact ⟨0, one_pos, inside⟩

theorem Holds.remove (fits : table.Fits base size) (whole : table.Whole base size) :
    ∃ after code, table.remove base size = some (after, code) ∧
      after.Holds (set \ points ⟨base, size⟩) := by
  rcases holds with ⟨tidy, rfl⟩ | ⟨dummy, rfl⟩
  · rcases tidy.remove fits whole with ⟨after, code, isRemoved, afterTidy, isSet⟩
    exact ⟨after, code, isRemoved, .inl ⟨afterTidy, isSet⟩⟩
  have isStop := add64_eq fits.small
  simp only [Table.remove, isStop]
  rcases findRegion_cases table base (base + size) 0 table.cnt with
    ⟨isNone, _⟩ | ⟨j, bound, found, low, high⟩
  · simp only [isNone]
    exact ⟨table, -1, rfl, .inr ⟨dummy, empty_sdiff _⟩⟩
  rw [dummy.1] at bound
  obtain rfl : j = 0 := by omega
  have isEnd : add64 (table.region 0).base (table.region 0).size = 0 := by
    rw [dummy.2]
    rfl
  simp only [found, isEnd]
  rw [if_pos ⟨by rw [dummy.2]; simp only; omega, by omega⟩]
  rcases @removeRegion_spec table 0 (by rw [dummy.1]; decide) (by rw [dummy.1]; decide) with
    ⟨region, isRemoved, _⟩
  refine ⟨_, 0, by rw [isRemoved, map_some], .inl ⟨.of ?_ ?_ ?_, ?_⟩⟩
  · simp only [dummy.1]
    exact Nat.zero_le _
  · intro left right _ bound
    simp only [dummy.1] at bound
    omega
  · intro i bound
    simp only [dummy.1] at bound
    omega
  · rw [empty_sdiff]
    ext point
    constructor
    · rintro ⟨place, bound, _⟩
      simp only [dummy.1] at bound
      omega
    · exact fun never => never.elim

end

end Calls

end Table

/-! ## Runs -/

structure History where
  state : State
  memory : Set ℕ
  reserved : Set ℕ

namespace History

def init : History := ⟨.init, ∅, ∅⟩

def record (history : History) (state : State) : Request → History
  | .add base size => ⟨state, history.memory ∪ points ⟨base, size⟩, history.reserved⟩
  | .remove base size => ⟨state, history.memory \ points ⟨base, size⟩, history.reserved⟩
  | .reserve base size => ⟨state, history.memory, history.reserved ∪ points ⟨base, size⟩⟩
  | .free base size => ⟨state, history.memory, history.reserved \ points ⟨base, size⟩⟩

def step (history : Option History) (request : Request) : Option History :=
  history.bind fun before => (before.state.step request).map fun state =>
    before.record state request

/-- What the callers see to. -/
def Proper (history : History) : Request → Prop
  | .add base size => history.state.memory.Accepts base size
  | .remove base size => history.state.memory.Fits base size
  | .reserve base size => history.state.reserved.Accepts base size
  | .free base size => history.state.reserved.Fits base size

/-- What the code needs besides. -/
def Supported (history : History) : Request → Prop
  | .add base _ => history.state.memory.Refillable base
  | .remove base size => history.state.memory.Whole base size
  | .reserve base _ => history.state.reserved.Refillable base
  | .free base size => history.state.reserved.Whole base size

structure Exact (history : History) : Prop where
  memory : history.state.memory.IsSet history.memory
  reserved : history.state.reserved.IsSet history.reserved

def Good (history : History) : Prop :=
  history.state.memory.Holds history.memory ∧ history.state.reserved.Holds history.reserved

theorem step_eq {history : History} {state : State} {request : Request}
    (stepped : history.state.step request = some state) :
    step (some history) request = some (history.record state request) := by
  simp [step, stepped]

theorem Good.step {history : History} {request : Request} (good : history.Good)
    (proper : history.Proper request) (supported : history.Supported request) :
    ∃ after, step (some history) request = some after ∧ after.Good := by
  cases request with
  | add base size =>
    rcases good.1.addRegion proper supported with ⟨table, code, isAdded, holds⟩
    have stepped : history.state.step (.add base size) = some ⟨if base = 0 then size
        else history.state.rmoSize, table, history.state.reserved⟩ := by
      simp [State.step, isAdded]
    exact ⟨_, step_eq stepped, holds, good.2⟩
  | remove base size =>
    rcases good.1.remove proper supported with ⟨table, code, isRemoved, holds⟩
    have stepped : history.state.step (.remove base size) =
        some { history.state with memory := table } := by
      simp [State.step, isRemoved]
    exact ⟨_, step_eq stepped, holds, good.2⟩
  | reserve base size =>
    rcases good.2.addRegion proper supported with ⟨table, code, isAdded, holds⟩
    have nonempty : size ≠ 0 := Nat.pos_iff_ne_zero.mp proper.nonempty
    have stepped : history.state.step (.reserve base size) =
        some { history.state with reserved := table } := by
      simp [State.step, if_neg nonempty, isAdded]
    exact ⟨_, step_eq stepped, good.1, holds⟩
  | free base size =>
    rcases good.2.remove proper supported with ⟨table, code, isRemoved, holds⟩
    have stepped : history.state.step (.free base size) =
        some { history.state with reserved := table } := by
      simp [State.step, isRemoved]
    exact ⟨_, step_eq stepped, good.1, holds⟩

/-- In every run of calls that meet the conditions, both tables stay sets. -/
theorem exact_run (requests : List Request) (admitted : Run.Admits step (fun history request =>
      ∀ before ∈ history, before.Proper request ∧ before.Supported request) (some init) requests) :
    ∃ history, Run.run step (some init) requests = some history ∧ history.Exact := by
  have good : ∃ history, Run.run step (some init) requests = some history ∧ history.Good := by
    refine Run.invariant_run (fun history => ∃ after, history = some after ∧ after.Good) ?_
      ⟨init, rfl, .inr ⟨⟨rfl, rfl⟩, rfl⟩, .inr ⟨⟨rfl, rfl⟩, rfl⟩⟩ admitted
    rintro _ request ⟨before, rfl, good⟩ meets
    rcases meets before rfl with ⟨proper, supported⟩
    exact good.step proper supported
  rcases good with ⟨history, isRun, memory, reserved⟩
  exact ⟨history, isRun, memory.isSet, reserved.isSet⟩

theorem accepts_dummy {table : Table} {base size : ℕ} (dummy : table.Dummy) (nonempty : 0 < size)
    (small : base + size < 18446744073709551616) : table.Accepts base size := by
  refine ⟨nonempty, small, ?_, .inl ?_⟩
  · rw [dummy.covered_eq]
    exact empty_disjoint _
  · rw [dummy.1]
    decide

theorem accepts_single {table : Table} {base size : ℕ} (single : table.cnt = 1)
    (nonempty : 0 < size) (small : base + size < 18446744073709551616)
    (behind : (table.region 0).stop ≤ base) : table.Accepts base size := by
  refine ⟨nonempty, small, disjoint_left.mpr ?_, .inl (by rw [single]; decide)⟩
  rintro point ⟨i, bound, _, high⟩ ⟨low, _⟩
  obtain rfl : i = 0 := by omega
  exact absurd (high.trans_le behind) (not_lt.mpr low)

/-- Two ranges are joined, the first of them is removed again, and a part of the other is
reserved. -/
theorem exact_run_first_ranges :
    ∃ history, Run.run step (some init)
        [.add 4096 4096, .add 8192 4096, .remove 4096 4096, .reserve 8192 1024] = some history ∧
      history.Exact := by
  have once : (step (some init) (.add 4096 4096)).map (fun history =>
      (history.state.memory.cnt, history.state.memory.region 0)) = some (1, ⟨4096, 4096⟩) := by
    decide +kernel
  have joined : (step (step (some init) (.add 4096 4096)) (.add 8192 4096)).map (fun history =>
      (history.state.memory.cnt, history.state.memory.region 0)) = some (1, ⟨4096, 8192⟩) := by
    decide +kernel
  have unreserved : (step (step (step (some init) (.add 4096 4096)) (.add 8192 4096))
      (.remove 4096 4096)).map (fun history =>
      (history.state.reserved.cnt, history.state.reserved.region 0)) = some (1, ⟨0, 0⟩) := by
    decide +kernel
  refine exact_run _ ⟨?_, ?_, ?_, ?_, trivial⟩
  · intro before isBefore
    obtain rfl := some.inj isBefore
    exact ⟨accepts_dummy ⟨rfl, rfl⟩ (by decide) (by decide), fun isEmpty => nomatch isEmpty⟩
  · intro before isBefore
    rw [show step (some init) (.add 4096 4096) = some before from isBefore] at once
    obtain ⟨single, isRegion⟩ := Prod.mk.inj (some.inj once)
    refine ⟨accepts_single single (by decide) (by decide) (by rw [isRegion]; decide), ?_⟩
    exact fun isEmpty => absurd (single.symm.trans isEmpty) (by decide)
  · intro before isBefore
    rw [show step (step (some init) (.add 4096 4096)) (.add 8192 4096) = some before from
      isBefore] at joined
    obtain ⟨single, isRegion⟩ := Prod.mk.inj (some.inj joined)
    refine ⟨⟨by decide, .inl (by rw [single]; decide)⟩, .inl ⟨0, by rw [single]; decide, ?_⟩⟩
    rw [isRegion]
    decide
  · intro before isBefore
    rw [show step (step (step (some init) (.add 4096 4096)) (.add 8192 4096)) (.remove 4096 4096) =
      some before from isBefore] at unreserved
    obtain ⟨single, isRegion⟩ := Prod.mk.inj (some.inj unreserved)
    exact ⟨accepts_dummy ⟨single, isRegion⟩ (by decide) (by decide),
      fun isEmpty => absurd (single.symm.trans isEmpty) (by decide)⟩

def refilled : List Request := [.add 4096 4096, .remove 4096 4096, .add 8192 4096]

/-- The range that was removed is back, and the new one is missing. -/
theorem not_exact_refilled :
    Run.Admits step (fun history request => ∀ before ∈ history, before.Proper request) (some init)
        refilled ∧
      ¬ ∃ history, Run.run step (some init) refilled = some history ∧ history.Exact := by
  have once : (step (some init) (.add 4096 4096)).map (fun history => history.state.memory.cnt) =
      some 1 := by decide +kernel
  have emptied : (step (step (some init) (.add 4096 4096)) (.remove 4096 4096)).map
      (fun history => history.state.memory.cnt) = some 0 := by decide +kernel
  have final : (Run.run step (some init) refilled).map (fun history =>
      (history.state.memory.cnt, history.state.memory.region 0)) = some (1, ⟨4096, 4096⟩) := by
    decide +kernel
  have sets : (Run.run step (some init) refilled).map (fun history => history.memory) =
      some (((∅ ∪ points ⟨4096, 4096⟩) \ points ⟨4096, 4096⟩) ∪
        points ⟨8192, 4096⟩) := by
    with_unfolding_all rfl
  constructor
  · refine ⟨?_, ?_, ?_, trivial⟩
    · intro before isBefore
      obtain rfl := some.inj isBefore
      exact accepts_dummy ⟨rfl, rfl⟩ (by decide) (by decide)
    · intro before isBefore
      rw [show step (some init) (.add 4096 4096) = some before from isBefore] at once
      have isOne : before.state.memory.cnt = 1 := some.inj once
      refine ⟨by decide, .inl ?_⟩
      rw [isOne]
      decide
    intro before isBefore
    rw [show step (step (some init) (.add 4096 4096)) (.remove 4096 4096) = some before from
      isBefore] at emptied
    have isZero : before.state.memory.cnt = 0 := some.inj emptied
    refine ⟨by decide, by decide, ?_, .inl ?_⟩
    · refine disjoint_left.mpr ?_
      rintro point ⟨place, bound, _⟩
      rw [isZero] at bound
      exact absurd bound (Nat.not_lt_zero place)
    · rw [isZero]
      decide
  · rintro ⟨history, isRun, exact⟩
    rw [isRun] at final sets
    have isFirst := Prod.mk.inj (some.inj final)
    have isMemory : history.memory = _ := some.inj sets
    have inside : 4096 ∈ covered history.state.memory.cnt history.state.memory.region := by
      refine ⟨0, ?_, ?_⟩
      · rw [isFirst.1]
        exact one_pos
      · rw [isFirst.2, mem_points]
        decide
    rw [exact.memory.covered, isMemory] at inside
    rcases inside with ⟨_, outside⟩ | isNew
    · refine outside ?_
      rw [mem_points]
      decide
    · rw [mem_points] at isNew
      exact absurd isNew.1 (by decide)

end History

end StreakKernel.Memblock
