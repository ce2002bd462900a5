import StreakKernel.Memblock.Sets

/-!
# Allocation

`__memblock_alloc_base` looks for a free range from the last region of the memory downwards, and in
a region from its end downwards. It takes the size off the limit without a test, so that the range
it finds is not usable if the limit is below the size.
-/

namespace StreakKernel.Memblock

open Option Segment Word
open Segment (stop points)

def addrsOverlap (base1 size1 base2 size2 : ℕ) : Bool :=
  decide (base1 < add64 base2 size2) && decide (base2 < add64 base1 size1)

def alignUp (addr size : ℕ) : ℕ := alignDown (add64 addr (size - 1)) size

namespace Table

/-- The loop of `memblock_overlaps_region`, with `rest` regions to go. -/
def overlapsRegion (table : Table) (base size : ℕ) : ℕ → ℕ → Option ℕ
  | _, 0 => none
  | i, rest + 1 =>
    if addrsOverlap base size (table.region i).base (table.region i).size then some i
    else overlapsRegion table base size (i + 1) rest

theorem overlapsRegion_cases (table : Table) (base size i rest : ℕ) :
    (table.overlapsRegion base size i rest = none ∧ ∀ j, i ≤ j → j < i + rest →
      addrsOverlap base size (table.region j).base (table.region j).size = false) ∨
    ∃ j, table.overlapsRegion base size i rest = some j ∧
      addrsOverlap base size (table.region j).base (table.region j).size = true := by
  induction rest generalizing i with
  | zero => exact .inl ⟨rfl, fun j low high => absurd high (Nat.not_lt.mpr low)⟩
  | succ rest ih =>
    unfold overlapsRegion
    split_ifs with overlaps
    · exact .inr ⟨i, rfl, overlaps⟩
    rcases ih (i + 1) with ⟨isNone, apart⟩ | found
    · refine .inl ⟨isNone, fun j low high => ?_⟩
      rcases Nat.eq_or_lt_of_le low with rfl | above
      · exact Bool.eq_false_iff.mpr overlaps
      · exact apart j above (by omega)
    · exact .inr found

theorem base_lt_of_overlapsRegion {table : Table} {base size i rest j : ℕ}
    (found : table.overlapsRegion base size i rest = some j) :
    (table.region j).base < base + size := by
  rcases table.overlapsRegion_cases base size i rest with ⟨isNone, _⟩ | ⟨other, isOther, overlaps⟩
  · exact absurd (isNone.symm.trans found) (by simp)
  obtain rfl : other = j := some.inj (isOther.symm.trans found)
  unfold addrsOverlap at overlaps
  rw [Bool.and_eq_true, decide_eq_true_eq, decide_eq_true_eq] at overlaps
  exact overlaps.2.trans_le (Nat.mod_le _ _)

/-- The inner loop of `__memblock_alloc_base` over the bases in one region. -/
def search (reserved : Table) (memblockbase size align base : ℕ) : Option ℕ :=
  if base ≠ 0 ∧ memblockbase ≤ base then
    match _found : reserved.overlapsRegion base size 0 reserved.cnt with
    | none => some base
    | some j =>
      if (reserved.region j).base < size then none
      else reserved.search memblockbase size align
        (alignDown ((reserved.region j).base - size) align)
  else none
termination_by base
decreasing_by
  have := base_lt_of_overlapsRegion _found
  have := alignDown_le ((reserved.region j).base - size) align
  omega

variable {reserved : Table} {memblockbase size align base result : ℕ}

theorem search_spec (aligned : align ∣ base)
    (taken : reserved.search memblockbase size align base = some result) :
    align ∣ result ∧ memblockbase ≤ result ∧ result ≤ base ∧
      reserved.overlapsRegion result size 0 reserved.cnt = none := by
  induction base using Nat.strong_induction_on with
  | _ base ih =>
    rw [search] at taken
    split_ifs at taken with inside
    split at taken
    · next isNone =>
      obtain rfl := some.inj taken
      exact ⟨aligned, inside.2, le_rfl, isNone⟩
    next j found =>
    split_ifs at taken with low
    have below := base_lt_of_overlapsRegion found
    have lower := alignDown_le ((reserved.region j).base - size) align
    rcases ih _ (by omega) (dvd_alignDown _ _) taken with ⟨isAligned, above, le, isNone⟩
    exact ⟨isAligned, above, by omega, isNone⟩

end Table

def startBase (rgn : Segment) (size align maxAddr : ℕ) : Option ℕ :=
  if rgn.size < size then none
  else if maxAddr = 0 then
    some (alignDown (sub64 (add64 rgn.base rgn.size) size) align)
  else if rgn.base < maxAddr then
    some (alignDown (sub64 (min (add64 rgn.base rgn.size) maxAddr) size) align)
  else none

namespace State

/-- The outer loop of `__memblock_alloc_base`, down from the region before `i`. -/
def allocFrom (state : State) (size align maxAddr : ℕ) : ℕ → Option ℕ
  | 0 => none
  | i + 1 =>
    let rgn := state.memory.region i
    match (startBase rgn size align maxAddr).bind
        (state.reserved.search rgn.base size align) with
    | some base => some base
    | none => allocFrom state size align maxAddr i

/-- `__memblock_alloc_base`, where `MEMBLOCK_REAL_LIMIT` depends on the platform. -/
def allocBase (state : State) (realLimit size align maxAddr : ℕ) : Option (State × ℕ) :=
  if size = 0 then none
  else
    let size := alignUp size align
    let maxAddr := if maxAddr = 0 then realLimit else maxAddr
    match state.allocFrom size align maxAddr state.memory.cnt with
    | none => some (state, 0)
    | some base => (state.reserved.addRegion base size).map fun result =>
      ({ state with reserved := result.1 }, if result.2 < 0 then 0 else base)

end State

section Alloc

variable {rgn : Segment} {state : State} {memory reserved : Set ℕ}
  {size align maxAddr base i : ℕ}

theorem startBase_spec (small : rgn.stop < 18446744073709551616)
    (limited : maxAddr = 0 ∨ size ≤ maxAddr) (started : startBase rgn size align maxAddr = some
      base) : align ∣ base ∧ base + size ≤ rgn.stop ∧ (maxAddr ≠ 0 → base + size ≤ maxAddr) := by
  have isStop : add64 rgn.base rgn.size = rgn.stop := add64_eq small
  unfold startBase at started
  rw [isStop] at started
  split_ifs at started with short anywhere low
  · obtain rfl := some.inj started
    have lower := alignDown_le (sub64 rgn.stop size) align
    rw [sub64_eq (by unfold stop; omega) small] at lower ⊢
    refine ⟨dvd_alignDown _ _, ?_, fun limit => absurd anywhere limit⟩
    unfold stop at lower ⊢
    omega
  obtain rfl := some.inj started
  have lower := alignDown_le (sub64 (min rgn.stop maxAddr) size) align
  have le : size ≤ min rgn.stop maxAddr := by
    unfold stop
    omega
  rw [sub64_eq le (by omega)] at lower ⊢
  exact ⟨dvd_alignDown _ _, by omega, fun _ => by omega⟩

theorem allocFrom_spec (small : ∀ i < state.memory.cnt, 0 < (state.memory.region i).size →
      (state.memory.region i).stop < 18446744073709551616) (pos : 0 < size)
    (limited : maxAddr = 0 ∨ size ≤ maxAddr) (bound : i ≤ state.memory.cnt)
    (taken : state.allocFrom size align maxAddr i = some base) :
    align ∣ base ∧ (maxAddr ≠ 0 → base + size ≤ maxAddr) ∧
      (∃ i < state.memory.cnt, (state.memory.region i).base ≤ base ∧
        base + size ≤ (state.memory.region i).stop ∧
        (state.memory.region i).stop < 18446744073709551616) ∧
      state.reserved.overlapsRegion base size 0 state.reserved.cnt = none := by
  induction i with
  | zero => exact absurd taken (by simp [State.allocFrom])
  | succ i ih =>
    unfold State.allocFrom at taken
    dsimp only at taken
    split at taken
    · next other isOther =>
      obtain rfl := some.inj taken
      rcases bind_eq_some_iff.mp isOther with ⟨start, started, searched⟩
      have large : ¬(state.memory.region i).size < size := by
        intro short
        rw [startBase, if_pos short] at started
        exact absurd started (by simp)
      have isSmall := small i bound (by omega)
      rcases startBase_spec isSmall limited started with ⟨startAligned, startFits, startBelow⟩
      rcases Table.search_spec startAligned searched with ⟨aligned, above, le, isNone⟩
      exact ⟨aligned, fun limit => by have := startBelow limit; omega,
        ⟨i, bound, above, by omega, isSmall⟩, isNone⟩
    · exact ih (by omega) taken

variable {table : Table}

theorem Table.Holds.disjoint (holds : table.Holds reserved)
    (small : base + size < 18446744073709551616)
    (isNone : table.overlapsRegion base size 0 table.cnt = none) :
    Disjoint reserved (points ⟨base, size⟩) := by
  rcases holds with ⟨tidy, rfl⟩ | ⟨_, rfl⟩
  · rcases table.overlapsRegion_cases base size 0 table.cnt with ⟨_, apart⟩ | ⟨_, isSome, _⟩
    · refine Set.disjoint_left.mpr ?_
      rintro point ⟨j, bound, low, high⟩ inside
      have isApart := apart j (Nat.zero_le j) (by omega)
      unfold addrsOverlap at isApart
      rw [add64_eq small, add64_eq (tidy.small j bound), Bool.and_eq_false_iff,
        decide_eq_false_iff_not, decide_eq_false_iff_not] at isApart
      rw [mem_points] at inside
      unfold stop at high inside
      dsimp only at inside
      omega
    · exact absurd (isNone.symm.trans isSome) (by simp)
  · exact Set.disjoint_left.mpr fun _ never => never.elim

theorem Table.finishAdd_extended (count : table.cnt ≤ maxRegions) (bound : i < table.cnt) :
    ∃ after code, table.finishAdd base size i 1 = some (after, code) ∧ 0 ≤ code := by
  by_cases joins : i < sub table.cnt 1 ∧ table.regionsAdjacent i (i + 1) ≠ 0
  · rw [Table.finishAdd, if_pos joins]
    have isCount : sub table.cnt 1 = table.cnt - 1 :=
      sub_eq (by omega) (by unfold maxRegions at count; omega)
    let grown : Segment := ⟨(table.region i).base,
      add64 (table.region i).size (table.region (i + 1)).size⟩
    rcases @Table.removeRegion_spec (table.put i grown) (i + 1) count
      (by rw [Table.put_cnt]; omega) with ⟨region, isRemoved, _⟩
    exact ⟨_, 2, by rw [Table.coalesceRegions, isRemoved]; rfl, by decide⟩
  · exact ⟨table, 1, Table.finishAdd_done (by decide) joins, by decide⟩

theorem Table.Holds.addRegion_result (holds : table.Holds reserved) (populated : 0 < table.cnt)
    (other : ∀ i < table.cnt, table.region i ≠ ⟨base, size⟩) :
    ∃ after code, table.addRegion base size = some (after, code) ∧
      (0 ≤ code ↔ table.cnt < maxRegions ∨ ∃ i < table.cnt, table.adjacentAt base size i ≠ 0) := by
  rcases holds with ⟨tidy, _⟩ | ⟨dummy, _⟩
  · have isNew : ¬(table.cnt = 1 ∧ (table.region 0).size = 0) := by
      have := tidy.positive 0 populated
      omega
    have isCount := tidy.isCount populated
    have extended : ∀ j < table.cnt, table.adjacentAt base size j ≠ 0 → ∀ rgn,
        table.tryCoalesce base size 0 table.cnt = .extended j rgn →
        ∃ after code, table.addRegion base size = some (after, code) ∧
        (0 ≤ code ↔ table.cnt < maxRegions ∨
          ∃ i < table.cnt, table.adjacentAt base size i ≠ 0) := by
      intro j bound joins rgn isExtended
      rcases @Table.finishAdd_extended base size j (table.put j rgn) tidy.count bound with
        ⟨after, code, done, success⟩
      refine ⟨after, code, ?_, iff_of_true success (.inr ⟨j, bound, joins⟩)⟩
      rw [Table.addRegion, if_neg isNew, isExtended]
      exact done
    rcases table.tryCoalesce_cases base size 0 table.cnt with
      ⟨isEnd, apart⟩ | ⟨j, bound, same⟩ | ⟨j, bound, _, ⟨joins, found⟩ | ⟨joins, found⟩⟩
    · have never : ¬∃ i < table.cnt, table.adjacentAt base size i ≠ 0 := by
        rintro ⟨i, bound, joins⟩
        exact joins (apart i (Nat.zero_le i) (by omega))
      rw [Table.addRegion, if_neg isNew, isEnd, or_iff_left never]
      dsimp only
      rw [Table.finishAdd, if_neg fun joins => by omega, if_neg (by decide)]
      split_ifs with full
      · exact ⟨table, -1, rfl, iff_of_false (by decide) (Nat.not_lt.mpr full)⟩
      · exact ⟨_, 0, rfl, iff_of_true (by decide) (Nat.lt_of_not_le full)⟩
    · exact absurd same (other j (by omega))
    · exact extended j (by omega) (by omega) _ found
    · exact extended j (by omega) (by omega) _ found
  · exact ⟨table.put 0 ⟨base, size⟩, 0, by
      rw [Table.addRegion, if_pos ⟨dummy.1, by rw [dummy.2]⟩],
      iff_of_true (by decide) (.inl (by rw [dummy.1]; decide))⟩

theorem Table.Holds.addRegion_of_fresh {after : Table} {code : ℤ} (holds : table.Holds reserved)
    (populated : 0 < table.cnt) (pos : 0 < size) (small : base + size < 18446744073709551616)
    (fresh : Disjoint reserved (points ⟨base, size⟩))
    (added : table.addRegion base size = some (after, code)) (success : 0 ≤ code) :
    after.IsSet (reserved ∪ points ⟨base, size⟩) := by
  have isFresh : Disjoint (covered table.cnt table.region) (points ⟨base, size⟩) :=
    holds.isSet.covered ▸ fresh
  have other : ∀ i < table.cnt, table.region i ≠ ⟨base, size⟩ := by
    intro i bound same
    have inside : base ∈ points ⟨base, size⟩ := ⟨le_rfl, Nat.lt_add_of_pos_right pos⟩
    exact Set.disjoint_left.mp isFresh (points_subset_covered bound (by rwa [same])) inside
  rcases holds.addRegion_result populated other with ⟨table', code', isAdded, roomIff⟩
  obtain ⟨rfl, rfl⟩ := Prod.mk.inj (some.inj (added.symm.trans isAdded))
  rcases holds.addRegion ⟨pos, small, isFresh, roomIff.mp success⟩ fun isEmpty => by omega with
    ⟨result, _, isResult, holdsResult⟩
  obtain rfl := (Prod.mk.inj (some.inj (added.symm.trans isResult))).1
  exact holdsResult.isSet

theorem le_alignUp (pos : 0 < align) (small : size + align ≤ 18446744073709551616) :
    size ≤ alignUp size align := by
  unfold alignUp alignDown
  rw [add64_eq (by omega)]
  have := Nat.mod_lt (size + (align - 1)) pos
  omega

theorem Table.Holds.small (holds : table.Holds memory) (bound : i < table.cnt)
    (pos : 0 < (table.region i).size) : (table.region i).stop < 18446744073709551616 := by
  rcases holds with ⟨tidy, _⟩ | ⟨dummy, _⟩
  · exact tidy.small i bound
  obtain rfl : i = 0 := by
    rw [dummy.1] at bound
    omega
  exact absurd pos (by rw [dummy.2]; decide)

/-- The range from a base is aligned, in a region of the memory, below the limit if there is one,
and not reserved. -/
structure Usable (state : State) (reserved : Set ℕ) (size align maxAddr base : ℕ) : Prop where
  aligned : align ∣ base
  inside : ∃ i < state.memory.cnt,
    (state.memory.region i).base ≤ base ∧ base + size ≤ (state.memory.region i).stop
  below : maxAddr ≠ 0 → base + size ≤ maxAddr
  fresh : Disjoint reserved (points ⟨base, size⟩)

/-- What an allocation should do: if it succeeds, it takes a usable range and reserves it. -/
def State.AllocatesUsable (state : State) (reserved : Set ℕ) (realLimit size align maxAddr : ℕ) :
    Prop :=
  ∀ after base, state.allocBase realLimit size align maxAddr = some (after, base) → base ≠ 0 →
    Usable state reserved (alignUp size align) align maxAddr base ∧
      after.memory = state.memory ∧
      after.reserved.IsSet (reserved ∪ points ⟨base, alignUp size align⟩)

/-- The size is above the limit, some region of the memory gets as far as the difference, which
wraps, and the range from there can be reserved. -/
def State.Wraps (state : State) (limit size align : ℕ) : Prop :=
  let base := alignDown (sub64 limit size) align
  limit ≠ 0 ∧ limit < size ∧ base ≠ 0 ∧
    (∃ i < state.memory.cnt, size ≤ (state.memory.region i).size ∧
      (state.memory.region i).base < limit ∧ (state.memory.region i).base ≤ base) ∧
    state.reserved.overlapsRegion base size 0 state.reserved.cnt = none ∧
    (state.reserved.cnt < maxRegions ∨
      ∃ i < state.reserved.cnt, state.reserved.adjacentAt base size i ≠ 0)

theorem allocatesUsable_of_limited {realLimit : ℕ} (k : ℕ) (isMemory : state.memory.Holds memory)
    (isReserved : state.reserved.Holds reserved) (populated : 0 < state.reserved.cnt)
    (positive : 0 < size) (small : size + 2 ^ k ≤ 18446744073709551616)
    (limited : (if maxAddr = 0 then realLimit else maxAddr) = 0 ∨
      alignUp size (2 ^ k) ≤ if maxAddr = 0 then realLimit else maxAddr) :
    state.AllocatesUsable reserved realLimit size (2 ^ k) maxAddr := by
  intro after base allocated success
  have large := le_alignUp (Nat.two_pow_pos k) small
  unfold State.allocBase at allocated
  rw [if_neg positive.ne'] at allocated
  dsimp only at allocated
  split at allocated
  · obtain ⟨_, rfl⟩ := Prod.mk.inj (some.inj allocated)
    exact absurd rfl success
  next taken isTaken =>
  rcases map_eq_some_iff.mp allocated with ⟨⟨table, code⟩, added, isResult⟩
  obtain ⟨rfl, isBase⟩ := Prod.mk.inj isResult
  have isDone : ¬code < 0 := by
    intro failed
    exact success (isBase.symm.trans (if_pos failed))
  obtain rfl : taken = base := (if_neg isDone).symm.trans isBase
  rcases allocFrom_spec (fun i bound => isMemory.small bound) (by omega) limited le_rfl isTaken
    with ⟨aligned, below, ⟨i, bound, low, high, isSmall⟩, isNone⟩
  have fresh := isReserved.disjoint (by omega) isNone
  refine ⟨⟨aligned, ⟨i, bound, low, high⟩, fun limit => ?_, fresh⟩, rfl, ?_⟩
  · rw [if_neg limit] at below
    exact below limit
  · exact isReserved.addRegion_of_fresh populated (by omega) (by omega) fresh added (by omega)

-- A range that wraps ends below its own size, and so does what overlaps it.
theorem Table.search_of_wrapped {memblockbase : ℕ} (wrapped : add64 base size < size) :
    table.search memblockbase size align base =
      if (base ≠ 0 ∧ memblockbase ≤ base) ∧ table.overlapsRegion base size 0 table.cnt = none
      then some base else none := by
  rw [Table.search]
  split_ifs with inside taken taken
  · split
    · rfl
    · next found => exact absurd (taken.2.symm.trans found) (by simp)
  · split
    · next isNone => exact absurd ⟨inside, isNone⟩ taken
    next j found =>
    have below : (table.region j).base < add64 base size := by
      rcases table.overlapsRegion_cases base size 0 table.cnt with
        ⟨isNone, _⟩ | ⟨other, isOther, overlaps⟩
      · exact absurd (isNone.symm.trans found) (by simp)
      obtain rfl : other = j := some.inj (isOther.symm.trans found)
      unfold addrsOverlap at overlaps
      rw [Bool.and_eq_true, decide_eq_true_eq, decide_eq_true_eq] at overlaps
      exact overlaps.2
    rw [if_pos (below.trans wrapped)]
  · exact absurd taken.1 inside
  · rfl

theorem allocFrom_of_wrapped {limit taken : ℕ} (small : ∀ i < state.memory.cnt,
      0 < (state.memory.region i).size → (state.memory.region i).stop < 18446744073709551616)
    (isLimit : limit ≠ 0) (above : limit < size)
    (wrapped : add64 (alignDown (sub64 limit size) align) size < size)
    (bound : i ≤ state.memory.cnt) : state.allocFrom size align limit i = some taken ↔
      taken = alignDown (sub64 limit size) align ∧ taken ≠ 0 ∧
        (∃ j < i, size ≤ (state.memory.region j).size ∧ (state.memory.region j).base < limit ∧
          (state.memory.region j).base ≤ taken) ∧
        state.reserved.overlapsRegion taken size 0 state.reserved.cnt = none := by
  induction i with
  | zero => simp [State.allocFrom]
  | succ i ih =>
    have split : (∃ j < i + 1, size ≤ (state.memory.region j).size ∧
          (state.memory.region j).base < limit ∧ (state.memory.region j).base ≤ taken) ↔
        (size ≤ (state.memory.region i).size ∧ (state.memory.region i).base < limit ∧
          (state.memory.region i).base ≤ taken) ∨
        ∃ j < i, size ≤ (state.memory.region j).size ∧
          (state.memory.region j).base < limit ∧ (state.memory.region j).base ≤ taken := by
      refine Nat.exists_lt_succ_right.trans or_comm
    rw [split, State.allocFrom]
    -- The region is long enough for the size, so that the limit is what the size is taken off.
    have started : startBase (state.memory.region i) size align limit =
        if size ≤ (state.memory.region i).size ∧ (state.memory.region i).base < limit
        then some (alignDown (sub64 limit size) align) else none := by
      unfold startBase
      split_ifs with short inside inside below <;> try omega
      · rfl
      · have isSmall := small i (by omega) (by omega)
        rw [add64_eq isSmall, Nat.min_eq_right (by omega)]
      · rfl
    rw [started]
    split_ifs with long
    · rw [bind_some, Table.search_of_wrapped wrapped]
      split_ifs with free
      · simp only [some.injEq]
        constructor
        · rintro rfl
          exact ⟨rfl, free.1.1, .inl ⟨long.1, long.2, free.1.2⟩, free.2⟩
        · exact fun taken => taken.1.symm
      · simp only
        rw [ih (by omega)]
        refine and_congr_right fun isBase => and_congr_right fun nonzero => ?_
        refine and_congr_left fun isNone => (or_iff_right ?_).symm
        rintro ⟨_, _, low⟩
        exact free (isBase ▸ ⟨⟨nonzero, low⟩, isNone⟩)
    · rw [bind_none]
      simp only
      rw [ih (by omega), or_iff_right fun here => long ⟨here.1, here.2.1⟩]

theorem le_alignDown {value granule low : ℕ} (aligned : granule ∣ low) (le : low ≤ value) :
    low ≤ alignDown value granule := by
  have isQuotient := Nat.mul_div_cancel_left' aligned
  have lower := Nat.mul_le_mul_left granule (Nat.div_le_div_right (c := granule) le)
  have isSum := Nat.div_add_mod value granule
  unfold alignDown
  omega

theorem wrapped_end {limit k : ℕ} (isPower : k < 64) (above : limit < size)
    (isSize : size < 18446744073709551616) (aligned : 2 ^ k ∣ size) :
    18446744073709551616 ≤ alignDown (sub64 limit size) (2 ^ k) + size ∧
      alignDown (sub64 limit size) (2 ^ k) + size ≤ 18446744073709551616 + limit := by
  have isDifference : sub64 limit size = limit + (18446744073709551616 - size) := by
    unfold sub64
    omega
  have atEnd : 2 ^ k ∣ 18446744073709551616 - size :=
    Nat.dvd_sub (Nat.pow_dvd_pow 2 isPower.le) aligned
  have lower := alignDown_le (sub64 limit size) (2 ^ k)
  have upper : 18446744073709551616 - size ≤ alignDown (sub64 limit size) (2 ^ k) :=
    le_alignDown atEnd (by omega)
  omega

end Alloc

/-- One megabyte of memory from address zero, and nothing reserved. -/
def bareState : State := ⟨0, ⟨1, fun _ => ⟨0, 1048576⟩⟩, .init⟩

theorem bareState_allocBase {limit start : ℕ}
    (started : startBase ⟨0, 1048576⟩ 8192 4096 limit = some start) (nonzero : start ≠ 0) :
    ∃ after, bareState.allocBase 0 8192 4096 limit = some (after, start) := by
  have isNone : Table.init.overlapsRegion start 8192 0 1 = none := by
    simp [Table.overlapsRegion, Table.init, addrsOverlap, add64]
  have searched : Table.init.search 0 8192 4096 start = some start := by
    rw [Table.search, if_pos ⟨nonzero, Nat.zero_le start⟩]
    split
    · rfl
    · next found => exact absurd (isNone.symm.trans found) (by simp)
  have isLimit : (if limit = 0 then 0 else limit) = limit := by
    split_ifs with isZero
    · exact isZero.symm
    · rfl
  refine ⟨{ bareState with reserved := Table.init.put 0 ⟨start, 8192⟩ }, ?_⟩
  unfold State.allocBase
  rw [if_neg (by decide), isLimit, show alignUp 8192 4096 = 8192 from rfl]
  simp only [bareState, State.allocFrom, started, bind_some, searched]
  rfl

theorem bareState_holds : bareState.memory.Holds (covered 1 bareState.memory.region) := by
  refine .inl ⟨⟨by decide, ?_, fun _ _ => by decide +revert, fun _ _ => by decide +revert⟩, rfl⟩
  intro left right before bound
  exact absurd bound (by change ¬right < 1; omega)

end StreakKernel.Memblock
