import Mathlib.Algebra.Group.Int.Defs
import StreakKernel.Pmem.Bitmap

/-!
# Ranges of bits

What the word-level functions of the bitmap allocator do to single bits: a range is set
or cleared exactly, and the search gives a range of clear bits.
-/

namespace StreakKernel.Pmem

open BitVec

variable {words : Words} {bitStart bitEnd bit : ℤ}

theorem toNat_emod (bit : ℤ) : ((bit % 32).toNat : ℤ) = bit % 32 ∧ (bit % 32).toNat < 32 := by
  omega

theorem isSet_changeBits {change : BitVec 32 → BitVec 32 → BitVec 32} {fill : BitVec 32}
    {value : Bool} (changes : ∀ word mask, ∀ index < 32, (change word mask).getLsbD index =
      if mask.getLsbD index = true then value else word.getLsbD index)
    (fills : ∀ index < 32, fill.getLsbD index = value) (ordered : bitStart ≤ bitEnd) :
    isSet (changeBits change fill words bitStart bitEnd) bit =
      if bitStart ≤ bit ∧ bit < bitEnd then value else isSet words bit := by
  rcases toNat_emod bit with ⟨isIndex, small⟩
  have total : computeTotalWords bitEnd (bitStart / 32) = (bitEnd + 31) / 32 - bitStart / 32 := rfl
  unfold isSet changeBits
  by_cases someWords : 0 < computeTotalWords bitEnd (bitStart / 32)
  · rw [if_pos someWords]
    by_cases single : computeTotalWords bitEnd (bitStart / 32) = 1
    · rw [if_pos single, Function.update_apply]
      by_cases here : bit / 32 = bitStart / 32
      · rw [if_pos here, changes _ _ _ small, here]
        apply if_congr _ rfl rfl
        rw [getLsbD_and, getLsbD_startMask _ small, getLsbD_endMask _ small]
        simp only [Bool.and_eq_true, decide_eq_true_eq]
        omega
      · rw [if_neg here, if_neg (by omega)]
    rw [if_neg single]
    simp only [Function.update_apply]
    by_cases atEnd : bit / 32 = bitStart / 32 + (computeTotalWords bitEnd (bitStart / 32) - 1)
    · have notMiddle : ¬ (bitStart / 32 < bit / 32 ∧ bit / 32 < bit / 32) := by omega
      have notFirst : bit / 32 ≠ bitStart / 32 := by omega
      rw [← atEnd, if_pos rfl, changes _ _ _ small, if_neg notMiddle, if_neg notFirst]
      apply if_congr _ rfl rfl
      rw [getLsbD_endMask _ small]
      simp only [decide_eq_true_eq]
      omega
    rw [if_neg atEnd]
    by_cases middle : bitStart / 32 < bit / 32 ∧
        bit / 32 < bitStart / 32 + (computeTotalWords bitEnd (bitStart / 32) - 1)
    · rw [if_pos middle, fills _ small, if_pos (by omega)]
    rw [if_neg middle]
    by_cases here : bit / 32 = bitStart / 32
    · rw [if_pos here, changes _ _ _ small, here]
      apply if_congr _ rfl rfl
      rw [getLsbD_startMask _ small]
      simp only [decide_eq_true_eq]
      omega
    · rw [if_neg here, if_neg (by omega)]
  · rw [if_neg someWords, if_neg (by omega)]

theorem isSet_setAll (ordered : bitStart ≤ bitEnd) :
    isSet (bitmapBitsSetAll words bitStart bitEnd) bit =
      if bitStart ≤ bit ∧ bit < bitEnd then true else isSet words bit := by
  apply isSet_changeBits _ _ ordered
  · intro word mask index _
    rw [getLsbD_or]
    cases mask.getLsbD index <;> simp
  · intro index small
    rw [getLsbD_allOnes]
    exact decide_eq_true small

theorem isSet_clearAll (ordered : bitStart ≤ bitEnd) :
    isSet (bitmapBitsClearAll words bitStart bitEnd) bit =
      if bitStart ≤ bit ∧ bit < bitEnd then false else isSet words bit := by
  apply isSet_changeBits _ _ ordered
  · intro word mask index small
    rw [getLsbD_and, getLsbD_not]
    cases mask.getLsbD index <;> simp [small]
  · intro index _
    exact getLsbD_zero

/-! ## The search -/

theorem getLsbD_of_fls_eq_zero {word : BitVec 32} (idle : fls word = 0) (index : ℕ) :
    word.getLsbD index = false := by
  unfold fls at idle
  split_ifs at idle with zero
  rw [zero]
  exact getLsbD_zero

theorem isSet_of_fls_eq_zero {mask : BitVec 32} (idle : fls (words (bit / 32) &&& mask) = 0)
    (inMask : mask.getLsbD (bit % 32).toNat = true) : isSet words bit = false := by
  have clear := getLsbD_of_fls_eq_zero idle (bit % 32).toNat
  rw [getLsbD_and, inMask, Bool.and_true] at clear
  exact clear

theorem idle_of_firstBusy_eq_none {count : ℕ} {wordIndex index : ℤ}
    (none : firstBusy words count wordIndex = none) (lower : wordIndex ≤ index)
    (upper : index < wordIndex + count) : fls (words index) = 0 := by
  induction count generalizing wordIndex with
  | zero => omega
  | succ count ih =>
    rw [firstBusy] at none
    split_ifs at none with busy
    by_cases here : index = wordIndex
    · rw [here]
      exact not_not.mp busy
    · exact ih none (by omega) (by omega)

theorem isSet_of_busyWord_eq_none (none : busyWord words bitStart bitEnd = none)
    (lower : bitStart ≤ bit) (upper : bit < bitEnd) : isSet words bit = false := by
  rcases toNat_emod bit with ⟨isIndex, small⟩
  have total : computeTotalWords bitEnd (bitStart / 32) = (bitEnd + 31) / 32 - bitStart / 32 := rfl
  unfold busyWord at none
  simp only at none
  by_cases single : computeTotalWords bitEnd (bitStart / 32) = 1
  · rw [if_pos single] at none
    split_ifs at none with busy
    have here : bit / 32 = bitStart / 32 := by omega
    rw [← here] at busy
    apply isSet_of_fls_eq_zero (not_not.mp busy)
    rw [getLsbD_and, getLsbD_startMask _ small, getLsbD_endMask _ small]
    simp only [Bool.and_eq_true, decide_eq_true_eq]
    omega
  split_ifs at none with first last
  · split at none <;> cases none
  split at none
  · cases none
  rename_i middle
  rcases Int.lt_trichotomy (bit / 32)
    (bitStart / 32 + (computeTotalWords bitEnd (bitStart / 32) - 1)) with
    before | atEnd | after
  · by_cases here : bit / 32 = bitStart / 32
    · rw [← here] at first
      apply isSet_of_fls_eq_zero (not_not.mp first)
      rw [getLsbD_startMask _ small, decide_eq_true_eq]
      omega
    · exact getLsbD_of_fls_eq_zero
        (idle_of_firstBusy_eq_none middle (by omega) (by omega)) _
  · rw [← atEnd] at last
    apply isSet_of_fls_eq_zero (not_not.mp last)
    rw [getLsbD_endMask _ small, decide_eq_true_eq]
    omega
  · omega

structure FreeRun (words : Words) (numBits totalBits spacing start : ℤ) : Prop where
  nonneg : 0 ≤ start
  aligned : spacing ∣ start
  fits : start + numBits ≤ totalBits
  clear : ∀ bit, start ≤ bit → bit < start + numBits → isSet words bit = false

section Search

variable {numBits totalBits spacing : ℤ}

theorem Busy.next_le {busy : ℤ × ℕ} {start : ℤ}
    (isBusy : Busy words bitStart (bitStart + numBits) busy) (pos : 0 < spacing)
    (free : FreeRun words numBits totalBits spacing start) (le : bitStart ≤ start) :
    stopBit busy + spacing - 1 - (stopBit busy + spacing - 1) % spacing ≤ start := by
  have later : stopBit busy ≤ start := by
    by_contra before
    have upper := isBusy.upper
    have clear := free.clear (stopBit busy - 1) (by omega) (by omega)
    rw [isBusy.occupied] at clear
    cases clear
  rcases free.aligned with ⟨count, rfl⟩
  have isDown := Int.mul_ediv_add_emod (stopBit busy + spacing - 1) spacing
  have small : (stopBit busy + spacing - 1) / spacing ≤ count := by
    refine Int.le_of_lt_add_one (Int.ediv_lt_of_lt_mul pos ?_)
    rw [Int.add_mul, Int.mul_comm count, Int.one_mul]
    omega
  have := Int.mul_le_mul_of_nonneg_left small (Int.le_of_lt pos)
  omega

theorem allocateContiguous_spec (pos : 0 < spacing) (someBits : 0 < numBits)
    (nonneg : 0 ≤ bitStart) (aligned : spacing ∣ bitStart)
    (before : ∀ start, FreeRun words numBits totalBits spacing start → bitStart ≤ start) :
    (allocateContiguous words numBits totalBits spacing pos bitStart = (words, none) ∧
      ∀ start, ¬FreeRun words numBits totalBits spacing start) ∨
    ∃ found, allocateContiguous words numBits totalBits spacing pos bitStart =
        (bitmapBitsSetAll words found (found + numBits), some found) ∧
      FreeRun words numBits totalBits spacing found ∧
      ∀ start, FreeRun words numBits totalBits spacing start → found ≤ start := by
  induction bitStart using allocateContiguous.induct words numBits totalBits spacing pos with
  | case1 bitStart bitEnd beyond =>
    refine .inl ⟨by rw [allocateContiguous, if_pos beyond], fun start free => ?_⟩
    have le := before start free
    have fits := free.fits
    omega
  | case2 bitStart bitEnd _ noWords =>
    unfold computeTotalWords at noWords
    omega
  | case3 bitStart bitEnd within someWords wordIndex lastBit isBusy next ih =>
    have busy := busyWord_spec (Int.not_le.mp someWords) isBusy
    have step : allocateContiguous words numBits totalBits spacing pos bitStart =
        allocateContiguous words numBits totalBits spacing pos (next - next % spacing) := by
      rw [allocateContiguous, if_neg within, if_neg someWords]
      split
      · next found =>
        cases found.symm.trans isBusy
        rfl
      · next idle => cases idle.symm.trans isBusy
    rw [step]
    refine ih ?_ (Int.dvd_self_sub_emod) fun start free =>
      busy.next_le pos free (before start free)
    have later := busy.lower
    have rest := Int.emod_lt_of_pos next pos
    simp only [stopBit] at later
    omega
  | case4 bitStart bitEnd within someWords idle =>
    refine .inr ⟨bitStart, ?_, ⟨nonneg, aligned, Int.not_lt.mp within, ?_⟩, before⟩
    · rw [allocateContiguous, if_neg within, if_neg someWords]
      split
      · next found => cases found.symm.trans idle
      · rfl
    · exact fun bit lower upper => isSet_of_busyWord_eq_none idle lower upper

end Search

def bitmapAllocateContiguous (words : Words) (numBitsToAlloc totalBits : ℤ) (shift : ℕ) :
    Words × Option ℤ :=
  allocateSpaced words numBitsToAlloc totalBits (2 ^ shift) (Int.pow_pos (by decide))

/-- What `bitmap_allocate_contiguous` should do: take the first range, or change nothing if there is
none. -/
def TakesFirst (words : Words) (numBits totalBits spacing : ℤ) (result : Words × Option ℤ) : Prop :=
  match result.2 with
  | some found => FreeRun words numBits totalBits spacing found ∧
    (∀ start, FreeRun words numBits totalBits spacing start → found ≤ start) ∧
    ∀ bit, isSet result.1 bit =
      if found ≤ bit ∧ bit < found + numBits then true else isSet words bit
  | none => result.1 = words ∧ ∀ start, ¬FreeRun words numBits totalBits spacing start

/-- The first range of a positive number of bits is taken; for no bits, nothing is. -/
theorem bitmapAllocateContiguous_first (words : Words) (numBits totalBits : ℤ) (shift : ℕ) :
    (0 < numBits → TakesFirst words numBits totalBits (2 ^ shift)
      (bitmapAllocateContiguous words numBits totalBits shift)) ∧
    (numBits ≤ 0 → bitmapAllocateContiguous words numBits totalBits shift = (words, none)) := by
  refine ⟨fun someBits => ?_, fun noBits => if_pos noBits⟩
  rw [bitmapAllocateContiguous, allocateSpaced, if_neg (Int.not_le.mpr someBits)]
  rcases allocateContiguous_spec (Int.pow_pos (by decide : (0 : ℤ) < 2)) someBits (Int.le_refl 0)
    (Int.dvd_zero _) (fun start free => free.nonneg) with
    ⟨isNone, none⟩ | ⟨found, isFound, free, first⟩
  · rw [isNone]
    exact ⟨rfl, none⟩
  · rw [isFound]
    exact ⟨free, first, fun bit => isSet_setAll (by omega)⟩

/-- No bits are not taken at the first place. -/
theorem not_takesFirst_zero :
    ¬TakesFirst (fun _ => 0) 0 32 (2 ^ 0) (bitmapAllocateContiguous (fun _ => 0) 0 32 0) := by
  rintro ⟨_, none⟩
  exact none 0 ⟨Int.le_refl 0, Int.dvd_zero _, by decide, fun bit lower upper => by omega⟩

end StreakKernel.Pmem
