import StreakKernel.Pmem.Region

/-!
# The bitmap allocator of pmem

Shallow embedding of the bitmap allocator of `drivers/misc/pmem.c`. `int` values are
integers, so that a shift to the right rounds down and masking takes the remainder;
they stay far below the range of `int`. The memory at `bitmap` is a function of the
word index, which also says what a write outside the bitmap would hit.

`bitm_alloc` is there once `pmem_setup` is done, and the allocator never loses it.
-/

namespace StreakKernel.Pmem

open BitVec

abbrev Words := ℤ → BitVec 32

def isSet (words : Words) (bit : ℤ) : Bool := (words (bit / 32)).getLsbD (bit % 32).toNat

/-! ## Ranges of bits -/

def startMask (bitStart : ℤ) : BitVec 32 := BitVec.allOnes 32 <<< (bitStart % 32).toNat

def endMask (bitEnd : ℤ) : BitVec 32 := BitVec.allOnes 32 >>> ((32 - bitEnd) % 32).toNat

def computeTotalWords (bitEnd wordIndex : ℤ) : ℤ := (bitEnd + 31) / 32 - wordIndex

/-- Apply a change under the masks of a range of bits; whole words are filled. -/
def changeBits (change : BitVec 32 → BitVec 32 → BitVec 32) (fill : BitVec 32) (words : Words)
    (bitStart bitEnd : ℤ) : Words :=
  let wordIndex := bitStart / 32
  let totalWords := computeTotalWords bitEnd wordIndex
  if 0 < totalWords then
    if totalWords = 1 then
      Function.update words wordIndex
        (change (words wordIndex) (startMask bitStart &&& endMask bitEnd))
    else
      let last := wordIndex + (totalWords - 1)
      let words := Function.update words wordIndex (change (words wordIndex) (startMask bitStart))
      let words := fun index => if wordIndex < index ∧ index < last then fill else words index
      Function.update words last (change (words last) (endMask bitEnd))
  else words

def bitmapBitsSetAll : Words → ℤ → ℤ → Words :=
  changeBits (fun word mask => word ||| mask) (BitVec.allOnes 32)

def bitmapBitsClearAll : Words → ℤ → ℤ → Words :=
  changeBits (fun word mask => word &&& ~~~mask) 0

/-! ## Looking for clear bits -/

/-- The number of the highest set bit, counted from 1, or 0. -/
def fls (word : BitVec 32) : ℕ := if word = 0 then 0 else word.toNat.log2 + 1

/-- The first of `count` words that is not 0, with its highest set bit. -/
def firstBusy (words : Words) : ℕ → ℤ → Option (ℤ × ℕ)
  | 0, _ => none
  | count + 1, wordIndex =>
    if fls (words wordIndex) ≠ 0 then some (wordIndex, fls (words wordIndex))
    else firstBusy words count (wordIndex + 1)

/-- The word that keeps a range from being free: one round of
`bitmap_allocate_contiguous`. -/
def busyWord (words : Words) (bitStart bitEnd : ℤ) : Option (ℤ × ℕ) :=
  let wordIndex := bitStart / 32
  let totalWords := computeTotalWords bitEnd wordIndex
  if totalWords = 1 then
    let lastBit := fls (words wordIndex &&& (startMask bitStart &&& endMask bitEnd))
    if lastBit ≠ 0 then some (wordIndex, lastBit) else none
  else
    let endWord := wordIndex + (totalWords - 1)
    let lastBit := fls (words wordIndex &&& startMask bitStart)
    if lastBit ≠ 0 then some (wordIndex, lastBit)
    else
      match firstBusy words (endWord - (wordIndex + 1)).toNat (wordIndex + 1) with
      | some busy => some busy
      | none =>
        let lastBit := fls (words endWord &&& endMask bitEnd)
        if lastBit ≠ 0 then some (endWord, lastBit) else none

variable {word : BitVec 32} {index : ℕ} {bitStart : ℤ} {words : Words} {busy : ℤ × ℕ}

theorem getLsbD_fls (busy : fls word ≠ 0) : word.getLsbD (fls word - 1) = true := by
  unfold fls at busy ⊢
  split_ifs at busy ⊢ with zero
  · exact absurd rfl busy
  rw [Nat.add_sub_cancel]
  apply Nat.testBit_log2
  intro isZero
  exact zero (eq_of_toNat_eq isZero)

theorem getLsbD_startMask (bitStart : ℤ) (small : index < 32) :
    (startMask bitStart).getLsbD index = decide (bitStart % 32 ≤ index) := by
  rw [startMask, getLsbD_shiftLeft, getLsbD_allOnes]
  by_cases reached : bitStart % 32 ≤ index
  · have less : ¬ index < (bitStart % 32).toNat := by omega
    simp [small, reached, less]
    omega
  · have less : index < (bitStart % 32).toNat := by omega
    simp [less, reached]

theorem getLsbD_endMask (bitEnd : ℤ) (small : index < 32) :
    (endMask bitEnd).getLsbD index = decide ((index : ℤ) ≤ (bitEnd - 1) % 32) := by
  rw [endMask, getLsbD_ushiftRight, getLsbD_allOnes, decide_eq_decide]
  omega

def stopBit (busy : ℤ × ℕ) : ℤ := busy.2 + 32 * busy.1

structure Busy (words : Words) (bitStart bitEnd : ℤ) (busy : ℤ × ℕ) : Prop where

  lower : bitStart < stopBit busy
  upper : stopBit busy ≤ bitEnd
  occupied : isSet words (stopBit busy - 1) = true
variable {bitEnd wordIndex : ℤ}

theorem busy_of_fls (isBusy : fls word ≠ 0)
    (within : ∀ index < 32, word.getLsbD index = true → (words wordIndex).getLsbD index = true ∧
      bitStart ≤ index + 32 * wordIndex ∧ index + 32 * wordIndex < bitEnd) :
    Busy words bitStart bitEnd (wordIndex, fls word) := by
  have isBit := getLsbD_fls isBusy
  have small := lt_of_getLsbD isBit
  rcases within _ small isBit with ⟨isWord, lower, upper⟩
  have isIndex : (stopBit (wordIndex, fls word) - 1) / 32 = wordIndex ∧
      ((stopBit (wordIndex, fls word) - 1) % 32).toNat = fls word - 1 := by
    simp only [stopBit]
    omega
  refine ⟨?_, ?_, ?_⟩
  · simp only [stopBit]
    omega
  · simp only [stopBit]
    omega
  · rw [isSet, isIndex.1, isIndex.2]
    exact isWord

theorem busy_of_firstBusy {count : ℕ} (isBusy : firstBusy words count wordIndex = some busy)
    (lower : bitStart ≤ 32 * wordIndex) (upper : 32 * (wordIndex + count) ≤ bitEnd) :
    Busy words bitStart bitEnd busy := by
  induction count generalizing wordIndex with
  | zero => cases isBusy
  | succ count ih =>
    rw [firstBusy] at isBusy
    split_ifs at isBusy with nonzero
    · cases isBusy
      exact busy_of_fls nonzero fun index small isBit => ⟨isBit, by omega, by omega⟩
    · exact ih isBusy (by omega) (by omega)

theorem busyWord_spec (someWords : 0 < computeTotalWords bitEnd (bitStart / 32))
    (isBusy : busyWord words bitStart bitEnd = some busy) : Busy words bitStart bitEnd busy := by
  unfold computeTotalWords at someWords
  unfold busyWord computeTotalWords at isBusy
  simp only at isBusy
  split_ifs at isBusy with single first first last
  · cases isBusy
    refine busy_of_fls first fun index small isBit => ?_
    simp only [getLsbD_and, getLsbD_startMask _ small, getLsbD_endMask _ small,
      Bool.and_eq_true, decide_eq_true_eq] at isBit
    exact ⟨isBit.1, by omega, by omega⟩
  · cases isBusy
    refine busy_of_fls first fun index small isBit => ?_
    simp only [getLsbD_and, getLsbD_startMask _ small, Bool.and_eq_true, decide_eq_true_eq] at isBit
    exact ⟨isBit.1, by omega, by omega⟩
  · split at isBusy
    · next found =>
      cases isBusy
      exact busy_of_firstBusy found (by omega) (by omega)
    cases isBusy
    refine busy_of_fls last fun index small isBit => ?_
    simp only [getLsbD_and, getLsbD_endMask _ small, Bool.and_eq_true, decide_eq_true_eq] at isBit
    exact ⟨isBit.1, by omega, by omega⟩
  · split at isBusy
    · next found =>
      cases isBusy
      exact busy_of_firstBusy found (by omega) (by omega)
    · cases isBusy

/-- `bitmap_allocate_contiguous`, from `bitStart` on. -/
def allocateContiguous (words : Words) (numBits totalBits spacing : ℤ) (positive : 0 < spacing)
    (bitStart : ℤ) : Words × Option ℤ :=
  let bitEnd := bitStart + numBits
  if totalBits < bitEnd then (words, none)
  else if computeTotalWords bitEnd (bitStart / 32) ≤ 0 then (words, none)
  else
    match _isBusy : busyWord words bitStart bitEnd with
    | some (wordIndex, lastBit) =>
      let next := lastBit + 32 * wordIndex + spacing - 1
      allocateContiguous words numBits totalBits spacing positive (next - next % spacing)
    | none => (bitmapBitsSetAll words bitStart bitEnd, some bitStart)
termination_by (totalBits + 1 - numBits - bitStart).toNat
decreasing_by
  rename_i someWords
  have later := (busyWord_spec (Int.not_le.mp someWords) _isBusy).lower
  have bound := Int.emod_lt_of_pos (lastBit + 32 * wordIndex + spacing - 1) positive
  simp only [stopBit] at later
  simp only [bitEnd] at *
  omega

/-! ## The allocator -/

/-- An element of `bitm_alloc`; `bit` is -1 if it is not in use. -/
structure Slot where
  bit : ℤ
  quanta : ℕ
  deriving DecidableEq

structure BitmapState where
  words : Words
  bitmapFree : ℕ
  slots : List Slot

/-- The state that `pmem_setup` builds. -/
def BitmapState.initial (region : Region) : BitmapState :=
  ⟨fun _ => 0, region.numEntries, List.replicate 64 ⟨-1, 0⟩⟩

def alignment (shift : Fin 9) : ℕ := 4096 * 2 ^ shift.val

def bitFromPaddr (region : Region) (paddr : ℕ) : ℕ := Word.sub paddr region.base / region.quantum

/-- `bitmap_allocate_contiguous`, for any positive spacing. -/
def allocateSpaced (words : Words) (numBitsToAlloc totalBits spacing : ℤ) (pos : 0 < spacing) :
    Words × Option ℤ :=
  if numBitsToAlloc ≤ 0 then (words, none)
  else allocateContiguous words numBitsToAlloc totalBits spacing pos 0

/-- `reserve_quanta`; all changes are in the words. -/
def reserveQuanta (region : Region) (state : BitmapState) (quanta align : ℕ) :
    Words × Option ℤ :=
  if state.bitmapFree < quanta then (state.words, none)
  else if Word.toSigned (bitFromPaddr region (Word.alignUp region.base align)) ≤ -1 then
    (state.words, none)
  else
    let spacing : ℤ := max (align / region.quantum : ℕ) 1
    let totalBits := Word.add region.size (region.quantum - 1) / region.quantum
    allocateSpaced state.words quanta totalBits spacing (by omega)

/-- The value of a `short` that is assigned an `int`. -/
def toShort (value : ℤ) : ℤ := (value + 32768) % 65536 - 32768

/-- `bitm_alloc` after a successful `krealloc`, which leaves any `quanta` in the new
slots but the first. -/
def growSlots (slots : List Slot) (newAllocs : ℕ) (left : ℕ → ℕ) : List Slot :=
  slots ++ (List.range (newAllocs - slots.length)).map fun index =>
    ⟨-1, if index = 0 then 0 else left index % 65536⟩

/-- Make sure that there is a free slot; `krealloc` says what it would leave in memory,
or that it fails. -/
def slotsWithRoom (region : Region) (slots : List Slot) (krealloc : Option (ℕ → ℕ)) :
    Option (List Slot) :=
  if slots.findIdx (fun slot => slot.bit = -1) < slots.length then some slots
  else
    let newAllocs := 2 * slots.length
    if newAllocs = 0 then none
    else if region.numEntries < newAllocs then none
    else krealloc.map fun left => growSlots slots newAllocs left

def quantaNeeded (region : Region) (len : ℕ) : ℕ :=
  Word.add len (region.quantum - 1) / region.quantum

/-- `pmem_allocator_bitmap`. The result is the first bit or -1. -/
def pmemAllocatorBitmap (region : Region) (state : BitmapState) (len align : ℕ)
    (krealloc : Option (ℕ → ℕ)) : BitmapState × ℤ :=
  let quanta := quantaNeeded region len
  if state.bitmapFree < quanta then (state, -1)
  else
    match reserveQuanta region state quanta align with
    | (words, none) => ({ state with words := words }, -1)
    | (words, some bitnum) =>
      match slotsWithRoom region state.slots krealloc with
      | none => ({ state with words := words }, -1)
      | some slots =>
        let index := slots.findIdx fun slot => slot.bit = -1
        (⟨words, state.bitmapFree - quanta,
          slots.set index ⟨toShort bitnum, quanta % 65536⟩⟩, bitnum)

/-- `pmem_free_bitmap`. The result is 0 or -1. -/
def pmemFreeBitmap (state : BitmapState) (bitnum : ℤ) : BitmapState × ℤ :=
  let index := state.slots.findIdx fun slot => slot.bit = bitnum
  match state.slots[index]? with
  | none => (state, -1)
  | some slot =>
    (⟨bitmapBitsClearAll state.words slot.bit (slot.bit + slot.quanta),
      Word.add state.bitmapFree slot.quanta, state.slots.set index ⟨-1, 0⟩⟩, 0)

end StreakKernel.Pmem
