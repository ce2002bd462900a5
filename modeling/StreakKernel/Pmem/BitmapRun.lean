import Mathlib.Algebra.Order.Group.Nat
import Mathlib.Order.Interval.Finset.Nat
import StreakKernel.Lib.Run
import StreakKernel.Pmem.BitmapWords

/-!
# Runs of the bitmap allocator

The set bits are those of the slots in use, as long as every range that is found can be
recorded. The allocator sets the bits before it knows that.
-/

namespace StreakKernel.Pmem

open List BitmapState

def clearBits (words : Words) (numEntries : ℕ) : Finset ℕ :=
  (Finset.range numEntries).filter fun bit => isSet words bit = false

def Slot.Covers (slot : Slot) (bit : ℤ) : Prop :=
  slot.bit ≠ -1 ∧ slot.bit ≤ bit ∧ bit < slot.bit + slot.quanta

structure BitmapExact (region : Region) (state : BitmapState) : Prop where
  inside : ∀ slot ∈ state.slots, slot.bit ≠ -1 →
    0 ≤ slot.bit ∧ 0 < slot.quanta ∧ slot.bit + slot.quanta ≤ region.numEntries
  covered : ∀ bit, isSet state.words bit = true ↔ ∃ slot ∈ state.slots, slot.Covers bit
  disjoint : ∀ (first second : ℕ) (firstSlot secondSlot : Slot), first ≠ second →
    state.slots[first]? = some firstSlot → state.slots[second]? = some secondSlot →
      ∀ bit, firstSlot.Covers bit → ¬ secondSlot.Covers bit
  free : state.bitmapFree = (clearBits state.words region.numEntries).card

inductive BitmapRequest where
  | allocate (len : Word.U32) (shift : Fin 9) (krealloc : Option (ℕ → ℕ))
  | free (bitnum : ℤ)

def BitmapState.call (region : Region) (state : BitmapState) : BitmapRequest → BitmapState × ℤ
  | .allocate len shift krealloc =>
    pmemAllocatorBitmap region state len (alignment shift) krealloc
  | .free bitnum => pmemFreeBitmap state bitnum

def BitmapState.step (region : Region) (state : BitmapState) (request : BitmapRequest) :
    BitmapState :=
  (state.call region request).1

/-- There are enough free quanta, and this is the first range of them. -/
structure Reservable (region : Region) (state : BitmapState) (quanta align : ℕ) (found : ℤ) :
    Prop where
  enough : quanta ≤ state.bitmapFree
  positive : 0 < quanta
  address : -1 < Word.toSigned (bitFromPaddr region (Word.alignUp region.base align))
  free : FreeRun state.words quanta region.numEntries (max (align / region.quantum : ℕ) 1) found
  first : ∀ other,
    FreeRun state.words quanta region.numEntries (max (align / region.quantum : ℕ) 1) other →
      found ≤ other

/-- The first range that is free fits a slot, and there is or will be a slot for it. -/
def Recordable (region : Region) (state : BitmapState) : BitmapRequest → Prop
  | .allocate len shift krealloc =>
    ∀ bitnum, Reservable region state (quantaNeeded region len) (alignment shift) bitnum →
      bitnum < 32768 ∧ quantaNeeded region len < 65536 ∧
        (slotsWithRoom region state.slots krealloc).isSome = true
  | .free bitnum => bitnum ≠ -1

/-- The agreement, and that a request which fails changes nothing. -/
structure BitmapSound (region : Region) (state : BitmapState) : Prop where
  exact : BitmapExact region state
  unchanged : ∀ request, Recordable region state request →
    (state.call region request).2 = -1 → (state.call region request).1 = state

section Counting

variable {words : Words} {numEntries quanta : ℕ} {start : ℤ}

theorem clearBits_setAll (nonneg : 0 ≤ start) :
    clearBits (bitmapBitsSetAll words start (start + quanta)) numEntries =
      clearBits words numEntries \ Finset.Ico start.toNat (start.toNat + quanta) := by
  ext bit
  simp only [clearBits, Finset.mem_filter, Finset.mem_range, Finset.mem_sdiff, Finset.mem_Ico]
  rw [isSet_setAll (by omega)]
  split_ifs with inRange
  · simp only [and_false, false_iff]
    omega
  · constructor
    · exact fun clear => ⟨clear, by omega⟩
    · exact fun clear => clear.1

theorem clearBits_clearAll (nonneg : 0 ≤ start) (fits : start + quanta ≤ numEntries) :
    clearBits (bitmapBitsClearAll words start (start + quanta)) numEntries =
      clearBits words numEntries ∪ Finset.Ico start.toNat (start.toNat + quanta) := by
  ext bit
  simp only [clearBits, Finset.mem_filter, Finset.mem_range, Finset.mem_union, Finset.mem_Ico]
  rw [isSet_clearAll (by omega)]
  split_ifs with inRange
  · simp only [and_true]
    omega
  constructor
  · exact fun clear => .inl clear
  · rintro (clear | inside)
    · exact clear
    · omega

theorem card_clearBits_le (words : Words) (numEntries : ℕ) :
    (clearBits words numEntries).card ≤ numEntries := by
  have bound := Finset.card_filter_le (Finset.range numEntries) fun bit => isSet words bit = false
  rwa [Finset.card_range] at bound

theorem card_clearBits_setAll (nonneg : 0 ≤ start) (fits : start + quanta ≤ numEntries)
    (clear : ∀ bit, start ≤ bit → bit < start + quanta → isSet words bit = false) :
    (clearBits (bitmapBitsSetAll words start (start + quanta)) numEntries).card =
      (clearBits words numEntries).card - quanta := by
  rw [clearBits_setAll nonneg, Finset.card_sdiff_of_subset, Nat.card_Ico, Nat.add_sub_cancel_left]
  intro bit mem
  rw [Finset.mem_Ico] at mem
  rw [clearBits, Finset.mem_filter, Finset.mem_range]
  exact ⟨by omega, clear bit (by omega) (by omega)⟩

theorem card_clearBits_clearAll (nonneg : 0 ≤ start) (fits : start + quanta ≤ numEntries)
    (set : ∀ bit, start ≤ bit → bit < start + quanta → isSet words bit = true) :
    (clearBits (bitmapBitsClearAll words start (start + quanta)) numEntries).card =
      (clearBits words numEntries).card + quanta := by
  rw [clearBits_clearAll nonneg fits, Finset.card_union_of_disjoint, Nat.card_Ico,
    Nat.add_sub_cancel_left]
  rw [Finset.disjoint_left]
  intro bit isClear mem
  rw [Finset.mem_Ico] at mem
  rw [clearBits, Finset.mem_filter] at isClear
  rw [set bit (by omega) (by omega)] at isClear
  cases isClear.2

end Counting

/-! ## Slots -/

def Held (slots : List Slot) (index : ℕ) (slot : Slot) : Prop :=
  slots[index]? = some slot ∧ slot.bit ≠ -1

section Slots

variable {region : Region} {slots next : List Slot} {krealloc : Option (ℕ → ℕ)}

theorem exists_held_iff {bit : ℤ} :
    (∃ slot ∈ slots, slot.Covers bit) ↔ ∃ index slot, Held slots index slot ∧ slot.Covers bit := by
  constructor
  · rintro ⟨slot, mem, covers⟩
    rcases mem_iff_getElem?.mp mem with ⟨index, isSlot⟩
    exact ⟨index, slot, ⟨isSlot, covers.1⟩, covers⟩
  · rintro ⟨index, slot, held, covers⟩
    exact ⟨slot, mem_of_getElem? held.1, covers⟩

theorem slotsWithRoom_spec (isNext : slotsWithRoom region slots krealloc = some next) :
    next.findIdx (fun slot => slot.bit = -1) < next.length ∧
      ∀ index slot, Held next index slot ↔ Held slots index slot := by
  unfold slotsWithRoom at isNext
  simp only at isNext
  split_ifs at isNext with room none few
  · cases isNext
    exact ⟨room, fun _ _ => Iff.rfl⟩
  rw [Option.map_eq_some_iff] at isNext
  rcases isNext with ⟨left, _, rfl⟩
  constructor
  · apply findIdx_lt_length_of_exists
    refine ⟨⟨-1, 0⟩, ?_, by simp⟩
    rw [growSlots, mem_append, mem_map]
    exact .inr ⟨0, mem_range.mpr (by omega), by simp⟩
  intro index slot
  unfold Held growSlots
  rw [getElem?_append]
  split_ifs with old
  · exact Iff.rfl
  constructor
  · rintro ⟨isSlot, inUse⟩
    rw [getElem?_map, Option.map_eq_some_iff] at isSlot
    rcases isSlot with ⟨_, _, rfl⟩
    exact absurd rfl inUse
  · rintro ⟨isSlot, _⟩
    rw [getElem?_eq_none (Nat.not_lt.mp old)] at isSlot
    cases isSlot

theorem held_set {index : ℕ} {new : Slot} (inside : index < slots.length) (other : ℕ)
    (slot : Slot) : Held (slots.set index new) other slot ↔
      (other = index ∧ slot = new ∧ new.bit ≠ -1) ∨ (other ≠ index ∧ Held slots other slot) := by
  unfold Held
  rw [getElem?_set]
  by_cases same : index = other
  · subst same
    simp only [if_true, inside, Option.some.injEq, true_and, ne_eq, not_true_eq_false, false_and,
      or_false]
    constructor
    all_goals
      rintro ⟨rfl, inUse⟩
      exact ⟨rfl, inUse⟩
  · simp [same, Ne.symm same]

end Slots

/-! ## Steps -/

section Steps

variable {region : Region} {state : BitmapState}

theorem bitmapExact_iff : BitmapExact region state ↔ (∀ index slot, Held state.slots index slot →
      0 ≤ slot.bit ∧ 0 < slot.quanta ∧ slot.bit + slot.quanta ≤ region.numEntries) ∧
    (∀ bit, isSet state.words bit = true ↔
      ∃ index slot, Held state.slots index slot ∧ slot.Covers bit) ∧
    (∀ first second firstSlot secondSlot, first ≠ second → Held state.slots first firstSlot →
      Held state.slots second secondSlot → ∀ bit, firstSlot.Covers bit → ¬ secondSlot.Covers bit) ∧
    state.bitmapFree = (clearBits state.words region.numEntries).card := by
  constructor
  · intro exact
    refine ⟨?_, ?_, ?_, exact.free⟩
    · intro index slot held
      exact exact.inside slot (mem_of_getElem? held.1) held.2
    · intro bit
      rw [exact.covered, exists_held_iff]
    · intro first second firstSlot secondSlot ne isFirst isSecond
      exact exact.disjoint first second firstSlot secondSlot ne isFirst.1 isSecond.1
  rintro ⟨inside, covered, disjoint, free⟩
  refine ⟨?_, ?_, ?_, free⟩
  · intro slot mem inUse
    rcases mem_iff_getElem?.mp mem with ⟨index, isSlot⟩
    exact inside index slot ⟨isSlot, inUse⟩
  · intro bit
    rw [covered, exists_held_iff]
  · intro first second firstSlot secondSlot ne isFirst isSecond bit firstCovers secondCovers
    exact disjoint first second firstSlot secondSlot ne ⟨isFirst, firstCovers.1⟩
      ⟨isSecond, secondCovers.1⟩ bit firstCovers secondCovers

theorem totalBits_eq (region : Region) :
    Word.add region.size (region.quantum - 1) / region.quantum = region.numEntries := by
  have pos := region.quantum_pos
  have bound := region.size_add_quantum_le
  rw [Word.add_eq (by omega), ← region.numEntries_mul_quantum, mul_comm,
    Nat.mul_add_div pos, Nat.div_eq_of_lt (by omega), add_zero]

theorem reserveQuanta_spec (quanta align : ℕ) :
    (reserveQuanta region state quanta align = (state.words, none) ∧
      ∀ found, ¬Reservable region state quanta align found) ∨
    ∃ found, reserveQuanta region state quanta align =
        (bitmapBitsSetAll state.words found (found + quanta), some found) ∧
      Reservable region state quanta align found := by
  unfold reserveQuanta allocateSpaced
  simp only [totalBits_eq]
  split_ifs with few unaligned empty
  · exact .inl ⟨rfl, fun found reservable => absurd reservable.enough (by omega)⟩
  · exact .inl ⟨rfl, fun found reservable => absurd reservable.address (by omega)⟩
  · exact .inl ⟨rfl, fun found reservable => absurd reservable.positive (by omega)⟩
  · rcases allocateContiguous_spec _ (Int.not_le.mp empty) (Int.le_refl 0) (Int.dvd_zero _)
      (fun start free => free.nonneg) with ⟨nothing, none⟩ | ⟨found, taken, free, first⟩
    · exact .inl ⟨nothing, fun found reservable => none found reservable.free⟩
    · exact .inr ⟨found, taken, by omega, by omega, by omega, free, first⟩

theorem mem_reserveQuanta {quanta align : ℕ} {found : ℤ} :
    found ∈ (reserveQuanta region state quanta align).2 ↔
      Reservable region state quanta align found := by
  rcases @reserveQuanta_spec region state quanta align with
    ⟨nothing, none⟩ | ⟨other, taken, reservable⟩
  · rw [nothing]
    exact iff_of_false (by simp) (none found)
  · rw [taken, Option.mem_some_iff]
    constructor
    · rintro rfl
      exact reservable
    · exact fun isFound => Int.le_antisymm (reservable.first _ isFound.free)
        (isFound.first _ reservable.free)

instance Recordable.decidable (region : Region) (state : BitmapState) :
    ∀ request, Decidable (Recordable region state request)
  | .allocate len shift krealloc => decidable_of_iff
    (∀ bitnum ∈ (reserveQuanta region state (quantaNeeded region len) (alignment shift)).2,
      bitnum < 32768 ∧ quantaNeeded region len < 65536 ∧
        (slotsWithRoom region state.slots krealloc).isSome = true)
    (forall_congr' fun _ => imp_congr_left mem_reserveQuanta)
  | .free bitnum => inferInstanceAs (Decidable (bitnum ≠ -1))

theorem toShort_eq {value : ℤ} (nonneg : 0 ≤ value) (small : value < 32768) :
    toShort value = value := by
  unfold toShort
  omega

variable {next : List Slot} {found bitnum : ℤ} {quanta len align : ℕ} {krealloc : Option (ℕ → ℕ)}
  {slot : Slot}

theorem slotsWithRoom_set (isNext : slotsWithRoom region state.slots krealloc = some next)
    (nonneg : 0 ≤ found) :
    ∃ place, (∀ slot, ¬ Held state.slots place slot) ∧ ∀ index slot,
      Held (next.set (next.findIdx fun slot => slot.bit = -1) ⟨found, quanta⟩) index slot ↔
        (index = place ∧ slot = ⟨found, quanta⟩) ∨ Held state.slots index slot := by
  rcases slotsWithRoom_spec isNext with ⟨room, sameHeld⟩
  have isFree : ∀ slot, ¬ Held next (next.findIdx fun slot => slot.bit = -1) slot := by
    rintro slot ⟨isSlot, inUse⟩
    rw [getElem?_eq_getElem room, Option.some.injEq] at isSlot
    have notInUse := @findIdx_getElem _ (fun slot : Slot => decide (slot.bit = -1)) next room
    rw [isSlot, decide_eq_true_eq] at notInUse
    exact inUse notInUse
  refine ⟨next.findIdx fun slot => slot.bit = -1, ?_, ?_⟩
  · intro slot held
    exact isFree slot ((sameHeld _ slot).mpr held)
  intro index slot
  rw [held_set room, sameHeld]
  constructor
  · rintro (⟨isPlace, isNew, _⟩ | ⟨_, held⟩)
    · exact .inl ⟨isPlace, isNew⟩
    · exact .inr held
  rintro (⟨isPlace, isNew⟩ | held)
  · exact .inl ⟨isPlace, isNew, by simp only; omega⟩
  · refine .inr ⟨?_, held⟩
    rintro rfl
    exact isFree slot ((sameHeld _ slot).mpr held)

section

variable (exact : BitmapExact region state)
include exact

theorem BitmapExact.record (isNext : slotsWithRoom region state.slots krealloc = some next)
    (nonneg : 0 ≤ found) (pos : 0 < quanta) (fits : found + quanta ≤ region.numEntries)
    (clear : ∀ bit, found ≤ bit → bit < found + quanta → isSet state.words bit = false) :
    BitmapExact region ⟨bitmapBitsSetAll state.words found (found + quanta),
      state.bitmapFree - quanta,
      next.set (next.findIdx fun slot => slot.bit = -1) ⟨found, quanta⟩⟩ := by
  rcases bitmapExact_iff.mp exact with ⟨inside, covered, disjoint, free⟩
  rcases @slotsWithRoom_set region state next found quanta krealloc isNext nonneg with
    ⟨place, isFree, held⟩
  have newCovers : ∀ bit, Slot.Covers ⟨found, quanta⟩ bit ↔ found ≤ bit ∧ bit < found + quanta := by
    intro bit
    have inUse : found ≠ -1 := by omega
    simp [Slot.Covers, inUse]
  have apart : ∀ index slot, Held state.slots index slot → ∀ bit, slot.Covers bit →
      ¬ Slot.Covers ⟨found, quanta⟩ bit := by
    intro index slot isHeld bit covers isNew
    have isSet := (covered bit).mpr ⟨index, slot, isHeld, covers⟩
    rw [newCovers] at isNew
    rw [clear bit isNew.1 isNew.2] at isSet
    cases isSet
  rw [bitmapExact_iff]
  refine ⟨?_, ?_, ?_, ?_⟩
  · intro index slot isHeld
    rcases (held index slot).mp isHeld with ⟨_, rfl⟩ | old
    · exact ⟨nonneg, pos, fits⟩
    · exact inside index slot old
  · intro bit
    simp only [isSet_setAll (show found ≤ found + quanta by omega), held]
    split_ifs with inRange
    · simp only [true_iff]
      exact ⟨place, _, .inl ⟨rfl, rfl⟩, (newCovers bit).mpr inRange⟩
    rw [covered]
    constructor
    · rintro ⟨index, slot, old, covers⟩
      exact ⟨index, slot, .inr old, covers⟩
    · rintro ⟨index, slot, ⟨_, rfl⟩ | old, covers⟩
      · exact absurd ((newCovers bit).mp covers) inRange
      · exact ⟨index, slot, old, covers⟩
  · intro first second firstSlot secondSlot ne isFirst isSecond bit firstCovers secondCovers
    rcases (held first firstSlot).mp isFirst with ⟨rfl, rfl⟩ | firstOld
    · rcases (held second secondSlot).mp isSecond with ⟨rfl, rfl⟩ | secondOld
      · exact ne rfl
      · exact apart second secondSlot secondOld bit secondCovers firstCovers
    rcases (held second secondSlot).mp isSecond with ⟨rfl, rfl⟩ | secondOld
    · exact apart first firstSlot firstOld bit firstCovers secondCovers
    · exact disjoint first second firstSlot secondSlot ne firstOld secondOld bit
        firstCovers secondCovers
  · rw [card_clearBits_setAll nonneg fits clear, free]

theorem BitmapExact.release {index : ℕ} (isHeld : Held state.slots index slot) :
    BitmapExact region ⟨bitmapBitsClearAll state.words slot.bit (slot.bit + slot.quanta),
      Word.add state.bitmapFree slot.quanta, state.slots.set index ⟨-1, 0⟩⟩ := by
  rcases bitmapExact_iff.mp exact with ⟨inside, covered, disjoint, free⟩
  have inRange := (List.getElem?_eq_some_iff.mp isHeld.1).1
  rcases inside index slot isHeld with ⟨nonneg, _, fits⟩
  have covers_iff : ∀ bit, slot.Covers bit ↔ slot.bit ≤ bit ∧ bit < slot.bit + slot.quanta := by
    intro bit
    simp [Slot.Covers, isHeld.2]
  have held : ∀ other otherSlot, Held (state.slots.set index ⟨-1, 0⟩) other otherSlot ↔
      other ≠ index ∧ Held state.slots other otherSlot := by
    intro other otherSlot
    rw [held_set inRange]
    simp [not_true_eq_false, and_false]
  have card := @card_clearBits_clearAll state.words _ _ _ nonneg fits fun bit lower upper =>
    (covered bit).mpr ⟨index, slot, isHeld, (covers_iff bit).mpr ⟨lower, upper⟩⟩
  rw [bitmapExact_iff]
  refine ⟨?_, ?_, ?_, ?_⟩
  · intro other otherSlot stillHeld
    exact inside other otherSlot ((held other otherSlot).mp stillHeld).2
  · intro bit
    simp only [isSet_clearAll (show slot.bit ≤ slot.bit + slot.quanta by omega), held]
    split_ifs with cleared
    · simp only [false_iff]
      rintro ⟨other, otherSlot, ⟨ne, otherHeld⟩, covers⟩
      exact disjoint other index otherSlot slot ne otherHeld isHeld bit covers
        ((covers_iff bit).mpr cleared)
    rw [covered]
    constructor
    · rintro ⟨other, otherSlot, otherHeld, covers⟩
      refine ⟨other, otherSlot, ⟨?_, otherHeld⟩, covers⟩
      rintro rfl
      have same := Option.some.inj (otherHeld.1.symm.trans isHeld.1)
      subst same
      exact cleared ((covers_iff bit).mp covers)
    · rintro ⟨other, otherSlot, ⟨_, otherHeld⟩, covers⟩
      exact ⟨other, otherSlot, otherHeld, covers⟩
  · intro first second firstSlot secondSlot ne isFirst isSecond
    exact disjoint first second firstSlot secondSlot ne
      ((held first firstSlot).mp isFirst).2 ((held second secondSlot).mp isSecond).2
  · have most := card_clearBits_le
      (bitmapBitsClearAll state.words slot.bit (slot.bit + slot.quanta)) region.numEntries
    have small := region.numEntries_lt
    rw [card] at most ⊢
    rw [← free] at most ⊢
    exact Word.add_eq (by omega)

theorem BitmapExact.allocate
    (recordable : ∀ bitnum, Reservable region state (quantaNeeded region len) align bitnum →
      bitnum < 32768 ∧ quantaNeeded region len < 65536 ∧ (slotsWithRoom region state.slots
        krealloc).isSome = true) :
    BitmapExact region (pmemAllocatorBitmap region state len align krealloc).1 ∧
      ((pmemAllocatorBitmap region state len align krealloc).2 = -1 →
        (pmemAllocatorBitmap region state len align krealloc).1 = state) := by
  unfold pmemAllocatorBitmap
  simp only
  split_ifs with few
  · exact ⟨exact, fun _ => rfl⟩
  rcases @reserveQuanta_spec region state (quantaNeeded region len) align with
    ⟨nothing, _⟩ | ⟨found, reserved, reservable⟩
  · rw [nothing]
    exact ⟨exact, fun _ => rfl⟩
  rcases reservable.free with ⟨nonneg, _, fits, clear⟩
  rw [reserved]
  rcases recordable found reservable with ⟨small, few, room⟩
  rcases Option.isSome_iff_exists.mp room with ⟨next, isNext⟩
  rw [isNext]
  simp only [toShort_eq nonneg small, Nat.mod_eq_of_lt few]
  refine ⟨exact.record isNext nonneg reservable.positive fits clear, ?_⟩
  intro failed
  omega

end

section

variable (exact : BitmapExact region state)
include exact

theorem BitmapExact.free_slot (recordable : bitnum ≠ -1) :
    BitmapExact region (pmemFreeBitmap state bitnum).1 ∧
      ((pmemFreeBitmap state bitnum).2 = -1 → (pmemFreeBitmap state bitnum).1 = state) := by
  unfold pmemFreeBitmap
  simp only
  cases found : state.slots[state.slots.findIdx fun slot => slot.bit = bitnum]? with
  | none => exact ⟨exact, fun _ => rfl⟩
  | some slot =>
    have inside := (List.getElem?_eq_some_iff.mp found).1
    have isBit := @List.findIdx_getElem _ (fun slot : Slot => decide (slot.bit = bitnum))
      state.slots inside
    rw [(List.getElem?_eq_some_iff.mp found).2, decide_eq_true_eq] at isBit
    refine ⟨exact.release ⟨found, by omega⟩, ?_⟩
    intro failed
    cases failed

theorem BitmapExact.call {request : BitmapRequest} (recordable : Recordable region state request) :
    BitmapExact region (state.call region request).1 ∧
      ((state.call region request).2 = -1 → (state.call region request).1 = state) := by
  cases request with
  | allocate len shift krealloc => exact exact.allocate recordable
  | free bitnum => exact exact.free_slot recordable

end

theorem bitmapExact_initial (region : Region) : BitmapExact region (initial region) := by
  have unused : ∀ index slot, ¬ Held (initial region).slots index slot := by
    rintro index slot ⟨isSlot, inUse⟩
    exact inUse (congrArg Slot.bit (eq_of_mem_replicate (mem_of_getElem? isSlot)))
  have clear : ∀ bit, isSet (initial region).words bit = false := fun bit =>
    BitVec.getLsbD_zero
  rw [bitmapExact_iff]
  refine ⟨?_, ?_, ?_, ?_⟩
  · intro index slot held
    exact absurd held (unused index slot)
  · intro bit
    rw [clear bit]
    simp only [Bool.false_eq_true, false_iff]
    rintro ⟨index, slot, held, _⟩
    exact unused index slot held
  · intro first second firstSlot secondSlot _ held
    exact absurd held (unused first firstSlot)
  · simp only [clearBits, clear, Finset.filter_true, Finset.card_range]
    rfl

end Steps

/-- In every run whose requests can be recorded, the bitmap, the slots and the counter
agree, and a request that fails changes nothing. -/
theorem bitmapSound_run (region : Region) (requests : List BitmapRequest)
    (recordable : Run.Admits (step region) (Recordable region) (initial region) requests) :
    BitmapSound region
      (Run.run (step region) (initial region) requests) := by
  have exact := Run.invariant_run (BitmapExact region)
    (fun state request exact recordable => (exact.call recordable).1) (bitmapExact_initial region)
    recordable
  exact ⟨exact, fun request next => (exact.call next).2⟩

def largeRegion : Region :=
  ⟨0, 268435456, 4096, by decide, by decide, by decide, ⟨12, by decide, by decide⟩, by decide,
    by decide⟩

def pageRegion : Region :=
  ⟨268435456, 4096, 4096, by decide, by decide, by decide, ⟨12, by decide, by decide⟩, by decide,
    by decide⟩

/-- Two ranges are allocated and the first one is freed again. -/
theorem bitmapSound_two_ranges : BitmapSound largeRegion (Run.run (step largeRegion)
      (initial largeRegion)
      [.allocate 12288 0 none, .allocate 4096 8 none, .free 0]) :=
  bitmapSound_run largeRegion _ (by decide +kernel)

/-- A range of 65536 pages is recorded with length 0. -/
theorem not_bitmapSound_all : ¬ BitmapSound largeRegion (Run.run (step largeRegion)
      (initial largeRegion) [.allocate 268435456 0 none]) := by
  intro sound
  have isSet : isSet (Run.run (step largeRegion)
      (initial largeRegion) [.allocate 268435456 0 none]).words 0 = true := by
    decide +kernel
  rcases (sound.exact.covered 0).mp isSet with ⟨slot, mem, inUse, _, upper⟩
  have none : ∀ slot ∈ (Run.run (step largeRegion)
      (initial largeRegion) [.allocate 268435456 0 none]).slots,
      slot.bit = -1 ∨ (slot.bit = 0 ∧ slot.quanta = 0) := by
    decide +kernel
  rcases none slot mem with unused | empty
  · exact inUse unused
  · omega

/-!
## The alignment of ranges

`reserve_quanta` turns an alignment into a distance of bits and looks for a range from the first
bit on. The bit of the first aligned address is computed and not used, so that the distances are
counted from the base of the region.
-/

/-- `paddr_from_bit`, for a bit of the bitmap. -/
def paddrFromBit (region : Region) (bitnum : ℤ) : ℕ :=
  Word.add region.base (region.quantum * bitnum.toNat)

section Alignment

variable {region : Region} {state : BitmapState} {len : ℕ} {krealloc : Option (ℕ → ℕ)}

theorem freeRun_of_pmemAllocatorBitmap {align : ℕ}
    (succeeded : (pmemAllocatorBitmap region state len align krealloc).2 ≠ -1) :
    FreeRun state.words (quantaNeeded region len) region.numEntries
      (max (align / region.quantum : ℕ) 1)
      (pmemAllocatorBitmap region state len align krealloc).2 := by
  unfold pmemAllocatorBitmap at succeeded ⊢
  simp only at succeeded ⊢
  split_ifs at succeeded ⊢ with few
  · exact absurd rfl succeeded
  rcases @reserveQuanta_spec region state (quantaNeeded region len) align with
    ⟨nothing, _⟩ | ⟨found, reserved, reservable⟩
  · rw [nothing] at succeeded
    exact absurd rfl succeeded
  rw [reserved] at succeeded ⊢
  cases isNext : slotsWithRoom region state.slots krealloc with
  | none =>
    rw [isNext] at succeeded
    exact absurd rfl succeeded
  | some next => exact reservable.free

theorem alignment_eq (shift : Fin 9) : alignment shift = 2 ^ (12 + shift.val) := by
  rw [alignment, Nat.pow_add]

theorem alignment_dvd_mul {shift : Fin 9} {found : ℤ} (nonneg : 0 ≤ found)
    (aligned : (max (alignment shift / region.quantum : ℕ) 1 : ℤ) ∣ found) :
    alignment shift ∣ region.quantum * found.toNat := by
  rcases region.power with ⟨exponent, _, isQuantum⟩
  rw [alignment_eq, isQuantum] at aligned ⊢
  rcases le_total (12 + shift.val) exponent with small | large
  · exact Nat.dvd_mul_right_of_dvd (Nat.pow_dvd_pow 2 small) _
  have isSpacing : (max (2 ^ (12 + shift.val) / 2 ^ exponent : ℕ) 1 : ℤ) =
      (2 ^ (12 + shift.val - exponent) : ℕ) := by
    rw [Nat.pow_div large Nat.two_pos, max_eq_left]
    exact Int.ofNat_le.mpr Nat.one_le_two_pow
  rw [isSpacing, ← Int.toNat_of_nonneg nonneg, Int.natCast_dvd_natCast] at aligned
  have whole := Nat.mul_dvd_mul_left (2 ^ exponent) aligned
  rwa [← Nat.pow_add, Nat.add_sub_cancel' large] at whole

/-- An allocation has the alignment exactly if the base of the region has it. -/
theorem pmemAllocatorBitmap_aligned_iff (region : Region) (state : BitmapState) (len : Word.U32)
    (shift : Fin 9) (krealloc : Option (ℕ → ℕ))
    (succeeded : (pmemAllocatorBitmap region state len (alignment shift) krealloc).2 ≠ -1) :
    alignment shift ∣
        paddrFromBit region (pmemAllocatorBitmap region state len (alignment shift) krealloc).2 ↔
      alignment shift ∣ region.base := by
  have free := freeRun_of_pmemAllocatorBitmap succeeded
  have whole : alignment shift ∣ 4294967296 := by
    rw [alignment_eq]
    exact Nat.pow_dvd_pow 2 (show 12 + shift.val ≤ 32 by omega)
  rw [paddrFromBit, Word.add, Nat.dvd_mod_iff whole]
  exact Nat.dvd_add_left (alignment_dvd_mul free.nonneg free.aligned)

/-- Behind a page, the range of the next page is aligned to 8 KiB. -/
theorem pmemAllocatorBitmap_aligned_page :
    let state := step largeRegion (initial largeRegion) (.allocate 4096 0 none)
    alignment 1 ∣ paddrFromBit largeRegion
      (pmemAllocatorBitmap largeRegion state 4096 (alignment 1) none).2 :=
  (pmemAllocatorBitmap_aligned_iff largeRegion _ 4096 1 none (by decide +kernel)).mpr
    (by decide +kernel)

/-- A region that begins at 4 KiB. -/
def shiftedRegion : Region :=
  { largeRegion with
    base := 4096
    base_lt := pageRegion.size_lt
    dvd_base := pageRegion.dvd_size }

/-- The first range is taken there although it should be aligned to 8 KiB. -/
theorem pmemAllocatorBitmap_unaligned :
    (pmemAllocatorBitmap shiftedRegion (.initial shiftedRegion) 4096 (alignment 1) none).2 = 0 ∧
      ¬alignment 1 ∣ paddrFromBit shiftedRegion 0 := by
  decide +kernel

end Alignment

end StreakKernel.Pmem
