import StreakKernel.Lib.BuddyTree
import StreakKernel.Pmem.Region

/-!
# The buddy allocator of pmem

Shallow embedding of the buddy best-fit allocator of `drivers/misc/pmem.c`. A region
has one `struct pmem_bits` for each quantum; only those at the start of a block mean
anything, and the others keep what was left in them. An index is a natural number,
and `-1` is none.
-/

namespace StreakKernel.Pmem

open Buddy

structure PmemBits where
  allocated : Bool
  order : ℕ
  deriving DecidableEq

abbrev Bitmap := ℕ → PmemBits

namespace Bitmap

def setAllocated (bits : Bitmap) (index : ℕ) (allocated : Bool) : Bitmap :=
  Function.update bits index { bits index with allocated := allocated }

def setOrder (bits : Bitmap) (index order : ℕ) : Bitmap :=
  Function.update bits index { bits index with order := order }

/-- `PMEM_BUDDY_ORDER(id, index)++`. -/
def raise (bits : Bitmap) (index : ℕ) : Bitmap := bits.setOrder index ((bits index).order + 1)

def buddyIndex (bits : Bitmap) (index : ℕ) : ℕ := index ^^^ 2 ^ (bits index).order

def nextIndex (bits : Bitmap) (index : ℕ) : ℕ := index + 2 ^ (bits index).order

theorem lt_nextIndex (bits : Bitmap) (index : ℕ) : index < bits.nextIndex index := by
  have pos : 0 < 2 ^ (bits index).order := Nat.two_pow_pos _
  unfold nextIndex
  omega

/-- The blocks found by going from index to index with `PMEM_BUDDY_NEXT_INDEX`. -/
def walk (bits : Bitmap) (numEntries curr : ℕ) : List Block :=
  if curr < numEntries then
    ⟨curr, (bits curr).order, (bits curr).allocated⟩ :: walk bits numEntries (bits.nextIndex curr)
  else []
termination_by numEntries - curr
decreasing_by
  have := bits.lt_nextIndex curr
  omega

end Bitmap

/-! ## Setting up -/

/-- The loop of `pmem_setup` over the bits of `num_entries` below the given one. -/
def setupLoop (numEntries : ℕ) : ℕ → Bitmap → ℕ → Bitmap
  | 0, bits, _ => bits
  | order + 1, bits, index =>
    if numEntries &&& 2 ^ order ≠ 0 then
      let bits := bits.setOrder index order
      setupLoop numEntries order bits (bits.nextIndex index)
    else setupLoop numEntries order bits index

def setupBitmap (numEntries : ℕ) : Bitmap := setupLoop numEntries 32 (fun _ => ⟨false, 0⟩) 0

/-! ## Allocating -/

def pmemOrder (len quantum : ℕ) : ℕ :=
  let len := Word.add len (quantum - 1) / quantum
  let len := Word.sub len 1
  ((List.range 32).find? fun order => len >>> order = 0).getD 32

def pmemMaxOrder : ℕ := 128

/-- The search of `pmem_allocator_buddy_bestfit`, from `curr` on. -/
def findFit (bits : Bitmap) (numEntries order curr : ℕ) (bestFit : Option ℕ) : Option ℕ :=
  if curr < numEntries then
    if (bits curr).allocated = false then
      if (bits curr).order = order then some curr
      else if order < (bits curr).order ∧
          bestFit.all (fun best => (bits curr).order < (bits best).order) then
        findFit bits numEntries order (bits.nextIndex curr) (some curr)
      else findFit bits numEntries order (bits.nextIndex curr) bestFit
    else findFit bits numEntries order (bits.nextIndex curr) bestFit
  else bestFit
termination_by numEntries - curr
decreasing_by
  all_goals
    have := bits.lt_nextIndex curr
    omega

def splitBlock (bits : Bitmap) (bestFit order : ℕ) : Bitmap :=
  if order < (bits bestFit).order then
    let lowered := bits.setOrder bestFit ((bits bestFit).order - 1)
    splitBlock (lowered.setOrder (lowered.buddyIndex bestFit) (lowered bestFit).order) bestFit order
  else bits
termination_by (bits bestFit).order
decreasing_by
  simp only [Bitmap.setOrder, Function.update_apply]
  split_ifs <;> simp <;> omega

def pmemAllocatorBuddyBestfit (region : Region) (bits : Bitmap) (len : ℕ) :
    Bitmap × Option ℕ :=
  let order := pmemOrder len region.quantum
  if pmemMaxOrder < order then (bits, none)
  else
    match findFit bits region.numEntries (order % 256) 0 none with
    | none => (bits, none)
    | some bestFit =>
      ((splitBlock bits bestFit (order % 256)).setAllocated bestFit true, some bestFit)

/-! ## Freeing -/

theorem order_lt_of_buddyIndex_lt {bits : Bitmap} {numEntries curr : ℕ}
    (inside : bits.buddyIndex curr < numEntries) :
    (bits curr).order < max numEntries (curr + 1) := by
  have bound : ∀ number, number < max numEntries (curr + 1) →
      number < 2 ^ max numEntries (curr + 1) := fun number less => by
    have := @Nat.lt_two_pow_self (max numEntries (curr + 1))
    omega
  have xorBound := Nat.xor_lt_two_pow (bound curr (by omega))
    (bound (bits.buddyIndex curr) (by omega))
  rw [Bitmap.buddyIndex, ← Nat.xor_assoc, Nat.xor_self, Nat.zero_xor] at xorBound
  exact (Nat.pow_lt_pow_iff_right (by decide)).mp xorBound

theorem buddyIndex_ne (bits : Bitmap) (curr : ℕ) : bits.buddyIndex curr ≠ curr := by
  intro same
  have zero := congrArg (curr ^^^ ·) same
  simp only [Bitmap.buddyIndex, ← Nat.xor_assoc, Nat.xor_self, Nat.zero_xor] at zero
  exact (Nat.two_pow_pos _).ne' zero

/-- Merge the free block at an index with its buddy while that is free and as large. -/
def mergeBuddies (numEntries : ℕ) (bits : Bitmap) (curr : ℕ) : Bitmap :=
  let buddy := bits.buddyIndex curr
  if buddy < numEntries ∧ (bits buddy).allocated = false ∧
      (bits buddy).order = (bits curr).order then
    let raised := (bits.raise buddy).raise curr
    if min buddy curr < numEntries then mergeBuddies numEntries raised (min buddy curr) else raised
  else bits
termination_by max numEntries (curr + 1) - (bits curr).order
decreasing_by
  rename_i joins _
  have less := order_lt_of_buddyIndex_lt joins.1
  have different := buddyIndex_ne bits curr
  have raisedOrder : (((bits.raise (bits.buddyIndex curr)).raise curr)
      (min (bits.buddyIndex curr) curr)).order = (bits curr).order + 1 := by
    rcases Nat.le_total (bits.buddyIndex curr) curr with lower | upper
    · simp [Bitmap.raise, Bitmap.setOrder, min_eq_left lower, Function.update_apply, different]
      exact joins.2.2
    · simp [Bitmap.raise, Bitmap.setOrder, min_eq_right upper, Function.update_apply,
        different.symm]
  rw [raisedOrder]
  omega

def pmemFreeBuddyBestfit (region : Region) (bits : Bitmap) (index : ℕ) : Bitmap :=
  mergeBuddies region.numEntries (bits.setAllocated index false) index

end StreakKernel.Pmem
