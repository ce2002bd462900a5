import Mathlib.Data.Finset.Card

/-!
# Bitmaps

A bitmap is a function from positions to bits of which the first `size` matter.
`nextZero` is the search for the first clear bit from a position on, and
`clearBits` is the set of clear positions that an allocator keeps the size of.
-/

namespace StreakKernel.Bitmap

open Function

/-- The first clear bit among the `n` bits from `offset` on, or the end of them. -/
def nextZero (bits : ℕ → Bool) : ℕ → ℕ → ℕ
  | 0, offset => offset
  | n + 1, offset => if bits offset then nextZero bits n (offset + 1) else offset

section Search

variable {bits : ℕ → Bool}

theorem le_nextZero (n offset : ℕ) : offset ≤ nextZero bits n offset := by
  induction n generalizing offset with
  | zero => simp [nextZero]
  | succ n ih =>
    rw [nextZero]
    split
    · have := ih (offset + 1)
      omega
    · exact le_refl offset

theorem nextZero_le (n offset : ℕ) : nextZero bits n offset ≤ offset + n := by
  induction n generalizing offset with
  | zero => exact le_refl offset
  | succ n ih =>
    rw [nextZero]
    split
    · have := ih (offset + 1)
      omega
    · exact Nat.le_add_right offset _

theorem set_of_lt_nextZero {n offset pos : ℕ} (le : offset ≤ pos)
    (lt : pos < nextZero bits n offset) : bits pos = true := by
  induction n generalizing offset with
  | zero =>
    rw [nextZero] at lt
    omega
  | succ n ih =>
    rw [nextZero] at lt
    split at lt
    · rename_i isSet
      rcases Nat.eq_or_lt_of_le le with rfl | later
      · exact isSet
      · exact ih later lt
    · omega

theorem clear_nextZero {n offset : ℕ} (lt : nextZero bits n offset < offset + n) :
    bits (nextZero bits n offset) = false := by
  induction n generalizing offset with
  | zero => exact absurd lt (lt_irrefl offset)
  | succ n ih =>
    rw [nextZero] at lt ⊢
    split at lt
    · next isSet =>
        rw [if_pos isSet]
        exact ih (by omega)
    · next isClear =>
        rw [if_neg isClear]
        exact Bool.eq_false_iff.mpr isClear

theorem lt_nextZero {n offset : ℕ} (isSet : bits offset = true) :
    offset < nextZero bits (n + 1) offset := by
  rw [nextZero, if_pos isSet]
  exact le_nextZero n (offset + 1)

end Search

def clearBits (size : ℕ) (bits : ℕ → Bool) : Finset ℕ :=
  (Finset.range size).filter fun position => bits position = false

section Clear

variable {size pos : ℕ} {bits : ℕ → Bool}

@[simp]
theorem mem_clearBits : pos ∈ clearBits size bits ↔ pos < size ∧ bits pos = false := by
  simp [clearBits]

theorem set_of_card_clearBits_eq_zero (none : (clearBits size bits).card = 0)
    (lt : pos < size) : bits pos = true := by
  by_contra clear
  have mem := mem_clearBits.mpr ⟨lt, Bool.eq_false_iff.mpr clear⟩
  rw [Finset.card_eq_zero.mp none] at mem
  simp at mem

theorem card_clearBits_set (lt : pos < size) (clear : bits pos = false) :
    (clearBits size (update bits pos true)).card + 1 =
      (clearBits size bits).card := by
  have isErase : clearBits size (update bits pos true) =
      (clearBits size bits).erase pos := by
    ext other
    by_cases same : other = pos
    · simp [same]
    · simp [same]
  rw [isErase]
  exact Finset.card_erase_add_one (by simp [lt, clear])

theorem card_clearBits_clear (lt : pos < size) (isSet : bits pos = true) :
    (clearBits size (update bits pos false)).card =
      (clearBits size bits).card + 1 := by
  have isInsert : clearBits size (update bits pos false) =
      insert pos (clearBits size bits) := by
    ext other
    by_cases same : other = pos
    · simp [same, lt]
    · simp [same]
  rw [isInsert]
  exact Finset.card_insert_of_notMem (by simp [isSet])

end Clear

end StreakKernel.Bitmap
