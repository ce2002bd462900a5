import Mathlib.Data.List.Basic

/-!
# Cells in a ring

A ring is a function from indices below a size to values. `write` copies a list of
values into it, in two parts if they reach the end, and `window` reads cells in
order, starting anywhere and wrapping at the end.
-/

namespace StreakKernel.Ring

open List

variable {α : Type} {size off len dist : ℕ} {cells other : ℕ → α} {values : List α}

def put (cells : ℕ → α) (off : ℕ) (values : List α) : ℕ → α :=
  fun index => if off ≤ index then values[index - off]?.getD (cells index) else cells index

/-- Copy values into the ring, the rest of them to its beginning. -/
def write (size : ℕ) (cells : ℕ → α) (off : ℕ) (values : List α) : ℕ → α :=
  put (put cells off (values.take (size - off))) 0 (values.drop (size - off))

def window (size : ℕ) (cells : ℕ → α) (off len : ℕ) : List α :=
  (List.range len).map fun index => cells ((off + index) % size)

@[simp]
theorem length_window : (window size cells off len).length = len := by
  simp [window]

@[simp]
theorem window_zero : window size cells off 0 = [] := rfl

@[simp]
theorem put_nil : put cells off [] = cells := by
  funext index
  simp [put]

theorem write_of_le (short : values.length ≤ size - off) :
    write size cells off values = put cells off values := by
  simp [write, take_of_length_le short, drop_eq_nil_of_le short]

theorem write_append {rest : List α} (reaches : values.length = size - off) :
    write size cells off (values ++ rest) = put (put cells off values) 0 rest := by
  rw [write, ← reaches, take_left, drop_left]

theorem write_apply (inside : off < size) (fits : values.length ≤ size) {index : ℕ}
    (bound : index < size) : write size cells off values ((off + index) % size) =
      values[index]?.getD (cells ((off + index) % size)) := by
  have beyond : ∀ pos, size ≤ pos → values[pos]? = none :=
    fun pos past => getElem?_eq_none (Nat.le_trans fits past)
  rcases Nat.lt_or_ge (off + index) size with before | after
  · have first : index < size - off := by omega
    have second : size - off + (off + index) = size + index := by omega
    rw [Nat.mod_eq_of_lt before]
    simp [write, put, first, second, beyond]
  have wraps : (off + index) % size = off + index - size := by
    rw [Nat.mod_eq_sub_mod after, Nat.mod_eq_of_lt (by omega)]
  have notFirst : ¬off ≤ off + index - size := by omega
  have second : size - off + (off + index - size) = index := by omega
  rw [wraps]
  simp [write, put, notFirst, second]

theorem write_apply_of_le (inside : off < size) (fits : values.length ≤ size) {index : ℕ}
    (past : values.length ≤ index) (bound : index < size) :
    write size cells off values ((off + index) % size) = cells ((off + index) % size) := by
  rw [write_apply inside fits bound, getElem?_eq_none past, Option.getD_none]

theorem window_congr (same : ∀ index < len, cells ((off + index) % size) =
    other ((off + index) % size)) : window size cells off len = window size other off len := by
  apply map_congr_left
  intro index mem
  exact same index (mem_range.mp mem)

theorem window_append (first second : ℕ) : window size cells off (first + second) =
    window size cells off first ++ window size cells ((off + first) % size) second := by
  simp only [window, range_add, map_append, map_map]
  congr 1
  apply map_congr_left
  intro index _
  simp only [Function.comp_apply, Nat.mod_add_mod, Nat.add_assoc]

theorem window_write_self (inside : off < size) (fits : values.length ≤ size) :
    window size (write size cells off values) off values.length = values := by
  apply ext_getElem
  · simp
  intro index bound inValues
  simp only [window, getElem_map, getElem_range]
  rw [write_apply inside fits (Nat.lt_of_lt_of_le inValues fits), getElem?_eq_getElem inValues,
    Option.getD_some]

theorem window_write_of_le (inside : off < size) (fits : values.length ≤ size)
    (past : values.length ≤ dist) (within : dist + len ≤ size) :
    window size (write size cells off values) ((off + dist) % size) len =
      window size cells ((off + dist) % size) len := by
  apply window_congr
  intro index bound
  rw [Nat.mod_add_mod, Nat.add_assoc]
  apply write_apply_of_le inside fits <;> omega

end StreakKernel.Ring
