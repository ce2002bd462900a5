import Mathlib.Algebra.GroupWithZero.Nat
import Mathlib.Data.Int.Basic

/-!
# 32-bit machine words

Unsigned 32-bit values are natural numbers below 2^32 = 4294967296, written out as a
numeral so that linear arithmetic sees it; the operations that can wrap do so explicitly.
-/

namespace StreakKernel.Word

abbrev U32 := Fin 4294967296

instance neZero_range : NeZero 4294967296 := ⟨by decide⟩

/-- The values of a 32-bit `long`. -/
abbrev S32 := {value : ℤ // -2147483648 ≤ value ∧ value < 2147483648}

@[irreducible]
def add (left right : ℕ) : ℕ := (left + right) % 4294967296

@[irreducible]
def sub (left right : ℕ) : ℕ := (left + (4294967296 - right % 4294967296)) % 4294967296

/-- `value & ~(granule - 1)` for a power-of-two granule. -/
def alignDown (value granule : ℕ) : ℕ := value - value % granule

/-- `ALIGN(value, granule)`: round up, wrapping on overflow. -/
def alignUp (value granule : ℕ) : ℕ := alignDown (add value (granule - 1)) granule

/-- The `int` with the same 32 bits as an unsigned word. -/
def toSigned (word : ℕ) : ℤ :=
  if word < 2147483648 then (word : ℤ) else (word : ℤ) - 4294967296

/-- The unsigned word with the same 32 bits as an `int`. -/
def ofSigned (value : ℤ) : ℕ := (value % 4294967296).toNat

theorem add_lt (left right : ℕ) : add left right < 4294967296 := by
  unfold add
  omega

theorem sub_lt (left right : ℕ) : sub left right < 4294967296 := by
  unfold sub
  omega

theorem add_eq {left right : ℕ} (fits : left + right < 4294967296) :
    add left right = left + right := by
  unfold add
  exact Nat.mod_eq_of_lt fits

theorem sub_eq {left right : ℕ} (le : right ≤ left) (fits : left < 4294967296) :
    sub left right = left - right := by
  unfold sub
  have rightMod : right % 4294967296 = right := Nat.mod_eq_of_lt (by omega)
  rw [rightMod]
  omega

theorem alignDown_le (value granule : ℕ) : alignDown value granule ≤ value :=
  Nat.sub_le _ _

theorem dvd_alignDown (value granule : ℕ) : granule ∣ alignDown value granule := by
  exact Nat.dvd_sub_mod value

/-! ## Differences of counters that wrap -/

theorem toSigned_lt {word : ℕ} (fits : word < 4294967296) : toSigned word < 2147483648 := by
  unfold toSigned
  split_ifs with pos <;> omega

theorem ofSigned_mod (value : ℕ) : ofSigned value = value % 4294967296 := by
  unfold ofSigned
  omega

theorem add_ofSigned (left right : ℤ) :
    add (ofSigned left) (ofSigned right) = ofSigned (left + right) := by
  unfold add ofSigned
  omega

theorem toSigned_sub {left right : ℤ} (low : -2147483648 ≤ left - right)
    (high : left - right < 2147483648) :
    toSigned (sub (ofSigned left) (ofSigned right)) = left - right := by
  unfold toSigned sub ofSigned
  split_ifs with pos <;> omega

theorem toSigned_sub_nonpos {left right : ℤ} (past : (right - left) % 4294967296 ≤ 2147483648) :
    toSigned (sub (ofSigned left) (ofSigned right)) ≤ 0 := by
  unfold toSigned sub ofSigned
  split_ifs with pos <;> omega

end StreakKernel.Word
