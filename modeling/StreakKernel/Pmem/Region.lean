import StreakKernel.Lib.Word

/-!
# Memory regions of pmem

What `pmem_setup` in `drivers/misc/pmem.c` checks about a region before it sets up an
allocator for it. All sizes are in bytes, and `unsigned long` has 32 bits.
-/

namespace StreakKernel.Pmem

/-- The part of `struct pmem_info` that `pmem_setup` checks and never changes. -/
structure Region where
  base : ℕ
  size : ℕ
  quantum : ℕ
  base_lt : base < 4294967296
  size_lt : size < 4294967296
  min_le : 4096 ≤ quantum
  power : ∃ exponent < 32, quantum = 2 ^ exponent
  dvd_base : quantum ∣ base
  dvd_size : quantum ∣ size

namespace Region

def numEntries (region : Region) : ℕ := region.size / region.quantum

section

variable (region : Region)
include region

theorem quantum_le : region.quantum ≤ 2147483648 := by
  rcases region.power with ⟨exponent, bound, isPower⟩
  have atMost : 2 ^ exponent ≤ 2 ^ 31 := Nat.pow_le_pow_right (by decide) (by omega)
  omega

theorem quantum_pos : 0 < region.quantum :=
  Nat.zero_lt_of_lt region.min_le

theorem size_add_quantum_le : region.size + region.quantum ≤ 4294967296 := by
  have small := region.size_lt
  rcases region.dvd_size with ⟨count, isSize⟩
  rcases region.power with ⟨exponent, bound, isPower⟩
  have whole : 2 ^ exponent * 2 ^ (32 - exponent) = 4294967296 := by
    rw [← Nat.pow_add, Nat.add_sub_cancel' (by omega)]
  have less : region.quantum * count < region.quantum * 2 ^ (32 - exponent) := by
    rw [← isSize, isPower, whole]
    exact small
  have more := Nat.mul_le_mul_left region.quantum
    (Nat.succ_le_of_lt (Nat.lt_of_mul_lt_mul_left less))
  rw [Nat.mul_succ, ← isSize] at more
  rw [← isPower] at whole
  omega

theorem numEntries_mul_quantum : region.numEntries * region.quantum = region.size :=
  Nat.div_mul_cancel region.dvd_size

theorem numEntries_small : region.numEntries < 1048576 := by
  have least := Nat.mul_le_mul_left region.numEntries region.min_le
  rw [numEntries_mul_quantum] at least
  have bound := region.size_lt
  omega

theorem numEntries_lt : region.numEntries < 2 ^ 32 :=
  Nat.lt_trans region.numEntries_small (by decide)

end

end Region

end StreakKernel.Pmem
