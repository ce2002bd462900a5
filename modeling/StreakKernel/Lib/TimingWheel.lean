import Mathlib.Algebra.Order.Group.Nat
import Mathlib.Data.Nat.ModEq

/-!
# Hierarchical timing wheels

Each slot of a level stands for one unit of time, a full turn of the level below. The
units that a level may hold at one time form a window that begins at an edge, the next
unit that is to be taken out.
-/

namespace StreakKernel.TimingWheel

open Nat

/-- The numbers of slots of the lowest level and of every other one. -/
structure Shape where
  root : ℕ
  node : ℕ
  root_pos : 0 < root
  node_pos : 0 < node

namespace Shape

variable (shape : Shape) (lev now edge delay due : ℕ)

def slots : ℕ → ℕ
  | 0 => shape.root
  | _ + 1 => shape.node

def unit : ℕ → ℕ
  | 0 => 1
  | lev + 1 => unit lev * shape.slots lev

def slotOf (time : ℕ) : ℕ := time / shape.unit lev % shape.slots lev

/-- The edge is the next unit that begins at `now` or the one after a unit that begins at
`now`. -/
structure Edge : Prop where
  le_succ : edge ≤ now / shape.unit lev + 1
  le_mul : now ≤ edge * shape.unit lev

structure Within : Prop where
  low : edge ≤ due / shape.unit lev
  high : due / shape.unit lev < edge + shape.slots lev

variable {shape lev now edge delay due}

theorem slots_pos (shape : Shape) (lev : ℕ) : 0 < shape.slots lev := by
  cases lev with
  | zero => exact shape.root_pos
  | succ lev => exact shape.node_pos

theorem unit_pos (shape : Shape) (lev : ℕ) : 0 < shape.unit lev := by
  induction lev with
  | zero => exact one_pos
  | succ lev ih => exact Nat.mul_pos ih (shape.slots_pos lev)

theorem unit_dvd {low high : ℕ} (le : low ≤ high) : shape.unit low ∣ shape.unit high := by
  induction le with
  | refl => exact dvd_refl _
  | step _ ih => exact dvd_trans ih (dvd_mul_right _ _)

theorem Edge.within (isEdge : shape.Edge lev now edge) (long : shape.unit lev ≤ delay)
    (short : delay < shape.unit (lev + 1)) : shape.Within lev edge (now + delay) := by
  have pos := shape.unit_pos lev
  refine ⟨?_, ?_⟩
  · calc
      edge ≤ now / shape.unit lev + 1 := isEdge.le_succ
      _ = (now + shape.unit lev) / shape.unit lev := (Nat.add_div_right now pos).symm
      _ ≤ (now + delay) / shape.unit lev := Nat.div_le_div_right (by omega)
  · rw [Nat.div_lt_iff_lt_mul pos, add_mul, mul_comm (shape.slots lev)]
    exact Nat.add_lt_add_of_le_of_lt isEdge.le_mul short

theorem within_zero (short : delay < shape.slots 0) : shape.Within 0 now (now + delay) := by
  constructor <;> simp only [unit, Nat.div_one] <;> omega

section

variable (within : shape.Within lev edge due)
include within

theorem Within.eq_add_of_slotOf {offset : ℕ} (short : offset < shape.slots lev)
    (same : shape.slotOf lev due = (edge + offset) % shape.slots lev) :
    due / shape.unit lev = edge + offset := by
  have low := within.low
  have high := within.high
  obtain ⟨distance, isDistance⟩ := Nat.exists_eq_add_of_le low
  rw [slotOf, isDistance] at same
  have isOffset : distance % shape.slots lev = offset % shape.slots lev :=
    Nat.ModEq.add_left_cancel' edge same
  rw [mod_eq_of_lt (by omega), mod_eq_of_lt short] at isOffset
  omega

theorem Within.eq_of_slotOf (same : shape.slotOf lev due = edge % shape.slots lev) :
    due / shape.unit lev = edge :=
  within.eq_add_of_slotOf (shape.slots_pos lev) same

theorem Within.succ (other : shape.slotOf lev due ≠ edge % shape.slots lev) :
    shape.Within lev (edge + 1) due := by
  have low := within.low
  have high := within.high
  refine ⟨?_, by omega⟩
  by_contra before
  have isEdge : due / shape.unit lev = edge := by omega
  exact other (by rw [slotOf, isEdge])

end

theorem slotOf_mod {size : ℕ} (dvd : shape.unit (lev + 1) ∣ size) (time : ℕ) :
    shape.slotOf lev (time % size) = shape.slotOf lev time := by
  rcases dvd with ⟨turns, rfl⟩
  unfold slotOf
  rw [unit, mul_assoc, mod_mul_right_div_self, mod_mul_right_mod]

/-! ## The next unit of a level -/

def upcoming (shape : Shape) (now lev : ℕ) : ℕ := (now + shape.unit lev - 1) / shape.unit lev

theorem upcoming_zero (shape : Shape) (now : ℕ) : shape.upcoming now 0 = now := by
  rw [upcoming, unit, Nat.div_one]
  rfl

theorem upcoming_succ (shape : Shape) (now lev : ℕ) :
    shape.upcoming (now + 1) lev = now / shape.unit lev + 1 := by
  rw [upcoming, add_right_comm, Nat.add_sub_cancel, Nat.add_div_right now (shape.unit_pos lev)]

theorem upcoming_mul (shape : Shape) (units lev : ℕ) :
    shape.upcoming (units * shape.unit lev) lev = units := by
  have pos := shape.unit_pos lev
  rw [upcoming, Nat.add_sub_assoc pos, add_comm, Nat.add_mul_div_right _ _ pos,
    Nat.div_eq_of_lt (by omega), zero_add]

theorem upcoming_of_not_dvd (inside : ¬shape.unit lev ∣ now) :
    shape.upcoming now lev = now / shape.unit lev + 1 := by
  obtain ⟨before, rfl⟩ : ∃ before, now = before + 1 := by
    refine ⟨now - 1, ?_⟩
    by_contra isZero
    obtain rfl : now = 0 := by omega
    exact inside (dvd_zero _)
  rw [upcoming_succ, succ_div_of_not_dvd inside]

theorem upcoming_le_iff {units : ℕ} :
    shape.upcoming now lev ≤ units ↔ now ≤ units * shape.unit lev := by
  have pos := shape.unit_pos lev
  rw [upcoming, ← Nat.lt_succ_iff, Nat.div_lt_iff_lt_mul pos, Nat.succ_mul]
  omega

theorem le_upcoming_mul (shape : Shape) (now lev : ℕ) :
    now ≤ shape.upcoming now lev * shape.unit lev :=
  upcoming_le_iff.mp le_rfl

/-- The next unit of a higher level does not begin before that of a lower one. -/
theorem upcoming_mul_le {low high : ℕ} (le : low ≤ high) :
    shape.upcoming now low * shape.unit low ≤ shape.upcoming now high * shape.unit high := by
  obtain ⟨factor, isFactor⟩ := shape.unit_dvd le
  have begins := shape.le_upcoming_mul now high
  rw [isFactor, mul_left_comm, ← mul_comm (_ * factor)] at begins ⊢
  exact mul_le_mul_right _ (upcoming_le_iff.mpr begins)

theorem upcoming_level_succ (shape : Shape) (now lev : ℕ) : shape.upcoming now (lev + 1) =
      (shape.upcoming now lev + shape.slots lev - 1) / shape.slots lev := by
  have pos := shape.slots_pos lev
  refine le_antisymm ?_ ?_
  · rw [upcoming_le_iff, unit, mul_comm (shape.unit lev), ← mul_assoc, ← upcoming_le_iff]
    have isRound := div_add_mod (shape.upcoming now lev + shape.slots lev - 1) (shape.slots lev)
    have := mod_lt (shape.upcoming now lev + shape.slots lev - 1) pos
    rw [mul_comm]
    omega
  rw [← Nat.lt_succ_iff, Nat.div_lt_iff_lt_mul pos, Nat.succ_mul]
  have enough : shape.upcoming now lev ≤ shape.upcoming now (lev + 1) * shape.slots lev := by
    rw [upcoming_le_iff, mul_assoc, mul_comm (shape.slots lev)]
    exact shape.le_upcoming_mul now (lev + 1)
  omega

theorem edge_upcoming (shape : Shape) (now lev : ℕ) :
    shape.Edge lev now (shape.upcoming now lev) := by
  have pos := shape.unit_pos lev
  by_cases aligned : shape.unit lev ∣ now
  · obtain ⟨units, rfl⟩ := aligned
    rw [mul_comm, upcoming_mul]
    refine ⟨?_, le_rfl⟩
    rw [Nat.mul_div_cancel _ pos]
    exact Nat.le_succ units
  · rw [upcoming_of_not_dvd aligned]
    exact ⟨le_rfl, (Nat.lt_div_mul_add pos).le.trans (le_of_eq (Nat.succ_mul _ _).symm)⟩

end Shape

end StreakKernel.TimingWheel
