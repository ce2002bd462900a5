import Mathlib.Order.Interval.Set.Basic
import Mathlib.Data.List.Pairwise

/-!
# Sets of naturals as descending interval lists

The items of a list carry an inclusive interval `[lo item, hi item]`; an item
with `hi item < lo item` covers nothing. `covered` is the set a list stands
for, and `Descending` says that every item lies strictly below the items before
it.
-/

namespace StreakKernel.Intervals

universe u

variable {Item : Type u} (lo hi : Item → ℕ)

def covered (items : List Item) : Set ℕ :=
  {point | ∃ item ∈ items, lo item ≤ point ∧ point ≤ hi item}

def Descending (items : List Item) : Prop :=
  items.Pairwise fun upper lower => hi lower < lo upper

def Below (point : ℕ) (items : List Item) : Prop := ∀ item ∈ items, hi item < point

variable {lo hi}

@[simp]
theorem covered_nil : covered lo hi ([] : List Item) = ∅ := by
  ext point
  simp [covered]

@[simp]
theorem covered_cons (item : Item) (items : List Item) :
    covered lo hi (item :: items) = Set.Icc (lo item) (hi item) ∪ covered lo hi items := by
  ext point
  simp [covered]

@[simp]
theorem covered_append (left right : List Item) :
    covered lo hi (left ++ right) = covered lo hi left ∪ covered lo hi right := by
  ext point
  simp [covered, or_and_right, exists_or]

theorem below_of_descending_cons {item : Item} {items : List Item}
    (descending : Descending lo hi (item :: items)) : Below hi (lo item) items :=
  (List.pairwise_cons.mp descending).1

theorem Below.mono {items : List Item} {point larger : ℕ} (below : Below hi point items)
    (le : point ≤ larger) : Below hi larger items :=
  fun item mem => (below item mem).trans_le le

theorem icc_union_icc_hull {firstLeft lastLeft firstRight lastRight : ℕ}
    (meets : (firstLeft ≤ firstRight ∧ firstRight ≤ lastLeft) ∨
      (firstLeft ≤ lastRight ∧ lastRight ≤ lastLeft) ∨
      (firstRight ≤ firstLeft ∧ lastLeft ≤ lastRight)) :
    Set.Icc (min firstLeft firstRight) (max lastLeft lastRight) =
      Set.Icc firstLeft lastLeft ∪ Set.Icc firstRight lastRight := by
  ext point
  simp only [Set.mem_Icc, Set.mem_union]
  omega

end StreakKernel.Intervals
