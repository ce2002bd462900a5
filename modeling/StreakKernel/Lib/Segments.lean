import Mathlib.Data.Set.BooleanAlgebra
import Mathlib.Order.CompletePartialOrder

/-!
# Sets of numbers as arrays of segments

The first `count` places of an array hold segments. `covered` is the set they stand for,
and `Separated` says that they stand in order, with a gap between any two.
-/

namespace StreakKernel

open Function

structure Segment where
  base : ℕ
  size : ℕ
  deriving DecidableEq

namespace Segment

def stop (segment : Segment) : ℕ := segment.base + segment.size

def points (segment : Segment) : Set ℕ := Set.Ico segment.base segment.stop

def covered (count : ℕ) (segments : ℕ → Segment) : Set ℕ :=
  {point | ∃ place < count, point ∈ (segments place).points}

/-- The first `count` segments stand in order with gaps between them. -/
def Separated (count : ℕ) (segments : ℕ → Segment) : Prop :=
  ∀ left right, left < right → right < count → (segments left).stop < (segments right).base

def removeAt (place : ℕ) (segments : ℕ → Segment) : ℕ → Segment :=
  fun other => if other < place then segments other else segments (other + 1)

def insertAt (place : ℕ) (new : Segment) (segments : ℕ → Segment) : ℕ → Segment :=
  fun other => if other < place then segments other
    else if other = place then new else segments (other - 1)

variable {count place : ℕ} {segments other : ℕ → Segment} {new : Segment}

theorem mem_points {segment : Segment} {point : ℕ} :
    point ∈ segment.points ↔ segment.base ≤ point ∧ point < segment.stop :=
  Iff.rfl

theorem apart_of_disjoint {left right : Segment} (leftPositive : 0 < left.size)
    (rightPositive : 0 < right.size) (disjoint : Disjoint left.points right.points) :
    left.stop ≤ right.base ∨ right.stop ≤ left.base := by
  by_contra overlap
  have inLeft : max left.base right.base ∈ left.points := by
    rw [mem_points]
    unfold stop at *
    omega
  have inRight : max left.base right.base ∈ right.points := by
    rw [mem_points]
    unfold stop at *
    omega
  exact Set.disjoint_left.mp disjoint inLeft inRight

theorem points_subset_covered (bound : place < count) :
    (segments place).points ⊆ covered count segments :=
  fun _ inside => ⟨place, bound, inside⟩

theorem covered_congr (agree : ∀ place < count, other place = segments place) :
    covered count other = covered count segments := by
  ext point
  constructor
  · rintro ⟨place, bound, inside⟩
    exact ⟨place, bound, agree place bound ▸ inside⟩
  · rintro ⟨place, bound, inside⟩
    exact ⟨place, bound, (agree place bound).symm ▸ inside⟩

section Separate

variable (separated : Separated count segments)
include separated

theorem Separated.congr (agree : ∀ place < count, other place = segments place) :
    Separated count other := by
  intro left right before bound
  rw [agree left (before.trans bound), agree right bound]
  exact separated left right before bound

theorem Separated.eq_of_mem {left right point : ℕ} (leftBound : left < count)
    (rightBound : right < count) (leftInside : point ∈ (segments left).points)
    (rightInside : point ∈ (segments right).points) : left = right := by
  rw [mem_points] at leftInside rightInside
  rcases lt_trichotomy left right with before | same | after
  · have := separated left right before rightBound
    omega
  · exact same
  · have := separated right left after leftBound
    omega

theorem covered_update (bound : place < count) : covered count (update segments place new) =
      (covered count segments \ (segments place).points) ∪ new.points := by
  ext point
  constructor
  · rintro ⟨other, otherBound, inside⟩
    by_cases same : other = place
    · subst same
      rw [update_self] at inside
      exact .inr inside
    rw [update_of_ne same] at inside
    refine .inl ⟨⟨other, otherBound, inside⟩, ?_⟩
    intro inPlace
    exact same (separated.eq_of_mem otherBound bound inside inPlace)
  rintro (⟨⟨other, otherBound, inside⟩, outside⟩ | inNew)
  · have ne : other ≠ place := by
      rintro rfl
      exact outside inside
    refine ⟨other, otherBound, ?_⟩
    rw [update_of_ne ne]
    exact inside
  · refine ⟨place, bound, ?_⟩
    rw [update_self]
    exact inNew

theorem covered_update_union {extra : Set ℕ} (bound : place < count)
    (grown : new.points = (segments place).points ∪ extra) :
    covered count (update segments place new) = covered count segments ∪ extra := by
  rw [covered_update separated bound, grown, ← Set.union_assoc,
    Set.sdiff_union_of_subset (points_subset_covered bound)]

theorem covered_update_sdiff {lost : Set ℕ} (bound : place < count)
    (inside : lost ⊆ (segments place).points)
    (shrunk : new.points = (segments place).points \ lost) :
    covered count (update segments place new) = covered count segments \ lost := by
  rw [covered_update separated bound, shrunk]
  ext point
  simp only [Set.mem_union, Set.mem_sdiff]
  tauto

theorem Separated.update (below : ∀ left, left < place → (segments left).stop < new.base)
    (above : ∀ right, place < right → right < count → new.stop < (segments right).base) :
    Separated count (update segments place new) := by
  intro left right before bound
  by_cases isLeft : left = place
  · subst isLeft
    rw [update_self, update_of_ne (by omega)]
    exact above right before bound
  by_cases isRight : right = place
  · subst isRight
    rw [update_self, update_of_ne isLeft]
    exact below left before
  · rw [update_of_ne isLeft, update_of_ne isRight]
    exact separated left right before bound

theorem covered_removeAt (bound : place < count) : covered (count - 1) (removeAt place segments) =
      covered count segments \ (segments place).points := by
  ext point
  constructor
  · rintro ⟨other, otherBound, inside⟩
    unfold removeAt at inside
    split_ifs at inside with before
    · refine ⟨⟨other, by omega, inside⟩, ?_⟩
      intro inPlace
      have := separated.eq_of_mem (by omega) bound inside inPlace
      omega
    refine ⟨⟨other + 1, by omega, inside⟩, ?_⟩
    intro inPlace
    have := separated.eq_of_mem (by omega) bound inside inPlace
    omega
  · rintro ⟨⟨other, otherBound, inside⟩, outside⟩
    have ne : other ≠ place := by
      rintro rfl
      exact outside inside
    by_cases before : other < place
    · refine ⟨other, by omega, ?_⟩
      rw [removeAt, if_pos before]
      exact inside
    · refine ⟨other - 1, by omega, ?_⟩
      rw [removeAt, if_neg (by omega), Nat.sub_add_cancel (by omega)]
      exact inside

end Separate

theorem removeAt_update {early : ℕ} (before : early < place) :
    removeAt place (update segments early new) =
      update (removeAt place segments) early new := by
  funext k
  by_cases same : k = early
  · subst same
    rw [update_self, removeAt, if_pos before, update_self]
  rw [update_of_ne same, removeAt, removeAt, update_of_ne same]
  split_ifs with earlier
  · rfl
  · rw [update_of_ne (by omega)]

theorem Separated.removeAt (separated : Separated count segments) :
    Separated (count - 1) (removeAt place segments) := by
  intro left right before bound
  unfold Segment.removeAt
  split_ifs with leftBefore rightBefore rightBefore
  · exact separated left right before (by omega)
  · exact separated left (right + 1) (by omega) (by omega)
  · omega
  · exact separated (left + 1) (right + 1) (by omega) (by omega)

theorem covered_insertAt (bound : place ≤ count) :
    covered (count + 1) (insertAt place new segments) =
      covered count segments ∪ new.points := by
  ext point
  constructor
  · rintro ⟨other, otherBound, inside⟩
    unfold insertAt at inside
    split_ifs at inside with before same
    · exact .inl ⟨other, by omega, inside⟩
    · exact .inr inside
    · exact .inl ⟨other - 1, by omega, inside⟩
  rintro (⟨other, otherBound, inside⟩ | inNew)
  · by_cases before : other < place
    · refine ⟨other, by omega, ?_⟩
      rw [insertAt, if_pos before]
      exact inside
    · refine ⟨other + 1, by omega, ?_⟩
      rw [insertAt, if_neg (by omega), if_neg (by omega), Nat.add_sub_cancel]
      exact inside
  · refine ⟨place, by omega, ?_⟩
    rw [insertAt, if_neg (lt_irrefl place), if_pos rfl]
    exact inNew

theorem Separated.insertAt (separated : Separated count segments) (within : place ≤ count)
    (below : ∀ left, left < place → (segments left).stop < new.base)
    (above : ∀ right, place ≤ right → right < count → new.stop < (segments right).base) :
    Separated (count + 1) (insertAt place new segments) := by
  intro left right before bound
  unfold Segment.insertAt
  split_ifs with leftBefore rightBefore isRight isLeft
  · exact separated left right before (by omega)
  · exact below left leftBefore
  · exact separated left (right - 1) (by omega) (by omega)
  · omega
  · omega
  · exact above (right - 1) (by omega) (by omega)
  · omega
  · omega
  · exact separated (left - 1) (right - 1) (by omega) (by omega)

end Segment

end StreakKernel
