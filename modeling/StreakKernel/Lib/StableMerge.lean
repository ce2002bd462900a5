import Mathlib.Data.List.Basic
import Mathlib.Data.Set.Basic

/-!
# Stable merging

A comparison that is a total preorder on a set of elements. Merging two sorted lists,
taking the left element where both are equivalent, gives a sorted list in which every class of
equivalent elements stands as it did in the two lists one after the other.
-/

namespace StreakKernel.StableMerge

open List

universe u

variable {α : Type u} (le : α → α → Bool)

structure PreorderOn (elements : Set α) : Prop where
  total : ∀ a ∈ elements, ∀ b ∈ elements, le a b = true ∨ le b a = true
  trans : ∀ a ∈ elements, ∀ b ∈ elements, ∀ c ∈ elements,
    le a b = true → le b c = true → le a c = true

def Sorted (list : List α) : Prop := list.Pairwise fun a b => le a b = true

def likes (a b : α) : Bool := le a b && le b a

/-- The same elements, and equivalent ones in the same order. -/
structure Rearranges (elements : Set α) (before after : List α) : Prop where
  perm : after.Perm before
  stable : ∀ a ∈ elements, after.filter (likes le a) = before.filter (likes le a)

variable {le} {elements : Set α} {before middle after left right : List α}

theorem Rearranges.refl (list : List α) : Rearranges le elements list list :=
  ⟨.refl list, fun _ _ => rfl⟩

theorem Rearranges.trans (first : Rearranges le elements before middle)
    (second : Rearranges le elements middle after) : Rearranges le elements before after :=
  ⟨second.perm.trans first.perm,
    fun a mem => (second.stable a mem).trans (first.stable a mem)⟩

theorem Rearranges.append {otherBefore otherAfter : List α}
    (first : Rearranges le elements before after)
    (second : Rearranges le elements otherBefore otherAfter) :
    Rearranges le elements (before ++ otherBefore) (after ++ otherAfter) := by
  refine ⟨first.perm.append second.perm, ?_⟩
  intro a mem
  rw [filter_append, filter_append, first.stable a mem, second.stable a mem]

theorem filter_likes_eq_nil {a x y : α} {rest : List α} (preorder : PreorderOn le elements)
    (inside : ∀ z ∈ x :: rest, z ∈ elements) (aInside : a ∈ elements) (yInside : y ∈ elements)
    (sorted : Sorted le (x :: rest)) (less : le x y = false) (liked : likes le a y = true) :
    (x :: rest).filter (likes le a) = [] := by
  rw [filter_eq_nil_iff]
  intro z mem zLiked
  simp only [likes, Bool.and_eq_true] at liked zLiked
  have xInside := inside x mem_cons_self
  have zInside := inside z mem
  have zLe : le z y = true := preorder.trans z zInside a aInside y yInside zLiked.2 liked.1
  have xLe : le x y = true := by
    rcases mem_cons.mp mem with isFirst | inRest
    · rw [← isFirst]
      exact zLe
    · have xz := (pairwise_cons.mp sorted).1 z inRest
      exact preorder.trans x xInside z zInside y yInside xz zLe
  rw [less] at xLe
  cases xLe

section

variable (preorder : PreorderOn le elements) (leftInside : ∀ x ∈ left, x ∈ elements)
  (rightInside : ∀ y ∈ right, y ∈ elements)
include preorder leftInside rightInside

theorem sorted_merge (leftSorted : Sorted le left) (rightSorted : Sorted le right) :
    Sorted le (left.merge right le) := by
  induction left generalizing right with
  | nil => simpa using rightSorted
  | cons x xs ihLeft =>
    induction right with
    | nil => simpa using leftSorted
    | cons y ys ihRight =>
      have xInside := leftInside x mem_cons_self
      have yInside := rightInside y mem_cons_self
      rcases pairwise_cons.mp leftSorted with ⟨xLeast, xsSorted⟩
      rcases pairwise_cons.mp rightSorted with ⟨yLeast, ysSorted⟩
      have xsInside : ∀ z ∈ xs, z ∈ elements := fun z mem => leftInside z (mem_cons_of_mem _ mem)
      have ysInside : ∀ z ∈ ys, z ∈ elements := fun z mem => rightInside z (mem_cons_of_mem _ mem)
      rw [cons_merge_cons]
      split_ifs with first
      · refine pairwise_cons.mpr ⟨?_, ihLeft xsInside rightInside xsSorted rightSorted⟩
        intro z mem
        rcases mem_merge.mp mem with inLeft | inRight
        · exact xLeast z inLeft
        · rcases mem_cons.mp inRight with rfl | inRest
          · exact first
          · exact preorder.trans x xInside y yInside z (ysInside z inRest) first (yLeast z inRest)
      have yFirst : le y x = true := by
        rcases preorder.total x xInside y yInside with xLe | yLe
        · exact absurd xLe first
        · exact yLe
      refine pairwise_cons.mpr ⟨?_, ihRight ysInside ysSorted⟩
      intro z mem
      rcases mem_merge.mp mem with inLeft | inRight
      · rcases mem_cons.mp inLeft with rfl | inRest
        · exact yFirst
        · exact preorder.trans y yInside x xInside z (xsInside z inRest) yFirst
            (xLeast z inRest)
      · exact yLeast z inRight

theorem rearranges_merge (leftSorted : Sorted le left) :
    Rearranges le elements (left ++ right) (left.merge right le) := by
  refine ⟨merge_perm_append le, ?_⟩
  intro a aInside
  induction left generalizing right with
  | nil => simp
  | cons x xs ihLeft =>
    induction right with
    | nil => simp
    | cons y ys ihRight =>
      have xsInside : ∀ z ∈ xs, z ∈ elements := fun z mem => leftInside z (mem_cons_of_mem _ mem)
      have ysInside : ∀ z ∈ ys, z ∈ elements := fun z mem => rightInside z (mem_cons_of_mem _ mem)
      rw [cons_merge_cons]
      split_ifs with first
      · rw [cons_append, filter_cons, filter_cons,
          ihLeft xsInside rightInside (pairwise_cons.mp leftSorted).2]
      rw [filter_cons, ihRight ysInside, filter_append, filter_append]
      split_ifs with liked
      · have noneLeft := filter_likes_eq_nil preorder leftInside aInside
          (rightInside y mem_cons_self) leftSorted
          (Bool.eq_false_of_not_eq_true first) liked
        rw [noneLeft, nil_append, nil_append, filter_cons_of_pos liked]
      · rw [filter_cons_of_neg liked]

end

end StreakKernel.StableMerge
