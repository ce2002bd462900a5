import Mathlib.Data.List.Nodup

/-!
# Families of disjoint lists

The lists of a system at its places, where every element stands at most once in all of them
together.
-/

namespace StreakKernel.Places

open List Function

universe u v

variable {Place : Type u} {Element : Type v} {lists : Place → List Element} {x y : Element}
  {place other : Place}

structure Exclusive (lists : Place → List Element) : Prop where
  nodup : ∀ place, (lists place).Nodup
  unique : ∀ place other x, x ∈ lists place → x ∈ lists other → place = other

theorem exclusive_nil : Exclusive fun _ : Place => ([] : List Element) :=
  ⟨fun _ => nodup_nil, fun _ _ _ mem _ => absurd mem not_mem_nil⟩

section Erase

variable [DecidableEq Element]

theorem Exclusive.erase (exclusive : Exclusive lists) (x : Element) :
    Exclusive fun place => (lists place).erase x :=
  ⟨fun place => (exclusive.nodup place).erase x, fun place other y mem otherMember =>
    exclusive.unique place other y (mem_of_mem_erase mem)
      (mem_of_mem_erase otherMember)⟩

theorem Exclusive.notMem_erase (exclusive : Exclusive lists) : x ∉ (lists place).erase x :=
  (exclusive.nodup place).not_mem_erase

end Erase

section Update

variable [DecidableEq Place]

theorem mem_update_append : y ∈ update lists place (lists place ++ [x]) other ↔
      y ∈ lists other ∨ y = x ∧ other = place := by
  by_cases same : other = place
  · subst same
    rw [update_self, mem_append, mem_singleton]
    simp
  · rw [update_of_ne same]
    simp [same]

theorem mem_update_nil : y ∈ update lists place [] other ↔
    y ∈ lists other ∧ other ≠ place := by
  by_cases same : other = place
  · subst same
    simp
  · rw [update_of_ne same]
    simp [same]

theorem Exclusive.append (exclusive : Exclusive lists) (fresh : ∀ other, x ∉ lists other) :
    Exclusive (update lists place (lists place ++ [x])) := by
  refine ⟨(forall_update_iff lists fun _ list => list.Nodup).mpr
    ⟨?_, fun other _ => exclusive.nodup other⟩, ?_⟩
  · exact List.Nodup.append (exclusive.nodup place) (nodup_singleton x)
      (disjoint_singleton.mpr (fresh place))
  intro first second y firstMem secondMem
  rw [mem_update_append] at firstMem secondMem
  rcases firstMem with firstOld | ⟨rfl, isFirst⟩
  · rcases secondMem with secondOld | ⟨rfl, _⟩
    · exact exclusive.unique first second y firstOld secondOld
    · exact absurd firstOld (fresh first)
  · rcases secondMem with secondOld | ⟨_, isSecond⟩
    · exact absurd secondOld (fresh second)
    · exact isFirst.trans isSecond.symm

theorem Exclusive.clear (exclusive : Exclusive lists) : Exclusive (update lists place []) := by
  refine ⟨(forall_update_iff lists fun _ list => list.Nodup).mpr
    ⟨nodup_nil, fun other _ => exclusive.nodup other⟩, ?_⟩
  intro first second y firstMem secondMem
  exact exclusive.unique first second y (mem_update_nil.mp firstMem).1
    (mem_update_nil.mp secondMem).1

def move (lists : Place → List Element) (source target : Place) : Place → List Element :=
  Function.update (Function.update lists source []) target (lists source)

theorem mem_move {source target : Place} (isEmpty : lists target = []) :
    y ∈ move lists source target other ↔
      y ∈ lists source ∧ other = target ∨ y ∈ lists other ∧ other ≠ source := by
  unfold move
  by_cases isTarget : other = target
  · subst isTarget
    rw [update_self, isEmpty]
    simp
  · rw [update_of_ne isTarget, mem_update_nil]
    simp [isTarget]

theorem Exclusive.move {source target : Place} (exclusive : Exclusive lists)
    (isEmpty : lists target = []) : Exclusive (move lists source target) := by
  refine ⟨?_, ?_⟩
  · exact (forall_update_iff _ fun _ list => List.Nodup list).mpr
      ⟨exclusive.nodup source, fun other _ => exclusive.clear.nodup other⟩
  intro first second y firstMem secondMem
  rw [mem_move isEmpty] at firstMem secondMem
  rcases firstMem with ⟨firstMem, isFirst⟩ | ⟨firstMem, notFirst⟩
  · rcases secondMem with ⟨_, isSecond⟩ | ⟨secondMem, notSecond⟩
    · exact isFirst.trans isSecond.symm
    · exact absurd (exclusive.unique second source y secondMem firstMem) notSecond
  · rcases secondMem with ⟨secondMem, _⟩ | ⟨secondMem, _⟩
    · exact absurd (exclusive.unique first source y firstMem secondMem) notFirst
    · exact exclusive.unique first second y firstMem secondMem

end Update

end StreakKernel.Places
