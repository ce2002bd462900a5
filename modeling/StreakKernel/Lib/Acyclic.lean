import Mathlib.Logic.Relation

/-!
# Graphs without cycles

A graph stays without cycles when edges are removed, and when an edge is added whose end does not
reach its beginning.
-/

namespace StreakKernel

universe u

variable {Node : Type u} {edge other : Node → Node → Prop} {source target : Node}

def Acyclic (edge : Node → Node → Prop) : Prop := ∀ node, ¬Relation.TransGen edge node node

theorem Acyclic.mono (acyclic : Acyclic edge) (subset : ∀ x y, other x y → edge x y) :
    Acyclic other :=
  fun node cycle => acyclic node (Relation.TransGen.mono subset _ _ cycle)

/-- A path in the larger graph avoids the new edge or runs through it. -/
theorem transGen_insert {x y : Node}
    (isInsert : ∀ x y, other x y → edge x y ∨ x = source ∧ y = target)
    (path : Relation.TransGen other x y) :
    Relation.TransGen edge x y ∨
      Relation.ReflTransGen edge x source ∧ Relation.ReflTransGen edge target y := by
  induction path with
  | single first =>
    rcases isInsert _ _ first with old | ⟨rfl, rfl⟩
    · exact .inl (.single old)
    · exact .inr ⟨.refl, .refl⟩
  | tail _ last ih =>
    rcases isInsert _ _ last with old | ⟨rfl, rfl⟩
    · rcases ih with path | ⟨toEdge, fromEdge⟩
      · exact .inl (path.tail old)
      · exact .inr ⟨toEdge, fromEdge.tail old⟩
    · rcases ih with path | ⟨toEdge, _⟩
      · exact .inr ⟨path.to_reflTransGen, .refl⟩
      · exact .inr ⟨toEdge, .refl⟩

theorem Acyclic.insert (acyclic : Acyclic edge)
    (isInsert : ∀ x y, other x y → edge x y ∨ x = source ∧ y = target)
    (notBack : ¬Relation.ReflTransGen edge target source) : Acyclic other := by
  intro node cycle
  rcases transGen_insert isInsert cycle with path | ⟨toEdge, fromEdge⟩
  · exact acyclic node path
  · exact notBack (fromEdge.trans toEdge)

end StreakKernel
