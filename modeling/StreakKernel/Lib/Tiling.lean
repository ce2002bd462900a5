import Mathlib.Algebra.GroupWithZero.Nat
import Mathlib.Data.List.Basic

/-!
# Tilings of an interval

Items with a lower and an upper end, in a list in which every item lies before the later
ones. The list tiles an interval as soon as the items are, in total, as long as the
interval.
-/

namespace StreakKernel.Tiling

open List

universe u v

variable {Item : Type u} {Value : Type v} {lower upper : Item → ℕ}

/-- The items follow each other without a gap from `start` to `stop`. -/
def Tiles (lower upper : Item → ℕ) : ℕ → List Item → ℕ → Prop
  | start, [], stop => start = stop
  | start, item :: rest, stop => lower item = start ∧ Tiles lower upper (upper item) rest stop

def Ordered (lower upper : Item → ℕ) (items : List Item) : Prop :=
  items.Pairwise fun first second => upper first ≤ lower second

def extent (lower upper : Item → ℕ) (items : List Item) : ℕ :=
  (items.map fun item => upper item - lower item).sum

@[simp]
theorem extent_nil : extent lower upper [] = 0 := rfl

@[simp]
theorem extent_cons (item : Item) (rest : List Item) :
    extent lower upper (item :: rest) = (upper item - lower item) + extent lower upper rest := by
  simp [extent]

@[simp]
theorem extent_append (first second : List Item) : extent lower upper (first ++ second) =
      extent lower upper first + extent lower upper second := by
  simp [extent]

variable {items : List Item} {start stop : ℕ}

theorem extent_le (ordered : Ordered lower upper items) (le : start ≤ stop)
    (within : ∀ item ∈ items, start ≤ lower item ∧ lower item ≤ upper item ∧ upper item ≤ stop) :
    start + extent lower upper items ≤ stop := by
  induction items generalizing start with
  | nil => simpa using le
  | cons item rest ih =>
    obtain ⟨before, restOrdered⟩ := pairwise_cons.mp ordered
    obtain ⟨lowerGe, proper, upperLe⟩ := within item mem_cons_self
    have restLe := ih restOrdered upperLe fun other mem =>
      ⟨before other mem, (within other (mem_cons_of_mem _ mem)).2⟩
    rw [extent_cons]
    omega

theorem tiles_of_extent (ordered : Ordered lower upper items)
    (within : ∀ item ∈ items, start ≤ lower item ∧ lower item ≤ upper item ∧ upper item ≤ stop)
    (full : start + extent lower upper items = stop) : Tiles lower upper start items stop := by
  induction items generalizing start with
  | nil => simpa [Tiles] using full
  | cons item rest ih =>
    obtain ⟨before, restOrdered⟩ := pairwise_cons.mp ordered
    obtain ⟨lowerGe, proper, upperLe⟩ := within item mem_cons_self
    have restWithin : ∀ other ∈ rest,
        upper item ≤ lower other ∧ lower other ≤ upper other ∧ upper other ≤ stop :=
      fun other mem =>
        ⟨before other mem, (within other (mem_cons_of_mem _ mem)).2⟩
    have restLe := extent_le restOrdered upperLe restWithin
    rw [extent_cons] at full
    refine ⟨by omega, ih restOrdered restWithin ?_⟩
    omega

section Content

variable {content : Item → List Value}

theorem length_flatMap_of_tiles {items : List Item} {start stop : ℕ}
    (tiles : Tiles lower upper start items stop)
    (lengths : ∀ item, upper item = lower item + (content item).length) :
    start + (items.flatMap content).length = stop := by
  induction items generalizing start with
  | nil => simpa [Tiles] using tiles
  | cons item rest ih =>
    obtain ⟨rfl, restTiles⟩ := tiles
    have := ih restTiles
    rw [lengths item] at this
    rw [flatMap_cons, length_append]
    omega

/-- What is found in the content of the interval was held by an item, at the same place. -/
theorem exists_of_getElem?_flatMap {items : List Item} {start stop index : ℕ} {value : Value}
    (tiles : Tiles lower upper start items stop)
    (lengths : ∀ item, upper item = lower item + (content item).length)
    (found : (items.flatMap content)[index]? = some value) :
    ∃ item ∈ items, ∃ place, (content item)[place]? = some value ∧
      lower item + place = start + index := by
  induction items generalizing start index with
  | nil => simp at found
  | cons item rest ih =>
    obtain ⟨rfl, restTiles⟩ := tiles
    rw [flatMap_cons] at found
    by_cases inside : index < (content item).length
    · rw [getElem?_append_left inside] at found
      exact ⟨item, mem_cons_self, index, found, rfl⟩
    rw [getElem?_append_right (by omega)] at found
    obtain ⟨other, mem, place, isFound, isPlace⟩ := ih restTiles found
    refine ⟨other, mem_cons_of_mem _ mem, place, isFound, ?_⟩
    rw [lengths item] at isPlace
    omega

end Content

end StreakKernel.Tiling
