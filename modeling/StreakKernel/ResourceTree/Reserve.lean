import Mathlib.Data.List.Basic

/-!
# Reserving around what is there

Shallow embedding of `__request_resource` and `__reserve_region_with_split` of
`kernel/resource.c`. Of a tree they see the root and its children, in the order of the siblings.
-/

namespace StreakKernel.ResourceTree

open List

/-- The range of a `struct resource`, with both ends. -/
structure Resource where
  start : ℕ
  finish : ℕ
  deriving DecidableEq

def Resource.Covers (resource : Resource) (addr : ℕ) : Prop :=
  resource.start ≤ addr ∧ addr ≤ resource.finish

/-- The loop of `__request_resource`: the children with the new one, or the conflict. -/
def insertChild (new : Resource) : List Resource → Except Resource (List Resource)
  | [] => .ok [new]
  | tmp :: rest =>
    if new.finish < tmp.start then .ok (new :: tmp :: rest)
    else if tmp.finish < new.start then (insertChild new rest).map (tmp :: ·)
    else .error tmp

def requestResource (root : Resource) (children : List Resource) (new : Resource) :
    Except Resource (List Resource) :=
  if new.finish < new.start then .error root
  else if new.start < root.start then .error root
  else if root.finish < new.finish then .error root
  else insertChild new children

/-- `__reserve_region_with_split`, at most `fuel` calls deep. `alloc` tells for which ranges
`kzalloc` succeeds. -/
def reserveRegionWithSplit (root : Resource) (alloc : ℕ → ℕ → Bool) :
    ℕ → ℕ → ℕ → List Resource → Option (List Resource)
  | 0, _, _, _ => none
  | fuel + 1, start, finish, children =>
    if alloc start finish = false then some children
    else
      match requestResource root children ⟨start, finish⟩ with
      | .ok after => some after
      | .error conflict =>
        if conflict.start ≤ start ∧ finish ≤ conflict.finish then some children
        else
          (if start < conflict.start then
            reserveRegionWithSplit root alloc fuel start (conflict.start - 1) children
          else some children).bind fun children =>
            if conflict.finish < finish then
              reserveRegionWithSplit root alloc fuel (conflict.finish + 1) finish children
            else some children

/-- The call ends, existing children stay as they are, and the wanted addresses are covered. -/
def Fills (children : List Resource) (wanted : ℕ → Prop) (result : Option (List Resource)) : Prop :=
  ∃ after, result = some after ∧ children <+ after ∧
    ∀ addr, wanted addr → ∃ child ∈ after, child.Covers addr

/-- If there is memory, all of the range that lies in the root is covered. -/
def Reserves (root : Resource) (children : List Resource) (start finish : ℕ)
    (alloc : ℕ → ℕ → Bool) : Prop :=
  ∃ fuel, Fills children (fun addr => (∀ low high, alloc low high = true) ∧ start ≤ addr ∧
    addr ≤ finish ∧ root.Covers addr) (reserveRegionWithSplit root alloc fuel start finish children)

variable {root conflict : Resource} {children : List Resource} {alloc : ℕ → ℕ → Bool}
  {start finish : ℕ} {wanted other : ℕ → Prop} {result : Option (List Resource)}
  {next : List Resource → Option (List Resource)}

theorem Fills.mono (fills : Fills children wanted result)
    (within : ∀ addr, other addr → wanted addr) :
    Fills children other result := by
  rcases fills with ⟨after, isDone, kept, covers⟩
  exact ⟨after, isDone, kept, fun addr isWanted => covers addr (within addr isWanted)⟩

theorem fills_ite {needed : Prop} [Decidable needed] (mem : conflict ∈ children)
    (called : needed → Fills children wanted result)
    (covered : ¬needed → ∀ addr, wanted addr → conflict.Covers addr) :
    Fills children wanted (if needed then result else some children) := by
  split_ifs with isNeeded
  · exact called isNeeded
  · exact ⟨children, rfl, .refl _, fun addr isWanted =>
      ⟨conflict, mem, covered isNeeded addr isWanted⟩⟩

theorem Fills.bind (mem : conflict ∈ children) (below : Fills children wanted result)
    (above : ∀ lower, conflict ∈ lower → Fills lower other (next lower)) :
    Fills children (fun addr => wanted addr ∨ other addr ∨ conflict.Covers addr)
      (result.bind next) := by
  rcases below with ⟨lower, rfl, keptLower, coversLower⟩
  rcases above lower (keptLower.subset mem) with ⟨after, isDone, kept, covers⟩
  refine ⟨after, isDone, keptLower.trans kept, ?_⟩
  rintro addr (isBelow | isAbove | isMiddle)
  · rcases coversLower addr isBelow with ⟨child, inLower, isCovered⟩
    exact ⟨child, kept.subset inLower, isCovered⟩
  · exact covers addr isAbove
  · exact ⟨conflict, (keptLower.trans kept).subset mem, isMiddle⟩

theorem insertChild_spec (new : Resource) (children : List Resource) :
    match insertChild new children with
    | .ok after => children <+ after ∧ new ∈ after
    | .error conflict =>
      conflict ∈ children ∧ conflict.start ≤ new.finish ∧ new.start ≤ conflict.finish := by
  induction children with
  | nil => exact ⟨nil_sublist _, mem_cons_self⟩
  | cons tmp rest ih =>
    rw [insertChild]
    split_ifs with before behind
    · exact ⟨sublist_cons_self _ _, mem_cons_self⟩
    · cases isRest : insertChild new rest with
      | ok after =>
        rw [isRest] at ih
        exact ⟨ih.1.cons_cons tmp, mem_cons_of_mem _ ih.2⟩
      | error conflict =>
        rw [isRest] at ih
        exact ⟨mem_cons_of_mem _ ih.1, ih.2⟩
    · exact ⟨mem_cons_self, Nat.not_lt.mp before, Nat.not_lt.mp behind⟩

theorem fills_of_inside {fuel : ℕ} (enough : finish < start + fuel) (le : start ≤ finish)
    (low : root.start ≤ start) (high : finish ≤ root.finish) :
    Fills children (fun addr => (∀ low high, alloc low high = true) ∧ start ≤ addr ∧ addr ≤ finish)
      (reserveRegionWithSplit root alloc fuel start finish children) := by
  induction fuel generalizing start finish children with
  | zero => omega
  | succ fuel ih =>
    have inRoot : requestResource root children ⟨start, finish⟩ =
        insertChild ⟨start, finish⟩ children := by
      simp [requestResource, Nat.not_lt.mpr le, Nat.not_lt.mpr low, Nat.not_lt.mpr high]
    rw [reserveRegionWithSplit, inRoot]
    by_cases noMemory : alloc start finish = false
    · rw [if_pos noMemory]
      exact ⟨children, rfl, .refl _, fun addr isWanted => by simp [isWanted.1] at noMemory⟩
    rw [if_neg noMemory]
    have spec := insertChild_spec ⟨start, finish⟩ children
    cases isDone : insertChild ⟨start, finish⟩ children with
    | ok after =>
      rw [isDone] at spec
      exact ⟨after, rfl, spec.1, fun addr isWanted => ⟨_, spec.2, isWanted.2⟩⟩
    | error conflict =>
      rw [isDone] at spec
      rcases spec with ⟨mem, conflictLow, conflictHigh⟩
      simp only at conflictLow conflictHigh ⊢
      by_cases isWhole : conflict.start ≤ start ∧ finish ≤ conflict.finish
      · rw [if_pos isWhole]
        exact ⟨children, rfl, .refl _, fun addr isWanted => ⟨conflict, mem, by omega, by omega⟩⟩
      rw [if_neg isWhole]
      have below := fills_ite mem (fun needed : start < conflict.start =>
          @ih children start (conflict.start - 1) (by omega) (by omega) low (by omega))
        (fun _ addr isWanted => ⟨by omega, by omega⟩)
      refine (below.bind mem fun lower inLower => fills_ite inLower
        (fun needed => ih (by omega) (by omega) (by omega) high)
        (fun _ addr isWanted => ⟨by omega, by omega⟩)).mono ?_
      rintro addr ⟨all, le, ge⟩
      by_cases isBelow : addr < conflict.start
      · exact .inl ⟨all, le, by omega⟩
      by_cases isAbove : conflict.finish < addr
      · exact .inr (.inl ⟨all, isAbove, ge⟩)
      · exact .inr (.inr ⟨by omega, by omega⟩)

/-- Outside of the root the call is made again and again with the same range. -/
theorem reserve_eq_none (outside : start < root.start ∨ root.finish < finish) (fuel : ℕ) :
    reserveRegionWithSplit root (fun _ _ => true) fuel start finish children = none := by
  induction fuel generalizing start finish children with
  | zero => rfl
  | succ fuel ih =>
    have isRoot : requestResource root children ⟨start, finish⟩ = .error root := by
      simp only [requestResource]
      split_ifs
      · rfl
      · rfl
      · rfl
      · omega
    rw [reserveRegionWithSplit, isRoot]
    simp only [Bool.true_eq_false, if_false]
    rw [if_neg (by omega)]
    by_cases below : start < root.start
    · rw [if_pos below, ih (.inl below)]
      rfl
    · rw [if_neg below, Option.bind_some, if_pos (by omega)]
      exact ih (.inr (by omega))

/-- A range is reserved exactly if it lies in the root. -/
theorem reserves_iff_inside (root : Resource) (children : List Resource) (le : start ≤ finish) :
    (∀ alloc, Reserves root children start finish alloc) ↔
      root.start ≤ start ∧ finish ≤ root.finish := by
  constructor
  · intro reserves
    by_contra outside
    rcases reserves fun _ _ => true with ⟨fuel, after, isDone, _⟩
    rw [reserve_eq_none (by omega)] at isDone
    cases isDone
  · rintro ⟨low, high⟩ alloc
    exact ⟨finish + 1, (fills_of_inside (by omega) le low high).mono fun addr isWanted =>
      ⟨isWanted.1, isWanted.2.1, isWanted.2.2.1⟩⟩

/-- A page below a child. -/
theorem reserves_iff_inside_page : Reserves ⟨0, 16383⟩ [⟨4096, 8191⟩] 0 8191 fun _ _ => true :=
  (reserves_iff_inside _ _ (by decide)).mpr (by decide) _

/-- The range begins below the root. -/
theorem not_reserves_below : ¬ ∀ alloc, Reserves ⟨4096, 16383⟩ [] 0 8191 alloc := by
  intro reserves
  rcases reserves fun _ _ => true with ⟨fuel, after, isDone, _⟩
  rw [reserve_eq_none (.inl (by decide))] at isDone
  cases isDone

end StreakKernel.ResourceTree
