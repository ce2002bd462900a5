import StreakKernel.Lib.Word
import StreakKernel.ResourceTree.Reserve

/-!
# Allocating a resource

Shallow embedding of `find_resource` and `allocate_resource` of `kernel/resource.c`, where
`resource_size_t` has 32 bits and `align` is a power of two.
-/

namespace StreakKernel.ResourceTree

open List Word

structure Request where
  size : ℕ
  min : ℕ
  max : ℕ
  align : ℕ
  alignf : Option (Resource → ℕ → ℕ → ℕ)

namespace Request

/-- Where a resource would begin in a gap: after `ALIGN` and `alignf`. -/
def place (request : Request) (start finish : ℕ) : ℕ :=
  let tmp : Resource :=
    ⟨alignUp (if start < request.min then request.min else start) request.align, finish⟩
  match request.alignf with
  | none => tmp.start
  | some alignf => alignf tmp request.size request.align

/-- The body of the loop of `find_resource`, for the gap from `start` to `finish`. -/
def fit (request : Request) (start finish : ℕ) : Option Resource :=
  let finish := if request.max < finish then request.max else finish
  let start := request.place start finish
  if start < finish ∧ sub request.size 1 ≤ sub finish start then
    some ⟨start, sub (add start request.size) 1⟩
  else none

def findGap (request : Request) (root : Resource) : ℕ → List Resource → Option Resource
  | start, [] => request.fit start root.finish
  | start, this :: rest =>
    (request.fit start (sub this.start 1)).or
      (findGap request root (add this.finish 1) rest)

def findResource (request : Request) (root : Resource) : List Resource → Option Resource
  | [] => request.findGap root root.start []
  | this :: rest =>
    if this.start = 0 then request.findGap root (add this.finish 1) rest
    else request.findGap root root.start (this :: rest)

/-- `allocate_resource`: the new resource, and the children with it. -/
def allocateResource (request : Request) (root : Resource) (children : List Resource) :
    Option (Resource × List Resource) :=
  match request.findResource root children with
  | none => none
  | some new =>
    match requestResource root children new with
    | .ok after => some (new, after)
    | .error _ => none

/-- `alignf` does not go below the start that it is given. -/
def Raises (request : Request) : Prop :=
  ∀ alignf ∈ request.alignf, ∀ tmp : Resource, tmp.start ≤ alignf tmp request.size request.align

/-- What is between the children, as `tmp` holds it before it is clipped. -/
def gapsFrom (root : Resource) : ℕ → List Resource → List Resource
  | start, [] => [⟨start, root.finish⟩]
  | start, this :: rest => ⟨start, sub this.start 1⟩ :: gapsFrom root (add this.finish 1) rest

def gaps (root : Resource) : List Resource → List Resource
  | [] => gapsFrom root root.start []
  | this :: rest =>
    if this.start = 0 then gapsFrom root (add this.finish 1) rest
    else gapsFrom root root.start (this :: rest)

section

variable (request : Request) (gap : Resource)

def low : ℕ := if gap.start < request.min then request.min else gap.start

def high : ℕ := if request.max < gap.finish then request.max else gap.finish

/-- The window at the place that `ALIGN` and `alignf` give. -/
def window : Resource :=
  let start := request.place gap.start (request.high gap)
  ⟨start, start + request.size - 1⟩

/-- The window ends within the gap, which has more than one address from there. -/
def Room : Prop :=
  (request.window gap).start < request.high gap ∧ (request.window gap).finish ≤ request.high gap

/-- `ALIGN` wraps and gives a place below `min`, or `alignf` one that is not aligned. -/
def Misplaces : Prop :=
  4294967296 < request.low gap + request.align ∧ (request.window gap).start < request.min ∨
    ¬request.align ∣ (request.window gap).start

end

structure Legal (request : Request) (root : Resource) (children : List Resource)
    (new : Resource) : Prop where
  le : new.start ≤ new.finish
  size : new.finish - new.start + 1 = request.size
  min : request.min ≤ new.start
  max : new.finish ≤ request.max
  aligned : request.align ∣ new.start
  inside : root.start ≤ new.start ∧ new.finish ≤ root.finish
  disjoint : ∀ child ∈ children, new.finish < child.start ∨ child.finish < new.start

end Request

/-- The range lies in the root, and meets no child. -/
def Vacant (root : Resource) (children : List Resource) (new : Resource) : Prop :=
  (root.start ≤ new.start ∧ new.finish ≤ root.finish) ∧
    ∀ child ∈ children, new.finish < child.start ∨ child.finish < new.start

namespace Request

/-- The first gap with room has it in the wrong place, which is vacant. -/
def Errs (request : Request) (root : Resource) (children : List Resource) : Prop :=
  ∃ before gap rest, gaps root children = before ++ gap :: rest ∧
    (∀ other ∈ before, ¬request.Room other) ∧ request.Room gap ∧ request.Misplaces gap ∧
    Vacant root children (request.window gap)

end Request

structure Tree (root : Resource) (children : List Resource) : Prop where
  word : root.finish < 4294967296
  inside : ∀ child ∈ children, root.start ≤ child.start ∧ child.finish ≤ root.finish
  proper : ∀ child ∈ children, child.start ≤ child.finish
  ordered : children.Pairwise (·.finish < ·.start)

variable {request : Request} {root new : Resource} {children after : List Resource}
    {start finish : ℕ}

theorem insertChild_ok_iff (proper : ∀ child ∈ children, child.start ≤ child.finish)
    (ordered : children.Pairwise (·.finish < ·.start)) :
    (∃ after, insertChild new children = .ok after) ↔
      ∀ child ∈ children, new.finish < child.start ∨ child.finish < new.start := by
  induction children with
  | nil => simp [insertChild]
  | cons tmp rest ih =>
    rw [pairwise_cons] at ordered
    rw [forall_mem_cons] at proper ⊢
    rw [insertChild]
    split_ifs with before behind
    · refine iff_of_true ⟨_, rfl⟩ ⟨.inl before, fun child mem => .inl ?_⟩
      have := ordered.1 child mem
      omega
    · rw [and_iff_right (.inr behind), ← ih proper.2 ordered.2]
      cases insertChild new rest <;> simp [Except.map]
    · exact iff_of_false (by simp) fun apart => by omega

theorem requestResource_ok_iff (tree : Tree root children) (le : new.start ≤ new.finish) :
    (∃ after, requestResource root children new = .ok after) ↔ Vacant root children new := by
  rw [Vacant, ← insertChild_ok_iff tree.proper tree.ordered, requestResource,
    if_neg (Nat.not_lt.mpr le)]
  split_ifs with below above
  · exact iff_of_false (by simp) fun vacant => by omega
  · exact iff_of_false (by simp) fun vacant => by omega
  · rw [and_iff_right ⟨by omega, by omega⟩]

namespace Request

-- As an equation with a match, the library's lemma makes simp evaluate the test of the gap.
theorem findSome_cons {α β : Type} (f : α → Option β) (head : α) (tail : List α) :
    (head :: tail).findSome? f = (f head).or (tail.findSome? f) := by
  cases isHead : f head <;> simp [isHead]

theorem findGap_eq (request : Request) (root : Resource) (start : ℕ) (children : List Resource) :
    request.findGap root start children =
      (gapsFrom root start children).findSome? fun gap => request.fit gap.start gap.finish := by
  induction children generalizing start with
  | nil => rw [findGap, gapsFrom, findSome?_singleton]
  | cons this rest ih => rw [findGap, gapsFrom, findSome_cons, ih]

theorem findResource_eq (request : Request) (root : Resource) (children : List Resource) :
    request.findResource root children =
      (gaps root children).findSome? fun gap => request.fit gap.start gap.finish := by
  cases children with
  | nil => rw [findResource, gaps, findGap_eq]
  | cons this rest =>
    rw [findResource, gaps]
    split_ifs <;> rw [findGap_eq]

theorem gapsFrom_word (word : root.finish < 4294967296) :
    ∀ gap ∈ gapsFrom root start children, gap.finish < 4294967296 := by
  induction children generalizing start with
  | nil => simpa [gapsFrom] using word
  | cons this rest ih =>
    rw [gapsFrom, forall_mem_cons]
    exact ⟨sub_lt _ _, ih⟩

theorem gaps_word (word : root.finish < 4294967296) :
    ∀ gap ∈ gaps root children, gap.finish < 4294967296 := by
  cases children with
  | nil =>
    rw [gaps]
    exact gapsFrom_word word
  | cons this rest =>
    rw [gaps]
    split_ifs <;> exact gapsFrom_word word

variable {gap : Resource}

theorem fit_eq_some_iff (pos : 0 < request.size) (small : request.size < 4294967296)
    (word : gap.finish < 4294967296) :
    request.fit gap.start gap.finish = some new ↔ request.Room gap ∧ new = request.window gap := by
  have isHigh : request.high gap < 4294967296 := by
    unfold high
    split_ifs <;> omega
  unfold Room window high fit at *
  dsimp only
  generalize (if request.max < gap.finish then request.max else gap.finish) = high at *
  generalize request.place gap.start high = start
  by_cases isBelow : start < high
  · rw [sub_eq pos small, sub_eq (Nat.le_of_lt isBelow) isHigh]
    by_cases fits : request.size - 1 ≤ high - start
    · have isFinish : sub (add start request.size) 1 = start + request.size - 1 := by
        unfold sub add
        omega
      rw [if_pos ⟨isBelow, fits⟩, isFinish, Option.some_inj]
      exact ⟨fun isNew => ⟨⟨isBelow, by omega⟩, isNew.symm⟩, fun room => room.2.symm⟩
    · rw [if_neg fun room => fits room.2]
      exact iff_of_false (by simp) fun room => by omega
  · rw [if_neg fun room => isBelow room.1]
    exact iff_of_false (by simp) fun room => isBelow room.1.1

theorem min_le_place (raises : request.Raises) (positive : 0 < request.align)
    (rounds : request.low gap + request.align ≤ 4294967296) (finish : ℕ) :
    request.min ≤ request.place gap.start finish := by
  have clipped : request.min ≤ request.low gap := by
    unfold low
    split_ifs <;> omega
  have aligned : request.low gap ≤ alignUp (request.low gap) request.align := by
    have := Nat.mod_lt (request.low gap + (request.align - 1)) positive
    unfold alignUp alignDown
    rw [add_eq (by omega)]
    omega
  unfold place
  cases isAlignf : request.alignf with
  | none => exact Nat.le_trans clipped aligned
  | some alignf =>
    exact Nat.le_trans (Nat.le_trans clipped aligned) (raises alignf isAlignf ⟨_, finish⟩)

theorem not_misplaces_iff (raises : request.Raises) (positive : 0 < request.align) :
    ¬request.Misplaces gap ↔ request.min ≤ (request.window gap).start ∧
      request.align ∣ (request.window gap).start := by
  have noWrap : request.low gap + request.align ≤ 4294967296 →
      request.min ≤ (request.window gap).start := fun rounds =>
    min_le_place raises positive rounds _
  unfold Misplaces
  rw [not_or, not_not]
  refine and_congr_left fun _ => ?_
  constructor
  · intro right
    by_contra below
    exact right ⟨by_contra fun rounds => below (noWrap (by omega)), by omega⟩
  · exact fun least wrong => by omega

section

variable (tree : Tree root children) (pos : 0 < request.size) (small : request.size < 4294967296)
include tree pos small

theorem findResource_eq_some_iff : request.findResource root children = some new ↔
    ∃ before gap rest, gaps root children = before ++ gap :: rest ∧
      (∀ other ∈ before, ¬request.Room other) ∧ request.Room gap ∧ new = request.window gap := by
  have isFit : ∀ gap ∈ gaps root children, ∀ new, request.fit gap.start gap.finish = some new ↔
      request.Room gap ∧ new = request.window gap :=
    fun gap mem new => fit_eq_some_iff pos small (gaps_word tree.word gap mem)
  have noFit : ∀ gap ∈ gaps root children,
      request.fit gap.start gap.finish = none ↔ ¬request.Room gap := by
    intro gap mem
    rw [Option.eq_none_iff_forall_ne_some]
    exact ⟨fun never room => never _ ((isFit gap mem _).mpr ⟨room, rfl⟩),
      fun noRoom new fits => noRoom ((isFit gap mem new).mp fits).1⟩
  rw [findResource_eq, findSome?_eq_some_iff]
  refine exists_congr fun before => exists_congr fun gap => exists_congr fun rest =>
    and_congr_right fun isGaps => ?_
  rw [isGaps] at isFit noFit
  rw [isFit gap (by simp)]
  constructor
  · rintro ⟨⟨room, isNew⟩, none⟩
    exact ⟨fun other mem => (noFit other (by simp [mem])).mp (none other mem), room, isNew⟩
  · rintro ⟨noRoom, room, isNew⟩
    exact ⟨⟨room, isNew⟩, fun other mem => (noFit other (by simp [mem])).mpr (noRoom other mem)⟩

end

end Request

end StreakKernel.ResourceTree
