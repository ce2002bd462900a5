import Mathlib.Data.Nat.Bitwise
import Mathlib.Algebra.Order.Ring.Nat

/-!
# Buddy trees

A block of size `2 ^ order` is free, used, or split into two halves. A forest of such
trees with descending orders covers an interval of any length. In a merged tree no two
free blocks are halves of one block.
-/

namespace StreakKernel.Buddy

open List Nat
open Nat (two_pow_pos)

structure Block where
  start : ℕ
  order : ℕ
  allocated : Bool
  deriving DecidableEq

def Block.stop (block : Block) : ℕ := block.start + 2 ^ block.order

/-- The blocks follow each other from `lo` to `hi`, and each is aligned to its size. -/
def Tiles : List Block → ℕ → ℕ → Prop
  | [], lo, hi => lo = hi
  | block :: rest, lo, hi => block.start = lo ∧ 2 ^ block.order ∣ lo ∧ Tiles rest block.stop hi

def Buddies (first second : Block) : Prop :=
  first.order = second.order ∧ second.start = first.start ^^^ 2 ^ first.order

def NoFreeBuddies (blocks : List Block) : Prop :=
  ∀ first ∈ blocks, ∀ second ∈ blocks, first.allocated = false → second.allocated = false →
    ¬ Buddies first second

variable {lo hi order start : ℕ} {first second : Block}

theorem Tiles.append {left right : List Block} {mid : ℕ} (leftTiles : Tiles left lo mid)
    (rightTiles : Tiles right mid hi) : Tiles (left ++ right) lo hi := by
  induction left generalizing lo with
  | nil =>
    obtain rfl : lo = mid := leftTiles
    exact rightTiles
  | cons block rest ih => exact ⟨leftTiles.1, leftTiles.2.1, ih leftTiles.2.2⟩

section

variable {blocks : List Block} (tiles : Tiles blocks lo hi)
include tiles

theorem Tiles.le_start : ∀ block ∈ blocks, lo ≤ block.start := by
  induction blocks generalizing lo with
  | nil => simp
  | cons first rest ih =>
    intro block mem
    rcases mem_cons.mp mem with rfl | mem
    · exact tiles.1.ge
    have later := ih tiles.2.2 block mem
    have start := tiles.1
    have pos : 0 < 2 ^ first.order := two_pow_pos _
    simp only [Block.stop] at later
    omega

theorem Tiles.apart (isFirst : first ∈ blocks) (isSecond : second ∈ blocks) (ne : first ≠ second) :
    first.stop ≤ second.start ∨ second.stop ≤ first.start := by
  induction blocks generalizing lo with
  | nil => simp at isFirst
  | cons block rest ih =>
    have later := tiles.2.2.le_start
    rcases mem_cons.mp isFirst with rfl | firstRest
    · rcases mem_cons.mp isSecond with rfl | secondRest
      · exact absurd rfl ne
      · exact .inl (later second secondRest)
    · rcases mem_cons.mp isSecond with rfl | secondRest
      · exact .inr (later first firstRest)
      · exact ih tiles.2.2 firstRest secondRest

theorem Tiles.eq_of_start_eq (isFirst : first ∈ blocks) (isSecond : second ∈ blocks)
    (same : first.start = second.start) : first = second := by
  by_contra ne
  have firstPositive : 0 < 2 ^ first.order := two_pow_pos _
  have secondPositive : 0 < 2 ^ second.order := two_pow_pos _
  have apart := tiles.apart isFirst isSecond ne
  simp only [Block.stop] at apart
  omega

end

/-! ## Buddy indices -/

theorem xor_of_dvd (aligned : 2 ^ (order + 1) ∣ start) :
    start ^^^ 2 ^ order = start + 2 ^ order := by
  rcases aligned with ⟨quotient, rfl⟩
  apply eq_of_testBit_eq
  intro index
  have less : 2 ^ order < 2 ^ (order + 1) := Nat.pow_lt_pow_right (by decide) (by omega)
  rw [Nat.testBit_xor, Nat.testBit_two_pow_mul_add _ less, Nat.testBit_two_pow_mul]
  by_cases low : index < order + 1
  · have early : ¬ order + 1 ≤ index := by omega
    simp [low, early]
  · have other : order ≠ index := by omega
    have late : order + 1 ≤ index := by omega
    simp [low, late, testBit_two_pow_of_ne other]

theorem add_xor_of_dvd (aligned : 2 ^ (order + 1) ∣ start) :
    (start + 2 ^ order) ^^^ 2 ^ order = start := by
  rw [← xor_of_dvd aligned, Nat.xor_assoc, Nat.xor_self, Nat.xor_zero]

theorem xor_div {larger : ℕ} (less : order < larger) (start : ℕ) :
    (start ^^^ 2 ^ order) / 2 ^ larger = start / 2 ^ larger := by
  rw [Nat.xor_div_two_pow, Nat.div_eq_of_lt (Nat.pow_lt_pow_right (by decide) less), Nat.xor_zero]

theorem Buddies.symm (buddies : Buddies first second) : Buddies second first := by
  refine ⟨buddies.1.symm, ?_⟩
  rw [buddies.2, ← buddies.1, Nat.xor_assoc, Nat.xor_self, Nat.xor_zero]

/-! ## Trees -/

inductive Tree : ℕ → Type where
  | free {order : ℕ} : Tree order
  | used {order : ℕ} : Tree order
  | node {order : ℕ} (left right : Tree order) : Tree (order + 1)

namespace Tree

/-- The blocks of a tree that begins at `start`, from left to right. -/
def blocks : {order : ℕ} → Tree order → ℕ → List Block
  | order, .free, start => [⟨start, order, false⟩]
  | order, .used, start => [⟨start, order, true⟩]
  | order + 1, .node left right, start =>
    left.blocks start ++ right.blocks (start + 2 ^ order)

def Merged : {order : ℕ} → Tree order → Prop
  | _, .free => True
  | _, .used => True
  | _, .node left right => left.Merged ∧ right.Merged ∧ ¬ (left = .free ∧ right = .free)

variable {order : ℕ}

variable {start : ℕ} {tree : Tree order} {block : Block}

theorem tiles_blocks (tree : Tree order) (aligned : 2 ^ order ∣ start) :
    Tiles (tree.blocks start) start (start + 2 ^ order) := by
  induction tree generalizing start with
  | free | used => exact ⟨rfl, aligned, rfl⟩
  | @node order left right ihLeft ihRight =>
    have half : 2 ^ order ∣ start := dvd_of_mul_right_dvd aligned
    have rightTiles := ihRight (Nat.dvd_add half (dvd_refl (2 ^ order)))
    rw [show start + 2 ^ order + 2 ^ order = start + 2 ^ (order + 1) by
      rw [Nat.two_pow_succ]
      omega]
      at rightTiles
    exact (ihLeft half).append rightTiles

theorem mem_blocks_bounds (mem : block ∈ tree.blocks start) :
    start ≤ block.start ∧ block.stop ≤ start + 2 ^ order ∧ block.order ≤ order := by
  induction tree generalizing start with
  | free | used =>
    obtain rfl := mem_singleton.mp mem
    exact ⟨le_refl _, le_refl _, le_refl _⟩
  | @node order left right ihLeft ihRight =>
    have pos : 0 < 2 ^ order := two_pow_pos _
    rcases mem_append.mp mem with inLeft | inRight
    · have bounds := ihLeft inLeft
      omega
    · have bounds := ihRight inRight
      omega

theorem mem_blocks_div (aligned : 2 ^ order ∣ start) (mem : block ∈ tree.blocks start) :
    block.start / 2 ^ order = start / 2 ^ order := by
  have bounds := mem_blocks_bounds mem
  have pos : 0 < 2 ^ block.order := two_pow_pos _
  simp only [Block.stop] at bounds
  rcases aligned with ⟨quotient, rfl⟩
  rw [Nat.mul_div_cancel_left _ (two_pow_pos _)]
  apply Nat.div_eq_of_lt_le
  · rw [mul_comm]
    omega
  · rw [mul_comm, mul_add]
    omega

theorem eq_free_of_mem (mem : block ∈ tree.blocks start) (whole : block.order = order)
    (isFree : block.allocated = false) : tree = .free ∧ block.start = start := by
  cases tree with
  | free =>
    obtain rfl := mem_singleton.mp mem
    exact ⟨rfl, rfl⟩
  | used =>
    obtain rfl := mem_singleton.mp mem
    cases isFree
  | @node order left right =>
    rcases mem_append.mp mem with inLeft | inRight
    · have bounds := mem_blocks_bounds inLeft
      omega
    · have bounds := mem_blocks_bounds inRight
      omega

theorem Merged.eq_free (merged : tree.Merged)
    (unused : ∀ block ∈ tree.blocks start, block.allocated = false) : tree = .free := by
  induction tree generalizing start with
  | free => rfl
  | used => simpa using unused _ (mem_singleton.mpr rfl)
  | @node order left right ihLeft ihRight =>
    rcases merged with ⟨leftMerged, rightMerged, notBoth⟩
    exfalso
    apply notBoth
    constructor
    · exact ihLeft leftMerged fun block mem => unused block (mem_append_left _ mem)
    · exact ihRight rightMerged fun block mem => unused block (mem_append_right _ mem)

theorem Merged.not_buddies_across {left right : Tree order} (aligned : 2 ^ (order + 1) ∣ start)
    (notBoth : ¬ (left = .free ∧ right = .free)) {first second : Block}
    (inLeft : first ∈ left.blocks start) (inRight : second ∈ right.blocks (start + 2 ^ order))
    (firstFree : first.allocated = false) (secondFree : second.allocated = false) :
    ¬ Buddies first second := by
  rintro ⟨sameOrder, isBuddy⟩
  have half : 2 ^ order ∣ start := dvd_of_mul_right_dvd (pow_succ 2 order ▸ aligned)
  have leftBounds := mem_blocks_bounds inLeft
  rcases lt_or_ge first.order order with small | large
  · have leftDiv := mem_blocks_div half inLeft
    have rightDiv := mem_blocks_div (Nat.dvd_add half (dvd_refl (2 ^ order))) inRight
    rw [isBuddy, xor_div small, leftDiv, Nat.add_div_right _ (two_pow_pos order)] at rightDiv
    omega
  have whole : first.order = order := by omega
  apply notBoth
  exact ⟨(eq_free_of_mem inLeft whole firstFree).1,
    (eq_free_of_mem inRight (sameOrder ▸ whole) secondFree).1⟩

theorem Merged.noFreeBuddies (merged : tree.Merged) (aligned : 2 ^ order ∣ start) :
    NoFreeBuddies (tree.blocks start) := by
  induction tree generalizing start with
  | free =>
    intro first isFirst second isSecond _ _ buddies
    obtain rfl := mem_singleton.mp isFirst
    obtain rfl := mem_singleton.mp isSecond
    have isBuddy := buddies.2
    have zero := congrArg (start ^^^ ·) isBuddy
    simp only [Nat.xor_self, ← Nat.xor_assoc, Nat.zero_xor] at zero
    exact absurd zero.symm (two_pow_pos _).ne'
  | used =>
    intro first isFirst second _ isFree
    obtain rfl := mem_singleton.mp isFirst
    cases isFree
  | @node order left right ihLeft ihRight =>
    rcases merged with ⟨leftMerged, rightMerged, notBoth⟩
    have half : 2 ^ order ∣ start := dvd_of_mul_right_dvd (pow_succ 2 order ▸ aligned)
    have leftBuddies := ihLeft leftMerged half
    have rightBuddies := ihRight rightMerged (Nat.dvd_add half (dvd_refl (2 ^ order)))
    intro first isFirst second isSecond firstFree secondFree buddies
    rcases mem_append.mp isFirst with firstLeft | firstRight
    · rcases mem_append.mp isSecond with secondLeft | secondRight
      · exact leftBuddies first firstLeft second secondLeft firstFree secondFree buddies
      · exact Merged.not_buddies_across aligned notBoth firstLeft secondRight firstFree secondFree
          buddies
    rcases mem_append.mp isSecond with secondLeft | secondRight
    · exact Merged.not_buddies_across aligned notBoth secondLeft firstRight secondFree firstFree
        buddies.symm
    · exact rightBuddies first firstRight second secondRight firstFree secondFree buddies

end Tree

/-! ## Forests -/

structure Root where
  order : ℕ
  tree : Tree order

def forestBlocks : List Root → ℕ → List Block
  | [], _ => []
  | root :: rest, start => root.tree.blocks start ++ forestBlocks rest (start + 2 ^ root.order)

def Descends : ℕ → List Root → Prop
  | _, [] => True
  | limit, root :: rest => root.order < limit ∧ Descends root.order rest

def span (forest : List Root) : ℕ := (forest.map fun root => 2 ^ root.order).sum

section Forest

variable {limit start : ℕ} {forest : List Root}

theorem dvd_start_of_lt {order : ℕ} (aligned : 2 ^ limit ∣ start) (less : order < limit) :
    2 ^ (order + 1) ∣ start :=
  dvd_trans (pow_dvd_pow 2 less) aligned

theorem dvd_of_dvd_succ {order : ℕ} (aligned : 2 ^ (order + 1) ∣ start) : 2 ^ order ∣ start :=
  dvd_trans (pow_dvd_pow 2 (le_succ order)) aligned

theorem dvd_next {order : ℕ} (aligned : 2 ^ (order + 1) ∣ start) : 2 ^ order ∣ start + 2 ^ order :=
  Nat.dvd_add (dvd_of_dvd_succ aligned) (Nat.dvd_refl _)

theorem tiles_forestBlocks (aligned : 2 ^ limit ∣ start) (descends : Descends limit forest) :
    Tiles (forestBlocks forest start) start (start + span forest) := by
  induction forest generalizing limit start with
  | nil => simp [forestBlocks, Tiles, span]
  | cons root rest ih =>
    have twice := dvd_start_of_lt aligned descends.1
    have restTiles := ih (dvd_next twice) descends.2
    rw [add_assoc] at restTiles
    exact (root.tree.tiles_blocks (dvd_of_dvd_succ twice)).append restTiles

theorem mem_forestBlocks_bounds (descends : Descends limit forest) {block : Block}
    (mem : block ∈ forestBlocks forest start) : start ≤ block.start ∧ block.order < limit := by
  induction forest generalizing limit start with
  | nil => simp [forestBlocks] at mem
  | cons root rest ih =>
    have less := descends.1
    rcases mem_append.mp mem with inRoot | inRest
    · have bounds := Tree.mem_blocks_bounds inRoot
      omega
    · have bounds := ih descends.2 inRest
      have pos : 0 < 2 ^ root.order := two_pow_pos _
      omega

theorem noFreeBuddies_forestBlocks (aligned : 2 ^ limit ∣ start) (descends : Descends limit forest)
    (merged : ∀ root ∈ forest, root.tree.Merged) : NoFreeBuddies (forestBlocks forest start) := by
  induction forest generalizing limit start with
  | nil =>
    intro first isFirst
    simp [forestBlocks] at isFirst
  | cons root rest ih =>
    have twice := dvd_start_of_lt aligned descends.1
    have half := dvd_of_dvd_succ twice
    have rootBuddies := (merged root mem_cons_self).noFreeBuddies half
    have restBuddies := ih (dvd_next twice) descends.2
      fun other mem => merged other (mem_cons_of_mem _ mem)
    have across : ∀ first ∈ root.tree.blocks start,
        ∀ second ∈ forestBlocks rest (start + 2 ^ root.order), ¬ Buddies first second := by
      rintro first inRoot second inRest ⟨sameOrder, isBuddy⟩
      have bounds := mem_forestBlocks_bounds descends.2 inRest
      have rootDiv := Tree.mem_blocks_div half inRoot
      have later := Nat.div_le_div_right (c := 2 ^ root.order) bounds.1
      rw [isBuddy, xor_div (by omega), rootDiv, Nat.add_div_right _ (two_pow_pos _)] at later
      omega
    intro first isFirst second isSecond firstFree secondFree buddies
    rcases mem_append.mp isFirst with firstRoot | firstRest
    · rcases mem_append.mp isSecond with secondRoot | secondRest
      · exact rootBuddies first firstRoot second secondRoot firstFree secondFree buddies
      · exact across first firstRoot second secondRest buddies
    · rcases mem_append.mp isSecond with secondRoot | secondRest
      · exact across second secondRoot first firstRest buddies.symm
      · exact restBuddies first firstRest second secondRest firstFree secondFree buddies

theorem Descends.of_orders_eq {other : List Root} (descends : Descends limit forest)
    (same : other.map Root.order = forest.map Root.order) : Descends limit other := by
  induction forest generalizing limit other with
  | nil =>
    obtain rfl := map_eq_nil_iff.mp same
    trivial
  | cons root rest ih =>
    cases other with
    | nil => simp at same
    | cons otherRoot otherRest =>
      simp only [map_cons, cons.injEq] at same
      exact ⟨same.1 ▸ descends.1, same.1 ▸ ih descends.2 same.2⟩

theorem span_eq_of_orders_eq {other : List Root}
    (same : other.map Root.order = forest.map Root.order) : span other = span forest := by
  have sizes := congrArg (map fun order => 2 ^ order) same
  simp only [map_map] at sizes
  exact congrArg sum sizes

def freeForest (orders : List ℕ) : List Root := orders.map fun order => ⟨order, .free⟩

theorem eq_freeForest (merged : ∀ root ∈ forest, root.tree.Merged)
    (unused : ∀ block ∈ forestBlocks forest start, block.allocated = false) :
    forest = freeForest (forest.map Root.order) := by
  induction forest generalizing start with
  | nil => rfl
  | cons root rest ih =>
    have isFree := (merged root mem_cons_self).eq_free
      fun block mem => unused block (mem_append_left _ mem)
    have restFree := ih (fun other mem => merged other (mem_cons_of_mem _ mem))
      fun block mem => unused block (mem_append_right _ mem)
    rcases root with ⟨order, tree⟩
    obtain rfl : tree = .free := isFree
    exact congrArg (cons ⟨order, .free⟩) restFree

/-- The exponents below `limit` in the binary expansion of a number, from the highest. -/
def binaryOrders (number : ℕ) : ℕ → List ℕ
  | 0 => []
  | order + 1 =>
    if number.testBit order then order :: binaryOrders number order
    else binaryOrders number order

theorem Descends.mono {larger : ℕ} (descends : Descends limit forest) (le : limit ≤ larger) :
    Descends larger forest := by
  cases forest with
  | nil => trivial
  | cons root rest => exact ⟨lt_of_lt_of_le descends.1 le, descends.2⟩

theorem descends_binaryOrders (number limit : ℕ) :
    Descends limit (freeForest (binaryOrders number limit)) := by
  induction limit with
  | zero => trivial
  | succ order ih =>
    rw [binaryOrders]
    split_ifs with isSet
    · exact ⟨lt_succ_self order, ih⟩
    · exact ih.mono (le_succ order)

theorem span_binaryOrders (number limit : ℕ) :
    span (freeForest (binaryOrders number limit)) = number % 2 ^ limit := by
  induction limit with
  | zero => simp [binaryOrders, freeForest, span, mod_one]
  | succ order ih =>
    rw [binaryOrders, mod_pow_succ, ← ih]
    split_ifs with isSet
    · rw [testBit_eq_decide_div_mod_eq, decide_eq_true_eq] at isSet
      simp only [freeForest, span, map_cons, sum_cons, isSet]
      omega
    · rw [testBit_eq_decide_div_mod_eq, decide_eq_true_eq] at isSet
      have isClear : number / 2 ^ order % 2 = 0 := by omega
      simp [isClear]

end Forest

end StreakKernel.Buddy
