import Mathlib.Data.Set.BooleanAlgebra
import Mathlib.Order.CompletePartialOrder
import StreakKernel.Pmem.Buddy

/-!
# The bitmap as buddy trees

`Rep bits tree start` says that the entries of the bitmap from `start` on are those of a
buddy tree. The entries inside a block are not allocated, which is what a split relies
on: it sets the order of the new block only.
-/

namespace StreakKernel.Pmem

open Function Buddy Pmem.Bitmap Buddy.Tree Set

def Quiet (bits : Bitmap) (start order : ℕ) : Prop :=
  ∀ index, start < index → index < start + 2 ^ order → (bits index).allocated = false

/-- The entries from `start` on are those of the tree. -/
def Rep (bits : Bitmap) : {order : ℕ} → Buddy.Tree order → ℕ → Prop
  | order, .free, start => bits start = ⟨false, order⟩ ∧ Quiet bits start order
  | order, .used, start => bits start = ⟨true, order⟩ ∧ Quiet bits start order
  | order + 1, .node left right, start =>
    Rep bits left start ∧ Rep bits right (start + 2 ^ order)

def SameOutside (lo hi : ℕ) (before after : Bitmap) : Prop :=
  ∀ index, index < lo ∨ hi ≤ index → after index = before index

def usedBlocks {order : ℕ} (tree : Buddy.Tree order) (start : ℕ) : Set Block :=
  {block | block ∈ tree.blocks start ∧ block.allocated = true}

section Trees

variable {order start numEntries : ℕ} {bits after : Bitmap} {tree left right : Buddy.Tree order}

theorem Quiet.congr (quiet : Quiet bits start order)
    (same : ∀ index, start ≤ index → index < start + 2 ^ order → after index = bits index) :
    Quiet after start order := by
  intro index above below
  rw [same index (by omega) below]
  exact quiet index above below

section

variable (rep : Rep bits tree start)
include rep

theorem Rep.congr
    (same : ∀ index, start ≤ index → index < start + 2 ^ order → after index = bits index) :
    Rep after tree start := by
  induction tree generalizing start with
  | @free order | @used order =>
    have pos : 0 < 2 ^ order := Nat.two_pow_pos _
    exact ⟨(same start (by omega) (by omega)).trans rep.1, rep.2.congr same⟩
  | @node order left right ihLeft ihRight =>
    constructor
    · exact ihLeft rep.1 fun index above below => same index above (by omega)
    · exact ihRight rep.2 fun index above below => same index (by omega) (by omega)

theorem Rep.head : (bits start).order ≤ order ∧
      ((bits start).allocated = false → (bits start).order = order → tree = .free) := by
  induction tree generalizing start with
  | free => exact ⟨by rw [rep.1], fun _ _ => rfl⟩
  | used =>
    refine ⟨by rw [rep.1], fun isFree => ?_⟩
    rw [rep.1] at isFree
    cases isFree
  | node left right ihLeft _ =>
    have small := (ihLeft rep.1).1
    exact ⟨by omega, fun _ whole => by omega⟩

theorem Rep.walk (fits : start + 2 ^ order ≤ numEntries) :
    bits.walk numEntries start =
      tree.blocks start ++ bits.walk numEntries (start + 2 ^ order) := by
  induction tree generalizing start with
  | @free order | @used order =>
    have pos : 0 < 2 ^ order := Nat.two_pow_pos _
    rw [walk, if_pos (by omega), nextIndex, rep.1]
    rfl
  | @node order left right ihLeft ihRight =>
    have double := Nat.two_pow_succ order
    have pos : 0 < 2 ^ order := Nat.two_pow_pos _
    rw [ihLeft rep.1 (by omega), ihRight rep.2 (by omega), blocks, List.append_assoc,
      add_assoc, ← double]

end

theorem usedBlocks_free : usedBlocks (Buddy.Tree.free : Buddy.Tree order) start = ∅ := by
  ext block
  simp [usedBlocks, blocks]
  rintro rfl
  rfl

theorem usedBlocks_used :
    usedBlocks (Buddy.Tree.used : Buddy.Tree order) start = {⟨start, order, true⟩} := by
  ext block
  simp [usedBlocks, blocks]
  rintro rfl
  rfl

theorem usedBlocks_node : usedBlocks (Buddy.Tree.node left right) start =
      usedBlocks left start ∪ usedBlocks right (start + 2 ^ order) := by
  ext block
  simp [usedBlocks, blocks, or_and_right]

/-- One tree has become another one, and nothing outside has changed. -/
structure Turns (bits after : Bitmap) (tree next : Buddy.Tree order) (start : ℕ) : Prop where
  rep : Rep after next start
  merged : tree.Merged → next.Merged
  outside : SameOutside start (start + 2 ^ order) bits after

variable {next : Buddy.Tree order} {half wanted curr : ℕ} {block : Block}

theorem Turns.inLeft (turns : Turns bits after left next start)
    (rightRep : Rep bits right (start + 2 ^ order)) (notBoth : ¬ (next = .free ∧ right = .free)) :
    Turns bits after (.node left right) (.node next right) start := by
  refine ⟨⟨turns.rep, ?_⟩, ?_, ?_⟩
  · exact rightRep.congr fun index above _ => turns.outside index (.inr above)
  · exact fun merged => ⟨turns.merged merged.1, merged.2.1, notBoth⟩
  · intro index outside
    exact turns.outside index (by omega)

theorem Turns.inRight (leftRep : Rep bits left start)
    (turns : Turns bits after right next (start + 2 ^ order))
    (notBoth : ¬ (left = .free ∧ next = .free)) :
    Turns bits after (.node left right) (.node left next) start := by
  refine ⟨⟨?_, turns.rep⟩, ?_, ?_⟩
  · exact leftRep.congr fun index _ below => turns.outside index (.inl below)
  · exact fun merged => ⟨merged.1, turns.merged merged.2.1, notBoth⟩
  · intro index outside
    exact turns.outside index (by omega)

/-! ## Splitting -/

/-- The bitmap after a block has been split and its first part marked as allocated. -/
def takeBlock (bits : Bitmap) (index order : ℕ) : Bitmap :=
  (splitBlock bits index order).setAllocated index true

theorem takeBlock_of_eq (isOrder : (bits start).order = order) :
    takeBlock bits start order = bits.setAllocated start true := by
  rw [takeBlock, splitBlock, if_neg (by omega)]

theorem takeBlock_of_lt (aligned : 2 ^ (half + 1) ∣ start)
    (isOrder : (bits start).order = half + 1) (larger : wanted < half + 1) :
    takeBlock bits start wanted =
      takeBlock ((bits.setOrder start half).setOrder (start + 2 ^ half) half) start wanted := by
  have lowered : (bits.setOrder start half start).order = half := by simp [setOrder]
  rw [takeBlock, splitBlock, if_pos (by omega)]
  simp only [isOrder, Nat.add_sub_cancel, buddyIndex, lowered, xor_of_dvd aligned]
  rfl

theorem Rep.halve (rep : Rep bits (Buddy.Tree.free : Buddy.Tree (half + 1)) start) :
    Rep ((bits.setOrder start half).setOrder (start + 2 ^ half) half)
      (Buddy.Tree.node (.free : Buddy.Tree half) .free) start := by
  have pos : 0 < 2 ^ half := Nat.two_pow_pos _
  have stale := rep.2 (start + 2 ^ half) (by omega) (by omega)
  have quiet : ∀ index, start < index → index < start + 2 ^ (half + 1) →
      (((bits.setOrder start half).setOrder (start + 2 ^ half) half) index).allocated = false := by
    intro index above below
    have isQuiet := rep.2 index above below
    by_cases isBuddy : index = start + 2 ^ half
    · simp [setOrder, isBuddy, stale]
    · simp [setOrder, update_of_ne isBuddy, update_of_ne above.ne', isQuiet]
  refine ⟨⟨?_, fun index above below => quiet index above (by omega)⟩,
    ?_, fun index above below => quiet index (by omega) (by omega)⟩
  · simp [setOrder, rep.1]
  · simp [setOrder, stale]

theorem setAllocated_turns {was flag : Bool} (head : bits start = ⟨was, order⟩)
    (quiet : Quiet bits start order) :
    (bits.setAllocated start flag start = ⟨flag, order⟩ ∧
      Quiet (bits.setAllocated start flag) start order) ∧
      SameOutside start (start + 2 ^ order) bits (bits.setAllocated start flag) := by
  have pos : 0 < 2 ^ order := Nat.two_pow_pos _
  refine ⟨⟨by simp [setAllocated, head], ?_⟩, ?_⟩
  · intro index above below
    rw [setAllocated, update_of_ne (by omega)]
    exact quiet index above below
  · intro index outside
    rw [setAllocated, update_of_ne (by omega)]

theorem Rep.take (rep : Rep bits (Buddy.Tree.free : Buddy.Tree order) start) :
    Turns bits (takeBlock bits start order) (.free : Buddy.Tree order) .used start := by
  rw [takeBlock_of_eq (by rw [rep.1])]
  rcases setAllocated_turns rep.1 rep.2 with ⟨isUsed, same⟩
  exact ⟨isUsed, fun _ => trivial, same⟩

theorem Rep.split (rep : Rep bits (Buddy.Tree.free : Buddy.Tree order) start)
    (aligned : 2 ^ order ∣ start) (enough : wanted ≤ order) :
    ∃ next : Buddy.Tree order, Turns bits (takeBlock bits start wanted) .free next start ∧
      next ≠ .free ∧ usedBlocks next start = {⟨start, wanted, true⟩} := by
  induction order generalizing bits with
  | zero =>
    obtain rfl : wanted = 0 := by omega
    exact ⟨.used, rep.take, by simp, usedBlocks_used⟩
  | succ half ih =>
    rcases Nat.eq_or_lt_of_le enough with rfl | larger
    · exact ⟨.used, rep.take, by simp, usedBlocks_used⟩
    have halves := rep.halve
    rcases ih halves.1 (dvd_of_dvd_succ aligned) (by omega) with ⟨next, turns, notFree, used⟩
    rw [takeBlock_of_lt aligned (by rw [rep.1]) larger]
    have whole := turns.inLeft halves.2 (fun both => notFree both.1)
    refine ⟨.node next .free, ⟨whole.rep, ?_, ?_⟩, by simp, ?_⟩
    · exact fun _ => ⟨turns.merged trivial, trivial, fun both => notFree both.1⟩
    · intro index outside
      rw [whole.outside index outside, setOrder, update_of_ne (by omega),
        setOrder, update_of_ne (by omega)]
    · rw [usedBlocks_node, used, usedBlocks_free, union_empty]

theorem Rep.allocate (rep : Rep bits tree start) (aligned : 2 ^ order ∣ start)
    (mem : block ∈ tree.blocks start) (isFree : block.allocated = false)
    (enough : wanted ≤ block.order) :
    ∃ next : Buddy.Tree order, Turns bits (takeBlock bits block.start wanted) tree next start ∧
      next ≠ .free ∧
      usedBlocks next start = insert ⟨block.start, wanted, true⟩ (usedBlocks tree start) := by
  induction tree generalizing start with
  | free =>
    obtain rfl := List.mem_singleton.mp mem
    rcases rep.split aligned enough with ⟨next, turns, notFree, used⟩
    refine ⟨next, turns, notFree, ?_⟩
    rw [used, usedBlocks_free, insert_empty_eq]
  | used =>
    obtain rfl := List.mem_singleton.mp mem
    cases isFree
  | @node order left right ihLeft ihRight =>
    have half := dvd_of_dvd_succ aligned
    rcases List.mem_append.mp mem with inLeft | inRight
    · rcases ihLeft rep.1 half inLeft with ⟨next, turns, notFree, used⟩
      refine ⟨.node next right, turns.inLeft rep.2 (fun both => notFree both.1), by simp, ?_⟩
      rw [usedBlocks_node, usedBlocks_node, used, insert_union]
    · rcases ihRight rep.2 (dvd_next aligned) inRight with ⟨next, turns, notFree, used⟩
      refine ⟨.node left next, turns.inRight rep.1 (fun both => notFree both.2), by simp, ?_⟩
      rw [usedBlocks_node, usedBlocks_node, used, union_insert]

/-! ## Merging -/

/-- Merging from `curr` gives the tree, or goes on from its start if it is free. -/
def Settles (numEntries : ℕ) (bits after : Bitmap) (curr : ℕ) (next : Buddy.Tree order)
    (start : ℕ) :
    Prop :=
  (next = .free ∧ mergeBuddies numEntries bits curr = mergeBuddies numEntries after start) ∨
    (next ≠ .free ∧ mergeBuddies numEntries bits curr = after)

theorem mergeBuddies_of_not
    (stops : ¬ (bits.buddyIndex curr < numEntries ∧ (bits (bits.buddyIndex curr)).allocated =
      false ∧ (bits (bits.buddyIndex curr)).order = (bits curr).order)) :
    mergeBuddies numEntries bits curr = bits := by
  rw [mergeBuddies]
  exact if_neg stops

theorem Rep.raise_raise (rep : Rep bits (Buddy.Tree.node (.free : Buddy.Tree order) .free) start) :
    Turns bits ((bits.raise start).raise (start + 2 ^ order))
      (.node (.free : Buddy.Tree order) .free)
      .free start := by
  have pos : 0 < 2 ^ order := Nat.two_pow_pos _
  have leftHead := rep.1.1
  have rightHead := rep.2.1
  refine ⟨⟨?_, ?_⟩, fun _ => trivial, ?_⟩
  · simp [raise, setOrder, leftHead]
  · intro index above below
    by_cases isRight : index = start + 2 ^ order
    · simp [raise, setOrder, isRight, rightHead]
    rw [raise, setOrder, update_of_ne isRight, raise,
      setOrder, update_of_ne above.ne']
    rcases lt_or_ge index (start + 2 ^ order) with lower | upper
    · exact rep.1.2 index above lower
    · exact rep.2.2 index (by omega) (by omega)
  · intro index outside
    rw [raise, setOrder, update_of_ne (by omega), raise,
      setOrder, update_of_ne (by omega)]

theorem Bitmap.raise_comm (bits : Bitmap) {first second : ℕ} (ne : first ≠ second) :
    (bits.raise first).raise second = (bits.raise second).raise first := by
  simp only [raise, setOrder, update_of_ne ne, update_of_ne ne.symm]
  exact update_comm ne _ _ _

theorem Rep.merge (rep : Rep bits (Buddy.Tree.node (.free : Buddy.Tree order) .free) start)
    (aligned : 2 ^ (order + 1) ∣ start) (fits : start + 2 ^ (order + 1) ≤ numEntries)
    (isHalf : curr = start ∨ curr = start + 2 ^ order) :
    mergeBuddies numEntries bits curr =
      mergeBuddies numEntries ((bits.raise start).raise (start + 2 ^ order)) start := by
  have other : start ≠ start + 2 ^ order := by omega
  have leftHead := rep.1.1
  have rightHead := rep.2.1
  rcases isHalf with isLeft | isRight
  · have buddy : bits.buddyIndex start = start + 2 ^ order := by
      rw [buddyIndex, leftHead, xor_of_dvd aligned]
    rw [isLeft, mergeBuddies]
    simp only [buddy]
    rw [if_pos ⟨by omega, by rw [rightHead], by rw [rightHead, leftHead]⟩,
      min_eq_right (by omega), if_pos (by omega), raise_comm _ other]
  have buddy : bits.buddyIndex (start + 2 ^ order) = start := by
    rw [buddyIndex, rightHead, add_xor_of_dvd aligned]
  rw [isRight, mergeBuddies]
  simp only [buddy]
  rw [if_pos ⟨by omega, by rw [leftHead], by rw [rightHead, leftHead]⟩,
    min_eq_left (by omega), if_pos (by omega)]

theorem Rep.stop_left (leftRep : Rep bits (Buddy.Tree.free : Buddy.Tree order) start)
    (rightRep : Rep bits right (start + 2 ^ order)) (aligned : 2 ^ (order + 1) ∣ start)
    (notFree : right ≠ .free) : mergeBuddies numEntries bits start = bits := by
  apply mergeBuddies_of_not
  rintro ⟨_, isFree, sameOrder⟩
  rw [buddyIndex, leftRep.1, xor_of_dvd aligned] at isFree sameOrder
  exact notFree (rightRep.head.2 isFree sameOrder)

theorem Rep.stop_right (leftRep : Rep bits left start)
    (rightRep : Rep bits (Buddy.Tree.free : Buddy.Tree order) (start + 2 ^ order))
    (aligned : 2 ^ (order + 1) ∣ start) (notFree : left ≠ .free) :
    mergeBuddies numEntries bits (start + 2 ^ order) = bits := by
  apply mergeBuddies_of_not
  rintro ⟨_, isFree, sameOrder⟩
  rw [buddyIndex, rightRep.1, add_xor_of_dvd aligned] at isFree sameOrder
  exact notFree (leftRep.head.2 isFree sameOrder)

theorem Rep.settle (rep : Rep bits (Buddy.Tree.node left right) start)
    (aligned : 2 ^ (order + 1) ∣ start) (fits : start + 2 ^ (order + 1) ≤ numEntries)
    (isHalf : curr = start ∧ left = .free ∨ curr = start + 2 ^ order ∧ right = .free) :
    ∃ after, ∃ next : Buddy.Tree (order + 1), Rep after next start ∧
      (left.Merged → right.Merged → next.Merged) ∧
      SameOutside start (start + 2 ^ (order + 1)) bits after ∧
      usedBlocks next start = usedBlocks (Buddy.Tree.node left right) start ∧
      Settles numEntries bits after curr next start := by
  by_cases both : left = .free ∧ right = .free
  · rcases both with ⟨rfl, rfl⟩
    have turns := rep.raise_raise
    refine ⟨_, .free, turns.rep, fun _ _ => trivial, turns.outside, ?_, .inl ⟨rfl, ?_⟩⟩
    · rw [usedBlocks_node, usedBlocks_free, usedBlocks_free, usedBlocks_free, union_empty]
    · exact rep.merge aligned fits (isHalf.imp And.left And.left)
  refine ⟨bits, .node left right, rep,
    fun leftMerged rightMerged => ⟨leftMerged, rightMerged, both⟩,
    fun _ _ => rfl, rfl, .inr ⟨by simp, ?_⟩⟩
  rcases isHalf with ⟨rfl, rfl⟩ | ⟨rfl, rfl⟩
  · exact Rep.stop_left rep.1 rep.2 aligned fun isFree => both ⟨rfl, isFree⟩
  · exact Rep.stop_right rep.1 rep.2 aligned fun isFree => both ⟨isFree, rfl⟩

theorem SameOutside.trans {lo hi innerLo innerHi : ℕ} {before middle : Bitmap}
    (first : SameOutside innerLo innerHi before middle) (second : SameOutside lo hi middle after)
    (above : lo ≤ innerLo) (below : innerHi ≤ hi) : SameOutside lo hi before after := by
  intro index outside
  rw [second index outside]
  exact first index (by omega)

theorem notMem_usedBlocks_right (inLeft : block ∈ usedBlocks left start) :
    block ∉ usedBlocks right (start + 2 ^ order) := by
  intro inRight
  have leftBounds := mem_blocks_bounds inLeft.1
  have rightBounds := mem_blocks_bounds inRight.1
  have pos : 0 < 2 ^ block.order := Nat.two_pow_pos _
  simp only [Block.stop] at leftBounds
  omega

theorem Rep.release (rep : Rep bits tree start) (aligned : 2 ^ order ∣ start)
    (fits : start + 2 ^ order ≤ numEntries) (isUsed : block ∈ usedBlocks tree start) :
    ∃ after, ∃ next : Buddy.Tree order, Turns bits after tree next start ∧
      usedBlocks next start = usedBlocks tree start \ {block} ∧
      Settles numEntries (bits.setAllocated block.start false) after block.start next start := by
  induction tree generalizing start with
  | free =>
    rw [usedBlocks_free] at isUsed
    exact absurd isUsed (notMem_empty _)
  | @used order =>
    rw [usedBlocks_used] at isUsed
    obtain rfl := mem_singleton_iff.mp isUsed
    rcases setAllocated_turns rep.1 rep.2 with ⟨isFree, same⟩
    refine ⟨bits.setAllocated start false, .free, ⟨isFree, fun _ => trivial, same⟩, ?_,
      .inl ⟨rfl, rfl⟩⟩
    rw [usedBlocks_free, usedBlocks_used, sdiff_self]
  | @node order left right ihLeft ihRight =>
    have half := dvd_of_dvd_succ aligned
    rw [usedBlocks_node] at isUsed ⊢
    rcases isUsed with inLeft | inRight
    · rcases ihLeft rep.1 half (by omega) inLeft with ⟨after, next, turns, used, settles⟩
      have nowUsed : usedBlocks (Buddy.Tree.node next right) start =
          (usedBlocks left start ∪ usedBlocks right (start + 2 ^ order)) \ {block} := by
        rw [usedBlocks_node, used, union_sdiff_distrib,
          sdiff_singleton_eq_self (notMem_usedBlocks_right inLeft)]
      rcases settles with ⟨rfl, continues⟩ | ⟨notFree, stops⟩
      · have rightRep := rep.2.congr (fun index above _ => turns.outside index (.inr above))
        have nodeRep : Rep after (Buddy.Tree.node .free right) start := ⟨turns.rep, rightRep⟩
        rcases nodeRep.settle aligned fits (.inl ⟨rfl, rfl⟩) with
          ⟨final, whole, wholeRep, merged, outside, sameUsed, settled⟩
        refine ⟨final, whole, ⟨wholeRep, ?_, ?_⟩, sameUsed.trans nowUsed, ?_⟩
        · exact fun before => merged trivial before.2.1
        · exact turns.outside.trans outside (by omega) (by omega)
        · rw [Settles, continues]
          exact settled
      · exact ⟨after, .node next right, turns.inLeft rep.2 (fun both => notFree both.1), nowUsed,
          .inr ⟨by simp, stops⟩⟩
    · rcases ihRight rep.2 (dvd_next aligned) (by omega) inRight with
        ⟨after, next, turns, used, settles⟩
      have notLeft : block ∉ usedBlocks left start :=
        fun inLeft => notMem_usedBlocks_right inLeft inRight
      have nowUsed : usedBlocks (Buddy.Tree.node left next) start =
          (usedBlocks left start ∪ usedBlocks right (start + 2 ^ order)) \ {block} := by
        rw [usedBlocks_node, used, union_sdiff_distrib, sdiff_singleton_eq_self notLeft]
      rcases settles with ⟨rfl, continues⟩ | ⟨notFree, stops⟩
      · have leftRep := rep.1.congr (fun index _ below => turns.outside index (.inl below))
        have nodeRep : Rep after (Buddy.Tree.node left .free) start := ⟨leftRep, turns.rep⟩
        rcases nodeRep.settle aligned fits (.inr ⟨rfl, rfl⟩) with
          ⟨final, whole, wholeRep, merged, outside, sameUsed, settled⟩
        refine ⟨final, whole, ⟨wholeRep, ?_, ?_⟩, sameUsed.trans nowUsed, ?_⟩
        · exact fun before => merged before.1 trivial
        · exact turns.outside.trans outside (by omega) (by omega)
        · rw [Settles, continues]
          exact settled
      · exact ⟨after, .node left next, turns.inRight rep.1 (fun both => notFree both.2), nowUsed,
          .inr ⟨by simp, stops⟩⟩

end Trees

end StreakKernel.Pmem
