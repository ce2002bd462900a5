import StreakKernel.Lib.Run
import StreakKernel.Pmem.BuddyTrees

/-!
# Runs of the buddy allocator

The bitmap is always a forest of merged buddy trees with the orders of the forest that
`pmem_setup` builds. All that is said about the blocks of a run follows from that.
-/

namespace StreakKernel.Pmem

open Word Buddy Pmem.Bitmap
open List (map_cons mem_cons mem_cons_self mem_cons_of_mem range)

/-! ## Forests -/

/-- The entries from `start` on are those of the trees. -/
def RepForest (bits : Bitmap) : List Root → ℕ → Prop
  | [], _ => True
  | root :: rest, start => Rep bits root.tree start ∧ RepForest bits rest (start + 2 ^ root.order)

def usedInForest (forest : List Root) (start : ℕ) : Set Block :=
  {block | block ∈ forestBlocks forest start ∧ block.allocated = true}

def MergedForest (forest : List Root) : Prop := ∀ root ∈ forest, root.tree.Merged

section Forest

variable {start limit numEntries : ℕ} {bits after : Bitmap} {forest next rest : List Root}
  {root : Root} {block : Block}

theorem usedInForest_cons : usedInForest (root :: rest) start =
      usedBlocks root.tree start ∪ usedInForest rest (start + 2 ^ root.order) := by
  ext block
  simp [usedInForest, usedBlocks, forestBlocks, or_and_right]

theorem RepForest.congr (rep : RepForest bits forest start)
    (same : ∀ index, start ≤ index → after index = bits index) : RepForest after forest start := by
  induction forest generalizing start with
  | nil => trivial
  | cons root rest ih =>
    exact ⟨rep.1.congr fun index above _ => same index above,
      ih rep.2 fun index above => same index (Nat.le_of_add_right_le above)⟩

theorem RepForest.walk (rep : RepForest bits forest start)
    (isEnd : start + span forest = numEntries) :
    bits.walk numEntries start = forestBlocks forest start := by
  induction forest generalizing start with
  | nil =>
    simp only [span, List.map_nil, List.sum_nil, add_zero] at isEnd
    rw [Bitmap.walk, if_neg (by omega), forestBlocks]
  | cons root rest ih =>
    simp only [span, map_cons, List.sum_cons] at isEnd
    rw [rep.1.walk (by omega), ih rep.2 (by rw [span]; omega), forestBlocks]

/-- One forest has become another one with the same orders, and nothing before it has
changed. -/
structure ForestTurns (bits after : Bitmap) (forest next : List Root) (start : ℕ) : Prop where
  rep : RepForest after next start
  orders : next.map Root.order = forest.map Root.order
  merged : MergedForest forest → MergedForest next
  below : ∀ index < start, after index = bits index

theorem Turns.first {tree : Buddy.Tree root.order} (turns : Turns bits after root.tree tree start)
    (restRep : RepForest bits rest (start + 2 ^ root.order)) :
    ForestTurns bits after (root :: rest) (⟨root.order, tree⟩ :: rest) start := by
  refine ⟨⟨turns.rep, ?_⟩, rfl, ?_, fun index less => turns.outside index (.inl less)⟩
  · exact restRep.congr fun index above => turns.outside index (.inr above)
  intro merged other mem
  rcases mem_cons.mp mem with rfl | inRest
  · exact turns.merged (merged root mem_cons_self)
  · exact merged other (mem_cons_of_mem _ inRest)

theorem ForestTurns.cons (rootRep : Rep bits root.tree start)
    (turns : ForestTurns bits after rest next (start + 2 ^ root.order)) :
    ForestTurns bits after (root :: rest) (root :: next) start := by
  refine ⟨⟨?_, turns.rep⟩, congrArg (List.cons root.order) turns.orders, ?_, ?_⟩
  · exact rootRep.congr fun index _ below => turns.below index below
  · intro merged other mem
    rcases mem_cons.mp mem with rfl | inNext
    · exact merged other mem_cons_self
    · exact turns.merged (fun old inRest => merged old (mem_cons_of_mem _ inRest)) other inNext
  · exact fun index less => turns.below index (Nat.lt_add_right _ less)

theorem RepForest.allocate {wanted : ℕ} (rep : RepForest bits forest start)
    (aligned : 2 ^ limit ∣ start) (descends : Descends limit forest)
    (mem : block ∈ forestBlocks forest start) (isFree : block.allocated = false)
    (enough : wanted ≤ block.order) :
    ∃ next, ForestTurns bits (takeBlock bits block.start wanted) forest next start ∧
      usedInForest next start = insert ⟨block.start, wanted, true⟩ (usedInForest forest start) := by
  induction forest generalizing limit start with
  | nil => simp [forestBlocks] at mem
  | cons root rest ih =>
    have twice := dvd_start_of_lt aligned descends.1
    rcases List.mem_append.mp mem with inRoot | inRest
    · rcases rep.1.allocate (dvd_of_dvd_succ twice) inRoot isFree enough with
        ⟨tree, turns, _, used⟩
      refine ⟨_, turns.first rep.2, ?_⟩
      rw [usedInForest_cons, usedInForest_cons, used, Set.insert_union]
    · rcases ih rep.2 (dvd_next twice) descends.2 inRest with ⟨next, turns, used⟩
      refine ⟨_, turns.cons rep.1, ?_⟩
      rw [usedInForest_cons, usedInForest_cons, used, Set.union_insert]

theorem mergeBuddies_root {order : ℕ} (rep : Rep bits (Buddy.Tree.free : Buddy.Tree order) start)
    (twice : 2 ^ (order + 1) ∣ start) (descends : Descends order rest)
    (restRep : RepForest bits rest (start + 2 ^ order))
    (isEnd : start + 2 ^ order + span rest = numEntries) :
    mergeBuddies numEntries bits start = bits := by
  apply mergeBuddies_of_not
  rintro ⟨inside, _, sameOrder⟩
  rw [buddyIndex, rep.1, xor_of_dvd twice] at inside sameOrder
  cases rest with
  | nil =>
    simp only [span, List.map_nil, List.sum_nil] at isEnd
    omega
  | cons root others =>
    have small := restRep.1.head.1
    rw [sameOrder] at small
    exact absurd descends.1 (Nat.not_lt_of_le small)

theorem RepForest.release (rep : RepForest bits forest start) (aligned : 2 ^ limit ∣ start)
    (descends : Descends limit forest) (isEnd : start + span forest = numEntries)
    (isUsed : block ∈ usedInForest forest start) :
    ∃ next, ForestTurns bits
        (mergeBuddies numEntries (bits.setAllocated block.start false) block.start) forest next
        start ∧
      usedInForest next start = usedInForest forest start \ {block} := by
  induction forest generalizing limit start with
  | nil => simp [usedInForest, forestBlocks] at isUsed
  | cons root rest ih =>
    have twice := dvd_start_of_lt aligned descends.1
    have half := dvd_of_dvd_succ twice
    have apart : ∀ block ∈ usedBlocks root.tree start,
        block ∉ usedInForest rest (start + 2 ^ root.order) := by
      intro block inRoot inRest
      have rootBounds := Buddy.Tree.mem_blocks_bounds inRoot.1
      have restBounds := mem_forestBlocks_bounds descends.2 inRest.1
      have pos : 0 < 2 ^ block.order := Nat.two_pow_pos _
      simp only [Block.stop] at rootBounds
      omega
    simp only [span, map_cons, List.sum_cons] at isEnd
    rw [usedInForest_cons] at isUsed
    rcases isUsed with inRoot | inRest
    · rcases rep.1.release half (show start + 2 ^ root.order ≤ numEntries by omega) inRoot with
        ⟨after, tree, turns, used, settles⟩
      have whole := turns.first rep.2
      have isAfter : mergeBuddies numEntries (bits.setAllocated block.start false) block.start =
          after := by
        rcases settles with ⟨rfl, continues⟩ | ⟨_, stops⟩
        · rw [continues]
          exact mergeBuddies_root turns.rep twice descends.2 whole.rep.2 (by rw [span]; omega)
        · exact stops
      rw [isAfter]
      refine ⟨_, whole, ?_⟩
      rw [usedInForest_cons, usedInForest_cons, used, Set.union_sdiff_distrib,
        Set.sdiff_singleton_eq_self (apart block inRoot)]
    · rcases ih rep.2 (dvd_next twice) descends.2 (by rw [span]; omega) inRest with
        ⟨next, turns, used⟩
      refine ⟨_, turns.cons rep.1, ?_⟩
      rw [usedInForest_cons, usedInForest_cons, used, Set.union_sdiff_distrib,
        Set.sdiff_singleton_eq_self fun inRoot => apart block inRoot inRest]

end Forest

/-! ## The search and the requested order -/

section Search

variable {bits : Bitmap} {numEntries order curr : ℕ}

theorem walk_of_lt (inside : curr < numEntries) :
    bits.walk numEntries curr = ⟨curr, (bits curr).order, (bits curr).allocated⟩ ::
      bits.walk numEntries (bits.nextIndex curr) := by
  rw [Bitmap.walk, if_pos inside]

theorem order_of_mem_walk {block : Block} (mem : block ∈ bits.walk numEntries curr) :
    (bits block.start).order = block.order := by
  induction curr using Bitmap.walk.induct bits numEntries with
  | case1 curr inside ih =>
    rw [walk_of_lt inside] at mem
    rcases mem_cons.mp mem with rfl | later
    · rfl
    · exact ih later
  | case2 curr outside =>
    rw [Bitmap.walk, if_neg outside] at mem
    cases mem

theorem findFit_mem {bestFit : Option ℕ} {index : ℕ}
    (found : findFit bits numEntries order curr bestFit = some index) :
    bestFit = some index ∨ ∃ block ∈ bits.walk numEntries curr,
      block.start = index ∧ block.allocated = false ∧ order ≤ block.order := by
  induction curr, bestFit using findFit.induct bits numEntries order with
  | case1 curr bestFit inside isFree sameOrder =>
    rw [findFit, if_pos inside, if_pos isFree, if_pos sameOrder] at found
    cases found
    rw [walk_of_lt inside]
    exact .inr ⟨_, mem_cons_self, rfl, isFree, sameOrder.ge⟩
  | case2 curr bestFit inside isFree otherOrder better ih =>
    rw [findFit, if_pos inside, if_pos isFree, if_neg otherOrder, if_pos better] at found
    rw [walk_of_lt inside]
    rcases ih found with isCurr | ⟨block, mem, isBlock⟩
    · cases isCurr
      exact .inr ⟨_, mem_cons_self, rfl, isFree, better.1.le⟩
    · exact .inr ⟨block, mem_cons_of_mem _ mem, isBlock⟩
  | case3 curr bestFit inside isFree otherOrder worse ih =>
    rw [findFit, if_pos inside, if_pos isFree, if_neg otherOrder, if_neg worse] at found
    rw [walk_of_lt inside]
    exact (ih found).imp_right fun ⟨block, mem, isBlock⟩ =>
      ⟨block, mem_cons_of_mem _ mem, isBlock⟩
  | case4 curr bestFit inside isUsed ih =>
    rw [findFit, if_pos inside, if_neg isUsed] at found
    rw [walk_of_lt inside]
    exact (ih found).imp_right fun ⟨block, mem, isBlock⟩ =>
      ⟨block, mem_cons_of_mem _ mem, isBlock⟩
  | case5 curr bestFit outside =>
    rw [findFit, if_neg outside] at found
    exact .inl found

theorem pmemOrder_le (len quantum : ℕ) : pmemOrder len quantum ≤ 32 := by
  unfold pmemOrder
  simp only
  cases found : (range 32).find? fun order =>
      sub (add len (quantum - 1) / quantum) 1 >>> order = 0 with
  | none => rfl
  | some order =>
    have mem := List.mem_range.mp (List.mem_of_find?_eq_some found)
    exact mem.le

theorem le_two_pow_pmemOrder {len quantum : ℕ} (small : len < 4294967296) (pos : 0 < quantum)
    (quantumSmall : quantum ≤ 2147483648) (isOrder : pmemOrder len quantum < 32) :
    len ≤ 2 ^ pmemOrder len quantum * quantum := by
  unfold pmemOrder at isOrder ⊢
  simp only at isOrder ⊢
  cases found : (range 32).find? fun order =>
      sub (add len (quantum - 1) / quantum) 1 >>> order = 0 with
  | none => simp [found] at isOrder
  | some order =>
    have mem := List.mem_range.mp (List.mem_of_find?_eq_some found)
    have shifted := List.find?_some found
    simp only [decide_eq_true_eq] at shifted
    rw [Nat.shiftRight_eq_div_pow, Nat.div_eq_zero_iff_lt (Nat.two_pow_pos _)] at shifted
    have bound : 2 ^ order ≤ 2 ^ 31 := Nat.pow_le_pow_right (by decide) (by omega)
    simp only [Option.getD_some]
    have notZero : add len (quantum - 1) / quantum ≠ 0 := by
      intro zero
      rw [zero, show sub 0 1 = 4294967295 by simp [sub]] at shifted
      omega
    have noWrap : len + (quantum - 1) < 4294967296 := by
      by_contra wraps
      apply notZero
      rw [add]
      apply Nat.div_eq_of_lt
      omega
    rw [add_eq noWrap] at shifted notZero
    have quotientSmall : (len + (quantum - 1)) / quantum < 4294967296 :=
      lt_of_le_of_lt (Nat.div_le_self _ _) noWrap
    rw [sub_eq (Nat.one_le_iff_ne_zero.mpr notZero) quotientSmall] at shifted
    have ceil : (len + (quantum - 1)) / quantum ≤ 2 ^ order := Nat.le_of_pred_lt shifted
    have rounded := Nat.lt_div_mul_add pos (a := len + (quantum - 1))
    have scaled := Nat.mul_le_mul_right quantum ceil
    omega

end Search

/-! ## Setting up -/

section Setup

variable {numEntries : ℕ}

variable {order index : ℕ} {bits : Bitmap}

theorem setupLoop_below :
    ∀ earlier < index, setupLoop numEntries order bits index earlier = bits earlier := by
  induction order generalizing bits index with
  | zero => exact fun _ _ => rfl
  | succ order ih =>
    intro earlier less
    rw [setupLoop]
    split_ifs
    · rw [ih earlier (less.trans (lt_nextIndex _ _)), setOrder,
        Function.update_of_ne less.ne]
    · exact ih earlier less

theorem setupLoop_allocated (clear : ∀ other, (bits other).allocated = false) (other : ℕ) :
    (setupLoop numEntries order bits index other).allocated = false := by
  induction order generalizing bits index with
  | zero => exact clear other
  | succ order ih =>
    rw [setupLoop]
    split_ifs
    · apply ih
      intro another
      simp only [setOrder, Function.update_apply]
      split_ifs
      · exact clear index
      · exact clear another
    · exact ih clear

theorem and_two_pow_ne_zero : numEntries &&& 2 ^ order ≠ 0 ↔ numEntries.testBit order = true := by
  rw [Nat.and_two_pow]
  cases numEntries.testBit order with
  | false => simp
  | true => simp

theorem repForest_setupLoop (clear : ∀ other, (bits other).allocated = false) :
    RepForest (setupLoop numEntries order bits index)
      (freeForest (binaryOrders numEntries order)) index := by
  induction order generalizing bits index with
  | zero => trivial
  | succ order ih =>
    have allClear := @setupLoop_allocated numEntries (order + 1) index bits clear
    rw [setupLoop] at allClear ⊢
    rw [binaryOrders]
    by_cases isSet : numEntries.testBit order = true
    · rw [if_pos (and_two_pow_ne_zero.mpr isSet)] at allClear ⊢
      rw [if_pos isSet]
      have next : (bits.setOrder index order).nextIndex index = index + 2 ^ order := by
        simp [nextIndex, setOrder]
      have settled := @setupLoop_below numEntries order
        ((bits.setOrder index order).nextIndex index) (bits.setOrder index order) index
        (lt_nextIndex _ _)
      refine ⟨⟨?_, fun other _ _ => allClear other⟩, ?_⟩
      · rw [settled]
        simp [setOrder, clear index]
      simp only [next]
      apply ih
      intro other
      simp only [setOrder, Function.update_apply]
      split_ifs
      · exact clear index
      · exact clear other
    · rw [if_neg (fun nonzero => isSet (and_two_pow_ne_zero.mp nonzero)), if_neg isSet]
      exact ih clear

end Setup

/-! ## The shape of the bitmap -/

structure Shaped (region : Region) (bits : Bitmap) (forest : List Root) : Prop where
  rep : RepForest bits forest 0
  orders : forest.map Root.order = binaryOrders region.numEntries 32
  merged : MergedForest forest

section Shaped

variable {region : Region} {bits : Bitmap} {forest : List Root}

theorem map_order_freeForest (orders : List ℕ) : (freeForest orders).map Root.order = orders := by
  rw [freeForest, List.map_map]
  exact List.map_id orders

section

variable (shaped : Shaped region bits forest)
include shaped

theorem Shaped.descends : Descends 32 forest := by
  apply (descends_binaryOrders region.numEntries 32).of_orders_eq
  rw [map_order_freeForest, shaped.orders]

theorem Shaped.isEnd : 0 + span forest = region.numEntries := by
  have same : forest.map Root.order =
      (freeForest (binaryOrders region.numEntries 32)).map Root.order := by
    rw [map_order_freeForest, shaped.orders]
  rw [span_eq_of_orders_eq same, span_binaryOrders, Nat.mod_eq_of_lt region.numEntries_lt, zero_add]

theorem Shaped.walk : bits.walk region.numEntries 0 = forestBlocks forest 0 :=
  shaped.rep.walk shaped.isEnd

theorem Shaped.tiles : Tiles (forestBlocks forest 0) 0 region.numEntries := by
  have tiles := tiles_forestBlocks (Nat.dvd_zero (2 ^ 32)) shaped.descends
  rwa [shaped.isEnd] at tiles

end

theorem shaped_setup (region : Region) : Shaped region (setupBitmap region.numEntries)
    (freeForest (binaryOrders region.numEntries 32)) := by
  refine ⟨repForest_setupLoop fun _ => rfl, map_order_freeForest _, ?_⟩
  intro root mem
  rcases List.mem_map.mp mem with ⟨order, _, rfl⟩
  trivial

theorem usedInForest_freeForest (orders : List ℕ) (start : ℕ) :
    usedInForest (freeForest orders) start = ∅ := by
  induction orders generalizing start with
  | nil =>
    ext block
    simp [usedInForest, freeForest, forestBlocks]
  | cons order rest ih =>
    rw [freeForest, map_cons, usedInForest_cons, usedBlocks_free]
    rw [freeForest] at ih
    rw [ih, Set.union_empty]

theorem Shaped.eq_freeForest (shaped : Shaped region bits forest)
    (unused : usedInForest forest 0 = ∅) :
    forest = freeForest (binaryOrders region.numEntries 32) := by
  rw [← shaped.orders]
  apply Buddy.eq_freeForest shaped.merged
  intro block mem
  cases isAllocated : block.allocated with
  | false => rfl
  | true =>
    have isUsed : block ∈ usedInForest forest 0 := ⟨mem, isAllocated⟩
    rw [unused] at isUsed
    cases isUsed

theorem pmemAllocatorBuddyBestfit_eq (region : Region) (bits : Bitmap) (len : ℕ) :
    pmemAllocatorBuddyBestfit region bits len =
      match findFit bits region.numEntries (pmemOrder len region.quantum) 0 none with
      | none => (bits, none)
      | some index => (takeBlock bits index (pmemOrder len region.quantum), some index) := by
  have small := pmemOrder_le len region.quantum
  have notLarge : ¬ pmemMaxOrder < pmemOrder len region.quantum :=
    Nat.not_lt_of_le (le_trans small (by decide))
  have isByte : pmemOrder len region.quantum % 256 = pmemOrder len region.quantum :=
    Nat.mod_eq_of_lt (by omega)
  rw [pmemAllocatorBuddyBestfit, if_neg notLarge, isByte]
  rfl

theorem Shaped.allocate (shaped : Shaped region bits forest) {len : ℕ} (small : len < 4294967296) :
    pmemAllocatorBuddyBestfit region bits len = (bits, none) ∨
    ∃ after index, pmemAllocatorBuddyBestfit region bits len = (after, some index) ∧
      ∃ next order, Shaped region after next ∧
        usedInForest next 0 = insert ⟨index, order, true⟩ (usedInForest forest 0) ∧
        (∀ other, ⟨index, other, true⟩ ∉ usedInForest forest 0) ∧
        len ≤ 2 ^ order * region.quantum := by
  rw [pmemAllocatorBuddyBestfit_eq]
  cases found : findFit bits region.numEntries (pmemOrder len region.quantum) 0 none with
  | none => exact .inl rfl
  | some index =>
    right
    rcases findFit_mem found with never | ⟨block, mem, rfl, isFree, enough⟩
    · cases never
    rw [shaped.walk] at mem
    have bounds := mem_forestBlocks_bounds shaped.descends mem
    rcases shaped.rep.allocate (Nat.dvd_zero (2 ^ 32)) shaped.descends mem isFree enough
      with ⟨next, turns, used⟩
    refine ⟨_, _, rfl, next, _,
      ⟨turns.rep, turns.orders.trans shaped.orders, turns.merged shaped.merged⟩, used, ?_, ?_⟩
    · intro other isUsed
      have same := shaped.tiles.eq_of_start_eq isUsed.1 mem rfl
      rw [← same] at isFree
      cases isFree
    · exact le_two_pow_pmemOrder small region.quantum_pos region.quantum_le (by omega)

theorem Shaped.release (shaped : Shaped region bits forest) {block : Block}
    (isUsed : block ∈ usedInForest forest 0) :
    ∃ next, Shaped region (pmemFreeBuddyBestfit region bits block.start) next ∧
      usedInForest next 0 = usedInForest forest 0 \ {block} := by
  rcases shaped.rep.release (Nat.dvd_zero (2 ^ 32)) shaped.descends shaped.isEnd isUsed with
    ⟨next, turns, used⟩
  exact ⟨next, ⟨turns.rep, turns.orders.trans shaped.orders, turns.merged shaped.merged⟩, used⟩

end Shaped

/-! ## Runs -/

structure BuddyState where
  bits : Bitmap
  live : List (ℕ × ℕ)

inductive BuddyRequest where
  | allocate (len : Word.U32)
  | free (index : ℕ)

namespace BuddyState

def initial (region : Region) : BuddyState := ⟨setupBitmap region.numEntries, []⟩

def record (state : BuddyState) (len : ℕ) : Bitmap × Option ℕ → BuddyState
  | (bits, none) => ⟨bits, state.live⟩
  | (bits, some index) => ⟨bits, (index, len) :: state.live⟩

/-- Callers only free an index that they hold. -/
def step (region : Region) (state : BuddyState) : BuddyRequest → BuddyState
  | .allocate len => state.record len (pmemAllocatorBuddyBestfit region state.bits len)
  | .free index =>
    if index ∈ state.live.map Prod.fst then
      ⟨pmemFreeBuddyBestfit region state.bits index, state.live.filter fun entry => entry.1 ≠ index⟩
    else state

end BuddyState

def BuddyState.cells (state : BuddyState) (entry : ℕ × ℕ) : Set ℕ :=
  Set.Ico entry.1 (entry.1 + 2 ^ (state.bits entry.1).order)

structure BuddySound (region : Region) (state : BuddyState) : Prop where
  tiles : Tiles (state.bits.walk region.numEntries 0) 0 region.numEntries
  live : ∀ entry ∈ state.live, ∃ block ∈ state.bits.walk region.numEntries 0,
    block.start = entry.1 ∧ block.allocated = true ∧ entry.2 ≤ 2 ^ block.order * region.quantum
  allocated : ∀ block ∈ state.bits.walk region.numEntries 0, block.allocated = true →
    block.start ∈ state.live.map Prod.fst
  disjoint : state.live.Pairwise fun first second =>
    Disjoint (state.cells first) (state.cells second)
  merged : NoFreeBuddies (state.bits.walk region.numEntries 0)
  restored : state.live = [] → state.bits.walk region.numEntries 0 =
    (setupBitmap region.numEntries).walk region.numEntries 0

/-- The invariant: the used blocks of the forest are those of the live allocations. -/
structure Forested (region : Region) (state : BuddyState) (forest : List Root) : Prop extends
    Shaped region state.bits forest where
  nodup : (state.live.map Prod.fst).Nodup
  used_iff : ∀ index, (∃ order, ⟨index, order, true⟩ ∈ usedInForest forest 0) ↔
    index ∈ state.live.map Prod.fst
  enough : ∀ entry ∈ state.live, ∀ order, ⟨entry.1, order, true⟩ ∈ usedInForest forest 0 →
    entry.2 ≤ 2 ^ order * region.quantum

section Runs

variable {region : Region} {state : BuddyState} {forest : List Root}

theorem forested_initial (region : Region) : Forested region (BuddyState.initial region)
      (freeForest (binaryOrders region.numEntries 32)) := by
  refine { shaped_setup region with
    nodup := List.nodup_nil, used_iff := ?_, enough := by simp [BuddyState.initial] }
  intro index
  simp [usedInForest_freeForest, BuddyState.initial]

section Forest

variable (forested : Forested region state forest)
include forested

namespace Forested

theorem allocate (len : Word.U32) :
    ∃ next, Forested region (state.step region (.allocate len)) next := by
  rw [BuddyState.step]
  rcases forested.toShaped.allocate len.isLt with
    nothing | ⟨after, index, taken, next, order, shaped, used, unused, enough⟩
  · rw [nothing]
    exact ⟨forest, forested⟩
  rw [taken]
  have fresh : index ∉ state.live.map Prod.fst := by
    rw [← forested.used_iff]
    rintro ⟨other, isUsed⟩
    exact unused other isUsed
  refine ⟨next, { shaped with nodup := ?_, used_iff := ?_, enough := ?_ }⟩
  · exact List.nodup_cons.mpr ⟨fresh, forested.nodup⟩
  · intro other
    simp only [used, Set.mem_insert_iff, Block.mk.injEq, and_true, exists_or,
      forested.used_iff, exists_eq_right]
    exact mem_cons.symm
  intro entry isEntry entryOrder isUsed
  rw [used] at isUsed
  rcases mem_cons.mp isEntry with rfl | old
  · rcases isUsed with isNew | isOld
    · obtain rfl : entryOrder = order := congrArg Block.order isNew
      exact enough
    · exact absurd isOld (unused entryOrder)
  rcases isUsed with isNew | isOld
  · have same : entry.1 = index := congrArg Block.start isNew
    exact absurd (same ▸ List.mem_map_of_mem old) fresh
  · exact forested.enough entry old entryOrder isOld

theorem free (index : ℕ) :
    ∃ next, Forested region (state.step region (.free index)) next := by
  rw [BuddyState.step]
  split_ifs with isLive
  · rcases (forested.used_iff index).mpr isLive with ⟨order, isUsed⟩
    rcases forested.toShaped.release isUsed with ⟨next, shaped, used⟩
    refine ⟨next, { shaped with nodup := ?_, used_iff := ?_, enough := ?_ }⟩
    · exact forested.nodup.sublist (List.filter_sublist.map _)
    · intro other
      have stillLive : other ∈ (state.live.filter fun entry => entry.1 ≠ index).map Prod.fst ↔
          other ∈ state.live.map Prod.fst ∧ other ≠ index := by
        simp only [List.mem_map, List.mem_filter, decide_eq_true_eq]
        constructor
        · rintro ⟨entry, ⟨mem, ne⟩, rfl⟩
          exact ⟨⟨entry, mem, rfl⟩, ne⟩
        · rintro ⟨⟨entry, mem, rfl⟩, ne⟩
          exact ⟨entry, ⟨mem, ne⟩, rfl⟩
      rw [stillLive, ← forested.used_iff, used]
      constructor
      · rintro ⟨otherOrder, otherUsed, ne⟩
        refine ⟨⟨otherOrder, otherUsed⟩, ?_⟩
        rintro rfl
        exact ne (forested.tiles.eq_of_start_eq otherUsed.1 isUsed.1 rfl)
      · rintro ⟨⟨otherOrder, otherUsed⟩, ne⟩
        exact ⟨otherOrder, otherUsed, fun same => ne (congrArg Block.start same)⟩
    · intro entry isEntry otherOrder otherUsed
      rw [used] at otherUsed
      exact forested.enough entry (List.mem_of_mem_filter isEntry) otherOrder otherUsed.1
  · exact ⟨forest, forested⟩

theorem exists_block {entry : ℕ × ℕ} (isEntry : entry ∈ state.live) :
    ∃ block ∈ forestBlocks forest 0, block.start = entry.1 ∧
      block.allocated = true ∧ entry.2 ≤ 2 ^ block.order * region.quantum ∧
      state.cells entry = Set.Ico block.start block.stop := by
  rcases (forested.used_iff entry.1).mpr (List.mem_map_of_mem isEntry) with ⟨order, used⟩
  refine ⟨_, used.1, rfl, rfl, forested.enough entry isEntry order used, ?_⟩
  have inWalk := used.1
  rw [← forested.walk] at inWalk
  rw [BuddyState.cells, Block.stop, order_of_mem_walk inWalk]

theorem disjoint_cells : state.live.Pairwise fun first second =>
      Disjoint (state.cells first) (state.cells second) := by
  apply (List.pairwise_map.mp forested.nodup).imp_of_mem
  intro first second isFirst isSecond ne
  rcases forested.exists_block isFirst with ⟨firstBlock, firstMem, firstStart, _, _, firstCells⟩
  rcases forested.exists_block isSecond with
    ⟨secondBlock, secondMem, secondStart, _, _, secondCells⟩
  have apart := forested.tiles.apart firstMem secondMem (by
    rintro rfl
    exact ne (firstStart.symm.trans secondStart))
  rw [firstCells, secondCells, Set.disjoint_left]
  intro cell inFirst inSecond
  have firstBounds := Set.mem_Ico.mp inFirst
  have secondBounds := Set.mem_Ico.mp inSecond
  omega

theorem buddySound : BuddySound region state := by
  have walk := forested.walk
  constructor
  · rw [walk]
    exact forested.tiles
  · intro entry isEntry
    rw [walk]
    rcases forested.exists_block isEntry with ⟨block, mem, start, isAllocated, enough, _⟩
    exact ⟨block, mem, start, isAllocated, enough⟩
  · intro block mem isAllocated
    rw [walk] at mem
    rw [← forested.used_iff]
    rcases block with ⟨start, order, allocated⟩
    subst isAllocated
    exact ⟨order, mem, rfl⟩
  · exact forested.disjoint_cells
  · rw [walk]
    exact noFreeBuddies_forestBlocks (Nat.dvd_zero (2 ^ 32)) forested.descends forested.merged
  · intro none
    have unused : usedInForest forest 0 = ∅ := by
      rw [Set.eq_empty_iff_forall_notMem]
      rintro ⟨start, order, allocated⟩ ⟨mem, isAllocated⟩
      subst isAllocated
      have isLive := (forested.used_iff start).mp ⟨order, mem, rfl⟩
      rw [none] at isLive
      cases isLive
    rw [walk, forested.eq_freeForest unused, (shaped_setup region).walk]

end Forested

end Forest

theorem forested_run (region : Region) (requests : List BuddyRequest) : ∃ forest,
    Forested region (Run.run (BuddyState.step region) (BuddyState.initial region) requests)
      forest := by
  apply Run.invariant_always (fun state => ∃ forest, Forested region state forest)
  · rintro state request ⟨forest, forested⟩
    cases request with
    | allocate len => exact forested.allocate len
    | free index => exact forested.free index
  · exact ⟨_, forested_initial region⟩

end Runs

/-- The blocks after any sequence of allocations and frees. -/
theorem buddySound_run (region : Region) (requests : List BuddyRequest) : BuddySound region
      (Run.run (BuddyState.step region) (BuddyState.initial region) requests) := by
  rcases forested_run region requests with ⟨forest, forested⟩
  exact forested.buddySound

end StreakKernel.Pmem
