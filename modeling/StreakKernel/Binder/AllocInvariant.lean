import Mathlib.Data.List.Chain
import StreakKernel.Binder.Pages

/-!
# Invariant of the buffer allocator

`Indexed` relates the buffer list and the two trees. During a split or a merge
one buffer is free but in neither tree: this is `Pending`, and every operation is
a chain of steps between the two. `Roomy` and `PagesOk` depend on the final list
only.
-/

namespace StreakKernel.Binder

open List

/-! ## Trees of buffers -/

/-- The addresses of the free, or of the allocated, buffers of a list. -/
def addrsWith (free : Bool) (buffers : List Buffer) : List ℕ :=
  (buffers.filter fun buffer => buffer.free = free).map Buffer.addr

@[simp]
theorem addrsWith_append (free : Bool) (left right : List Buffer) :
    addrsWith free (left ++ right) = addrsWith free left ++ addrsWith free right := by
  simp [addrsWith]

theorem addrsWith_cons_of_eq {free : Bool} {buffer : Buffer} (buffers : List Buffer)
    (same : buffer.free = free) :
    addrsWith free (buffer :: buffers) = buffer.addr :: addrsWith free buffers := by
  simp [addrsWith, same]

theorem addrsWith_cons_of_ne {free : Bool} {buffer : Buffer} (buffers : List Buffer)
    (differs : buffer.free ≠ free) :
    addrsWith free (buffer :: buffers) = addrsWith free buffers := by
  simp [addrsWith, differs]

theorem mem_addrsWith {free : Bool} {addr : ℕ} {buffers : List Buffer} :
    addr ∈ addrsWith free buffers ↔
      ∃ buffer ∈ buffers, buffer.free = free ∧ buffer.addr = addr := by
  simp [addrsWith, and_assoc]

structure TreeHolds (order : ℕ → ℕ → Prop) (tree : RbTree.Tree ℕ) (addrs : List ℕ) : Prop where
  perm : tree.toList.Perm addrs
  sorted : tree.toList.Pairwise order

namespace TreeHolds

variable {order newOrder : ℕ → ℕ → Prop} {tree : RbTree.Tree ℕ} {addrs rest : List ℕ} {addr : ℕ}

theorem reorder (holds : TreeHolds order tree addrs) (same : addrs.Perm rest) :
    TreeHolds order tree rest :=
  ⟨holds.perm.trans same, holds.sorted⟩

theorem mono (holds : TreeHolds order tree addrs)
    (implies : ∀ first ∈ addrs, ∀ second ∈ addrs, order first second → newOrder first second) :
    TreeHolds newOrder tree addrs := by
  refine ⟨holds.perm, List.Pairwise.imp_of_mem ?_ holds.sorted⟩
  intro first second inFirst inSecond ordered
  exact implies first (holds.perm.mem_iff.mp inFirst) second (holds.perm.mem_iff.mp inSecond)
    ordered

theorem erase (holds : TreeHolds order tree (addr :: rest)) (distinct : (addr :: rest).Nodup) :
    ∃ newTree, RbTree.erase addr tree = some newTree ∧ TreeHolds order newTree rest := by
  have mem : addr ∈ tree.toList := holds.perm.mem_iff.mpr mem_cons_self
  rcases RbTree.erase_eq (holds.perm.nodup_iff.mpr distinct) mem with ⟨newTree, found, list⟩
  refine ⟨newTree, found, ?_, ?_⟩
  · rw [list]
    simpa using holds.perm.erase addr
  · rw [list]
    exact holds.sorted.sublist erase_sublist

theorem insert {goLeft : ℕ → Except Bug Bool} {below : ℕ → Bool}
    (holds : TreeHolds order tree addrs)
    (compares : ∀ other ∈ addrs, goLeft other = .ok (below other))
    (monotone : ∀ first second, order first second → below first = true → below second = true)
    (notBelow : ∀ other ∈ addrs, below other = false → order other addr)
    (isBelow : ∀ other ∈ addrs, below other = true → order addr other) :
    ∃ newTree, RbTree.insert goLeft addr tree = .ok newTree ∧
      TreeHolds order newTree (addr :: addrs) := by
  have members : ∀ other ∈ tree.toList, other ∈ addrs := fun other => holds.perm.mem_iff.mp
  rcases @RbTree.insert_eq _ _ goLeft below tree addr
      (fun other mem => compares other (members other mem))
      (holds.sorted.imp fun {first second} => monotone first second) with
    ⟨newTree, lower, upper, found, split, list, lowerOk, upperOk⟩
  rw [split] at members
  have sorted := holds.sorted
  rw [split, pairwise_append] at sorted
  rcases sorted with ⟨lowerSorted, upperSorted, across⟩
  refine ⟨newTree, found, ?_, ?_⟩
  · rw [list]
    refine perm_middle.trans (List.Perm.cons addr ?_)
    rw [← split]
    exact holds.perm
  rw [list, pairwise_append, pairwise_cons]
  refine ⟨lowerSorted, ⟨?_, upperSorted⟩, ?_⟩
  · intro other inUpper
    exact isBelow other (members other (mem_append_right _ inUpper)) (upperOk other inUpper)
  intro first inLower second inRest
  rcases mem_cons.mp inRest with rfl | inUpper
  · exact notBelow first (members first (mem_append_left _ inLower)) (lowerOk first inLower)
  · exact across first inLower second inUpper

end TreeHolds

/-- The order of `free_buffers`: by current size. -/
def sizeOrder (stop : ℕ) (buffers : List Buffer) (first second : ℕ) : Prop :=
  sizeIn stop first buffers ≤ sizeIn stop second buffers

theorem Tiled.entry_eq {proc : Proc} {start : ℕ} {buffer : Buffer}
    (tiled : Tiled start proc.stop proc.buffers) (mem : buffer ∈ proc.buffers) :
    proc.entry buffer.addr = .ok buffer := by
  rcases append_of_mem mem with ⟨before, after, split⟩
  rw [split] at tiled
  simp [Proc.entry, split, tiled.focused.find?]

theorem bugOn_of_not {condition : Prop} [Decidable condition] {bug : Bug} (fine : ¬condition) :
    bugOn condition bug = .ok () :=
  if_neg fine

theorem binderInsertFreeBuffer_eq {proc : Proc} {start : ℕ} {new : Buffer} {addrs : List ℕ}
    (tiled : Tiled start proc.stop proc.buffers) (mem : new ∈ proc.buffers)
    (isFree : new.free = true)
    (holds : TreeHolds (sizeOrder proc.stop proc.buffers) proc.freeBuffers addrs)
    (listed : ∀ addr ∈ addrs, addr ∈ addrsWith true proc.buffers) :
    ∃ tree, binderInsertFreeBuffer proc new.addr = .ok { proc with freeBuffers := tree } ∧
      TreeHolds (sizeOrder proc.stop proc.buffers) tree (new.addr :: addrs) := by
  have inserted := @TreeHolds.insert _ _ _ new.addr (fun addr => do
      let buffer ← proc.entry addr
      bugOn (buffer.free = false) .freeTreeHoldsAllocated
      return decide (proc.binderBufferSize new.addr < proc.binderBufferSize addr))
    (fun addr => decide (proc.binderBufferSize new.addr < proc.binderBufferSize addr)) holds
    ?_ ?_ ?_ ?_
  · rcases inserted with ⟨tree, found, newHolds⟩
    refine ⟨tree, ?_, newHolds⟩
    have entry := tiled.entry_eq mem
    simp only [binderInsertFreeBuffer, entry, bind, Except.bind, isFree, Bool.true_eq_false,
      not_false_eq_true, bugOn_of_not, pure, Except.pure] at found ⊢
    rw [found]
  · intro addr inAddrs
    rcases mem_addrsWith.mp (listed addr inAddrs) with ⟨buffer, inList, free, rfl⟩
    have entry := tiled.entry_eq inList
    simp [entry, bind, Except.bind, free, Bool.true_eq_false, bugOn_of_not, pure, Except.pure]
  · intro first second ordered below
    simp only [decide_eq_true_eq] at below ⊢
    exact lt_of_lt_of_le below ordered
  · intro other _ notBelow
    simp only [decide_eq_false_iff_not, not_lt] at notBelow
    exact notBelow
  · intro other _ below
    simp only [decide_eq_true_eq] at below
    exact le_of_lt below

theorem binderInsertAllocatedBuffer_eq {proc : Proc} {start : ℕ} {new : Buffer} {addrs : List ℕ}
    (tiled : Tiled start proc.stop proc.buffers) (mem : new ∈ proc.buffers)
    (notFree : new.free = false) (holds : TreeHolds (· < ·) proc.allocatedBuffers addrs)
    (listed : ∀ addr ∈ addrs, addr ∈ addrsWith false proc.buffers) (absent : new.addr ∉ addrs) :
    ∃ tree, binderInsertAllocatedBuffer proc new.addr =
        .ok { proc with allocatedBuffers := tree } ∧
      TreeHolds (· < ·) tree (new.addr :: addrs) := by
  have differs : ∀ addr ∈ addrs, addr ≠ new.addr := by
    rintro addr inAddrs rfl
    exact absent inAddrs
  have inserted := @TreeHolds.insert _ _ _ new.addr (fun addr => do
      let buffer ← proc.entry addr
      bugOn (buffer.free = true) .allocatedTreeHoldsFree
      if new.addr < addr then return true
      else if addr < new.addr then return false
      else throw .insertAllocatedTwice)
    (fun addr => decide (new.addr < addr)) holds ?_ ?_ ?_ ?_
  · rcases inserted with ⟨tree, found, newHolds⟩
    refine ⟨tree, ?_, newHolds⟩
    have entry := tiled.entry_eq mem
    simp only [binderInsertAllocatedBuffer, entry, bind, Except.bind, notFree, Bool.false_eq_true,
      not_false_eq_true, bugOn_of_not, pure, Except.pure] at found ⊢
    rw [found]
  · intro addr inAddrs
    rcases mem_addrsWith.mp (listed addr inAddrs) with ⟨buffer, inList, allocated, rfl⟩
    have entry := tiled.entry_eq inList
    have := differs buffer.addr inAddrs
    simp only [entry, bind, Except.bind, allocated, Bool.false_eq_true, not_false_eq_true,
      bugOn_of_not, pure, Except.pure]
    split_ifs with left right
    · simp [left]
    · simp [left]
    · omega
  · intro first second ordered below
    simp only [decide_eq_true_eq] at below ⊢
    exact Nat.lt_trans below ordered
  · intro other inAddrs notBelow
    simp only [decide_eq_false_iff_not, not_lt] at notBelow
    have := differs other inAddrs
    show other < new.addr
    omega
  · intro other _ below
    simpa using below

/-! ## Between operations and inside them -/

structure AreaOk (buffer bufferSize : ℕ) : Prop where
  buffer_aligned : buffer % 4096 = 0
  size_aligned : bufferSize % 4096 = 0
  size_pos : 0 < bufferSize
  fits : buffer + bufferSize + 4096 ≤ 4294967296

abbrev NotBothFree (first second : Buffer) : Prop :=
  ¬(first.free = true ∧ second.free = true)

/-- The buffer list tiles the area, no two neighbours are free, and the trees hold
the free and the allocated buffers. -/
structure Indexed (proc : Proc) : Prop where
  area : AreaOk proc.buffer proc.bufferSize
  tiled : Tiled proc.buffer proc.stop proc.buffers
  apart : proc.buffers.IsChain NotBothFree
  freeTree : TreeHolds (sizeOrder proc.stop proc.buffers) proc.freeBuffers
    (addrsWith true proc.buffers)
  allocatedTree : TreeHolds (· < ·) proc.allocatedBuffers (addrsWith false proc.buffers)

/-- `buffer` is free but in neither tree and may have free neighbours. -/
structure Pending (proc : Proc) (before : List Buffer) (buffer : Buffer) (after : List Buffer) :
    Prop where
  area : AreaOk proc.buffer proc.bufferSize
  buffers_eq : proc.buffers = before ++ buffer :: after
  free : buffer.free = true
  tiled : Tiled proc.buffer proc.stop (before ++ buffer :: after)
  before_apart : before.IsChain NotBothFree
  after_apart : after.IsChain NotBothFree
  freeTree : TreeHolds (sizeOrder proc.stop (before ++ buffer :: after)) proc.freeBuffers
    (addrsWith true (before ++ after))
  allocatedTree : TreeHolds (· < ·) proc.allocatedBuffers (addrsWith false (before ++ after))

section Steps

variable {proc : Proc} {before after : List Buffer} {buffer : Buffer}

theorem addrsWith_nodup {start stop : ℕ} {buffers part : List Buffer}
    (tiled : Tiled start stop buffers) (sub : part.Sublist buffers) (free : Bool) :
    (addrsWith free part).Nodup := by
  have distinct := tiled.addrs_increasing.imp fun {first second} lt => ne_of_lt lt
  exact distinct.sublist ((filter_sublist.trans sub).map _)

theorem addrsWith_middle {free : Bool} (same : buffer.free = free) :
    (addrsWith free (before ++ buffer :: after)).Perm
      (buffer.addr :: addrsWith free (before ++ after)) := by
  rw [addrsWith_append, addrsWith_cons_of_eq _ same, addrsWith_append]
  exact perm_middle

theorem addrsWith_middle_of_ne {free : Bool} (differs : buffer.free ≠ free) :
    addrsWith free (before ++ buffer :: after) = addrsWith free (before ++ after) := by
  rw [addrsWith_append, addrsWith_cons_of_ne _ differs, addrsWith_append]

theorem TreeHolds.replaceMiddle {start stop : ℕ} {tree : RbTree.Tree ℕ}
    {middle newMiddle : List Buffer}
    (holds : TreeHolds (sizeOrder stop (before ++ (middle ++ after))) tree
      (addrsWith true (before ++ after))) (tiled : Tiled start stop (before ++ (middle ++ after)))
    (newTiled : Tiled start stop (before ++ (newMiddle ++ after)))
    (sameStart : bufferEnd (bufferEnd stop after) middle =
      bufferEnd (bufferEnd stop after) newMiddle) :
    TreeHolds (sizeOrder stop (before ++ (newMiddle ++ after))) tree
      (addrsWith true (before ++ after)) := by
  have sizes : ∀ addr ∈ addrsWith true (before ++ after),
      sizeIn stop addr (before ++ (newMiddle ++ after)) =
        sizeIn stop addr (before ++ (middle ++ after)) := by
    intro addr mem
    rcases mem_addrsWith.mp mem with ⟨outer, isOuter, _, rfl⟩
    exact (sizeIn_middle_congr sameStart (fun _ inner => tiled.middle_ne isOuter inner)
      (fun _ inner => newTiled.middle_ne isOuter inner)).symm
  refine holds.mono fun first inFirst second inSecond ordered => ?_
  simpa only [sizeOrder, sizes first inFirst, sizes second inSecond] using ordered

theorem Indexed.eraseFree (indexed : Indexed proc)
    (split : proc.buffers = before ++ buffer :: after) (free : buffer.free = true) :
    ∃ tree, proc.eraseFree buffer.addr = .ok { proc with freeBuffers := tree } ∧
      Pending { proc with freeBuffers := tree } before buffer after := by
  have tiled := indexed.tiled
  have freeTree := indexed.freeTree
  have allocatedTree := indexed.allocatedTree
  have apart := indexed.apart
  rw [split] at tiled freeTree allocatedTree apart
  have moved := freeTree.reorder (addrsWith_middle free)
  have distinct := (addrsWith_middle free).nodup_iff.mp
    (addrsWith_nodup tiled (List.Sublist.refl _) true)
  rcases moved.erase distinct with ⟨tree, found, holds⟩
  refine ⟨tree, by simp [Proc.eraseFree, found], ?_⟩
  rw [isChain_append, isChain_cons] at apart
  rw [addrsWith_middle_of_ne (by simp [free])] at allocatedTree
  exact ⟨indexed.area, split, free, tiled, apart.1, apart.2.1.2, holds, allocatedTree⟩

theorem Pending.insertFree (pending : Pending proc before buffer after)
    (prevAllocated : ∀ prev ∈ before.getLast?, prev.free = false)
    (nextAllocated : ∀ next ∈ after.head?, next.free = false) :
    ∃ tree, binderInsertFreeBuffer proc buffer.addr = .ok { proc with freeBuffers := tree } ∧
      Indexed { proc with freeBuffers := tree } := by
  have split := pending.buffers_eq
  have tiled := pending.tiled
  have freeTree := pending.freeTree
  have allocatedTree := pending.allocatedTree
  rw [← split] at tiled freeTree
  have inserted := binderInsertFreeBuffer_eq tiled (by simp [split]) pending.free freeTree (by
    intro addr mem
    rw [split, (addrsWith_middle pending.free).mem_iff]
    exact mem_cons_of_mem _ mem)
  rcases inserted with ⟨tree, found, holds⟩
  refine ⟨tree, found, pending.area, tiled, ?_, ?_, ?_⟩
  · show proc.buffers.IsChain NotBothFree
    rw [split, isChain_append, isChain_cons]
    refine ⟨pending.before_apart, ⟨?_, pending.after_apart⟩, ?_⟩
    · intro next isNext both
      simp [nextAllocated next isNext] at both
    · intro prev isPrev _ _ both
      simp [prevAllocated prev isPrev] at both
  · refine holds.reorder ?_
    rw [split]
    exact (addrsWith_middle pending.free).symm
  · show TreeHolds _ proc.allocatedBuffers (addrsWith false proc.buffers)
    rw [split, addrsWith_middle_of_ne (by simp [pending.free])]
    exact allocatedTree

theorem Pending.occupy (pending : Pending proc before buffer after) :
    ∃ tree, binderInsertAllocatedBuffer
        (proc.modify buffer.addr fun entry => { entry with free := false }) buffer.addr =
        .ok { proc with
          buffers := before ++ { buffer with free := false } :: after
          allocatedBuffers := tree } ∧
      Indexed { proc with
        buffers := before ++ { buffer with free := false } :: after
        allocatedBuffers := tree } := by
  have split := pending.buffers_eq
  have focused := pending.tiled.focused
  have modified : (proc.modify buffer.addr fun entry => { entry with free := false }) =
      { proc with buffers := before ++ { buffer with free := false } :: after } := by
    simp only [Proc.modify, split, focused.modifyBuffer_eq]
  have tiled : Tiled proc.buffer proc.stop (before ++ { buffer with free := false } :: after) := by
    have old := pending.tiled
    rw [Tiled.middle_iff] at old ⊢
    exact old
  have absent : buffer.addr ∉ addrsWith false (before ++ after) := by
    intro mem
    rcases mem_addrsWith.mp mem with ⟨other, inRest, _, same⟩
    rcases mem_append.mp inRest with inBefore | inAfter
    · exact focused.before_ne other inBefore same
    · exact focused.after_ne other inAfter same
  have allocatedPerm := @addrsWith_middle before after { buffer with free := false } false rfl
  have inserted := @binderInsertAllocatedBuffer_eq
    { proc with buffers := before ++ { buffer with free := false } :: after } _
    { buffer with free := false } _ tiled (by simp) rfl pending.allocatedTree (by
      intro addr mem
      exact allocatedPerm.mem_iff.mpr (mem_cons_of_mem _ mem)) absent
  rcases inserted with ⟨tree, found, holds⟩
  refine ⟨tree, by rw [modified]; exact found, pending.area, tiled, ?_, ?_, ?_⟩
  · show (before ++ { buffer with free := false } :: after).IsChain NotBothFree
    rw [isChain_append, isChain_cons]
    refine ⟨pending.before_apart, ⟨?_, pending.after_apart⟩, ?_⟩
    · simp
    · simp
  · show TreeHolds (sizeOrder proc.stop (before ++ { buffer with free := false } :: after))
      proc.freeBuffers (addrsWith true (before ++ { buffer with free := false } :: after))
    rw [addrsWith_middle_of_ne (by simp)]
    refine pending.freeTree.mono fun first _ second _ ordered => ?_
    have sizes : ∀ addr, sizeIn proc.stop addr (before ++ { buffer with free := false } :: after) =
        sizeIn proc.stop addr (before ++ buffer :: after) :=
      fun addr => sizeIn_congr (by simp)
    simpa only [sizeOrder, sizes] using ordered
  · exact holds.reorder allocatedPerm.symm

theorem Indexed.modify (indexed : Indexed proc) {addr : ℕ} {change : Buffer → Buffer}
    (sameAddr : ∀ entry, (change entry).addr = entry.addr)
    (sameFree : ∀ entry, (change entry).free = entry.free) : Indexed (proc.modify addr change) := by
  have pointwise : ∀ entry : Buffer,
      (if entry.addr = addr then change entry else entry).addr = entry.addr ∧
        (if entry.addr = addr then change entry else entry).free = entry.free := by
    intro entry
    split_ifs
    · exact ⟨sameAddr entry, sameFree entry⟩
    · exact ⟨rfl, rfl⟩
  have addrs : proc.buffers.map Buffer.addr =
      (modifyBuffer addr change proc.buffers).map Buffer.addr := by
    simp only [modifyBuffer, map_map]
    refine map_congr_left fun entry _ => ?_
    exact (pointwise entry).1.symm
  have flagged : ∀ free, addrsWith free (modifyBuffer addr change proc.buffers) =
      addrsWith free proc.buffers := by
    intro free
    simp only [addrsWith, modifyBuffer, filter_map, map_map]
    have filters : ((fun buffer : Buffer => decide (buffer.free = free)) ∘
        fun buffer => if buffer.addr = addr then change buffer else buffer) =
        fun buffer => decide (buffer.free = free) := by
      funext entry
      simp [(pointwise entry).2]
    rw [filters]
    refine map_congr_left fun entry _ => ?_
    exact (pointwise entry).1
  refine ⟨indexed.area, indexed.tiled.congr addrs, ?_, ?_, ?_⟩
  · show (modifyBuffer addr change proc.buffers).IsChain NotBothFree
    simp only [modifyBuffer, isChain_map, NotBothFree, (pointwise _).2]
    exact indexed.apart
  · show TreeHolds (sizeOrder proc.stop (modifyBuffer addr change proc.buffers)) proc.freeBuffers
      (addrsWith true (modifyBuffer addr change proc.buffers))
    rw [flagged]
    refine indexed.freeTree.mono fun first _ second _ ordered => ?_
    simpa only [sizeOrder, sizeIn_congr addrs] using ordered
  · show TreeHolds _ proc.allocatedBuffers (addrsWith false (modifyBuffer addr change proc.buffers))
    rw [flagged]
    exact indexed.allocatedTree

theorem Indexed.carve (indexed : Indexed proc)
    (split : proc.buffers = before ++ buffer :: after) (allocated : buffer.free = false)
    {new : Buffer} (newFree : new.free = true) (newAbove : buffer.addr + 40 ≤ new.addr)
    (newBelow : new.addr + 40 ≤ bufferEnd proc.stop after) :
    Pending { proc with buffers := addAfter buffer.addr new proc.buffers }
      (before ++ [buffer]) new after := by
  have tiled := indexed.tiled
  have apart := indexed.apart
  have freeTree := indexed.freeTree
  have allocatedTree := indexed.allocatedTree
  rw [split] at tiled apart freeTree allocatedTree
  have joined : before ++ buffer :: new :: after = (before ++ [buffer]) ++ new :: after := by simp
  have flat : (before ++ [buffer]) ++ after = before ++ buffer :: after := by simp
  have list : addAfter buffer.addr new proc.buffers = (before ++ [buffer]) ++ new :: after := by
    rw [split, tiled.focused.addAfter_eq, joined]
  rw [Tiled.middle_iff] at tiled
  rw [isChain_append, isChain_cons] at apart
  have newTiled : Tiled proc.buffer proc.stop ((before ++ [buffer]) ++ new :: after) := by
    rw [← joined, Tiled.middle_iff, Tiled.cons_iff]
    exact ⟨tiled.1, newAbove, rfl, newBelow, tiled.2.2⟩
  refine ⟨indexed.area, list, newFree, newTiled, ?_, apart.2.1.2, ?_, ?_⟩
  · rw [isChain_append]
    refine ⟨apart.1, isChain_singleton _, ?_⟩
    simp [allocated]
  · show TreeHolds (sizeOrder proc.stop ((before ++ [buffer]) ++ new :: after)) proc.freeBuffers
      (addrsWith true ((before ++ [buffer]) ++ after))
    rw [flat, ← joined, addrsWith_middle_of_ne (by simp [allocated])]
    rw [addrsWith_middle_of_ne (by simp [allocated])] at freeTree
    exact @TreeHolds.replaceMiddle _ _ _ _ _ [buffer] [buffer, new] freeTree
      (split ▸ indexed.tiled) (joined ▸ newTiled) rfl
  · show TreeHolds _ proc.allocatedBuffers (addrsWith false ((before ++ [buffer]) ++ after))
    rw [flat]
    exact allocatedTree

theorem Indexed.release (indexed : Indexed proc)
    (split : proc.buffers = before ++ buffer :: after) (allocated : buffer.free = false) :
    ∃ tree, proc.eraseAllocated buffer.addr = .ok { proc with allocatedBuffers := tree } ∧
      Pending { proc with
        buffers := before ++ { buffer with free := true } :: after
        allocatedBuffers := tree } before { buffer with free := true } after := by
  have tiled := indexed.tiled
  have apart := indexed.apart
  have freeTree := indexed.freeTree
  have allocatedTree := indexed.allocatedTree
  rw [split] at tiled apart freeTree allocatedTree
  have moved := allocatedTree.reorder (addrsWith_middle allocated)
  have distinct := (addrsWith_middle allocated).nodup_iff.mp
    (addrsWith_nodup tiled (List.Sublist.refl _) false)
  rcases moved.erase distinct with ⟨tree, found, holds⟩
  refine ⟨tree, by simp [Proc.eraseAllocated, found], ?_⟩
  have newTiled : Tiled proc.buffer proc.stop (before ++ { buffer with free := true } :: after) :=
    tiled.congr (by simp)
  rw [isChain_append, isChain_cons] at apart
  rw [addrsWith_middle_of_ne (by simp [allocated])] at freeTree
  exact ⟨indexed.area, rfl, rfl, newTiled, apart.1, apart.2.1.2,
    @TreeHolds.replaceMiddle _ _ _ _ _ [buffer] [{ buffer with free := true }] freeTree tiled
      newTiled rfl, holds⟩

end Steps

end StreakKernel.Binder
