import StreakKernel.Binder.AllocSteps
import StreakKernel.Lib.Run

/-!
# Runs of the buffer allocator

`AllocInv` holds after `binder_mmap`, and is kept by `binder_free_buf` and
`binder_alloc_buf`, neither of which meets a `BUG_ON`.
-/

namespace StreakKernel.Binder

open Function List Word

open Word (U32)

structure AllocInv (proc : Proc) : Prop where
  indexed : Indexed proc
  roomy : Roomy proc.stop proc.buffers
  pagesOk : PagesOk proc.buffer proc.stop proc.buffers proc.pages

section Bounds

variable {proc : Proc} {before after : List Buffer} {buffer : Buffer}

theorem Indexed.bounds (indexed : Indexed proc) (split : proc.buffers = before ++ buffer :: after) :
    proc.buffer ≤ buffer.addr ∧ buffer.addr + 40 ≤ bufferEnd proc.stop after ∧
      bufferEnd proc.stop after ≤ proc.stop := by
  have tiled := indexed.tiled
  rw [split, Tiled.middle_iff] at tiled
  exact ⟨tiled.1.start_le, tiled.2.1, tiled.2.2.start_le⟩

theorem AreaOk.stop_fits (area : AreaOk proc.buffer proc.bufferSize) :
    proc.stop + 4096 ≤ 4294967296 :=
  area.fits

theorem Indexed.binderBufferSize_eq (indexed : Indexed proc)
    (split : proc.buffers = before ++ buffer :: after) :
    buffer.addr + 40 + proc.binderBufferSize buffer.addr = bufferEnd proc.stop after := by
  have bounds := indexed.bounds split
  have fits := indexed.area.stop_fits
  have focused := (split ▸ indexed.tiled).focused
  have noWrap : sub (bufferEnd proc.stop after) (buffer.addr + 40) =
      bufferEnd proc.stop after - (buffer.addr + 40) := sub_eq (by omega) (by omega)
  rw [Proc.binderBufferSize, split, focused.sizeIn_eq, noWrap]
  omega

theorem Indexed.withOthers (indexed : Indexed proc) (pages : ℕ → Bool) (space : ℕ) (vma : Bool) :
    Indexed { proc with pages := pages, freeAsyncSpace := space, vma := vma } :=
  ⟨indexed.area, indexed.tiled, indexed.apart, indexed.freeTree, indexed.allocatedTree⟩

theorem AllocInv.withSpace (inv : AllocInv proc) (space : ℕ) (vma : Bool) :
    AllocInv { proc with freeAsyncSpace := space, vma := vma } :=
  ⟨inv.indexed.withOthers _ space vma, inv.roomy, inv.pagesOk⟩

end Bounds

/-- The charges of the buffers and what is left make up the budget. -/
def Balanced (proc : Proc) : Prop :=
  proc.freeAsyncSpace + charged proc.buffers = proc.bufferSize / 2

/-! ## Release -/

section Release

variable {proc : Proc} {before after : List Buffer} {buffer : Buffer}

section Freed

variable (inv : AllocInv proc) (split : proc.buffers = before ++ buffer :: after)
  (allocated : buffer.free = false)
include inv split allocated

theorem AllocInv.unmapData : ∃ pages, unmapPageRange proc (pageAlign (bufferData buffer.addr))
        (pageMask (bufferEnd proc.stop after)) = .ok { proc with pages := pages } ∧
      PagesOk proc.buffer proc.stop (before ++ { buffer with free := true } :: after) pages := by
  have area := inv.indexed.area
  have fits := area.stop_fits
  have bounds := inv.indexed.bounds split
  have tiled : Tiled proc.buffer proc.stop (before ++ buffer :: after) := split ▸ inv.indexed.tiled
  have needed : ∀ page, Touched proc.stop page proc.buffers ↔
      TouchedAround buffer.addr proc.stop page before after ∨
        Touches page buffer.addr (bufferEnd proc.stop after) := by
    intro page
    rw [split, touched_middle, footEnd_of_allocated allocated]
  have range : PageRange proc.buffer (pageAlign (bufferData buffer.addr))
      (pageMask (bufferEnd proc.stop after)) := by
    have := area.buffer_aligned
    rw [bufferData, pageAlign_eq (by omega), pageMask, alignDown]
    constructor <;> omega
  have unmapped := unmapPageRange_eq range (by
    intro index inRange
    rcases of_decide_eq_true inRange with ⟨first, last⟩
    have inside := inside_data area.page_aligned (by omega) (TouchedAround.outside tiled) first last
    exact (inv.pagesOk index).mpr ((needed _).mpr (.inr inside.2.2)))
  refine ⟨_, unmapped, fun index => ?_⟩
  rw [and_not_inPageRange, inv.pagesOk index, needed, touched_middle, footEnd_of_free rfl]
  exact unmap_pages_iff area.page_aligned (by omega) bounds.2.1 (TouchedAround.outside tiled)
    (touchedAround_of_end tiled area.stop_aligned)

theorem AllocInv.releaseBuffer :
    ∃ newProc, releaseBuffer proc buffer.addr (proc.binderBufferSize buffer.addr) = .ok newProc ∧
      AllocInv newProc ∧ newProc.buffer = proc.buffer ∧ newProc.bufferSize = proc.bufferSize ∧
      newProc.freeAsyncSpace = proc.freeAsyncSpace ∧
      charged newProc.buffers = charged before + charged after := by
  have ends := inv.indexed.binderBufferSize_eq split
  rcases inv.unmapData split allocated with ⟨pages, unmapped, pagesOk⟩
  rcases (inv.indexed.withOthers pages proc.freeAsyncSpace proc.vma).release split allocated with
    ⟨allocatedTree, erased, pending⟩
  have modified : Proc.modify { proc with pages := pages, allocatedBuffers := allocatedTree }
      buffer.addr (fun entry => { entry with free := true }) = { proc with
        pages := pages, allocatedBuffers := allocatedTree
        buffers := before ++ { buffer with free := true } :: after } := by
    have focused := (split ▸ inv.indexed.tiled).focused
    simp only [Proc.modify, split, focused.modifyBuffer_eq]
  have roomy : Roomy proc.stop (before ++ { buffer with free := true } :: after) := by
    have old := inv.roomy
    simp only [split, roomy_append, roomy_cons, bufferEnd_cons] at old ⊢
    exact ⟨old.1, by simp, old.2.2⟩
  rcases pending.mergeNext pagesOk roomy with
    ⟨rest, nextTree, nextPages, mergedNext, nextPending, nextPagesOk, nextRoomy, nextAllocated,
      nextCharged⟩
  rcases nextPending.mergePrev nextPagesOk nextRoomy with
    ⟨front, merged, prevTree, prevPages, mergedPrev, prevPending, prevPagesOk, prevRoomy,
      prevAllocated, prevCharged⟩
  rcases prevPending.insertFree prevAllocated nextAllocated with ⟨freeTree, inserted, indexed⟩
  refine ⟨_, ?_, ⟨indexed, prevRoomy, prevPagesOk⟩, rfl, rfl, rfl, ?_⟩
  · simp only [Binder.releaseBuffer, bufferData, ends, unmapped, erased, bind, Except.bind,
      modified]
    rw [mergedNext]
    simp [mergedPrev, inserted]
  · rw [charged_append, charged, charge_of_free prevPending.free, zero_add, prevCharged,
      nextCharged]

theorem AllocInv.binderFreeBuf (cleared : buffer.transaction = false) :
    ∃ newProc, binderFreeBuf proc buffer.addr = .ok newProc ∧ AllocInv newProc ∧
      newProc.buffer = proc.buffer ∧ newProc.bufferSize = proc.bufferSize ∧
      (Balanced proc → Balanced newProc) := by
  have bounds := inv.indexed.bounds split
  have fits := inv.indexed.area.stop_fits
  have ends := inv.indexed.binderBufferSize_eq split
  have entry : proc.entry buffer.addr = .ok buffer := inv.indexed.tiled.entry_eq (by simp [split])
  have roomy := inv.roomy
  simp only [split, roomy_append, roomy_cons] at roomy
  have inside := roomy.2.1 allocated
  have isSize := @alignedSize_eq buffer.dataSize buffer.offsetsSize (by omega)
  have room : alignedSize buffer.dataSize buffer.offsetsSize ≤
      proc.binderBufferSize buffer.addr := by omega
  simp only [Binder.binderFreeBuf, entry, bind, Except.bind, allocated, cleared, Bool.false_eq_true,
    not_false_eq_true, bugOn_of_not, Nat.not_lt.mpr room, Nat.not_lt.mpr bounds.1,
    Nat.not_lt.mpr (show buffer.addr ≤ proc.stop by omega)]
  have areaFits := inv.indexed.area.fits
  split_ifs with isAsync
  · rcases (inv.withSpace (add proc.freeAsyncSpace
        (add (alignedSize buffer.dataSize buffer.offsetsSize) 40)) proc.vma).releaseBuffer split
      allocated with
      ⟨newProc, released, newInv, sameBuffer, sameSize, isSpace, isCharged⟩
    refine ⟨newProc, released, newInv, sameBuffer, sameSize, fun balanced => ?_⟩
    unfold Balanced at balanced ⊢
    rw [split, charged_append, charged, Buffer.charge, if_pos ⟨allocated, isAsync⟩] at balanced
    rw [sameSize, isSpace, isCharged, isSize, @add_eq _ 40 (by omega), add_eq (by omega)]
    dsimp only
    omega
  rcases inv.releaseBuffer split allocated with
    ⟨newProc, released, newInv, sameBuffer, sameSize, isSpace, isCharged⟩
  refine ⟨newProc, released, newInv, sameBuffer, sameSize, fun balanced => ?_⟩
  unfold Balanced at balanced ⊢
  rw [split, charged_append, charged, Buffer.charge, if_neg (fun both => isAsync both.2),
    zero_add] at balanced
  rw [sameSize, isSpace, isCharged]
  exact balanced

end Freed

end Release

/-! ## Allocation -/

section Search

variable {proc : Proc}

/-- The buffer at `addr` is free and large enough; `exact` says that it has exactly
the right size. -/
def Fits (proc : Proc) (size : ℕ) (exactFit : Bool) (addr : ℕ) : Prop :=
  addr ∈ addrsWith true proc.buffers ∧
    if exactFit then proc.binderBufferSize addr = size else size < proc.binderBufferSize addr

theorem findBestFit_eq {start size : ℕ} (tiled : Tiled start proc.stop proc.buffers)
    {tree : RbTree.Tree ℕ} {bestFit : Option ℕ}
    (listed : ∀ addr ∈ tree.toList, addr ∈ addrsWith true proc.buffers)
    (sorted : tree.toList.Pairwise (sizeOrder proc.stop proc.buffers))
    (candidate : ∀ addr ∈ bestFit, Fits proc size false addr ∧
      ∀ other ∈ tree.toList, proc.binderBufferSize other ≤ proc.binderBufferSize addr) :
    ∃ result exactFit, findBestFit proc size tree bestFit = .ok (result, exactFit) ∧
      (∀ addr ∈ result, Fits proc size exactFit addr) ∧
      ∀ addr, addr ∈ tree.toList ∨ addr ∈ bestFit → size ≤ proc.binderBufferSize addr →
        ∃ best ∈ result, proc.binderBufferSize best ≤ proc.binderBufferSize addr := by
  induction tree generalizing bestFit with
  | leaf =>
    refine ⟨bestFit, false, rfl, fun addr mem => (candidate addr mem).1, ?_⟩
    rintro addr (inLeaf | isBest) _
    · cases inLeaf
    · exact ⟨addr, isBest, le_refl _⟩
  | node color left addr right leftIh rightIh =>
    simp only [RbTree.Tree.toList, mem_append, mem_cons] at listed candidate ⊢
    simp only [RbTree.Tree.toList, pairwise_append, pairwise_cons, mem_cons] at sorted
    rcases sorted with ⟨leftSorted, ⟨toRight, rightSorted⟩, fromLeft⟩
    have here := listed addr (.inr (.inl rfl))
    rcases mem_addrsWith.mp here with ⟨buffer, inList, free, rfl⟩
    have entry := tiled.entry_eq inList
    simp only [findBestFit, entry, bind, Except.bind, free, Bool.true_eq_false, not_false_eq_true,
      bugOn_of_not]
    by_cases less : size < proc.binderBufferSize buffer.addr
    · rw [if_pos less]
      have isNew : ∀ best ∈ some buffer.addr, Fits proc size false best ∧
          ∀ other ∈ left.toList, proc.binderBufferSize other ≤ proc.binderBufferSize best := by
        rintro best ⟨⟩
        exact ⟨⟨here, less⟩, fun other inLeft => fromLeft other inLeft _ (.inl rfl)⟩
      rcases leftIh (fun other inLeft => listed other (.inl inLeft)) leftSorted isNew with
        ⟨result, exactFit, found, fits, least⟩
      refine ⟨result, exactFit, found, fits, ?_⟩
      rcases least buffer.addr (.inr rfl) (le_of_lt less) with ⟨best, isBest, bestLe⟩
      rintro other ((inLeft | rfl | inRight) | isCandidate) large
      · exact least other (.inl inLeft) large
      · exact ⟨best, isBest, bestLe⟩
      · exact ⟨best, isBest, le_trans bestLe (toRight other inRight)⟩
      · exact ⟨best, isBest, le_trans bestLe ((candidate other isCandidate).2 _ (.inr (.inl rfl)))⟩
    · rw [if_neg less]
      by_cases greater : proc.binderBufferSize buffer.addr < size
      · rw [if_pos greater]
        rcases rightIh (fun other inRight => listed other (.inr (.inr inRight))) rightSorted
          (fun best isBest => ⟨(candidate best isBest).1, fun other inRight =>
            (candidate best isBest).2 other (.inr (.inr inRight))⟩) with
          ⟨result, exactFit, found, fits, least⟩
        refine ⟨result, exactFit, found, fits, ?_⟩
        rintro other ((inLeft | rfl | inRight) | isCandidate) large
        · have le : proc.binderBufferSize other ≤ proc.binderBufferSize buffer.addr :=
            fromLeft other inLeft _ (.inl rfl)
          omega
        · omega
        · exact least other (.inl inRight) large
        · exact least other (.inr isCandidate) large
      · rw [if_neg greater]
        refine ⟨some buffer.addr, true, rfl, ?_, fun other _ large => ⟨_, rfl, by omega⟩⟩
        rintro other ⟨⟩
        exact ⟨here, by simp only [if_true]; omega⟩

end Search

section Take

variable {proc : Proc} {before after : List Buffer} {buffer : Buffer}

def takenEntry (buffer : Buffer) (dataSize offsetsSize : ℕ) (isAsync : Bool) : Buffer :=
  { buffer with free := false, dataSize, offsetsSize, asyncTransaction := isAsync }

/-- The free buffer that an allocation of `size` bytes at `addr` splits off. -/
def restEntry (addr size : ℕ) (stale : Bool) : Buffer :=
  ⟨bufferData addr + size, true, false, stale, 0, 0⟩

section Middle

variable (indexed : Indexed proc) (split : proc.buffers = before ++ buffer :: after)
include indexed split

theorem Indexed.modifyMiddle {change : Buffer → Buffer}
    (sameAddr : ∀ entry, (change entry).addr = entry.addr)
    (sameFree : ∀ entry, (change entry).free = entry.free) :
    proc.modify buffer.addr change = { proc with buffers := before ++ change buffer :: after } ∧
      Indexed { proc with buffers := before ++ change buffer :: after } := by
  have focused := (split ▸ indexed.tiled).focused
  have modified : proc.modify buffer.addr change =
      { proc with buffers := before ++ change buffer :: after } := by
    simp only [Proc.modify, split, focused.modifyBuffer_eq]
  refine ⟨modified, ?_⟩
  rw [← modified]
  exact indexed.modify sameAddr sameFree

theorem Indexed.splitOff (allocated : buffer.free = false)
    (apart : ∀ next ∈ after.head?, next.free = false) (size : ℕ) (stale : Bool)
    (room : buffer.addr + 40 + size + 40 ≤ bufferEnd proc.stop after) :
    ∃ tree, addRest proc buffer.addr size stale = .ok { proc with
        buffers := before ++ buffer :: restEntry buffer.addr size stale :: after
        freeBuffers := tree } ∧
      Indexed { proc with
        buffers := before ++ buffer :: restEntry buffer.addr size stale :: after
        freeBuffers := tree } := by
  have pending := @carve _ _ _ _ indexed split allocated
    (restEntry buffer.addr size stale) rfl (Nat.le_add_right _ _) room
  have list : addAfter buffer.addr (restEntry buffer.addr size stale) proc.buffers =
      before ++ buffer :: restEntry buffer.addr size stale :: after := by
    rw [show addAfter buffer.addr (restEntry buffer.addr size stale) proc.buffers = _ from
      pending.buffers_eq]
    simp
  have added : addRest proc buffer.addr size stale = binderInsertFreeBuffer { proc with
      buffers := before ++ buffer :: restEntry buffer.addr size stale :: after }
      (restEntry buffer.addr size stale).addr := by
    rw [← list]
    rfl
  rw [added]
  rw [list] at pending
  exact pending.insertFree (by simp [allocated]) apart

theorem Indexed.take (free : buffer.free = true) {size used : ℕ} (dataSize offsetsSize : ℕ)
    (isAsync stale : Bool)
    (room : used ≠ size → buffer.addr + 40 + size + 40 ≤ bufferEnd proc.stop after) :
    ∃ freeTree allocatedTree space newAfter,
      newAfter = (if used ≠ size then restEntry buffer.addr size stale :: after else after) ∧
      space = (if isAsync then sub proc.freeAsyncSpace (add size 40)
        else proc.freeAsyncSpace) ∧
      takeBuffer proc buffer.addr size used dataSize offsetsSize isAsync stale = .ok { proc with
        buffers := before ++ takenEntry buffer dataSize offsetsSize isAsync :: newAfter
        freeBuffers := freeTree, allocatedBuffers := allocatedTree, freeAsyncSpace := space } ∧
      Indexed { proc with
        buffers := before ++ takenEntry buffer dataSize offsetsSize isAsync :: newAfter
        freeBuffers := freeTree, allocatedBuffers := allocatedTree, freeAsyncSpace := space } := by
  have apart : ∀ next ∈ after.head?, next.free = false := by
    intro next isNext
    have chain := indexed.apart
    rw [split, isChain_append, isChain_cons] at chain
    simpa [NotBothFree, free] using chain.2.1.1 next isNext
  rcases indexed.eraseFree split free with ⟨erasedTree, erased, pending⟩
  rcases pending.occupy with ⟨allocatedTree, inserted, occupied⟩
  have divided : ∃ freeTree newAfter,
      newAfter = (if used ≠ size then restEntry buffer.addr size stale :: after else after) ∧
      (if used ≠ size then addRest { proc with
          buffers := before ++ { buffer with free := false } :: after
          freeBuffers := erasedTree, allocatedBuffers := allocatedTree } buffer.addr size stale
        else .ok { proc with
          buffers := before ++ { buffer with free := false } :: after
          freeBuffers := erasedTree, allocatedBuffers := allocatedTree }) = .ok { proc with
        buffers := before ++ { buffer with free := false } :: newAfter
        freeBuffers := freeTree, allocatedBuffers := allocatedTree } ∧
      Indexed { proc with
        buffers := before ++ { buffer with free := false } :: newAfter
        freeBuffers := freeTree, allocatedBuffers := allocatedTree } := by
    by_cases splits : used ≠ size
    · rcases occupied.splitOff rfl rfl apart size stale (room splits) with ⟨freeTree, added, final⟩
      rw [if_pos splits, if_pos splits]
      exact ⟨freeTree, _, rfl, added, final⟩
    · rw [if_neg splits, if_neg splits]
      exact ⟨erasedTree, after, rfl, rfl, occupied⟩
  rcases divided with ⟨freeTree, newAfter, isNewAfter, added, final⟩
  rcases @modifyMiddle _ _ _ _ final rfl
    (fun entry => { entry with dataSize, offsetsSize, asyncTransaction := isAsync })
    (fun _ => rfl) (fun _ => rfl) with ⟨modified, done⟩
  refine ⟨freeTree, allocatedTree, _, newAfter, isNewAfter, rfl, ?_, ?_⟩
  · simp only [takeBuffer, erased, bind, Except.bind]
    rw [inserted]
    dsimp only
    rw [added]
    dsimp only
    rw [modified]
    cases isAsync <;> rfl
  · exact done.withOthers _ _ _

end Middle

theorem touches_join {page lo middle hi : ℕ} (first : lo < middle) (second : middle < hi) :
    Touches page lo middle ∨ Touches page middle hi ↔ Touches page lo hi := by
  unfold Touches
  omega

theorem Fits.used {size addr : ℕ} {exactFit : Bool} (fit : Fits proc size exactFit addr) :
    usedSize (proc.binderBufferSize addr) size exactFit = size ∧
        size ≤ proc.binderBufferSize addr ∧ proc.binderBufferSize addr ≤ size + 44 ∨
      usedSize (proc.binderBufferSize addr) size exactFit = size + 40 ∧
        size + 44 < proc.binderBufferSize addr := by
  rcases fit with ⟨_, fit⟩
  cases exactFit with
  | true =>
    simp only [if_true] at fit
    simp only [usedSize, if_true]
    omega
  | false =>
    simp only [Bool.false_eq_true, if_false] at fit
    simp only [usedSize, Bool.false_eq_true, if_false]
    split_ifs <;> omega

theorem AllocInv.mapData (inv : AllocInv proc) (split : proc.buffers = before ++ buffer :: after)
    (free : buffer.free = true) {used finish : ℕ} (vma : Bool) (outcome : ℕ → PageOutcome)
    (usedLe : buffer.addr + 40 + used ≤ finish) (finishLe : finish ≤ bufferEnd proc.stop after)
    (slack : finish = buffer.addr + 40 + used ∨ finish = bufferEnd proc.stop after ∧
      bufferEnd proc.stop after ≤ buffer.addr + 40 + used + 44) :
    (∃ pages, mapPageRange proc (pageAlign (bufferData buffer.addr))
        (min (pageAlign (bufferData buffer.addr + used)) (pageMask (bufferEnd proc.stop after))) vma
        outcome = .ok ({ proc with pages := pages }, true) ∧
      ∀ index, pages index = true ↔
        TouchedAround buffer.addr proc.stop (proc.buffer + index * 4096) before after ∨
          Touches (proc.buffer + index * 4096) buffer.addr finish) ∨
    mapPageRange proc (pageAlign (bufferData buffer.addr))
        (min (pageAlign (bufferData buffer.addr + used)) (pageMask (bufferEnd proc.stop after))) vma
        outcome = .ok (proc, false) := by
  have area := inv.indexed.area
  have fits := area.stop_fits
  have bounds := inv.indexed.bounds split
  have tiled : Tiled proc.buffer proc.stop (before ++ buffer :: after) := split ▸ inv.indexed.tiled
  have needed : ∀ page, Touched proc.stop page proc.buffers ↔
      TouchedAround buffer.addr proc.stop page before after ∨
        Touches page buffer.addr (buffer.addr + 40) := by
    intro page
    rw [split, touched_middle, footEnd_of_free free]
  have range : PageRange proc.buffer (pageAlign (bufferData buffer.addr))
      (min (pageAlign (bufferData buffer.addr + used)) (pageMask (bufferEnd proc.stop after))) := by
    have := area.buffer_aligned
    rw [bufferData, pageAlign_eq (by omega), pageAlign_eq (by omega), pageMask, alignDown]
    constructor <;> omega
  have mapped := @mapPageRange_eq proc _ _ outcome vma range (by
    intro index inRange
    rcases of_decide_eq_true inRange with ⟨first, last⟩
    have inside := inside_data area.page_aligned (by omega) (TouchedAround.outside tiled) first
      (lt_of_lt_of_le last (min_le_right _ _))
    rw [← Bool.not_eq_true]
    intro present
    rcases (needed _).mp ((inv.pagesOk index).mp present) with around | header
    · exact inside.1 around
    · exact inside.2.1 header)
  rcases mapped with success | failure
  · refine .inl ⟨_, success, fun index => ?_⟩
    rw [or_inPageRange, inv.pagesOk index, needed]
    exact map_pages_iff area.page_aligned (by omega) usedLe finishLe slack
      (touchedAround_of_end tiled area.stop_aligned)
  · exact .inr failure

theorem AllocInv.take (inv : AllocInv proc) (split : proc.buffers = before ++ buffer :: after)
    (free : buffer.free = true) {size used : ℕ} (dataSize offsetsSize : ℕ) (isAsync stale : Bool)
    {pages : ℕ → Bool} (sizeEq : size = dataRoom dataSize offsetsSize)
    (fit : size ≤ proc.binderBufferSize buffer.addr)
    (room : used ≠ size → size + 40 ≤ proc.binderBufferSize buffer.addr)
    (mapped : ∀ index, pages index = true ↔
      TouchedAround buffer.addr proc.stop (proc.buffer + index * 4096) before after ∨
        Touches (proc.buffer + index * 4096) buffer.addr (if used ≠ size then
          buffer.addr + 40 + size + 40 else bufferEnd proc.stop after)) :
    ∃ newProc, takeBuffer { proc with pages := pages } buffer.addr size used dataSize offsetsSize
        isAsync stale = .ok newProc ∧ AllocInv newProc ∧
      newProc.buffer = proc.buffer ∧ newProc.bufferSize = proc.bufferSize ∧
      buffer.addr ∈ addrsWith false newProc.buffers ∧
      ((isAsync = true → size + 40 ≤ proc.freeAsyncSpace) → Balanced proc → Balanced newProc) := by
  have ends := inv.indexed.binderBufferSize_eq split
  rcases @Indexed.take { proc with pages := pages } _ _ _ (inv.indexed.withOthers pages _ _) split
    free size used dataSize offsetsSize isAsync stale (by
      intro splits
      show buffer.addr + 40 + size + 40 ≤ bufferEnd proc.stop after
      omega) with ⟨freeTree, allocatedTree, space, newAfter, isNewAfter, isSpace, taken, indexed⟩
  refine ⟨_, taken, ⟨indexed, ?_, ?_⟩, rfl, rfl,
    mem_addrsWith.mpr ⟨_, mem_append_right _ mem_cons_self, rfl, rfl⟩, fun enough balanced => ?_⟩
  · show Roomy proc.stop _
    have old := inv.roomy
    simp only [split, roomy_append, roomy_cons, bufferEnd_cons] at old ⊢
    refine ⟨old.1, ?_, ?_⟩
    · intro _
      simp only [takenEntry]
      rw [isNewAfter]
      split_ifs with splits
      · simp only [bufferEnd_cons, restEntry, bufferData]
        omega
      · omega
    rw [isNewAfter]
    split_ifs with splits
    · rw [roomy_cons]
      exact ⟨by simp [restEntry], old.2.2⟩
    · exact old.2.2
  · intro index
    show pages index = true ↔ Touched proc.stop (proc.buffer + index * 4096) _
    rw [mapped, touched_middle, footEnd_of_allocated rfl, isNewAfter]
    split_ifs with splits
    · rw [bufferEnd_cons]
      simp only [TouchedAround, touched_cons, Extent.footEnd, takenEntry, restEntry, bufferData,
        if_true]
      have joined := @touches_join (proc.buffer + index * 4096) buffer.addr
        (buffer.addr + 40 + size) (buffer.addr + 40 + size + 40) (by omega) (by omega)
      tauto
    · rfl
  · have areaFits := inv.indexed.area.fits
    have sameAfter : charged newAfter = charged after := by
      rw [isNewAfter]
      split_ifs
      · exact zero_add _
      · rfl
    unfold Balanced at balanced ⊢
    rw [split, charged_append, charged, charge_of_free free] at balanced
    dsimp only
    rw [charged_append, charged, sameAfter, isSpace]
    cases isAsync with
    | false => simpa [Buffer.charge, takenEntry] using balanced
    | true =>
      have enough := enough rfl
      rw [if_pos rfl, @add_eq size 40 (by omega), sub_eq enough (by omega)]
      simp only [Buffer.charge, takenEntry, and_self, if_true, ← sizeEq]
      omega

/-- What `binder_alloc_buf` keeps: a failure changes nothing, and a result is allocated. -/
structure Answered (proc newProc : Proc) (result : Option ℕ) : Prop where
  inv : AllocInv newProc
  sameBuffer : newProc.buffer = proc.buffer
  sameSize : newProc.bufferSize = proc.bufferSize
  failed : result = none → newProc = proc
  taken : ∀ addr ∈ result, addr ∈ addrsWith false newProc.buffers
  balanced : Balanced proc → Balanced newProc

theorem AllocInv.refused (inv : AllocInv proc) : Answered proc proc none :=
  ⟨inv, rfl, rfl, fun _ => rfl, by simp, id⟩

/-- Nothing but the sizes of the free buffers can make the allocation fail. -/
structure Granted (proc : Proc) (dataSize offsetsSize : ℕ) (isAsync : Bool) (env : AllocEnv) :
    Prop where
  vma : proc.vma = true
  fits : dataRoom dataSize offsetsSize < 4294967296
  mm : env.mm = true
  mapped : ∀ page, env.outcome page = .mapped
  budget : isAsync = true → dataRoom dataSize offsetsSize + 40 ≤ proc.freeAsyncSpace

/-- The result is a free buffer that is large enough, and none of those is smaller. -/
def BestFit (proc : Proc) (size : ℕ) (result : Option ℕ) : Prop :=
  (∀ addr ∈ result, addr ∈ addrsWith true proc.buffers ∧ size ≤ proc.binderBufferSize addr) ∧
  ∀ addr ∈ addrsWith true proc.buffers, size ≤ proc.binderBufferSize addr →
    ∃ best ∈ result, proc.binderBufferSize best ≤ proc.binderBufferSize addr

theorem mapPageRange_ne_failure {outcome : ℕ → PageOutcome} {start finish : ℕ}
    (mapped : ∀ page, outcome page = .mapped) (newProc : Proc) :
    mapPageRange proc start finish true outcome ≠ .ok (newProc, false) := by
  have all : ∀ addrs done pages, ∀ newPages,
      mapPages proc.buffer outcome addrs done pages ≠ .ok (newPages, false) := by
    intro addrs
    induction addrs with
    | nil => simp [mapPages]
    | cons addr rest ih =>
      intro done pages newPages
      simp only [mapPages, mapped]
      split_ifs
      · simp
      · exact ih _ _ _
  unfold mapPageRange
  by_cases empty : finish ≤ start
  · simp [empty]
  rw [if_neg empty, if_neg (by decide)]
  rcases isMapped : mapPages proc.buffer outcome (pageAddrs start finish) [] proc.pages with
    bug | ⟨pages, success⟩
  · simp [bind, Except.bind]
  · cases success with
    | false => exact absurd isMapped (all _ _ _ _)
    | true => simp [bind, Except.bind, pure, Except.pure]

theorem AllocInv.binderAllocBuf (inv : AllocInv proc) {dataSize offsetsSize : ℕ}
    (dataWord : dataSize < 4294967296) (offsetsWord : offsetsSize < 4294967296) (isAsync : Bool)
    (env : AllocEnv) :
    ∃ newProc result, binderAllocBuf proc dataSize offsetsSize isAsync env = .ok (newProc, result) ∧
      Answered proc newProc result ∧ (Granted proc dataSize offsetsSize isAsync env →
        BestFit proc (dataRoom dataSize offsetsSize) result) := by
  simp only [Binder.binderAllocBuf, bind, Except.bind, pure, Except.pure]
  by_cases noVma : proc.vma = false
  · rw [if_pos noVma]
    exact ⟨proc, none, rfl, inv.refused, fun granted => by simp [granted.vma] at noVma⟩
  rw [if_neg noVma]
  by_cases tooLarge : alignedSize dataSize offsetsSize < dataSize ∨
      alignedSize dataSize offsetsSize < offsetsSize
  · rw [if_pos tooLarge]
    refine ⟨proc, none, rfl, inv.refused, fun granted => ?_⟩
    rw [alignedSize_eq granted.fits, dataRoom] at tooLarge
    omega
  rw [if_neg tooLarge]
  by_cases noSpace : isAsync = true ∧
      proc.freeAsyncSpace < add (alignedSize dataSize offsetsSize) 40
  · rw [if_pos noSpace]
    refine ⟨proc, none, rfl, inv.refused, fun granted => ?_⟩
    have budget := granted.budget noSpace.1
    have small := noSpace.2
    unfold add at small
    rw [alignedSize_eq granted.fits] at small
    omega
  rw [if_neg noSpace]
  simp only [not_or, not_lt] at tooLarge
  have sizeEq := alignedSize_eq_of_le dataWord offsetsWord tooLarge.1 tooLarge.2
  rcases @findBestFit_eq proc _ (alignedSize dataSize offsetsSize) inv.indexed.tiled
    proc.freeBuffers none (fun addr => inv.indexed.freeTree.perm.mem_iff.mp)
    inv.indexed.freeTree.sorted (by simp) with ⟨result, exactFit, found, fits, least⟩
  rw [sizeEq] at least
  have best : ∀ addr ∈ addrsWith true proc.buffers, dataRoom dataSize offsetsSize ≤
      proc.binderBufferSize addr → ∃ best ∈ result,
        proc.binderBufferSize best ≤ proc.binderBufferSize addr := fun addr mem =>
    least addr (.inl (inv.indexed.freeTree.perm.mem_iff.mpr mem))
  rw [found]
  cases result with
  | none => exact ⟨proc, none, rfl, inv.refused, fun _ => ⟨by simp, best⟩⟩
  | some addr =>
    have fit := fits addr rfl
    rcases mem_addrsWith.mp fit.1 with ⟨buffer, inList, free, rfl⟩
    rcases append_of_mem inList with ⟨before, after, split⟩
    have ends := inv.indexed.binderBufferSize_eq split
    have used := fit.used
    have mapped := @mapData _ _ _ _ inv split free
      (usedSize (proc.binderBufferSize buffer.addr) (alignedSize dataSize offsetsSize) exactFit)
      (if usedSize (proc.binderBufferSize buffer.addr) (alignedSize dataSize offsetsSize) exactFit
          ≠ alignedSize dataSize offsetsSize
        then buffer.addr + 40 + alignedSize dataSize offsetsSize + 40
        else bufferEnd proc.stop after) (env.mm && proc.vma) env.outcome
      (by split_ifs <;> omega) (by split_ifs <;> omega) (by split_ifs <;> omega)
    dsimp only
    rw [show bufferData buffer.addr + proc.binderBufferSize buffer.addr = _ from ends]
    rcases mapped with ⟨pages, mapped, pagesIff⟩ | failed
    · rcases inv.take split free dataSize offsetsSize isAsync env.stale sizeEq (by omega) (by omega)
        pagesIff with ⟨newProc, taken, newInv, sameBuffer, sameSize, allocated, balanced⟩
      rw [mapped]
      dsimp only
      rw [if_neg (by simp), taken]
      refine ⟨newProc, some buffer.addr, rfl, ⟨newInv, sameBuffer, sameSize, by simp,
        by simpa using allocated, balanced fun isAsync => ?_⟩, fun _ => ⟨?_, best⟩⟩
      · have areaFits := inv.indexed.area.stop_fits
        have bounds := inv.indexed.bounds split
        have enough := Nat.not_lt.mp fun small => noSpace ⟨isAsync, small⟩
        rwa [add_eq (by omega)] at enough
      · rintro _ ⟨⟩
        exact ⟨fit.1, by omega⟩
    · rw [failed]
      refine ⟨proc, none, rfl, inv.refused, fun granted => ?_⟩
      rw [granted.mm, granted.vma] at failed
      exact absurd failed (mapPageRange_ne_failure granted.mapped proc)

end Take

/-! ## Runs -/

section Run

variable {proc : Proc}

theorem extents_map {change : Buffer → Buffer}
    (sameAddr : ∀ entry, (change entry).addr = entry.addr) (stop : ℕ) (buffers : List Buffer) :
    extents stop (buffers.map change) =
      (extents stop buffers).map fun extent => ⟨change extent.buffer, extent.stop⟩ := by
  induction buffers with
  | nil => rfl
  | cons buffer rest ih =>
    have sameEnd : bufferEnd stop (rest.map change) = bufferEnd stop rest := by
      cases rest with
      | nil => rfl
      | cons next _ => exact sameAddr next
    simp [extents, sameEnd, ih]

theorem AllocInv.setTransaction (inv : AllocInv proc) (addr : ℕ) (transaction : Bool) :
    AllocInv (proc.modify addr fun entry => { entry with transaction := transaction }) := by
  have extentsEq : extents proc.stop (modifyBuffer addr
      (fun entry => { entry with transaction := transaction }) proc.buffers) =
      (extents proc.stop proc.buffers).map fun extent => ⟨{ extent.buffer with transaction :=
        if extent.buffer.addr = addr then transaction else extent.buffer.transaction },
        extent.stop⟩ := by
    have same : ∀ entry : Buffer, (if entry.addr = addr then
        { entry with transaction := transaction } else entry) = { entry with transaction :=
          if entry.addr = addr then transaction else entry.transaction } := by
      intro entry
      split_ifs <;> rfl
    simp only [modifyBuffer, same]
    apply extents_map
    exact fun _ => rfl
  refine ⟨inv.indexed.modify (fun _ => rfl) (fun _ => rfl), ?_, ?_⟩
  · show Roomy proc.stop (modifyBuffer addr _ proc.buffers)
    simpa only [Roomy, extentsEq, forall_mem_map] using inv.roomy
  intro index
  show proc.pages index = true ↔
    Touched proc.stop (proc.buffer + index * 4096) (modifyBuffer addr _ proc.buffers)
  rw [inv.pagesOk index]
  simp [Touched, extentsEq, Extent.footEnd]

theorem Balanced.setTransaction (balanced : Balanced proc) (addr : ℕ) (transaction : Bool) :
    Balanced (proc.modify addr fun entry => { entry with transaction := transaction }) := by
  have same : ∀ buffers, charged (modifyBuffer addr
      (fun entry => { entry with transaction := transaction }) buffers) = charged buffers := by
    intro buffers
    induction buffers with
    | nil => rfl
    | cons buffer rest ih =>
      simp only [modifyBuffer, map_cons, charged] at ih ⊢
      rw [ih]
      split_ifs <;> rfl
  exact (congrArg (proc.freeAsyncSpace + ·) (same proc.buffers)).trans balanced

structure RunInv (area : Area) (proc : Proc) : Prop where
  inv : AllocInv proc
  sameBuffer : proc.buffer = area.base
  sameSize : proc.bufferSize = area.size
  balanced : Balanced proc

theorem allocStep_ok {area : Area} (request : AllocRequest) (inv : RunInv area proc) :
    ∃ next, allocStep proc request = .ok next ∧ RunInv area next := by
  rcases inv with ⟨inv, sameBuffer, sameSize, balanced⟩
  cases request with
  | alloc dataSize offsetsSize isAsync env =>
    rcases inv.binderAllocBuf dataSize.isLt offsetsSize.isLt isAsync env with
      ⟨next, result, allocated, ⟨newInv, newBuffer, newSize, _, _, newBalanced⟩, _⟩
    simp only [allocStep, allocated, bind, Except.bind, pure, Except.pure]
    cases result with
    | none =>
      exact ⟨next, rfl, newInv, newBuffer.trans sameBuffer, newSize.trans sameSize,
        newBalanced balanced⟩
    | some addr =>
      exact ⟨_, rfl, newInv.setTransaction addr true, newBuffer.trans sameBuffer,
        newSize.trans sameSize, (newBalanced balanced).setTransaction addr true⟩
  | clearTransaction addr =>
    exact ⟨_, rfl, inv.setTransaction addr false, sameBuffer, sameSize,
      balanced.setTransaction addr false⟩
  | free addr =>
    simp only [allocStep]
    cases found : proc.buffers.find? fun entry => entry.addr = addr with
    | none => exact ⟨proc, rfl, inv, sameBuffer, sameSize, balanced⟩
    | some buffer =>
      cases free : buffer.free with
      | true => exact ⟨proc, by simp [free], inv, sameBuffer, sameSize, balanced⟩
      | false =>
        have atAddr := find?_some found
        simp only [decide_eq_true_eq] at atAddr
        subst atAddr
        rcases append_of_mem (mem_of_find?_eq_some found) with
          ⟨before, after, split⟩
        have cleared := inv.setTransaction buffer.addr false
        have newSplit : (proc.modify buffer.addr fun entry =>
            { entry with transaction := false }).buffers =
            before ++ { buffer with transaction := false } :: after := by
          have focused := (split ▸ inv.indexed.tiled).focused
          simp only [Proc.modify, split, focused.modifyBuffer_eq]
        rcases cleared.binderFreeBuf newSplit free rfl with
          ⟨next, freed, newInv, newBuffer, newSize, newBalanced⟩
        exact ⟨next, by simpa [free] using freed, newInv, newBuffer.trans sameBuffer,
          newSize.trans sameSize, newBalanced (balanced.setTransaction buffer.addr false)⟩
  | vmaClose =>
    exact ⟨_, rfl, inv.withSpace _ false, sameBuffer, sameSize, balanced⟩

theorem binderMmap_ok (area : Area) (stale : Bool) :
    ∃ proc, binderMmap area stale = .ok proc ∧ RunInv area proc := by
  have aligned := area.base_aligned
  have sizeAligned := area.size_aligned
  have sizePos := area.size_pos
  have areaOk : AreaOk area.base area.size := ⟨aligned, sizeAligned, sizePos, area.fits⟩
  have mapped : mapPageRange ⟨false, area.base, area.size, [], .leaf, .leaf, 0, fun _ => false⟩
      area.base (area.base + 4096) true (fun _ => .mapped) = .ok (⟨false, area.base, area.size, [],
        .leaf, .leaf, 0, update (fun _ => false) 0 true⟩, true) := by
    have pageList : pageAddrs area.base (area.base + 4096) = [area.base] := by simp [pageAddrs]
    simp [mapPageRange, pageList, mapPages, bind, Except.bind, pure, Except.pure]
  have tiled : Tiled area.base (area.base + area.size) [⟨area.base, true, false, stale, 0, 0⟩] := by
    rw [Tiled.cons_iff]
    refine ⟨rfl, ?_, rfl, by simp [extents]⟩
    show area.base + 40 ≤ area.base + area.size
    omega
  have empty : ∀ order, TreeHolds order (.leaf : RbTree.Tree ℕ) [] := fun _ =>
    ⟨List.Perm.nil, List.Pairwise.nil⟩
  have pending : Pending ⟨false, area.base, area.size, [⟨area.base, true, false, stale, 0, 0⟩],
      .leaf, .leaf, 0, update (fun _ => false) 0 true⟩ []
      ⟨area.base, true, false, stale, 0, 0⟩ [] :=
    ⟨areaOk, rfl, rfl, tiled, isChain_nil, isChain_nil, empty _, empty _⟩
  rcases pending.insertFree (by simp) (by simp) with ⟨tree, inserted, indexed⟩
  refine ⟨⟨true, area.base, area.size, [⟨area.base, true, false, stale, 0, 0⟩], tree, .leaf,
    area.size / 2, update (fun _ => false) 0 true⟩, ?_,
    ⟨indexed.withOthers _ _ _, ?_, ?_⟩, rfl, rfl, add_zero _⟩
  · simp only [binderMmap, mapped, bind, Except.bind, pure, Except.pure]
    rw [inserted]
  · simp [Roomy, extents]
  intro index
  simp only [Touched, extents, mem_singleton, exists_eq_left, footEnd_of_free, Touches]
  by_cases first : index = 0
  · simp [first]
  · rw [update_of_ne first]
    simp only [Bool.false_eq_true, false_iff]
    omega

/-- The state of the allocator after `binder_mmap` and a list of requests. -/
def allocRun (area : Area) (stale : Bool) (requests : List AllocRequest) : Except Bug Proc := do
  let proc ← binderMmap area stale
  Run.tryRun allocStep proc requests

theorem allocRun_ok (area : Area) (stale : Bool) (requests : List AllocRequest) :
    ∃ proc, allocRun area stale requests = .ok proc ∧ RunInv area proc := by
  rcases binderMmap_ok area stale with ⟨proc, mapped, inv⟩
  simp only [allocRun, mapped, bind, Except.bind]
  exact Run.tryRun_ok (RunInv area) (fun proc request => allocStep_ok request) inv requests

end Run

/-! ## What holds in every state -/

section Reached

/-- The buffer list, the sizes that `binder_buffer_size` derives from it and the two
trees fit together. -/
structure Consistent (area : Area) (proc : Proc) : Prop where
  increasing : (proc.buffers.map Buffer.addr).Pairwise (· < ·)
  inside : ∀ buffer ∈ proc.buffers, area.base ≤ buffer.addr ∧
    buffer.addr + 40 + proc.binderBufferSize buffer.addr ≤ area.base + area.size
  tiles : ∀ byte, area.base ≤ byte → byte < area.base + area.size →
    ∃! buffer, buffer ∈ proc.buffers ∧ buffer.addr ≤ byte ∧
      byte < buffer.addr + 40 + proc.binderBufferSize buffer.addr
  room : ∀ buffer ∈ proc.buffers, buffer.free = false →
    dataRoom buffer.dataSize buffer.offsetsSize ≤ proc.binderBufferSize buffer.addr
  apart : proc.buffers.IsChain NotBothFree
  freeBuffers : TreeHolds (fun first second =>
      proc.binderBufferSize first ≤ proc.binderBufferSize second)
    proc.freeBuffers (addrsWith true proc.buffers)
  allocatedBuffers : TreeHolds (· < ·) proc.allocatedBuffers (addrsWith false proc.buffers)

/-- The byte belongs to a header or to the data of an allocated buffer. -/
def NeededByte (proc : Proc) (byte : ℕ) : Prop :=
  ∃ buffer ∈ proc.buffers, buffer.addr ≤ byte ∧ byte < buffer.addr + 40 ∨
    buffer.free = false ∧ buffer.addr + 40 ≤ byte ∧
      byte < buffer.addr + 40 + proc.binderBufferSize buffer.addr

def OnPage (area : Area) (index byte : ℕ) : Prop :=
  area.base + index * 4096 ≤ byte ∧ byte < area.base + (index + 1) * 4096

variable {proc : Proc} {area : Area}

theorem Indexed.extent_stop (indexed : Indexed proc) {extent : Extent}
    (mem : extent ∈ extents proc.stop proc.buffers) :
    extent.stop = extent.buffer.addr + 40 + proc.binderBufferSize extent.buffer.addr := by
  rcases mem_extents_iff.mp mem with ⟨before, after, split, isStop⟩
  rw [isStop, indexed.binderBufferSize_eq split]

theorem Indexed.mem_extents (indexed : Indexed proc) {buffer : Buffer}
    (mem : buffer ∈ proc.buffers) :
    (⟨buffer, buffer.addr + 40 + proc.binderBufferSize buffer.addr⟩ : Extent) ∈
      extents proc.stop proc.buffers := by
  rcases append_of_mem mem with ⟨before, after, split⟩
  exact mem_extents_iff.mpr ⟨before, after, split, indexed.binderBufferSize_eq split⟩

theorem AllocInv.consistent (inv : AllocInv proc) (sameBuffer : proc.buffer = area.base)
    (sameSize : proc.bufferSize = area.size) : Consistent area proc := by
  have indexed := inv.indexed
  have stopEq : proc.stop = area.base + area.size := by rw [Proc.stop, sameBuffer, sameSize]
  constructor
  · exact indexed.tiled.addrs_increasing
  · intro buffer mem
    have bounds := indexed.tiled.extent_bounds (indexed.mem_extents mem)
    dsimp only at bounds
    omega
  · intro byte baseLe ltStop
    rcases @Tiled.covers _ _ _ indexed.tiled byte (by omega) (by omega) with
      ⟨extent, mem, contains, unique⟩
    have isStop := indexed.extent_stop mem
    refine ⟨extent.buffer, ⟨mem_of_mem_extents mem, by omega⟩, ?_⟩
    rintro other ⟨inList, addrLe, ltOther⟩
    rw [← unique _ (indexed.mem_extents inList) addrLe ltOther]
  · intro buffer mem allocated
    have room := inv.roomy _ (indexed.mem_extents mem) allocated
    dsimp only at room
    omega
  · exact indexed.apart
  · exact indexed.freeTree
  · exact indexed.allocatedTree

/-- In every state that `binder_mmap` and any requests lead to, and no request
fails with a `BUG_ON`, the list and the trees are consistent. -/
theorem allocator_consistent (area : Area) (stale : Bool) (requests : List AllocRequest) :
    ∃ proc, allocRun area stale requests = .ok proc ∧ Consistent area proc := by
  rcases allocRun_ok area stale requests with ⟨proc, ran, inv, sameBuffer, sameSize, _⟩
  exact ⟨proc, ran, inv.consistent sameBuffer sameSize⟩

theorem AllocInv.needed_iff (inv : AllocInv proc) (sameBuffer : proc.buffer = area.base)
    (index : ℕ) :
    proc.pages index = true ↔ ∃ byte, OnPage area index byte ∧ NeededByte proc byte := by
  rw [inv.pagesOk index, sameBuffer]
  constructor
  · rintro ⟨extent, mem, lo, hi, nonempty⟩
    have isStop := inv.indexed.extent_stop mem
    have inList := mem_of_mem_extents mem
    refine ⟨max extent.buffer.addr (area.base + index * 4096), ?_, extent.buffer, inList, ?_⟩
    · unfold OnPage
      omega
    unfold Extent.footEnd at hi nonempty
    cases free : extent.buffer.free with
    | true =>
      rw [if_pos free] at hi nonempty
      omega
    | false =>
      rw [if_neg (by simp [free])] at hi nonempty
      by_cases header : max extent.buffer.addr (area.base + index * 4096) < extent.buffer.addr + 40
      · exact .inl ⟨by omega, header⟩
      · exact .inr ⟨rfl, by omega, by omega⟩
  · rintro ⟨byte, ⟨pageLe, ltPage⟩, buffer, inList, needed⟩
    refine ⟨_, inv.indexed.mem_extents inList, ?_⟩
    unfold Touches Extent.footEnd
    dsimp only
    rcases needed with header | ⟨allocated, data⟩
    · split_ifs <;> omega
    · rw [if_neg (by simp [allocated])]
      omega

/-- In every state of a run the present pages are exactly those that a header or allocated data
needs. -/
theorem pages_present_iff_needed (area : Area) (stale : Bool) (requests : List AllocRequest) :
    ∃ proc, allocRun area stale requests = .ok proc ∧
      (∀ index, proc.pages index = true ↔ ∃ byte, OnPage area index byte ∧ NeededByte proc byte) ∧
      proc.pages 0 = true ∧
      ∀ (dataSize offsetsSize : U32) (isAsync : Bool) (env : AllocEnv), ∃ newProc result,
        binderAllocBuf proc dataSize offsetsSize isAsync env = .ok (newProc, result) ∧
          (result = none → newProc = proc) := by
  rcases allocRun_ok area stale requests with ⟨proc, ran, inv, sameBuffer, sameSize, _⟩
  refine ⟨proc, ran, inv.needed_iff sameBuffer, ?_, ?_⟩
  · apply (inv.pagesOk 0).mpr
    apply inv.indexed.tiled.touched_start
    · intro empty
      have head := inv.indexed.tiled.head
      have sizePos := inv.indexed.area.size_pos
      simp only [empty, bufferEnd, Proc.stop] at head
      omega
    · omega
    · omega
  intro dataSize offsetsSize isAsync env
  rcases inv.binderAllocBuf dataSize.isLt offsetsSize.isLt isAsync env with
    ⟨newProc, result, allocated, answered, _⟩
  exact ⟨newProc, result, allocated, answered.failed⟩

/-- In every state of a run, what asynchronous transactions have taken and what is left make up half
of the area; all of it is left when no such buffer is allocated. -/
theorem asyncSpace_run (area : Area) (stale : Bool) (requests : List AllocRequest) :
    ∃ proc, allocRun area stale requests = .ok proc ∧
      proc.freeAsyncSpace + charged proc.buffers = area.size / 2 ∧
      ((∀ buffer ∈ proc.buffers, buffer.free = false → buffer.asyncTransaction = false) →
        proc.freeAsyncSpace = area.size / 2) := by
  rcases allocRun_ok area stale requests with ⟨proc, ran, _, _, sameSize, balanced⟩
  have none : ∀ buffers : List Buffer, (∀ buffer ∈ buffers, buffer.free = false →
      buffer.asyncTransaction = false) → charged buffers = 0 := by
    intro buffers
    induction buffers with
    | nil => exact fun _ => rfl
    | cons buffer rest ih =>
      intro synchronous
      have notAsync := synchronous buffer mem_cons_self
      rw [charged, Buffer.charge, if_neg fun both => by simp [notAsync both.1] at both, ih]
      exact fun other mem => synchronous other (mem_cons_of_mem _ mem)
  unfold Balanced at balanced
  rw [sameSize] at balanced
  refine ⟨proc, ran, balanced, fun synchronous => ?_⟩
  rw [none _ synchronous] at balanced
  exact balanced

/-- In every state of a run, an allocation that can only fail for want of a free buffer takes a
smallest one among those that are large enough, which is then allocated, and fails if there is
none. -/
theorem binderAllocBuf_bestFit (area : Area) (stale : Bool) (requests : List AllocRequest) :
    ∃ proc, allocRun area stale requests = .ok proc ∧
      ∀ (dataSize offsetsSize : U32) (isAsync : Bool) (env : AllocEnv),
        Granted proc dataSize offsetsSize isAsync env → ∃ newProc result,
          binderAllocBuf proc dataSize offsetsSize isAsync env = .ok (newProc, result) ∧
            BestFit proc (dataRoom dataSize offsetsSize) result ∧
            ∀ addr ∈ result, addr ∈ addrsWith false newProc.buffers := by
  rcases allocRun_ok area stale requests with ⟨proc, ran, inv, _⟩
  refine ⟨proc, ran, fun dataSize offsetsSize isAsync env granted => ?_⟩
  rcases inv.binderAllocBuf dataSize.isLt offsetsSize.isLt isAsync env with
    ⟨newProc, result, allocated, answered, best⟩
  exact ⟨newProc, result, allocated, best granted, answered.taken⟩

def twoPages : Area := ⟨4096, 8192, rfl, rfl, by decide, by decide⟩

theorem binderAllocBuf_bestFit_twoPages : ∃ proc, allocRun twoPages false [] = .ok proc ∧
    ∃ newProc addr, binderAllocBuf proc 100 8 true ⟨true, fun _ => .mapped, false⟩ =
      .ok (newProc, some addr) ∧ addr ∈ addrsWith false newProc.buffers := by
  rcases binderAllocBuf_bestFit twoPages false [] with ⟨proc, ran, best⟩
  have start : (allocRun twoPages false []).toOption.map (fun proc => (proc.vma,
      proc.freeAsyncSpace, addrsWith true proc.buffers, proc.binderBufferSize 4096)) =
      some (true, 4096, [4096], 8152) := by
    decide +kernel
  simp only [ran, Except.toOption, Option.map_some, Option.some.injEq, Prod.mk.injEq] at start
  rcases start with ⟨vma, space, isFree, size⟩
  rcases best 100 8 true ⟨true, fun _ => .mapped, false⟩ ⟨vma, by decide, rfl, fun _ => rfl, by
    rw [space]
    decide⟩ with ⟨newProc, result, allocated, ⟨_, least⟩, taken⟩
  rcases least 4096 (by simp [isFree]) (by
    rw [size]
    decide) with ⟨addr, isResult, _⟩
  obtain rfl : result = some addr := isResult
  exact ⟨proc, ran, newProc, addr, allocated, taken addr rfl⟩

/-- A state of a run in which nothing is allocated is again that of `binder_mmap`: one free buffer,
with no page but that of its header, and the whole budget. -/
theorem drained_run (area : Area) (stale : Bool) (requests : List AllocRequest) :
    ∃ proc, allocRun area stale requests = .ok proc ∧
      ((∀ buffer ∈ proc.buffers, buffer.free = true) →
        proc.buffers.map Buffer.addr = [area.base] ∧ proc.freeBuffers.toList = [area.base] ∧
          proc.allocatedBuffers.toList = [] ∧ (∀ index, proc.pages index = true ↔ index = 0) ∧
          proc.freeAsyncSpace = area.size / 2) := by
  rcases allocRun_ok area stale requests with
    ⟨proc, ran, ⟨indexed, _, pagesOk⟩, sameBuffer, sameSize, balanced⟩
  refine ⟨proc, ran, fun allFree => ?_⟩
  rcases indexed with ⟨⟨_, _, sizePos, _⟩, ⟨head, _⟩, apart, ⟨inFree, _⟩, ⟨inAllocated, _⟩⟩
  unfold PagesOk Balanced at *
  rcases isList : proc.buffers with - | ⟨buffer, - | ⟨second, rest⟩⟩ <;>
    rw [isList] at head apart inFree inAllocated pagesOk balanced allFree
  · simp only [bufferEnd, Proc.stop] at head
    omega
  · have free : buffer.free = true := allFree buffer mem_cons_self
    have isBase : buffer.addr = area.base := head.trans sameBuffer
    rw [addrsWith_cons_of_eq _ free, isBase] at inFree
    rw [addrsWith_cons_of_ne _ (by simp [free])] at inAllocated
    refine ⟨by rw [map_singleton, isBase], perm_singleton.mp inFree, perm_nil.mp inAllocated,
      fun index => ?_, ?_⟩
    · rw [pagesOk index, sameBuffer]
      simp only [Touched, extents, mem_singleton, exists_eq_left, Touches, Extent.footEnd, free,
        isBase, if_true]
      omega
    · rwa [charged, charge_of_free free, sameSize] at balanced
  · exact absurd ⟨allFree buffer (by simp), allFree second (by simp)⟩ (isChain_cons_cons.mp apart).1

end Reached

end StreakKernel.Binder
