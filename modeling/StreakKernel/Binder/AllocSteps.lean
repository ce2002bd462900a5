import StreakKernel.Binder.AllocInvariant

/-!
# Allocation and release keep the invariant

The steps of `binder_alloc_buf` and `binder_free_buf`, followed through the
intermediate states, with the pages that each of them maps or frees.
-/

namespace StreakKernel.Binder

open List Word

def PagesOk (buffer stop : ℕ) (buffers : List Buffer) (pages : ℕ → Bool) : Prop :=
  ∀ index, pages index = true ↔ Touched stop (buffer + index * 4096) buffers

/-- The room that data and offsets take, each rounded up to words, without wrap. -/
def dataRoom (dataSize offsetsSize : ℕ) : ℕ :=
  (dataSize + 3) / 4 * 4 + (offsetsSize + 3) / 4 * 4

def Roomy (stop : ℕ) (buffers : List Buffer) : Prop :=
  ∀ extent ∈ extents stop buffers, extent.buffer.free = false →
    extent.buffer.addr + 40 + dataRoom extent.buffer.dataSize extent.buffer.offsetsSize ≤
      extent.stop

/-- What an allocated buffer of an asynchronous transaction takes from `free_async_space`. -/
def Buffer.charge (buffer : Buffer) : ℕ :=
  if buffer.free = false ∧ buffer.asyncTransaction = true then
    dataRoom buffer.dataSize buffer.offsetsSize + 40
  else 0

def charged : List Buffer → ℕ
  | [] => 0
  | buffer :: rest => buffer.charge + charged rest

theorem charge_of_free {buffer : Buffer} (free : buffer.free = true) : buffer.charge = 0 :=
  if_neg fun async => by simp [free] at async

theorem charged_append (before after : List Buffer) :
    charged (before ++ after) = charged before + charged after := by
  induction before with
  | nil => exact (zero_add _).symm
  | cons buffer rest ih => simp only [cons_append, charged, ih, add_assoc]

section Room

variable {stop : ℕ} {before after : List Buffer} {buffer : Buffer}

variable {value dataSize offsetsSize : ℕ}

theorem alignUp_four (fits : value + 3 < 4294967296) : alignUp value 4 = (value + 3) / 4 * 4 := by
  have sum := add_eq (by omega)
  simp only [alignUp, alignDown, sum]
  omega

theorem alignedSize_eq (fits : dataRoom dataSize offsetsSize < 4294967296) :
    alignedSize dataSize offsetsSize = dataRoom dataSize offsetsSize := by
  simp only [dataRoom] at fits ⊢
  rw [alignedSize, alignUp_four (by omega), alignUp_four (by omega), add_eq fits]

theorem alignUp_four_wrap (isWord : value < 4294967296) (wraps : 4294967296 ≤ value + 3) :
    alignUp value 4 = 0 := by
  have sum : add value (4 - 1) = value + 3 - 4294967296 := by
    unfold add
    omega
  simp only [alignUp, alignDown, sum]
  omega

/-- The checks of `binder_alloc_buf` reject every size whose computation wraps. -/
theorem alignedSize_eq_of_le (dataWord : dataSize < 4294967296)
    (offsetsWord : offsetsSize < 4294967296) (dataLe : dataSize ≤ alignedSize dataSize offsetsSize)
    (offsetsLe : offsetsSize ≤ alignedSize dataSize offsetsSize) :
    alignedSize dataSize offsetsSize = dataRoom dataSize offsetsSize := by
  by_cases fits : dataRoom dataSize offsetsSize < 4294967296
  · exact alignedSize_eq fits
  have rounded : ∀ value, value < 4294967296 → alignUp value 4 = (value + 3) / 4 * 4 ∨
      alignUp value 4 = 0 ∧ 4294967296 ≤ value + 3 := by
    intro value isWord
    by_cases wraps : 4294967296 ≤ value + 3
    · exact .inr ⟨alignUp_four_wrap isWord wraps, wraps⟩
    · exact .inl (alignUp_four (by omega))
  simp only [dataRoom] at fits
  unfold alignedSize add at dataLe offsetsLe
  rcases rounded dataSize dataWord with dataUp | ⟨dataUp, _⟩ <;>
    rcases rounded offsetsSize offsetsWord with offsetsUp | ⟨offsetsUp, _⟩ <;>
    rw [dataUp, offsetsUp] at dataLe offsetsLe <;> omega

theorem roomy_append : Roomy stop (before ++ after) ↔
    Roomy (bufferEnd stop after) before ∧ Roomy stop after := by
  simp [Roomy, extents_append, or_imp, forall_and]

theorem roomy_cons : Roomy stop (buffer :: after) ↔ (buffer.free = false →
    buffer.addr + 40 + dataRoom buffer.dataSize buffer.offsetsSize ≤ bufferEnd stop after) ∧
      Roomy stop after := by
  simp [Roomy, extents]

end Room

section Footprint

variable {start stop page : ℕ} {before after : List Buffer} {buffer : Buffer}

theorem footEnd_of_free {stop : ℕ} (free : buffer.free = true) :
    Extent.footEnd ⟨buffer, stop⟩ = buffer.addr + 40 := by
  simp [Extent.footEnd, free]

theorem footEnd_of_allocated {stop : ℕ} (allocated : buffer.free = false) :
    Extent.footEnd ⟨buffer, stop⟩ = stop := by
  simp [Extent.footEnd, allocated]

/-- The page is needed by a buffer before or after a gap in the list. -/
def TouchedAround (gap stop page : ℕ) (before after : List Buffer) : Prop :=
  Touched gap page before ∨ Touched stop page after

theorem touched_middle : Touched stop page (before ++ buffer :: after) ↔
    TouchedAround buffer.addr stop page before after ∨
      Touches page buffer.addr (Extent.footEnd ⟨buffer, bufferEnd stop after⟩) := by
  rw [touched_append, touched_cons]
  simp only [TouchedAround, bufferEnd]
  tauto

section

variable (tiled : Tiled start stop (before ++ buffer :: after))
include tiled

theorem TouchedAround.outside (touched : TouchedAround buffer.addr stop page before after) :
    page < buffer.addr ∨ bufferEnd stop after < page + 4096 := by
  rw [Tiled.middle_iff] at tiled
  rcases touched with inBefore | inAfter
  · exact .inl (tiled.1.touched_bounds inBefore).1
  · exact .inr (tiled.2.2.touched_bounds inAfter).2

theorem touchedAround_of_end (stopAligned : stop % 4096 = 0)
    (unaligned : bufferEnd stop after % 4096 ≠ 0) (pageLe : page ≤ bufferEnd stop after)
    (ltPage : bufferEnd stop after < page + 4096) :
    TouchedAround buffer.addr stop page before after := by
  rw [Tiled.middle_iff] at tiled
  refine .inr (tiled.2.2.touched_start ?_ pageLe ltPage)
  rintro rfl
  exact unaligned stopAligned

end

end Footprint

/-! ## Merging -/

section Merge

variable {proc : Proc} {before after : List Buffer} {prev buffer : Buffer}

theorem AreaOk.page_aligned {base size index : ℕ} (area : AreaOk base size) :
    (base + index * 4096) % 4096 = 0 := by
  have := area.buffer_aligned
  omega

theorem AreaOk.stop_aligned {base size : ℕ} (area : AreaOk base size) :
    (base + size) % 4096 = 0 := by
  have := area.buffer_aligned
  have := area.size_aligned
  omega

/-- `binder_delete_free_buffer` drops a header between two free buffers, with the
pages that nothing else needs. -/
theorem binderDeleteFreeBuffer_eq (area : AreaOk proc.buffer proc.bufferSize)
    (split : proc.buffers = before ++ prev :: buffer :: after)
    (tiled : Tiled proc.buffer proc.stop (before ++ prev :: buffer :: after))
    (prevFree : prev.free = true) (free : buffer.free = true)
    (pagesOk : PagesOk proc.buffer proc.stop proc.buffers proc.pages) :
    ∃ pages, binderDeleteFreeBuffer proc buffer.addr =
        .ok { proc with buffers := before ++ prev :: after, pages := pages } ∧
      PagesOk proc.buffer proc.stop (before ++ prev :: after) pages := by
  have joined : before ++ prev :: buffer :: after = (before ++ [prev]) ++ buffer :: after := by simp
  have focused : Focused buffer.addr (before ++ [prev]) buffer after :=
    Tiled.focused (joined ▸ tiled)
  have flat : (before ++ [prev]) ++ after = before ++ prev :: after := by simp
  have prevEq : prevIn buffer.addr proc.buffers = some prev := by
    rw [split, joined, focused.prevIn_eq]
    simp
  have nextEq : nextIn buffer.addr proc.buffers = after.head? := by
    rw [split, joined, focused.nextIn_eq]
  have deleted : delBuffer buffer.addr proc.buffers = before ++ prev :: after := by
    rw [split, joined, focused.delBuffer_eq, flat]
  have shape := tiled
  rw [Tiled.middle_iff, Tiled.cons_iff] at shape
  rcases shape with ⟨beforeTiled, prevLe, _, headerLe, afterTiled⟩
  have needed : ∀ page, Touched proc.stop page proc.buffers ↔
      Touched proc.stop page (before ++ prev :: after) ∨
        Touches page buffer.addr (buffer.addr + 40) := by
    intro page
    rw [split, touched_middle, touched_middle, footEnd_of_free prevFree, footEnd_of_free prevFree]
    simp only [TouchedAround, touched_cons, footEnd_of_free free]
    tauto
  have kept := fun index => @delete_pages_iff (proc.buffer + index * 4096) buffer.addr
    (bufferEnd proc.stop after) (Touched proc.stop (proc.buffer + index * 4096)
      (before ++ prev :: after)) prev.addr after.head? area.page_aligned prevLe headerLe
    (by cases after <;> simp [bufferEnd]) (by
      intro touched
      rcases touched_middle.mp touched with (inBefore | inAfter) | here
      · have := (beforeTiled.touched_bounds inBefore).1
        omega
      · refine .inr ⟨?_, (afterTiled.touched_bounds inAfter).2⟩
        rcases inAfter with ⟨extent, mem, _⟩
        have := mem_of_mem_extents mem
        cases after with
        | nil => simp at this
        | cons => rfl
      · rw [footEnd_of_free prevFree] at here
        exact .inl here.2.1)
    (fun here => touched_middle.mpr (.inr (by rwa [footEnd_of_free prevFree])))
    (fun isNext pageLe ltPage => touched_middle.mpr (.inl (.inr (afterTiled.touched_start
      (by rintro rfl; simp at isNext) pageLe ltPage))))
  simp only [binderDeleteFreeBuffer, prevEq, nextEq, deleted, prevFree, Bool.true_eq_false,
    not_false_eq_true, bugOn_of_not, bind, Except.bind]
  by_cases freed : (freePageStart prev.addr buffer.addr after.head? ||
      freePageEnd prev.addr buffer.addr after.head?) = true
  · rw [if_pos freed]
    have range : PageRange proc.buffer (freedFrom prev.addr buffer.addr after.head?)
        (freedTo prev.addr buffer.addr after.head?) := by
      have := area.buffer_aligned
      have := beforeTiled.start_le
      unfold freedFrom freedTo bufferStartPage bufferEndPage pageMask alignDown
      constructor <;> split_ifs <;> simp only [bufferEnd] at prevLe <;> omega
    have unmapped := @unmapPageRange_eq { proc with buffers := before ++ prev :: after } _ _ range
      (by
        intro index inRange
        refine (pagesOk index).mpr ((needed _).mpr (.inr ?_))
        have pages := (freed_iff area.page_aligned).mp ⟨freed, of_decide_eq_true inRange⟩
        simp only [bufferStartPage, bufferEndPage, pageMask, alignDown] at pages
        unfold Touches
        omega)
    refine ⟨_, unmapped, fun index => ?_⟩
    rw [← kept index, ← needed, ← pagesOk index, and_not_inPageRange, freed]
    simp
  · rw [if_neg freed]
    refine ⟨proc.pages, rfl, fun index => ?_⟩
    rw [← kept index, ← needed, ← pagesOk index]
    simp [freed]

theorem Roomy.delete {stop : ℕ} (roomy : Roomy stop (before ++ prev :: buffer :: after))
    (prevFree : prev.free = true) : Roomy stop (before ++ prev :: after) := by
  simp only [roomy_append, roomy_cons, bufferEnd] at roomy ⊢
  exact ⟨roomy.1, by simp [prevFree], roomy.2.2.2⟩

theorem Tiled.delete {start stop : ℕ} (tiled : Tiled start stop (before ++ prev :: buffer
      :: after)) : Tiled start stop (before ++ prev :: after) := by
  rw [middle_iff, cons_iff] at tiled
  rw [middle_iff]
  rcases tiled with ⟨beforeTiled, prevLe, _, headerLe, afterTiled⟩
  exact ⟨beforeTiled, by omega, afterTiled⟩

section

variable (pending : Pending proc before buffer after)
  (pagesOk : PagesOk proc.buffer proc.stop proc.buffers proc.pages)
  (roomy : Roomy proc.stop proc.buffers)
include pending pagesOk roomy

theorem Pending.mergeNext :
    ∃ newAfter tree pages, mergeNext proc buffer.addr = .ok { proc with
        buffers := before ++ buffer :: newAfter, freeBuffers := tree, pages := pages } ∧
      Pending { proc with
        buffers := before ++ buffer :: newAfter, freeBuffers := tree, pages := pages }
        before buffer newAfter ∧
      PagesOk proc.buffer proc.stop (before ++ buffer :: newAfter) pages ∧
      Roomy proc.stop (before ++ buffer :: newAfter) ∧
      (∀ next ∈ newAfter.head?, next.free = false) ∧ charged newAfter = charged after := by
  have split := pending.buffers_eq
  have tiled := pending.tiled
  have nextEq : nextIn buffer.addr proc.buffers = after.head? := by
    rw [split, tiled.focused.nextIn_eq]
  have unchanged : proc = { proc with
      buffers := before ++ buffer :: after
      freeBuffers := proc.freeBuffers
      pages := proc.pages } := by
    rw [← split]
  by_cases isApart : ∀ next ∈ after.head?, next.free = false
  · refine ⟨after, proc.freeBuffers, proc.pages, ?_, ?_, split ▸ pagesOk, split ▸ roomy, isApart,
      rfl⟩
    · rw [← unchanged, Binder.mergeNext, nextEq]
      cases after with
      | nil => rfl
      | cons next rest => simp [isApart next rfl]
    · rw [← unchanged]
      exact pending
  · cases after with
    | nil => simp at isApart
    | cons next rest =>
      have nextFree : next.free = true := by simpa using isApart
      have nextMoved := pending.freeTree.reorder (addrsWith_middle nextFree)
      have distinct : (next.addr :: addrsWith true (before ++ rest)).Nodup :=
        (addrsWith_middle nextFree).nodup_iff.mp (addrsWith_nodup tiled (by simp) true)
      rcases nextMoved.erase distinct with ⟨tree, erased, holds⟩
      rcases @binderDeleteFreeBuffer_eq { proc with freeBuffers := tree } before rest buffer next
        pending.area split tiled pending.free nextFree pagesOk with ⟨pages, deleted, newPagesOk⟩
      refine ⟨rest, tree, pages, ?_, ?_, newPagesOk, ?_, ?_, ?_⟩
      · simp [Binder.mergeNext, nextEq, head?_cons, nextFree, Proc.eraseFree, erased, bind,
          Except.bind, deleted]
      · have restApart := isChain_cons.mp pending.after_apart
        have allocatedTree := pending.allocatedTree
        rw [addrsWith_middle_of_ne (by simp [nextFree])] at allocatedTree
        exact ⟨pending.area, rfl, pending.free, tiled.delete, pending.before_apart, restApart.2,
          @TreeHolds.replaceMiddle _ _ _ _ _ [buffer, next] [buffer] holds tiled tiled.delete rfl,
          allocatedTree⟩
      · rw [split] at roomy
        exact roomy.delete pending.free
      · intro other isNext
        have apart := (isChain_cons.mp pending.after_apart).1 other isNext
        simpa [NotBothFree, nextFree] using apart
      · rw [charged, charge_of_free nextFree, zero_add]

theorem Pending.mergePrev :
    ∃ newBefore newBuffer tree pages, mergePrev proc buffer.addr = .ok ({ proc with
        buffers := newBefore ++ newBuffer :: after, freeBuffers := tree, pages := pages },
        newBuffer.addr) ∧
      Pending { proc with
        buffers := newBefore ++ newBuffer :: after, freeBuffers := tree, pages := pages }
        newBefore newBuffer after ∧
      PagesOk proc.buffer proc.stop (newBefore ++ newBuffer :: after) pages ∧
      Roomy proc.stop (newBefore ++ newBuffer :: after) ∧
      (∀ prev ∈ newBefore.getLast?, prev.free = false) ∧ charged newBefore = charged before := by
  have split := pending.buffers_eq
  have tiled := pending.tiled
  have prevEq : prevIn buffer.addr proc.buffers = before.getLast? := by
    rw [split, tiled.focused.prevIn_eq]
  have unchanged : proc = { proc with
      buffers := before ++ buffer :: after
      freeBuffers := proc.freeBuffers
      pages := proc.pages } := by
    rw [← split]
  by_cases isApart : ∀ prev ∈ before.getLast?, prev.free = false
  · refine ⟨before, buffer, proc.freeBuffers, proc.pages, ?_, ?_, split ▸ pagesOk, split ▸ roomy,
      isApart, rfl⟩
    · rw [← unchanged, Binder.mergePrev, prevEq]
      cases isPrev : before.getLast? with
      | none => rfl
      | some prev => simp [isApart prev isPrev]
    · rw [← unchanged]
      exact pending
  rcases eq_nil_or_concat' before with rfl | ⟨front, prev, rfl⟩
  · simp at isApart
  · have prevFree : prev.free = true := by simpa using isApart
    have flat : front ++ [prev] ++ buffer :: after = front ++ prev :: buffer :: after := by simp
    have joined : front ++ [prev] ++ after = front ++ prev :: after := by simp
    have freeTree := pending.freeTree
    have allocatedTree := pending.allocatedTree
    rw [flat, joined] at freeTree
    rw [joined, addrsWith_middle_of_ne (by simp [prevFree])] at allocatedTree
    rw [flat] at split tiled
    have prevMoved := freeTree.reorder (addrsWith_middle prevFree)
    have distinct : (prev.addr :: addrsWith true (front ++ after)).Nodup :=
      (addrsWith_middle prevFree).nodup_iff.mp (addrsWith_nodup tiled (by simp) true)
    rcases prevMoved.erase distinct with ⟨tree, erased, holds⟩
    rcases binderDeleteFreeBuffer_eq pending.area split tiled prevFree pending.free pagesOk with
      ⟨pages, deleted, newPagesOk⟩
    have frontApart := isChain_append.mp pending.before_apart
    refine ⟨front, prev, tree, pages, ?_, ?_, newPagesOk, ?_, ?_, ?_⟩
    · simp [Binder.mergePrev, prevEq, prevFree, Proc.eraseFree, erased, bind, Except.bind, deleted,
        pure, Except.pure]
    · exact ⟨pending.area, rfl, prevFree, tiled.delete, frontApart.1, pending.after_apart,
        @TreeHolds.replaceMiddle _ _ _ _ _ [prev, buffer] [prev] holds tiled tiled.delete rfl,
        allocatedTree⟩
    · rw [split] at roomy
      exact roomy.delete prevFree
    · intro other isPrev
      have apart := frontApart.2.2 other isPrev prev (by simp)
      simpa [NotBothFree, prevFree] using apart
    · rw [charged_append, charged, charge_of_free prevFree]
      rfl

end

end Merge

end StreakKernel.Binder
