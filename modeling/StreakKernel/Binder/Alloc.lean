import StreakKernel.Lib.Word
import StreakKernel.RbTree.Basic

/-!
# The binder buffer allocator

Shallow embedding of the buffer allocator of `drivers/staging/android/binder.c`.
The mapped area of a process is tiled by buffers, each a header of
`sizeof(struct binder_buffer)` = 40 bytes followed by its data. The size of a
buffer is not stored but derived from its successor on `proc->buffers`. Free
buffers are in a tree ordered by size, allocated buffers in a tree ordered by
address; the trees hold the addresses of the buffers. Pages are allocated only
where a header or the data of an allocated buffer needs them.

Every `BUG_ON` is an exception, and so are the accesses that would go through a stale
pointer. The fields `debug_id`, `allow_user_free` and `target_node` are left out.
-/

namespace StreakKernel.Binder

open Word (U32)

/-- `struct binder_buffer`; `transaction` says whether the pointer is set. -/
structure Buffer where
  addr : ℕ
  free : Bool
  asyncTransaction : Bool
  transaction : Bool
  dataSize : ℕ
  offsetsSize : ℕ
  deriving DecidableEq, Repr

/-- The allocator's part of `struct binder_proc`. -/
structure Proc where
  vma : Bool
  buffer : ℕ
  bufferSize : ℕ
  buffers : List Buffer
  freeBuffers : RbTree.Tree ℕ
  allocatedBuffers : RbTree.Tree ℕ
  freeAsyncSpace : ℕ
  pages : ℕ → Bool

inductive Bug where
  | insertFreeOfAllocated
  | freeTreeHoldsAllocated
  | insertAllocatedOfFree
  | allocatedTreeHoldsFree
  | insertAllocatedTwice
  | pagePresent
  | deleteFirst
  | deleteAfterAllocated
  | freeOfFree
  | freeTooLarge
  | freeWithTransaction
  | freeBelowArea
  | freeAboveArea
  | staleNode
  | eraseUnlinked
  | freeAbsentPage
  deriving DecidableEq, Repr

/-! ## The buffer list -/

/-- The end of a buffer: the address of its successor, or the end of the area. -/
def bufferEnd (stop : ℕ) : List Buffer → ℕ
  | [] => stop
  | next :: _ => next.addr

/-- The data of a buffer starts after its header. -/
abbrev bufferData (addr : ℕ) : ℕ := addr + 40

def sizeIn (stop addr : ℕ) : List Buffer → ℕ
  | [] => 0
  | buffer :: rest =>
    if buffer.addr = addr then Word.sub (bufferEnd stop rest) (bufferData addr)
    else sizeIn stop addr rest

def nextIn (addr : ℕ) : List Buffer → Option Buffer
  | [] => none
  | buffer :: rest => if buffer.addr = addr then rest.head? else nextIn addr rest

def prevIn (addr : ℕ) : List Buffer → Option Buffer
  | [] => none
  | [_] => none
  | buffer :: next :: rest =>
    if next.addr = addr then some buffer else prevIn addr (next :: rest)

def addAfter (addr : ℕ) (new : Buffer) : List Buffer → List Buffer
  | [] => []
  | buffer :: rest =>
    if buffer.addr = addr then buffer :: new :: rest else buffer :: addAfter addr new rest

def modifyBuffer (addr : ℕ) (change : Buffer → Buffer) (buffers : List Buffer) : List Buffer :=
  buffers.map fun buffer => if buffer.addr = addr then change buffer else buffer

def delBuffer (addr : ℕ) (buffers : List Buffer) : List Buffer :=
  buffers.filter fun buffer => buffer.addr ≠ addr

namespace Proc

def stop (proc : Proc) : ℕ := proc.buffer + proc.bufferSize

def binderBufferSize (proc : Proc) (addr : ℕ) : ℕ := sizeIn proc.stop addr proc.buffers

def entry (proc : Proc) (addr : ℕ) : Except Bug Buffer :=
  match proc.buffers.find? fun buffer => buffer.addr = addr with
  | some buffer => .ok buffer
  | none => .error .staleNode

def modify (proc : Proc) (addr : ℕ) (change : Buffer → Buffer) : Proc :=
  { proc with buffers := modifyBuffer addr change proc.buffers }

def eraseFree (proc : Proc) (addr : ℕ) : Except Bug Proc :=
  match RbTree.erase addr proc.freeBuffers with
  | some tree => .ok { proc with freeBuffers := tree }
  | none => .error .eraseUnlinked

def eraseAllocated (proc : Proc) (addr : ℕ) : Except Bug Proc :=
  match RbTree.erase addr proc.allocatedBuffers with
  | some tree => .ok { proc with allocatedBuffers := tree }
  | none => .error .eraseUnlinked

end Proc

def bugOn (condition : Prop) [Decidable condition] (bug : Bug) : Except Bug Unit :=
  if condition then .error bug else .ok ()

def binderInsertFreeBuffer (proc : Proc) (newBuffer : ℕ) : Except Bug Proc := do
  let entry ← proc.entry newBuffer
  bugOn (entry.free = false) .insertFreeOfAllocated
  let newBufferSize := proc.binderBufferSize newBuffer
  let tree ← RbTree.insert (fun addr => do
    let buffer ← proc.entry addr
    bugOn (buffer.free = false) .freeTreeHoldsAllocated
    return decide (newBufferSize < proc.binderBufferSize addr)) newBuffer proc.freeBuffers
  return { proc with freeBuffers := tree }

def binderInsertAllocatedBuffer (proc : Proc) (newBuffer : ℕ) : Except Bug Proc := do
  let entry ← proc.entry newBuffer
  bugOn (entry.free = true) .insertAllocatedOfFree
  let tree ← RbTree.insert (fun addr => do
    let buffer ← proc.entry addr
    bugOn (buffer.free = true) .allocatedTreeHoldsFree
    if newBuffer < addr then return true
    else if addr < newBuffer then return false
    else throw .insertAllocatedTwice) newBuffer proc.allocatedBuffers
  return { proc with allocatedBuffers := tree }

/-! ## Pages -/

inductive PageOutcome where
  | mapped
  | allocPageFailed
  | mapVmAreaFailed
  | vmInsertPageFailed
  deriving DecidableEq, Repr

def pageAddrs (start finish : ℕ) : List ℕ :=
  (List.range ((finish - start + 4095) / 4096)).map fun index => start + index * 4096

/-- The loop at `free_range`, entered for the pages of the list. -/
def unmapPages (buffer : ℕ) : List ℕ → (ℕ → Bool) → Except Bug (ℕ → Bool)
  | [], pages => .ok pages
  | pageAddr :: rest, pages =>
    let index := (pageAddr - buffer) / 4096
    if pages index = false then .error .freeAbsentPage
    else unmapPages buffer rest (Function.update pages index false)

/-- The allocation loop. A failure leaves the page absent and jumps into the freeing loop, which
goes on with `mapped`, the latest first. -/
def mapPages (buffer : ℕ) (outcome : ℕ → PageOutcome) :
    List ℕ → List ℕ → (ℕ → Bool) → Except Bug ((ℕ → Bool) × Bool)
  | [], _, pages => .ok (pages, true)
  | pageAddr :: rest, mapped, pages =>
    let index := (pageAddr - buffer) / 4096
    if pages index = true then .error .pagePresent
    else
      match outcome pageAddr with
      | .mapped =>
        mapPages buffer outcome rest (pageAddr :: mapped) (Function.update pages index true)
      | .allocPageFailed | .mapVmAreaFailed | .vmInsertPageFailed => do
          let pages ← unmapPages buffer mapped pages
          return (pages, false)

/-- `binder_update_page_range` with `allocate` set; false stands for `-ENOMEM`. -/
def mapPageRange (proc : Proc) (start finish : ℕ) (vma : Bool) (outcome : ℕ → PageOutcome) :
    Except Bug (Proc × Bool) :=
  if finish ≤ start then .ok (proc, true)
  else if vma = false then .ok (proc, false)
  else do
    let (pages, success) ← mapPages proc.buffer outcome (pageAddrs start finish) [] proc.pages
    return ({ proc with pages := pages }, success)

/-- `binder_update_page_range` with `allocate` clear, whose result the callers ignore. -/
def unmapPageRange (proc : Proc) (start finish : ℕ) : Except Bug Proc :=
  if finish ≤ start then .ok proc
  else do
    let pages ← unmapPages proc.buffer (pageAddrs start finish).reverse proc.pages
    return { proc with pages := pages }

/-! ## Allocation -/

abbrev pageAlign (addr : ℕ) : ℕ := Word.alignUp addr 4096

abbrev pageMask (addr : ℕ) : ℕ := Word.alignDown addr 4096

/-- `ALIGN(data_size, sizeof(void *)) + ALIGN(offsets_size, sizeof(void *))`. -/
def alignedSize (dataSize offsetsSize : ℕ) : ℕ :=
  Word.add (Word.alignUp dataSize 4) (Word.alignUp offsetsSize 4)

/-- The best-fit search: the last candidate, and whether it stopped at an exact fit (`n != NULL`).
-/
def findBestFit (proc : Proc) (size : ℕ) : RbTree.Tree ℕ → Option ℕ → Except Bug (Option ℕ × Bool)
  | .leaf, bestFit => .ok (bestFit, false)
  | .node _ left addr right, bestFit => do
      let buffer ← proc.entry addr
      bugOn (buffer.free = false) .freeTreeHoldsAllocated
      let bufferSize := proc.binderBufferSize addr
      if size < bufferSize then findBestFit proc size left (some addr)
      else if bufferSize < size then findBestFit proc size right bestFit
      else return (some addr, true)

/-- Whether `get_task_mm` succeeds, the outcome of every page, and the `transaction` word in a new
header. -/
structure AllocEnv where
  mm : Bool
  outcome : ℕ → PageOutcome
  stale : Bool

/-- Put the header of a new free buffer behind `size` bytes of data. -/
def addRest (proc : Proc) (buffer size : ℕ) (stale : Bool) : Except Bug Proc :=
  let newBuffer := bufferData buffer + size
  let header : Buffer := ⟨newBuffer, true, false, stale, 0, 0⟩
  binderInsertFreeBuffer { proc with buffers := addAfter buffer header proc.buffers } newBuffer

/-- The part of `binder_alloc_buf` after the pages have been mapped. -/
def takeBuffer (proc : Proc) (buffer size bufferSize dataSize offsetsSize : ℕ) (isAsync : Bool)
    (stale : Bool) : Except Bug Proc := do
  let proc ← proc.eraseFree buffer
  let proc := proc.modify buffer fun entry => { entry with free := false }
  let proc ← binderInsertAllocatedBuffer proc buffer
  let proc ← (if bufferSize ≠ size then addRest proc buffer size stale else .ok proc)
  let proc := proc.modify buffer fun entry =>
    { entry with dataSize, offsetsSize, asyncTransaction := isAsync }
  return if isAsync then
    { proc with freeAsyncSpace := Word.sub proc.freeAsyncSpace (Word.add size 40) }
  else proc

/-- `buffer_size` after the search: what is mapped beyond the header. -/
def usedSize (bufferSize size : ℕ) (exactFit : Bool) : ℕ :=
  if exactFit then bufferSize else if bufferSize ≤ size + 40 + 4 then size else size + 40

def binderAllocBuf (proc : Proc) (dataSize offsetsSize : ℕ) (isAsync : Bool) (env : AllocEnv) :
    Except Bug (Proc × Option ℕ) := do
  if proc.vma = false then return (proc, none)
  let size := alignedSize dataSize offsetsSize
  if size < dataSize ∨ size < offsetsSize then return (proc, none)
  if isAsync = true ∧ proc.freeAsyncSpace < Word.add size 40 then return (proc, none)
  let (bestFit, exactFit) ← findBestFit proc size proc.freeBuffers none
  match bestFit with
  | none => return (proc, none)
  | some buffer =>
    let bufferSize := proc.binderBufferSize buffer
    let hasPageAddr := pageMask (bufferData buffer + bufferSize)
    let bufferSize := usedSize bufferSize size exactFit
    let endPageAddr := min (pageAlign (bufferData buffer + bufferSize)) hasPageAddr
    let (proc, success) ← mapPageRange proc (pageAlign (bufferData buffer)) endPageAddr
      (env.mm && proc.vma) env.outcome
    if success = false then return (proc, none)
    let proc ← takeBuffer proc buffer size bufferSize dataSize offsetsSize isAsync env.stale
    return (proc, some buffer)

/-! ## Release -/

def bufferStartPage (addr : ℕ) : ℕ := pageMask addr

def bufferEndPage (addr : ℕ) : ℕ := pageMask (addr + 40 - 1)

/-- `free_page_start` of `binder_delete_free_buffer`: neither neighbour has its header on the
first page of the header. -/
def freePageStart (prev buffer : ℕ) (next : Option Buffer) : Bool :=
  !decide (bufferEndPage prev = bufferStartPage buffer) &&
    !next.any fun next => bufferStartPage next.addr = bufferEndPage buffer ∧
      bufferStartPage next.addr = bufferStartPage buffer

def freePageEnd (prev buffer : ℕ) (next : Option Buffer) : Bool :=
  !decide (bufferEndPage prev = bufferStartPage buffer ∧
    bufferEndPage prev = bufferEndPage buffer) &&
    !next.any fun next => bufferStartPage next.addr = bufferEndPage buffer

def freedFrom (prev buffer : ℕ) (next : Option Buffer) : ℕ :=
  if freePageStart prev buffer next then bufferStartPage buffer else bufferEndPage buffer

def freedTo (prev buffer : ℕ) (next : Option Buffer) : ℕ :=
  (if freePageEnd prev buffer next then bufferEndPage buffer else bufferStartPage buffer) + 4096

def binderDeleteFreeBuffer (proc : Proc) (buffer : ℕ) : Except Bug Proc :=
  match prevIn buffer proc.buffers with
  | none => .error .deleteFirst
  | some prev => do
      bugOn (prev.free = false) .deleteAfterAllocated
      let next := nextIn buffer proc.buffers
      let proc := { proc with buffers := delBuffer buffer proc.buffers }
      if freePageStart prev.addr buffer next || freePageEnd prev.addr buffer next then
        unmapPageRange proc (freedFrom prev.addr buffer next) (freedTo prev.addr buffer next)
      else return proc

def mergeNext (proc : Proc) (buffer : ℕ) : Except Bug Proc :=
  match nextIn buffer proc.buffers with
  | some next =>
    if next.free then do
      let proc ← proc.eraseFree next.addr
      binderDeleteFreeBuffer proc next.addr
    else .ok proc
  | none => .ok proc

/-- Merge a buffer that has become free with a free predecessor; returns the
buffer that remains. -/
def mergePrev (proc : Proc) (buffer : ℕ) : Except Bug (Proc × ℕ) :=
  match prevIn buffer proc.buffers with
  | some prev =>
    if prev.free then do
      let proc ← binderDeleteFreeBuffer proc buffer
      let proc ← proc.eraseFree prev.addr
      return (proc, prev.addr)
    else .ok (proc, buffer)
  | none => .ok (proc, buffer)

def releaseBuffer (proc : Proc) (buffer bufferSize : ℕ) : Except Bug Proc := do
  let proc ← unmapPageRange proc (pageAlign (bufferData buffer))
    (pageMask (bufferData buffer + bufferSize))
  let proc ← proc.eraseAllocated buffer
  let proc := proc.modify buffer fun entry => { entry with free := true }
  let proc ← mergeNext proc buffer
  let (proc, buffer) ← mergePrev proc buffer
  binderInsertFreeBuffer proc buffer

def binderFreeBuf (proc : Proc) (buffer : ℕ) : Except Bug Proc := do
  let entry ← proc.entry buffer
  let bufferSize := proc.binderBufferSize buffer
  let size := alignedSize entry.dataSize entry.offsetsSize
  bugOn (entry.free = true) .freeOfFree
  bugOn (bufferSize < size) .freeTooLarge
  bugOn (entry.transaction = true) .freeWithTransaction
  bugOn (buffer < proc.buffer) .freeBelowArea
  bugOn (proc.stop < buffer) .freeAboveArea
  let proc := if entry.asyncTransaction then
      { proc with freeAsyncSpace := Word.add proc.freeAsyncSpace (Word.add size 40) }
    else proc
  releaseBuffer proc buffer bufferSize

/-! ## Runs -/

/-- What `get_vm_area` hands to `binder_mmap`: whole pages, followed by a guard page. -/
structure Area where
  base : ℕ
  size : ℕ
  base_aligned : base % 4096 = 0
  size_aligned : size % 4096 = 0
  size_pos : 0 < size
  fits : base + size + 4096 ≤ 4294967296

/-- The state after a successful `binder_mmap`: its first page is mapped and holds
the header of the only buffer. -/
def binderMmap (area : Area) (stale : Bool) : Except Bug Proc := do
  let proc : Proc := ⟨false, area.base, area.size, [], .leaf, .leaf, 0, fun _ => false⟩
  let (proc, _) ← mapPageRange proc area.base (area.base + 4096) true fun _ => .mapped
  let proc := { proc with buffers := [⟨area.base, true, false, stale, 0, 0⟩] }
  let proc ← binderInsertFreeBuffer proc area.base
  return { proc with freeAsyncSpace := area.size / 2, vma := true }

/-- What the driver does with the allocator. The transaction of a buffer is cleared before it is
freed. -/
inductive AllocRequest where
  | alloc (dataSize offsetsSize : U32) (isAsync : Bool) (env : AllocEnv)
  | clearTransaction (buffer : ℕ)
  | free (buffer : ℕ)
  | vmaClose

def allocStep (proc : Proc) : AllocRequest → Except Bug Proc
  | .alloc dataSize offsetsSize isAsync env => do
      let (proc, result) ← binderAllocBuf proc dataSize offsetsSize isAsync env
      match result with
      | some buffer => return proc.modify buffer fun entry => { entry with transaction := true }
      | none => return proc
  | .clearTransaction buffer =>
    .ok (proc.modify buffer fun entry => { entry with transaction := false })
  | .free buffer =>
    match proc.buffers.find? fun entry => entry.addr = buffer with
    | some entry =>
      if entry.free then .ok proc
      else
        binderFreeBuf (proc.modify buffer fun entry => { entry with transaction := false })
          buffer
    | none => .ok proc
  | .vmaClose => .ok { proc with vma := false }

end StreakKernel.Binder
