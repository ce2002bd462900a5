import Mathlib.Data.List.Basic
import StreakKernel.Lib.Word

/-!
# The ashmem driver

Shallow embedding of `mm/ashmem.c`. An area owns the descending list of its unpinned page
ranges; those that have not been purged are also on one LRU list, whose size is kept in
`lru_count`. A request holds `ashmem_mutex` and is one step.

Ranges are stored by value and carry the identity of the slab object, which the LRU list
points to. The outcome of `kmem_cache_zalloc`, `copy_from_user` and `shmem_file_setup` is
part of the request. Names, mapping addresses and cache commands are left out.
-/

namespace StreakKernel.Ashmem

open Word (U32)

/-- `struct ashmem_range`, with the identity of the slab object. -/
structure Range where
  id : ℕ
  pgstart : ℕ
  pgend : ℕ
  purged : Bool
  deriving DecidableEq, Repr

structure RangePtr where
  asma : ℕ
  id : ℕ
  deriving DecidableEq, Repr

/-- The LRU globals, and the next object the range cache hands out. -/
structure Lru where
  list : List RangePtr
  count : ℕ
  nextId : ℕ
  deriving DecidableEq, Repr

/-- The parts of `struct ashmem_area` that the list code reads. -/
structure Area where
  unpinnedList : List Range
  file : Bool
  size : U32
  protMask : BitVec 32
  deriving DecidableEq, Repr

structure State where
  areas : ℕ → Option Area
  lru : Lru

/-- A `vmtruncate_range` call: the pages it removes from the backing file. -/
structure Truncation where
  asma : ℕ
  pgstart : ℕ
  pgend : ℕ
  deriving DecidableEq, Repr

/-! ## Range macros -/

def rangeSize (range : Range) : ℕ := Word.add (Word.sub range.pgend range.pgstart) 1

abbrev rangeOnLru (range : Range) : Prop := range.purged = false

abbrev pageRangeSubsumesRange (range : Range) (start finish : ℕ) : Prop :=
  start ≤ range.pgstart ∧ range.pgend ≤ finish

abbrev pageRangeSubsumedByRange (range : Range) (start finish : ℕ) : Prop :=
  range.pgstart ≤ start ∧ finish ≤ range.pgend

abbrev pageInRange (range : Range) (page : ℕ) : Prop :=
  range.pgstart ≤ page ∧ page ≤ range.pgend

abbrev pageRangeInRange (range : Range) (start finish : ℕ) : Prop :=
  pageInRange range start ∨ pageInRange range finish ∨ pageRangeSubsumesRange range start finish

abbrev rangeBeforePage (range : Range) (page : ℕ) : Prop := range.pgend < page

/-! ## List primitives -/

def lruAdd (asma : ℕ) (range : Range) (lru : Lru) : Lru :=
  { lru with
    list := lru.list ++ [⟨asma, range.id⟩]
    count := Word.add lru.count (rangeSize range) }

def lruDel (asma : ℕ) (range : Range) (lru : Lru) : Lru :=
  { lru with
    list := lru.list.erase ⟨asma, range.id⟩
    count := Word.sub lru.count (rangeSize range) }

/-- `range_alloc` up to the insertion into `unpinned_list` directly before `prev_range`. -/
def rangeAlloc (asma : ℕ) (purged : Bool) (start finish : ℕ) (allocOk : Bool) (lru : Lru) :
    Option (Range × Lru) :=
  if allocOk then
    let range : Range := ⟨lru.nextId, start, finish, purged⟩
    let lru := { lru with nextId := lru.nextId + 1 }
    some (range, if rangeOnLru range then lruAdd asma range lru else lru)
  else
    none

def rangeDel (asma : ℕ) (range : Range) (lru : Lru) : Lru :=
  if rangeOnLru range then lruDel asma range lru else lru

def rangeShrink (range : Range) (start finish : ℕ) (lru : Lru) : Range × Lru :=
  let shrunk := { range with pgstart := start, pgend := finish }
  (shrunk,
    if rangeOnLru shrunk then
      { lru with count := Word.sub lru.count (Word.sub (rangeSize range) (rangeSize shrunk)) }
    else lru)

/-! ## Pinning -/

structure Walk (Result : Type) where
  list : List Range
  lru : Lru
  ret : Result

/-- The loop of `ashmem_pin`; `ret` is true for `ASHMEM_WAS_PURGED`. `pgend + 1` and `pgstart - 1`
cannot wrap where they are computed. -/
def pinLoop (asma pgstart pgend : ℕ) (allocOk : Bool) :
    List Range → Lru → Bool → Walk Bool
  | [], lru, ret => ⟨[], lru, ret⟩
  | range :: next, lru, ret =>
    if rangeBeforePage range pgstart then
      ⟨range :: next, lru, ret⟩
    else if pageRangeInRange range pgstart pgend then
      if pageRangeSubsumesRange range pgstart pgend then
        pinLoop asma pgstart pgend allocOk next (rangeDel asma range lru) (ret || range.purged)
      else if pgstart ≤ range.pgstart then
        let shrunk := rangeShrink range (pgend + 1) range.pgend lru
        let rest := pinLoop asma pgstart pgend allocOk next shrunk.2 (ret || range.purged)
        { rest with list := shrunk.1 :: rest.list }
      else if range.pgend ≤ pgend then
        let shrunk := rangeShrink range range.pgstart (pgstart - 1) lru
        let rest := pinLoop asma pgstart pgend allocOk next shrunk.2 (ret || range.purged)
        { rest with list := shrunk.1 :: rest.list }
      else
        match rangeAlloc asma range.purged (pgend + 1) range.pgend allocOk lru with
        | some (upper, lru) =>
          let shrunk := rangeShrink range range.pgstart (pgstart - 1) lru
          ⟨upper :: shrunk.1 :: next, shrunk.2, ret || range.purged⟩
        | none =>
          let shrunk := rangeShrink range range.pgstart (pgstart - 1) lru
          ⟨shrunk.1 :: next, shrunk.2, ret || range.purged⟩
    else
      let rest := pinLoop asma pgstart pgend allocOk next lru ret
      { rest with list := range :: rest.list }

def ashmemNotPurged : ℤ := 0
def ashmemWasPurged : ℤ := 1
def ashmemIsUnpinned : ℤ := 0
def ashmemIsPinned : ℤ := 1

def ashmemPin (asma pgstart pgend : ℕ) (allocOk : Bool) (list : List Range) (lru : Lru) :
    Walk ℤ :=
  let walk := pinLoop asma pgstart pgend allocOk list lru false
  ⟨walk.list, walk.lru, if walk.ret then ashmemWasPurged else ashmemNotPurged⟩

/-! ## Unpinning -/

inductive UnpinScan where
  | insert (before after : List Range)
  | covered
  | overlap (before : List Range) (range : Range) (after : List Range)

def unpinScan (pgstart pgend : ℕ) : List Range → UnpinScan
  | [] => .insert [] []
  | range :: next =>
    if rangeBeforePage range pgstart then .insert [] (range :: next)
    else if pageRangeSubsumedByRange range pgstart pgend then .covered
    else if pageRangeInRange range pgstart pgend then .overlap [] range next
    else
      match unpinScan pgstart pgend next with
      | .insert before after => .insert (range :: before) after
      | .covered => .covered
      | .overlap before hit after => .overlap (range :: before) hit after

/-- `ashmem_unpin` from the label `restart`. Every jump back to it has deleted a range. -/
def unpinRestart (asma : ℕ) (allocOk : Bool) :
    ℕ → ℕ → ℕ → Bool → List Range → Lru → Walk ℤ
  | passes, pgstart, pgend, purged, list, lru =>
    match unpinScan pgstart pgend list with
    | .insert before after =>
      match rangeAlloc asma purged pgstart pgend allocOk lru with
      | some (range, lru) => ⟨before ++ range :: after, lru, 0⟩
      | none => ⟨list, lru, -12⟩
    | .covered => ⟨list, lru, 0⟩
    | .overlap before range after =>
      match passes with
      | 0 => ⟨list, lru, 0⟩
      | passes + 1 =>
        unpinRestart asma allocOk passes (min range.pgstart pgstart)
          (max range.pgend pgend) (purged || range.purged) (before ++ after)
          (rangeDel asma range lru)

def ashmemUnpin (asma pgstart pgend : ℕ) (allocOk : Bool) (list : List Range) (lru : Lru) :
    Walk ℤ :=
  unpinRestart asma allocOk list.length pgstart pgend false list lru

def ashmemGetPinStatus (pgstart pgend : ℕ) : List Range → ℤ
  | [] => ashmemIsPinned
  | range :: next =>
    if rangeBeforePage range pgstart then ashmemIsPinned
    else if pageRangeInRange range pgstart pgend then ashmemIsUnpinned
    else ashmemGetPinStatus pgstart pgend next

/-! ## Requests -/

abbrev pageAlign (size : ℕ) : ℕ := Word.alignUp size 4096

/-- The argument checks of `ashmem_pin_unpin`: the page interval of an accepted
request, `none` for `-EINVAL`. -/
def pinInterval (size offset len : ℕ) : Option (ℕ × ℕ) :=
  let len := if len = 0 then Word.sub (pageAlign size) offset else len
  if (offset ||| len) &&& 4095 ≠ 0 then none
  else if Word.sub 4294967295 offset < len then none
  else if pageAlign size < Word.add offset len then none
  else
    let pgstart := offset / 4096
    some (pgstart, Word.sub (Word.add pgstart (len / 4096)) 1)

inductive PinCommand where
  | pin
  | unpin
  | getPinStatus
  deriving DecidableEq, Repr

inductive Request where
  | openFile (asma : ℕ) (allocOk : Bool)
  | release (asma : ℕ)
  | mmap (asma : ℕ) (vmFlags : BitVec 32) (setupErr : ℤ)
  | setSize (asma : ℕ) (arg : U32)
  | getSize (asma : ℕ)
  | setProtMask (asma : ℕ) (prot : BitVec 32) (readImpliesExec : Bool)
  | getProtMask (asma : ℕ)
  | pinUnpin (asma : ℕ) (command : PinCommand) (offset len : U32) (copyOk allocOk : Bool)
  | purgeAllCaches (capable : Bool)
  | shrink (nrToScan : ℤ) (gfpFs : Bool)

structure Outcome where
  state : State
  ret : ℤ
  truncated : List Truncation

namespace State

def init : State := ⟨fun _ => none, ⟨[], 0, 0⟩⟩

def setArea (state : State) (asma : ℕ) (area : Option Area) : State :=
  { state with areas := Function.update state.areas asma area }

/-- `unpinned_list` of an area; empty when the area does not exist. -/
def unpinned (state : State) (asma : ℕ) : List Range :=
  match state.areas asma with
  | some area => area.unpinnedList
  | none => []

def rangeAt (state : State) (ptr : RangePtr) : Option Range :=
  (state.unpinned ptr.asma).find? fun range => range.id = ptr.id

def markPurged (state : State) (ptr : RangePtr) : State :=
  match state.areas ptr.asma with
  | some area =>
    state.setArea ptr.asma (some { area with
      unpinnedList := area.unpinnedList.map fun range =>
        if range.id = ptr.id then { range with purged := true } else range })
  | none => state

end State

/-- Purging one range in `ashmem_shrink`: flag it and take it off the LRU list. -/
def purge (state : State) (ptr : RangePtr) (range : Range) : State :=
  { state.markPurged ptr with lru := lruDel ptr.asma range state.lru }

def shrinkLoop : List RangePtr → ℤ → State → State × List Truncation
  | [], _, state => (state, [])
  | ptr :: next, nrToScan, state =>
    match state.rangeAt ptr with
    | none => (state, [])
    | some range =>
      let nrToScan :=
        Word.toSigned (Word.sub (Word.ofSigned nrToScan) (rangeSize range))
      if nrToScan ≤ 0 then
        (purge state ptr range, [⟨ptr.asma, range.pgstart, range.pgend⟩])
      else
        let rest := shrinkLoop next nrToScan (purge state ptr range)
        (rest.1, ⟨ptr.asma, range.pgstart, range.pgend⟩ :: rest.2)

def ashmemShrink (nrToScan : ℤ) (gfpFs : Bool) (state : State) : Outcome :=
  if nrToScan ≠ 0 ∧ gfpFs = false then ⟨state, -1, []⟩
  else if nrToScan = 0 then ⟨state, Word.toSigned state.lru.count, []⟩
  else
    let loop := shrinkLoop state.lru.list nrToScan state
    ⟨loop.1, Word.toSigned loop.1.lru.count, loop.2⟩

/-- `PROT_READ | PROT_WRITE | PROT_EXEC`. -/
def protMaskAll : BitVec 32 := 7#32

def ashmemOpen (asma : ℕ) (allocOk : Bool) (state : State) : Outcome :=
  if state.areas asma ≠ none then ⟨state, 0, []⟩
  else if allocOk then ⟨state.setArea asma (some ⟨[], false, 0, protMaskAll⟩), 0, []⟩
  else ⟨state, -12, []⟩

def ashmemRelease (asma : ℕ) (area : Area) (state : State) : Outcome :=
  let lru := area.unpinnedList.foldl (fun lru range => rangeDel asma range lru) state.lru
  ⟨{ state.setArea asma none with lru := lru }, 0, []⟩

def ashmemMmap (asma : ℕ) (area : Area) (vmFlags : BitVec 32) (setupErr : ℤ) (state : State) :
    Outcome :=
  if area.size = 0 then ⟨state, -22, []⟩
  else if (vmFlags &&& ~~~area.protMask) &&& protMaskAll ≠ 0#32 then ⟨state, -1, []⟩
  else if area.file = false ∧ setupErr ≠ 0 then ⟨state, setupErr, []⟩
  else ⟨state.setArea asma (some { area with file := true }), 0, []⟩

def setProtMask (asma : ℕ) (area : Area) (prot : BitVec 32) (readImpliesExec : Bool)
    (state : State) : Outcome :=
  if area.protMask &&& prot ≠ prot then ⟨state, -22, []⟩
  else
    let prot := if prot &&& 1#32 ≠ 0#32 ∧ readImpliesExec then prot ||| 4#32 else prot
    ⟨state.setArea asma (some { area with protMask := prot }), 0, []⟩

def pinUnpinLocked (asma : ℕ) (area : Area) (command : PinCommand) (pgstart pgend : ℕ)
    (allocOk : Bool) (state : State) : Outcome :=
  match command with
  | .pin =>
    let walk := ashmemPin asma pgstart pgend allocOk area.unpinnedList state.lru
    ⟨{ state.setArea asma (some { area with unpinnedList := walk.list }) with
      lru := walk.lru }, walk.ret, []⟩
  | .unpin =>
    let walk := ashmemUnpin asma pgstart pgend allocOk area.unpinnedList state.lru
    ⟨{ state.setArea asma (some { area with unpinnedList := walk.list }) with
      lru := walk.lru }, walk.ret, []⟩
  | .getPinStatus => ⟨state, ashmemGetPinStatus pgstart pgend area.unpinnedList, []⟩

def ashmemPinUnpin (asma : ℕ) (area : Area) (command : PinCommand) (offset len : U32)
    (copyOk allocOk : Bool) (state : State) : Outcome :=
  if area.file = false then ⟨state, -22, []⟩
  else if copyOk = false then ⟨state, -14, []⟩
  else
    match pinInterval area.size offset len with
    | none => ⟨state, -22, []⟩
    | some (pgstart, pgend) =>
      pinUnpinLocked asma area command pgstart pgend allocOk state

/-- `ASHMEM_PURGE_ALL_CACHES`: ask for the number of pages, then shrink by it. -/
def purgeAllCaches (capable : Bool) (state : State) : Outcome :=
  if capable then
    let query := ashmemShrink 0 true state
    { ashmemShrink query.ret true query.state with ret := query.ret }
  else
    ⟨state, -1, []⟩

/-- Requests on a file that is not open do nothing. -/
def withArea (state : State) (asma : ℕ) (action : Area → State → Outcome) : Outcome :=
  match state.areas asma with
  | some area => action area state
  | none => ⟨state, -9, []⟩

def execute (state : State) : Request → Outcome
  | .openFile asma allocOk => ashmemOpen asma allocOk state
  | .release asma => withArea state asma (ashmemRelease asma)
  | .mmap asma vmFlags setupErr =>
    withArea state asma fun area => ashmemMmap asma area vmFlags setupErr
  | .setSize asma arg =>
    withArea state asma fun area state =>
      if area.file then ⟨state, -22, []⟩
      else ⟨state.setArea asma (some { area with size := arg }), 0, []⟩
  | .getSize asma => withArea state asma fun area state => ⟨state, (area.size : ℕ), []⟩
  | .setProtMask asma prot readImpliesExec =>
    withArea state asma fun area => setProtMask asma area prot readImpliesExec
  | .getProtMask asma =>
    withArea state asma fun area state => ⟨state, area.protMask.toNat, []⟩
  | .pinUnpin asma command offset len copyOk allocOk =>
    withArea state asma fun area => ashmemPinUnpin asma area command offset len copyOk allocOk
  | .purgeAllCaches capable => purgeAllCaches capable state
  | .shrink nrToScan gfpFs => ashmemShrink nrToScan gfpFs state

def step (state : State) (request : Request) : State := (execute state request).state

end StreakKernel.Ashmem
