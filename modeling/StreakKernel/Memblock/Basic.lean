import StreakKernel.Lib.Segments
import StreakKernel.Lib.Word

/-!
# Logical memory blocks

Shallow embedding of `mm/memblock.c`: the tables `memblock.memory` and
`memblock.reserved` with the calls that add and remove ranges. Addresses and sizes are
`u64`; `cnt` is an `unsigned long` of 32 bits, so that `cnt - 1` of an empty table is
2^32 - 1.

The array has `MAX_MEMBLOCK_REGIONS + 1` places. What a table no longer counts stays in
the array, and an empty table reads it. A loop that leaves the array has no result.
-/

namespace StreakKernel.Memblock

def maxRegions : ℕ := 128

def add64 (left right : ℕ) : ℕ := (left + right) % 18446744073709551616

def sub64 (left right : ℕ) : ℕ :=
  (left + (18446744073709551616 - right % 18446744073709551616)) % 18446744073709551616

/-- `struct memblock_region`. -/
structure Table where
  cnt : ℕ
  region : ℕ → Segment

/-- Where the first loop of `memblock_add_region` ended: at the end, at the same region, or at one
it extended. -/
inductive Search where
  | exhausted
  | present
  | extended (place : ℕ) (region : Segment)

def addrsAdjacent (base1 size1 base2 size2 : ℕ) : ℤ :=
  if base2 = add64 base1 size1 then 1
  else if base1 = add64 base2 size2 then -1
  else 0

namespace Table

def init : Table := ⟨1, fun _ => ⟨0, 0⟩⟩

def put (table : Table) (place : ℕ) (rgn : Segment) : Table :=
  { table with region := Function.update table.region place rgn }

@[simp]
theorem put_cnt (table : Table) (place : ℕ) (rgn : Segment) :
    (table.put place rgn).cnt = table.cnt :=
  rfl

@[simp]
theorem put_region_self (table : Table) (place : ℕ) (rgn : Segment) :
    (table.put place rgn).region place = rgn := by
  simp [put]

theorem put_region_of_ne (table : Table) {place other : ℕ} (rgn : Segment) (ne : other ≠ place) :
    (table.put place rgn).region other = table.region other := by
  simp [put, Function.update_of_ne ne]

@[simp]
theorem put_put (table : Table) (place : ℕ) (first second : Segment) :
    (table.put place first).put place second = table.put place second := by
  simp [put]

def regionsAdjacent (table : Table) (r1 r2 : ℕ) : ℤ :=
  addrsAdjacent (table.region r1).base (table.region r1).size (table.region r2).base
    (table.region r2).size

/-- The loop of `memblock_remove_region`, with `rest` regions to go. -/
def shiftDown (region : ℕ → Segment) : ℕ → ℕ → Option (ℕ → Segment)
  | _, 0 => some region
  | i, rest + 1 =>
    if i + 1 ≤ maxRegions then
      shiftDown (Function.update region i (region (i + 1))) (i + 1) rest
    else none

def removeRegion (table : Table) (r : ℕ) : Option Table :=
  let cnt := Word.sub table.cnt 1
  (shiftDown table.region r (cnt - r)).map fun region => ⟨cnt, region⟩

def coalesceRegions (table : Table) (r1 r2 : ℕ) : Option Table :=
  let grown : Segment :=
    ⟨(table.region r1).base, add64 (table.region r1).size (table.region r2).size⟩
  (table.put r1 grown).removeRegion r2

/-- The first loop of `memblock_add_region`, with `rest` regions to go. -/
def tryCoalesce (table : Table) (base size : ℕ) : ℕ → ℕ → Search
  | _, 0 => .exhausted
  | i, rest + 1 =>
    let rgn := table.region i
    if rgn.base = base ∧ rgn.size = size then .present
    else
      let adjacent := addrsAdjacent base size rgn.base rgn.size
      if adjacent > 0 then .extended i ⟨sub64 rgn.base size, add64 rgn.size size⟩
      else if adjacent < 0 then .extended i ⟨rgn.base, add64 rgn.size size⟩
      else tryCoalesce table base size (i + 1) rest

/-- The last loop of `memblock_add_region`, down from the region before `i`. -/
def shiftUp (base size : ℕ) : ℕ → (ℕ → Segment) → (ℕ → Segment)
  | 0, region => region
  | i + 1, region =>
    if base < (region i).base then shiftUp base size i (Function.update region (i + 1) (region i))
    else Function.update region (i + 1) ⟨base, size⟩

/-- The end of `memblock_add_region`: add the range to the sorted table. -/
def insertSorted (table : Table) (base size : ℕ) : Table :=
  let shifted := shiftUp base size table.cnt table.region
  ⟨table.cnt + 1,
    if base < (shifted 0).base then Function.update shifted 0 ⟨base, size⟩ else shifted⟩

/-- The rest of `memblock_add_region` once the first loop has ended at `i`. -/
def finishAdd (table : Table) (base size i coalesced : ℕ) : Option (Table × ℤ) :=
  if i < Word.sub table.cnt 1 ∧ table.regionsAdjacent i (i + 1) ≠ 0 then
    (table.coalesceRegions i (i + 1)).map fun joined => (joined, (coalesced : ℤ) + 1)
  else if coalesced ≠ 0 then some (table, coalesced)
  else if maxRegions ≤ table.cnt then some (table, -1)
  else some (table.insertSorted base size, 0)

def addRegion (table : Table) (base size : ℕ) : Option (Table × ℤ) :=
  if table.cnt = 1 ∧ (table.region 0).size = 0 then
    some (table.put 0 ⟨base, size⟩, 0)
  else
    match table.tryCoalesce base size 0 table.cnt with
    | .present => some (table, 0)
    | .extended i rgn => (table.put i rgn).finishAdd base size i 1
    | .exhausted => table.finishAdd base size table.cnt 0

/-- The loop of `__memblock_remove`, with `rest` regions to go. -/
def findRegion (table : Table) (base stop : ℕ) : ℕ → ℕ → Option ℕ
  | _, 0 => none
  | i, rest + 1 =>
    let rgn := table.region i
    if rgn.base ≤ base ∧ stop ≤ add64 rgn.base rgn.size then some i
    else findRegion table base stop (i + 1) rest

def remove (table : Table) (base size : ℕ) : Option (Table × ℤ) :=
  let stop := add64 base size
  match table.findRegion base stop 0 table.cnt with
  | none => some (table, -1)
  | some i =>
    let rgn := table.region i
    let rgnend := add64 rgn.base rgn.size
    if rgn.base = base ∧ rgnend = stop then
      (table.removeRegion i).map fun shorter => (shorter, 0)
    else if rgn.base = base then
      some (table.put i ⟨stop, sub64 rgn.size size⟩, 0)
    else if rgnend = stop then
      some (table.put i ⟨rgn.base, sub64 rgn.size size⟩, 0)
    else
      (table.put i ⟨rgn.base, sub64 base rgn.base⟩).addRegion stop (sub64 rgnend stop)

end Table

structure State where
  rmoSize : ℕ
  memory : Table
  reserved : Table

inductive Request where
  | add (base size : ℕ)
  | remove (base size : ℕ)
  | reserve (base size : ℕ)
  | free (base size : ℕ)

namespace State

def init : State := ⟨0, .init, .init⟩

/-- `memblock_add`, `memblock_remove`, `memblock_reserve` and `memblock_free`. -/
def step (state : State) : Request → Option State
  | .add base size =>
    let rmoSize := if base = 0 then size else state.rmoSize
    (state.memory.addRegion base size).map fun result => ⟨rmoSize, result.1, state.reserved⟩
  | .remove base size =>
    (state.memory.remove base size).map fun result => { state with memory := result.1 }
  | .reserve base size =>
    if size = 0 then none
    else (state.reserved.addRegion base size).map fun result =>
      { state with reserved := result.1 }
  | .free base size =>
    (state.reserved.remove base size).map fun result => { state with reserved := result.1 }

end State

end StreakKernel.Memblock
