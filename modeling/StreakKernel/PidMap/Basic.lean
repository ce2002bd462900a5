import StreakKernel.Lib.Bitmap
import StreakKernel.Lib.Run

/-!
# Allocating process ids

`alloc_pidmap` and `free_pidmap` of `kernel/pid.c`, called one at a time. A
namespace keeps the ids in use in bitmap pages that are allocated on first use;
each page counts its clear bits. `pid_max` can be changed between the calls.
-/

namespace StreakKernel.PidMap

/-- The constants of the build: the bits of a page, `RESERVED_PIDS` and
`PID_MAX_LIMIT`. -/
structure Layout where
  bitsPerPage : ℕ
  reservedPids : ℕ
  pidMaxLimit : ℕ
  reserved_pos : 0 < reservedPids
  reserved_lt : reservedPids + 1 < bitsPerPage

namespace Layout

/-- On a 32-bit machine all ids fit into one page. -/
def arm : Layout :=
  ⟨32768, 300, 32768, by decide, by decide⟩

def pidmapEntries (layout : Layout) : ℕ :=
  (layout.pidMaxLimit + layout.bitsPerPage - 1) / layout.bitsPerPage

theorem bitsPerPage_pos (layout : Layout) : 0 < layout.bitsPerPage := by
  have := layout.reserved_lt
  omega

end Layout

/-- A page of the map, which is absent until it is first needed. -/
structure Pidmap where
  nrFree : ℤ
  page : Option (ℕ → Bool)

/-- The bits of a page that is absent are clear. -/
def Pidmap.bits (map : Pidmap) : ℕ → Bool :=
  map.page.getD fun _ => false

structure PidNamespace where
  pidmap : ℕ → Pidmap
  lastPid : ℕ

variable (layout : Layout)

def mkPid (index offset : ℕ) : ℕ :=
  index * layout.bitsPerPage + offset

def findNextOffset (page : ℕ → Bool) (offset : ℕ) : ℕ :=
  Bitmap.nextZero page (layout.bitsPerPage - offset) offset

namespace PidNamespace

def InUse (ns : PidNamespace) (pid : ℕ) : Prop :=
  (ns.pidmap (pid / layout.bitsPerPage)).bits (pid % layout.bitsPerPage) = true
  deriving Decidable

def setMap (ns : PidNamespace) (index : ℕ) (map : Pidmap) : PidNamespace :=
  { ns with pidmap := Function.update ns.pidmap index map }

/-- The bit is cleared in the page of the id, which has to be there. -/
def freePidmap (ns : PidNamespace) (nr : ℕ) : PidNamespace :=
  let map := ns.pidmap (nr / layout.bitsPerPage)
  ns.setMap (nr / layout.bitsPerPage)
    ⟨map.nrFree + 1, map.page.map fun page => Function.update page (nr % layout.bitsPerPage) false⟩

def install (ns : PidNamespace) (index : ℕ) : PidNamespace :=
  let map := ns.pidmap index
  match map.page with
  | none => ns.setMap index { map with page := some fun _ => false }
  | some _ => ns

/-- The clear bit found at `offset` is set, and its id is the last one. -/
def take (ns : PidNamespace) (index offset : ℕ) : PidNamespace :=
  let map := ns.pidmap index
  { ns.setMap index ⟨map.nrFree - 1,
      map.page.map fun page => Function.update page offset true⟩ with
    lastPid := mkPid layout index offset }

end PidNamespace

/-- The `do` loop over one page. The last visit goes on only before the last id, unless that is
the end of a page. One round per bit is enough. -/
def scanPage (pidMax last : ℕ) (final : Bool) (page : ℕ → Bool) (index : ℕ) :
    ℕ → ℕ → Option ℕ
  | 0, _ => none
  | fuel + 1, offset =>
    if page offset = false then some offset
    else
      let next := findNextOffset layout page offset
      let pid := mkPid layout index next
      if next < layout.bitsPerPage ∧ pid < pidMax ∧
          (final = false ∨ pid < last ∨ (last + 1) % layout.bitsPerPage = 0) then
        scanPage pidMax last final page index fuel next
      else none

/-- The search in one page, which is skipped when its counter is zero. -/
def visit (pidMax last : ℕ) (final : Bool) (map : Pidmap) (index offset : ℕ) : Option ℕ :=
  if map.nrFree ≠ 0 then
    scanPage layout pidMax last final map.bits index layout.bitsPerPage offset
  else none

/-- The `for` loop with its remaining rounds, the last of them zero. `kzalloc` tells which pages
can be allocated. -/
def scan (kzalloc : ℕ → Bool) (pidMax last : ℕ) :
    ℕ → ℕ → ℕ → PidNamespace → Option ℕ × PidNamespace
  | remaining, index, offset, ns =>
    if (ns.pidmap index).page.isNone ∧ kzalloc index = false then (none, ns)
    else
      let ns := ns.install index
      match visit layout pidMax last (remaining == 0) (ns.pidmap index) index offset with
      | some found => (some (mkPid layout index found), ns.take layout index found)
      | none =>
        if index < (pidMax - 1) / layout.bitsPerPage then
          match remaining with
          | 0 => (none, ns)
          | remaining + 1 => scan kzalloc pidMax last remaining (index + 1) 0 ns
        else if last = layout.reservedPids then (none, ns)
        else
          match remaining with
          | 0 => (none, ns)
          | remaining + 1 => scan kzalloc pidMax last remaining 0 layout.reservedPids ns

def startPid (pidMax last : ℕ) : ℕ :=
  if pidMax ≤ last + 1 then layout.reservedPids else last + 1

def maxScan (pidMax offset : ℕ) : ℕ :=
  (pidMax + layout.bitsPerPage - 1) / layout.bitsPerPage - if offset = 0 then 1 else 0

/-- The id, or `none` for the answer -1. -/
def allocPidmap (kzalloc : ℕ → Bool) (pidMax : ℕ) (ns : PidNamespace) :
    Option ℕ × PidNamespace :=
  let pid := startPid layout pidMax ns.lastPid
  let offset := pid % layout.bitsPerPage
  scan layout kzalloc pidMax ns.lastPid (maxScan layout pidMax offset)
    (pid / layout.bitsPerPage) offset ns

end StreakKernel.PidMap
