import StreakKernel.PidMap.Alloc

/-!
# Histories of allocations

The allocations and frees of one namespace, with changes of `pid_max` between
them. Every page can be allocated.
-/

namespace StreakKernel.PidMap

open PidNamespace Layout

structure System where
  ns : PidNamespace
  pidMax : ℕ

inductive Request where
  | alloc
  | free (nr : ℕ)
  | setPidMax (pidMax : ℕ)
  deriving DecidableEq, Repr

variable (layout : Layout)

namespace System

def alloc (system : System) : Option ℕ × System :=
  let result := allocPidmap layout (fun _ => true) system.pidMax system.ns
  (result.1, { system with ns := result.2 })

def step (system : System) : Request → System
  | .alloc => (system.alloc layout).2
  | .free nr => { system with ns := system.ns.freePidmap layout nr }
  | .setPidMax pidMax => { system with pidMax := pidMax }

/-- Ids are freed while they are in use, and `pid_max` stays in its range. -/
def Allowed (system : System) : Request → Prop
  | .alloc => True
  | .free nr => system.ns.InUse layout nr
  | .setPidMax pidMax => InRange layout pidMax

instance (system : System) (request : Request) : Decidable (system.Allowed layout request) :=
  match request with
  | .alloc => inferInstanceAs (Decidable True)
  | .free nr => inferInstanceAs (Decidable (system.ns.InUse layout nr))
  | .setPidMax pidMax => inferInstanceAs (Decidable (InRange layout pidMax))

/-- Every page counts its clear bits, and `pid_max` is in its range. -/
structure Valid (system : System) : Prop where
  counted : system.ns.Counted layout
  inRange : InRange layout system.pidMax

/-- The last id has been freed and is the only free one, at a place where the search
does not come back to it. -/
structure LosesLast (system : System) : Prop where
  reserved : layout.reservedPids ≤ system.ns.lastPid
  inBounds : system.ns.lastPid + 1 < system.pidMax
  inPage : (system.ns.lastPid + 1) % layout.bitsPerPage ≠ 0
  free : ¬system.ns.InUse layout system.ns.lastPid
  others : ∀ pid, layout.reservedPids ≤ pid → pid < system.pidMax →
    pid ≠ system.ns.lastPid → system.ns.InUse layout pid

variable {layout}

theorem Valid.step {system : System} (valid : system.Valid layout) {request : Request}
    (allowed : system.Allowed layout request) : (system.step layout request).Valid layout := by
  cases request with
  | alloc =>
    have outcome := allocPidmap_outcome (fun _ => true) valid.inRange valid.counted
    refine ⟨?_, valid.inRange⟩
    simp only [System.step, alloc]
    rcases result : allocPidmap layout (fun _ => true) system.pidMax system.ns with ⟨_ | pid, after⟩
    · rw [result] at outcome
      exact Alike.counted outcome valid.counted
    · rw [result] at outcome
      exact outcome.2.2.counted
  | free nr => exact ⟨(freePidmap_spec allowed valid.counted).1, valid.inRange⟩
  | setPidMax pidMax => exact ⟨valid.counted, allowed⟩

theorem Valid.alloc_some {system : System} (valid : system.Valid layout) {pid : ℕ}
    (returned : (system.alloc layout).1 = some pid) :
    (0 < pid ∧ pid < system.pidMax ∧ ¬system.ns.InUse layout pid) ∧
      ∀ other, (system.alloc layout).2.ns.InUse layout other ↔
        other = pid ∨ system.ns.InUse layout other := by
  have outcome := allocPidmap_outcome (fun _ => true) valid.inRange valid.counted
  rcases result : allocPidmap layout (fun _ => true) system.pidMax system.ns with ⟨_ | found, after⟩
  · simp [alloc, result] at returned
  rw [result] at outcome
  simp only [alloc, result, Option.some.injEq] at returned
  subst returned
  simp only [alloc, result]
  exact ⟨⟨outcome.1, outcome.2.1, outcome.2.2.free⟩, outcome.2.2.inUse⟩

theorem Valid.alloc_none {system : System} (valid : system.Valid layout)
    (failed : (system.alloc layout).1 = none) (keepsLast : ¬system.LosesLast layout) {pid : ℕ}
    (reserved : layout.reservedPids ≤ pid) (inBounds : pid < system.pidMax) :
    system.ns.InUse layout pid := by
  by_contra free
  rcases allocPidmap_none valid.inRange valid.counted failed reserved inBounds
    with inUse | ⟨rfl, next, inPage⟩
  · exact free inUse
  refine keepsLast ⟨reserved, next, inPage, free, ?_⟩
  intro other otherReserved otherInBounds differs
  exact (allocPidmap_none valid.inRange valid.counted failed otherReserved
    otherInBounds).resolve_right fun isLast => differs isLast.1

/-- The counters are right; an allocation returns an id in bounds that is not in use and marks just
this one, and a free clears just the one that is freed; and an allocation fails only when all ids
from the reserved ones on are in use, unless the last id is the only one free. -/
structure Allocates (layout : Layout) (system : System) : Prop where
  counted : ∀ index < layout.pidmapEntries, (system.ns.pidmap index).nrFree =
    (Bitmap.clearBits layout.bitsPerPage (system.ns.pidmap index).bits).card
  fresh : ∀ pid, (system.alloc layout).1 = some pid →
    (0 < pid ∧ pid < system.pidMax ∧ ¬system.ns.InUse layout pid) ∧
      ∀ other, (system.alloc layout).2.ns.InUse layout other ↔
        other = pid ∨ system.ns.InUse layout other
  freed : ∀ pid, system.ns.InUse layout pid → ∀ other,
    (system.step layout (.free pid)).ns.InUse layout other ↔
      other ≠ pid ∧ system.ns.InUse layout other
  full : ¬system.LosesLast layout → (system.alloc layout).1 = none →
    ∀ pid, layout.reservedPids ≤ pid → pid < system.pidMax → system.ns.InUse layout pid

/-- In every state that a history reaches ids are allocated and freed as they should be. -/
theorem alloc_run (start : {system : System // system.Valid layout}) (requests : List Request)
    (allowed : Run.Admits (System.step layout) (System.Allowed layout) start.val requests) :
    (Run.run (System.step layout) start.val requests).Allocates layout := by
  have valid := Run.invariant_run (System.Valid layout)
    (fun _ _ isValid isAllowed => isValid.step isAllowed) start.property allowed
  exact ⟨valid.counted, fun pid returned => valid.alloc_some returned,
    fun pid inUse => (freePidmap_spec inUse valid.counted).2,
    fun keepsLast failed pid reserved inBounds =>
      valid.alloc_none failed keepsLast reserved inBounds⟩

end System

def crowded : System :=
  ⟨⟨fun _ => ⟨32466, some fun offset => decide (offset < 302)⟩, 301⟩, 302⟩

theorem crowded_valid : crowded.Valid arm := by
  refine ⟨fun index _ => ?_, by decide⟩
  have isIco : Bitmap.clearBits arm.bitsPerPage (crowded.ns.pidmap index).bits =
      Finset.Ico 302 32768 := by
    ext offset
    simp only [crowded, arm, Pidmap.bits, Option.getD_some, Bitmap.mem_clearBits,
      decide_eq_false_iff_not, not_lt, Finset.mem_Ico]
    exact and_comm
  rw [isIco, Nat.card_Ico]
  rfl

theorem alloc_run_crowded :
    (Run.run (System.step arm) crowded [.free 300, .alloc]).Allocates arm :=
  System.alloc_run ⟨crowded, crowded_valid⟩ _ (by decide +kernel)

/-- The id 300 is freed, allocated as the last one, and freed again. The next
allocation fails, although 300 is free and in bounds. -/
theorem last_pid_lost :
    let requests := [Request.free 300, Request.alloc, Request.free 300]
    let reached := Run.run (System.step arm) crowded requests
    crowded.Valid arm ∧
      Run.Admits (System.step arm) (System.Allowed arm) crowded requests ∧
      (reached.alloc arm).1 = none ∧
      ¬reached.ns.InUse arm 300 ∧ arm.reservedPids ≤ 300 ∧ 300 < reached.pidMax :=
  ⟨crowded_valid, by decide +kernel, by decide +kernel, by decide +kernel, by decide +kernel,
    by decide +kernel⟩

end StreakKernel.PidMap
