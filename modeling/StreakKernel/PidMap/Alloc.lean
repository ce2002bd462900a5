import Mathlib.Order.Interval.Finset.Nat
import StreakKernel.PidMap.Search

/-!
# Ids are unique, and the search is complete but for the last id

A failed search has seen all ids from the reserved ones to `pid_max` except the last one:
the second visit of the first page stops before it, and so does the test at the end of the
map.
-/

namespace StreakKernel.PidMap

open PidNamespace Nat

variable {layout : Layout}

/-! ## The search over the pages -/

section Scan

variable {kzalloc : ℕ → Bool} {pidMax last remaining index offset : ℕ} {ns : PidNamespace}

def topIndex (layout : Layout) (pidMax : ℕ) : ℕ :=
  (pidMax - 1) / layout.bitsPerPage

def InRange (layout : Layout) (pidMax : ℕ) : Prop :=
  layout.reservedPids < pidMax ∧ pidMax ≤ layout.pidMaxLimit
  deriving Decidable

theorem topIndex_lt (inRange : InRange layout pidMax) :
    topIndex layout pidMax < layout.pidmapEntries := by
  have pos := layout.bitsPerPage_pos
  have le := inRange.2
  have gt := inRange.1
  rw [topIndex, Layout.pidmapEntries, div_lt_iff_lt_mul pos]
  have covered := Nat.lt_div_mul_add (a := layout.pidMaxLimit + layout.bitsPerPage - 1) pos
  omega

theorem mkPid_topIndex_lt (inRange : InRange layout pidMax) (le : index ≤ topIndex layout pidMax) :
    mkPid layout index 0 < pidMax := by
  have gt := inRange.1
  have small := div_mul_le_self (pidMax - 1) layout.bitsPerPage
  have scaled := mul_le_mul_right layout.bitsPerPage le
  unfold topIndex at scaled
  unfold mkPid
  omega

theorem lt_mkPid_topIndex (layout : Layout) (pidMax : ℕ) :
    pidMax ≤ mkPid layout (topIndex layout pidMax + 1) 0 := by
  have covered := Nat.lt_div_mul_add (a := pidMax - 1) layout.bitsPerPage_pos
  simp only [mkPid, topIndex, succ_mul]
  omega

structure Entry (layout : Layout) (pidMax index offset : ℕ) : Prop where
  offsetLt : offset < layout.bitsPerPage
  pidLt : mkPid layout index offset < pidMax
  pidPos : 0 < mkPid layout index offset

theorem Entry.index_le (entry : Entry layout pidMax index offset) :
    index ≤ topIndex layout pidMax := by
  have pidLt := entry.pidLt
  rw [topIndex, le_div_iff_mul_le layout.bitsPerPage_pos]
  unfold mkPid at pidLt
  omega

section

variable (inRange : InRange layout pidMax)
include inRange

theorem Entry.next (lt : index < topIndex layout pidMax) : Entry layout pidMax (index + 1) 0 := by
  refine ⟨layout.bitsPerPage_pos, mkPid_topIndex_lt inRange lt, ?_⟩
  simp [mkPid, layout.bitsPerPage_pos]

theorem Entry.wrap : Entry layout pidMax 0 layout.reservedPids := by
  have reserved := layout.reserved_lt
  refine ⟨by omega, ?_, ?_⟩
  · simpa [mkPid] using inRange.1
  · simpa [mkPid] using layout.reserved_pos

theorem Entry.start (last : ℕ) :
    Entry layout pidMax (startPid layout pidMax last / layout.bitsPerPage)
      (startPid layout pidMax last % layout.bitsPerPage) := by
  have reserved := layout.reserved_pos
  have gt := inRange.1
  refine ⟨mod_lt _ layout.bitsPerPage_pos, ?_, ?_⟩
  all_goals
    rw [mkPid_div_mod, startPid]
    split <;> omega

end

variable {final : Bool} {map : Pidmap} {found : ℕ}

theorem visit_some (isFound : visit layout pidMax last final map index offset = some found)
    (entry : Entry layout pidMax index offset) :
    offset ≤ found ∧ found < layout.bitsPerPage ∧ mkPid layout index found < pidMax ∧
      map.bits found = false := by
  unfold visit at isFound
  split at isFound
  · exact scanPage_some isFound entry.offsetLt entry.pidLt
  · simp at isFound

theorem visit_none (notFound : visit layout pidMax last final map index offset = none)
    (count : map.nrFree = (Bitmap.clearBits layout.bitsPerPage map.bits).card)
    (entry : Entry layout pidMax index offset) {position : ℕ} (le : offset ≤ position)
    (lt : position < layout.bitsPerPage) (inBounds : mkPid layout index position < pidMax)
    (inScan : final = false ∨ mkPid layout index position < last ∨ (last + 1) % layout.bitsPerPage
      = 0) : map.bits position = true := by
  unfold visit at notFound
  split at notFound
  · exact scanPage_none notFound (by omega) entry.offsetLt le lt inBounds inScan
  · rename_i isZero
    exact Bitmap.set_of_card_clearBits_eq_zero (by omega) lt

def Outcome (layout : Layout) (pidMax : ℕ) (before : PidNamespace) :
    Option ℕ × PidNamespace → Prop
  | (some pid, after) => 0 < pid ∧ pid < pidMax ∧ Takes layout before pid after
  | (none, after) => Alike before after

theorem Outcome.of_alike {first second : PidNamespace} {result : Option ℕ × PidNamespace}
    (alike : Alike first second) (outcome : Outcome layout pidMax second result) :
    Outcome layout pidMax first result := by
  rcases result with ⟨_ | pid, after⟩
  · exact alike.trans outcome
  · exact ⟨outcome.1, outcome.2.1, outcome.2.2.of_alike alike⟩

theorem Outcome.of_visit (counted : ns.Counted layout) (entry : Entry layout pidMax index offset)
    (isFound : visit layout pidMax last final ((ns.install index).pidmap index) index offset = some
      found) :
    Outcome layout pidMax ns
      (some (mkPid layout index found), (ns.install index).take layout index found) := by
  have installed := ns.install_alike index
  have clear := visit_some isFound entry
  have takes := take_takes (ns.install_page index)
    (by simpa [installed.bits] using clear.2.2.2) (installed.counted counted) clear.2.1
  refine ⟨?_, clear.2.2.1, takes.of_alike installed⟩
  have entryPos := entry.pidPos
  unfold mkPid at entryPos ⊢
  omega

theorem scan_outcome (inRange : InRange layout pidMax) (counted : ns.Counted layout)
    (entry : Entry layout pidMax index offset) :
    Outcome layout pidMax ns (scan layout kzalloc pidMax last remaining index offset ns) := by
  have installed := ns.install_alike index
  induction remaining generalizing index offset ns with
  | zero =>
    rw [scan]
    split
    · exact Alike.refl ns
    dsimp only
    split
    · rename_i found isFound
      exact Outcome.of_visit counted entry isFound
    · split_ifs <;> exact installed
  | succ remaining ih =>
    have again := fun {index offset} (entry : Entry layout pidMax index offset) =>
      (ih (installed.counted counted) entry (install_alike _ _)).of_alike installed
    rw [scan]
    split
    · exact Alike.refl ns
    dsimp only
    split
    · rename_i found isFound
      exact Outcome.of_visit counted entry isFound
    split
    · rename_i below
      exact again (Entry.next inRange below)
    · split
      · exact installed
      · exact again (Entry.wrap inRange)

/-- A round of a search that fails, all pages being available: the visit fails, and so
does the rest of the search. -/
theorem scan_none (counted : ns.Counted layout) (inRange : InRange layout pidMax)
    (entry : Entry layout pidMax index offset)
    (failed : (scan layout (fun _ => true) pidMax last remaining index offset ns).1 = none) :
    (∀ position, offset ≤ position → position < layout.bitsPerPage →
        mkPid layout index position < pidMax →
        (remaining ≠ 0 ∨ mkPid layout index position < last ∨ (last + 1) % layout.bitsPerPage = 0) →
        ns.InUse layout (mkPid layout index position)) ∧
      (index < topIndex layout pidMax → ∀ rest, remaining = rest + 1 →
        (scan layout (fun _ => true) pidMax last rest (index + 1) 0 (ns.install index)).1 = none) ∧
      (¬index < topIndex layout pidMax → last ≠ layout.reservedPids → ∀ rest, remaining = rest + 1 →
        (scan layout (fun _ => true) pidMax last rest 0 layout.reservedPids
          (ns.install index)).1 = none) := by
  have installed := ns.install_alike index
  have count := installed.counted counted index
    (lt_of_le_of_lt entry.index_le (topIndex_lt inRange))
  rw [scan] at failed
  simp only [Bool.true_eq_false, and_false, if_false] at failed
  split at failed
  · simp at failed
  rename_i notFound
  refine ⟨fun position le lt inBounds inScan => ?_, fun below rest isSucc => ?_,
    fun top notReserved rest isSucc => ?_⟩
  · rw [inUse_mkPid lt, ← installed.bits]
    refine visit_none notFound count entry le lt inBounds ?_
    simpa using inScan
  · subst isSucc
    unfold topIndex at below
    simpa [below] using failed
  · subst isSucc
    unfold topIndex at top
    simpa [top, notReserved] using failed

section

variable (inRange : InRange layout pidMax) (counted : ns.Counted layout)
include inRange counted

/-- A search that fails and passes `pages` pages in ascending order has found all their
ids in use, and fails in the page after them. -/
theorem scan_ascend (entry : Entry layout pidMax index offset) (pages : ℕ)
    (below : index + pages ≤ topIndex layout pidMax) (enough : pages ≤ remaining)
    (failed : (scan layout (fun _ => true) pidMax last remaining index offset ns).1 = none) :
    (∀ pid, mkPid layout index offset ≤ pid → pid < mkPid layout (index + pages) 0 →
        ns.InUse layout pid) ∧
      ∃ after, Alike ns after ∧
        Entry layout pidMax (index + pages) (if pages = 0 then offset else 0) ∧
        (scan layout (fun _ => true) pidMax last (remaining - pages) (index + pages)
          (if pages = 0 then offset else 0) after).1 = none := by
  induction pages generalizing index offset remaining ns with
  | zero =>
    refine ⟨fun pid le lt => ?_, ns, Alike.refl ns, by simpa using entry, by simpa using failed⟩
    simp only [mkPid, add_zero] at le lt
    omega
  | succ pages ih =>
    obtain ⟨rest, rfl⟩ : ∃ rest, remaining = rest + 1 := ⟨remaining - 1, by omega⟩
    have indexLt : index < topIndex layout pidMax := by omega
    have installed := ns.install_alike index
    obtain ⟨here, ahead, _⟩ := scan_none counted inRange entry failed
    obtain ⟨further, after, alike, nextEntry, nextFailed⟩ :=
      ih (installed.counted counted) (Entry.next inRange indexLt) (by omega) (by omega)
        (ahead indexLt rest rfl)
    have index_eq : index + 1 + pages = index + (pages + 1) := by omega
    have offset_eq : (if pages = 0 then 0 else 0 : ℕ) = 0 := by simp
    rw [index_eq] at further nextEntry nextFailed
    refine ⟨fun pid le lt => ?_, after, installed.trans alike, ?_, ?_⟩
    · by_cases inPage : pid < mkPid layout (index + 1) 0
      · have pageLe : mkPid layout index 0 ≤ pid := by
          unfold mkPid at le ⊢
          omega
        obtain ⟨position, positionLt, rfl⟩ := exists_offset pageLe inPage
        have nextLt : mkPid layout (index + 1) 0 < pidMax := mkPid_topIndex_lt inRange indexLt
        refine here position ?_ positionLt (by omega) (.inl (by omega))
        unfold mkPid at le
        omega
      · exact (installed.inUse pid).mp (further pid (by omega) lt)
    · simpa using nextEntry
    · simpa using nextFailed

theorem scan_to_top (entry : Entry layout pidMax index offset)
    (enough : topIndex layout pidMax - index < remaining)
    (failed : (scan layout (fun _ => true) pidMax last remaining index offset ns).1 = none) :
    (∀ pid, mkPid layout index offset ≤ pid → pid < pidMax → ns.InUse layout pid) ∧
      (last ≠ layout.reservedPids → ∃ after, Alike ns after ∧
        (scan layout (fun _ => true) pidMax last
          (remaining - (topIndex layout pidMax - index) - 1) 0 layout.reservedPids
          after).1 = none) := by
  have index_le := entry.index_le
  obtain ⟨passed, after, alike, topEntry, topFailed⟩ :=
    scan_ascend inRange counted entry (topIndex layout pidMax - index) (by omega) (by omega) failed
  have index_eq : index + (topIndex layout pidMax - index) = topIndex layout pidMax := by omega
  rw [index_eq] at passed topEntry topFailed
  obtain ⟨here, _, wrapped⟩ := scan_none (alike.counted counted) inRange topEntry topFailed
  constructor
  · intro pid le lt
    by_cases before : pid < mkPid layout (topIndex layout pidMax) 0
    · exact passed pid le before
    obtain ⟨position, positionLt, rfl⟩ := exists_offset (Nat.le_of_not_lt before)
      (Nat.lt_of_lt_of_le lt (lt_mkPid_topIndex layout pidMax))
    refine (alike.inUse _).mp (here position ?_ positionLt lt (.inl (by omega)))
    split
    · rename_i samePage
      have same : index = topIndex layout pidMax := by omega
      rw [same] at le
      unfold mkPid at le
      omega
    · exact zero_le position
  · intro notReserved
    refine ⟨after.install (topIndex layout pidMax), alike.trans (install_alike _ _), ?_⟩
    exact wrapped (lt_irrefl _) notReserved _ (by omega)

theorem scan_from_reserved (index_le : index ≤ topIndex layout pidMax)
    (failed : (scan layout (fun _ => true) pidMax last index 0 layout.reservedPids ns).1 = none)
    {pid : ℕ} (reserved : layout.reservedPids ≤ pid) (inBounds : pid < pidMax)
    (inPage : pid < mkPid layout (index + 1) 0)
    (inScan : pid < last ∨ (last + 1) % layout.bitsPerPage = 0) : ns.InUse layout pid := by
  obtain ⟨passed, after, alike, entry, lastFailed⟩ :=
    scan_ascend inRange counted (Entry.wrap inRange) index (by omega) (le_refl index) failed
  rw [zero_add] at passed entry lastFailed
  by_cases before : pid < mkPid layout index 0
  · exact passed pid (by simpa [mkPid] using reserved) before
  obtain ⟨here, _, _⟩ := scan_none (alike.counted counted) inRange entry lastFailed
  obtain ⟨position, positionLt, rfl⟩ := exists_offset (Nat.le_of_not_lt before) inPage
  refine (alike.inUse _).mp (here position ?_ positionLt inBounds (.inr inScan))
  split
  · rename_i isZero
    simpa [mkPid, isZero] using reserved
  · exact zero_le position

end

end Scan

/-! ## The calls -/

section Calls

variable {pidMax : ℕ} {ns : PidNamespace}

theorem allocPidmap_outcome (kzalloc : ℕ → Bool) (inRange : InRange layout pidMax)
    (counted : ns.Counted layout) :
    Outcome layout pidMax ns (allocPidmap layout kzalloc pidMax ns) :=
  scan_outcome inRange counted (Entry.start inRange ns.lastPid)

theorem maxScan_eq (inRange : InRange layout pidMax) (offset : ℕ) :
    maxScan layout pidMax offset = topIndex layout pidMax + 1 - if offset = 0 then 1 else 0 := by
  have gt := inRange.1
  have sum_eq : pidMax + layout.bitsPerPage - 1 = pidMax - 1 + layout.bitsPerPage := by omega
  rw [maxScan, topIndex, sum_eq, add_div_right _ layout.bitsPerPage_pos]

/-- A failed search has seen every id in use, except possibly the last one. -/
theorem allocPidmap_none (inRange : InRange layout pidMax) (counted : ns.Counted layout)
    (failed : (allocPidmap layout (fun _ => true) pidMax ns).1 = none) {pid : ℕ}
    (reserved : layout.reservedPids ≤ pid) (inBounds : pid < pidMax) :
    ns.InUse layout pid ∨ pid = ns.lastPid ∧ ns.lastPid + 1 < pidMax ∧
        (ns.lastPid + 1) % layout.bitsPerPage ≠ 0 := by
  have entry := Entry.start inRange ns.lastPid
  have index_le := entry.index_le
  unfold allocPidmap at failed
  dsimp only at failed
  rw [maxScan_eq inRange] at failed
  -- Only a start in the middle of a page makes the search come back to that page.
  by_cases pageStart : startPid layout pidMax ns.lastPid % layout.bitsPerPage = 0
  · have isNext : startPid layout pidMax ns.lastPid = ns.lastPid + 1 := by
      have reservedLt := layout.reserved_lt
      have reservedPos := layout.reserved_pos
      unfold startPid at pageStart ⊢
      split
      · rename_i high
        rw [if_pos high, mod_eq_of_lt (by omega)] at pageStart
        omega
      · rfl
    rw [isNext] at entry index_le failed pageStart
    rw [if_pos pageStart] at failed
    obtain ⟨low, low_eq⟩ : ∃ low, (ns.lastPid + 1) / layout.bitsPerPage = low + 1 := by
      have positive := entry.pidPos
      rw [mkPid, pageStart, add_zero] at positive
      exact ⟨_, (Nat.succ_pred_eq_of_pos (Nat.pos_of_mul_pos_right positive)).symm⟩
    obtain ⟨upward, wrapped⟩ := scan_to_top inRange counted entry (by omega) failed
    rw [mkPid_div_mod] at upward
    left
    by_cases above : ns.lastPid + 1 ≤ pid
    · exact upward pid above inBounds
    have last_eq : ns.lastPid + 1 = mkPid layout (low + 1) 0 := by
      rw [← low_eq, ← pageStart, mkPid_div_mod]
    have notReserved : ns.lastPid ≠ layout.reservedPids := by
      have reservedLt := layout.reserved_lt
      have multiple : layout.bitsPerPage ≤ mkPid layout (low + 1) 0 := by
        simp only [mkPid, succ_mul]
        omega
      omega
    obtain ⟨after, alike, wrapFailed⟩ := wrapped notReserved
    have rounds : topIndex layout pidMax + 1 - 1 -
        (topIndex layout pidMax - (ns.lastPid + 1) / layout.bitsPerPage) - 1 = low := by
      omega
    rw [rounds] at wrapFailed
    exact (alike.inUse pid).mp (scan_from_reserved inRange (alike.counted counted)
      (by omega) wrapFailed reserved inBounds (by omega) (.inr pageStart))
  · rw [if_neg pageStart, Nat.sub_zero] at failed
    have pid_eq := @mkPid_div_mod layout (startPid layout pidMax ns.lastPid)
    have covered := Nat.lt_div_mul_add (a := startPid layout pidMax ns.lastPid)
      layout.bitsPerPage_pos
    generalize startPid layout pidMax ns.lastPid / layout.bitsPerPage = index at *
    obtain ⟨upward, wrapped⟩ := scan_to_top inRange counted entry (by omega) failed
    rw [pid_eq] at upward
    by_cases above : startPid layout pidMax ns.lastPid ≤ pid
    · exact .inl (upward pid above inBounds)
    have isNext : startPid layout pidMax ns.lastPid = ns.lastPid + 1 ∧
        ns.lastPid + 1 < pidMax := by
      unfold startPid at above ⊢
      split at above
      · omega
      · rename_i low
        exact ⟨if_neg low, by omega⟩
    by_cases isLast : pid = ns.lastPid
    · refine .inr ⟨isLast, isNext.2, ?_⟩
      rw [← isNext.1]
      exact pageStart
    have notReserved : ns.lastPid ≠ layout.reservedPids := by omega
    obtain ⟨after, alike, wrapFailed⟩ := wrapped notReserved
    have rounds : topIndex layout pidMax + 1 - (topIndex layout pidMax - index) - 1 =
        index := by
      omega
    rw [rounds] at wrapFailed
    have inPage : pid < mkPid layout (index + 1) 0 := by
      simp only [mkPid, succ_mul]
      omega
    exact .inl ((alike.inUse pid).mp (scan_from_reserved inRange (alike.counted counted)
      index_le wrapFailed reserved inBounds inPage (.inl (by omega))))

end Calls

end StreakKernel.PidMap
