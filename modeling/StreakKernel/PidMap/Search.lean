import Mathlib.Algebra.Order.Group.Nat
import StreakKernel.PidMap.Basic

/-!
# What the search for a free id visits

`scan_ascend` joins the intervals that an unsuccessful search of a page has seen in use.
An unsuccessful search consists of two ascents, from the id after the last one to
`pid_max`, and from the reserved ids to the page where it began.
-/

namespace StreakKernel.PidMap

open Bitmap

variable {layout : Layout}

/-! ## Ids and positions -/

theorem mkPid_div {index offset : ℕ} (lt : offset < layout.bitsPerPage) :
    mkPid layout index offset / layout.bitsPerPage = index := by
  rw [mkPid, mul_comm, Nat.mul_add_div layout.bitsPerPage_pos, Nat.div_eq_of_lt lt, add_zero]

theorem mkPid_mod {index offset : ℕ} (lt : offset < layout.bitsPerPage) :
    mkPid layout index offset % layout.bitsPerPage = offset := by
  rw [mkPid, mul_comm, Nat.mul_add_mod, Nat.mod_eq_of_lt lt]

theorem mkPid_div_mod (pid : ℕ) :
    mkPid layout (pid / layout.bitsPerPage) (pid % layout.bitsPerPage) = pid :=
  Nat.div_add_mod' pid layout.bitsPerPage

theorem mkPid_succ (index : ℕ) :
    mkPid layout (index + 1) 0 = mkPid layout index layout.bitsPerPage := by
  simp [mkPid, Nat.succ_mul]

theorem exists_offset {index pid : ℕ} (le : mkPid layout index 0 ≤ pid)
    (lt : pid < mkPid layout (index + 1) 0) :
    ∃ offset < layout.bitsPerPage, pid = mkPid layout index offset := by
  rw [mkPid_succ] at lt
  unfold mkPid at le lt ⊢
  exact ⟨pid - index * layout.bitsPerPage, by omega, by omega⟩

theorem inUse_mkPid {ns : PidNamespace} {index offset : ℕ} (lt : offset < layout.bitsPerPage) :
    ns.InUse layout (mkPid layout index offset) ↔ (ns.pidmap index).bits offset = true := by
  rw [PidNamespace.InUse, mkPid_div lt, mkPid_mod lt]

/-! ## One page -/

section Page

variable {pidMax last index fuel offset : ℕ} {final : Bool} {page : ℕ → Bool}

theorem lt_findNextOffset (isSet : page offset = true) (lt : offset < layout.bitsPerPage) :
    offset < findNextOffset layout page offset := by
  unfold findNextOffset
  obtain ⟨n, isSucc⟩ := Nat.exists_eq_add_of_lt lt
  have sub_eq : layout.bitsPerPage - offset = n + 1 := by omega
  rw [sub_eq]
  exact lt_nextZero isSet

theorem scanPage_some {found : ℕ}
    (isFound : scanPage layout pidMax last final page index fuel offset = some found)
    (lt : offset < layout.bitsPerPage) (inBounds : mkPid layout index offset < pidMax) :
    offset ≤ found ∧ found < layout.bitsPerPage ∧ mkPid layout index found < pidMax ∧
      page found = false := by
  induction fuel generalizing offset with
  | zero => simp [scanPage] at isFound
  | succ fuel ih =>
    rw [scanPage] at isFound
    split at isFound
    · rename_i clear
      obtain rfl := Option.some.inj isFound
      exact ⟨le_refl _, lt, inBounds, clear⟩
    rename_i isSet
    dsimp only at isFound
    split at isFound
    · rename_i goesOn
      have further := ih isFound goesOn.1 goesOn.2.1
      have later := lt_findNextOffset (by simpa using isSet) lt
      exact ⟨by omega, further.2⟩
    · simp at isFound

theorem scanPage_none (notFound : scanPage layout pidMax last final page index fuel offset = none)
    (enough : layout.bitsPerPage - offset ≤ fuel) (lt : offset < layout.bitsPerPage) {pos : ℕ}
    (le : offset ≤ pos) (positionLt : pos < layout.bitsPerPage)
    (inBounds : mkPid layout index pos < pidMax)
    (inScan : final = false ∨ mkPid layout index pos < last ∨ (last + 1) % layout.bitsPerPage = 0) :
    page pos = true := by
  induction fuel generalizing offset with
  | zero => omega
  | succ fuel ih =>
    rw [scanPage] at notFound
    split at notFound
    · simp at notFound
    rename_i isSet
    have later := lt_findNextOffset (by simpa using isSet) lt
    by_cases before : pos < findNextOffset layout page offset
    · exact set_of_lt_nextZero le before
    have pid_le : mkPid layout index (findNextOffset layout page offset) ≤
        mkPid layout index pos := by
      unfold mkPid
      omega
    have goesOn : findNextOffset layout page offset < layout.bitsPerPage ∧
        mkPid layout index (findNextOffset layout page offset) < pidMax ∧
        (final = false ∨ mkPid layout index (findNextOffset layout page offset) < last ∨
          (last + 1) % layout.bitsPerPage = 0) := by
      refine ⟨by omega, by omega, ?_⟩
      rcases inScan with notFinal | beforeLast | pageEnd
      · exact .inl notFinal
      · exact .inr (.inl (by omega))
      · exact .inr (.inr pageEnd)
    rw [if_pos goesOn] at notFound
    exact ih notFound (by omega) goesOn.1 (by omega)

end Page

/-! ## The counters of the pages -/

namespace PidNamespace

def Counted (layout : Layout) (ns : PidNamespace) : Prop :=
  ∀ index < layout.pidmapEntries, (ns.pidmap index).nrFree =
    (clearBits layout.bitsPerPage (ns.pidmap index).bits).card

/-- Two namespaces that differ only in pages that are absent or clear. -/
structure Alike (before after : PidNamespace) : Prop where
  bits : ∀ index, (after.pidmap index).bits = (before.pidmap index).bits
  nrFree : ∀ index, (after.pidmap index).nrFree = (before.pidmap index).nrFree
  lastPid : after.lastPid = before.lastPid

theorem Alike.refl (ns : PidNamespace) : Alike ns ns :=
  ⟨fun _ => rfl, fun _ => rfl, rfl⟩

variable {first second third before after ns : PidNamespace} {index offset : ℕ}

theorem Alike.trans (left : Alike first second) (right : Alike second third) : Alike first third :=
  ⟨fun index => (right.bits index).trans (left.bits index),
    fun index => (right.nrFree index).trans (left.nrFree index),
    right.lastPid.trans left.lastPid⟩

theorem Alike.inUse (alike : Alike before after) (pid : ℕ) :
    after.InUse layout pid ↔ before.InUse layout pid := by
  rw [InUse, InUse, alike.bits]

theorem Alike.counted (alike : Alike before after) (counted : before.Counted layout) :
    after.Counted layout := by
  intro index lt
  rw [alike.bits, alike.nrFree]
  exact counted index lt

theorem install_alike (ns : PidNamespace) (index : ℕ) : Alike ns (ns.install index) := by
  unfold install
  dsimp only
  split
  · rename_i absent
    refine ⟨fun other => ?_, fun other => ?_, rfl⟩
    · by_cases same : other = index
      · subst same
        simp [setMap, Pidmap.bits, absent]
      · simp [setMap, same]
    by_cases same : other = index
    · subst same
      simp [setMap]
    · simp [setMap, same]
  · exact Alike.refl ns

theorem install_page (ns : PidNamespace) (index : ℕ) :
    ((ns.install index).pidmap index).page = some ((ns.pidmap index).bits) := by
  unfold install
  dsimp only
  split
  · rename_i absent
    simp [setMap, Pidmap.bits, absent]
  · rename_i page present
    simp [Pidmap.bits, present]

structure Replaced (before after : PidNamespace) (index : ℕ) (bits : ℕ → Bool) : Prop where
  replaced : (after.pidmap index).bits = bits
  kept : ∀ other, other ≠ index → after.pidmap other = before.pidmap other

theorem Replaced.inUse {value : Bool}
    (replaced : Replaced before after index (Function.update (before.pidmap index).bits offset
      value)) (lt : offset < layout.bitsPerPage) (pid : ℕ) :
    after.InUse layout pid ↔
      if pid = mkPid layout index offset then value = true else before.InUse layout pid := by
  by_cases samePage : pid / layout.bitsPerPage = index
  · rw [InUse, InUse, samePage, replaced.replaced]
    by_cases sameOffset : pid % layout.bitsPerPage = offset
    · have same : pid = mkPid layout index offset := by
        rw [← samePage, ← sameOffset, mkPid_div_mod]
      simp [same, mkPid_mod lt]
    have differs : pid ≠ mkPid layout index offset := by
      rintro rfl
      exact sameOffset (mkPid_mod lt)
    simp [sameOffset, differs]
  have differs : pid ≠ mkPid layout index offset := by
    rintro rfl
    exact samePage (mkPid_div lt)
  rw [if_neg differs, InUse, InUse, replaced.kept _ samePage]

theorem Replaced.counted {bits : ℕ → Bool} (replaced : Replaced before after index bits)
    (counted : before.Counted layout)
    (count : (after.pidmap index).nrFree - (before.pidmap index).nrFree =
      (clearBits layout.bitsPerPage bits).card - (clearBits layout.bitsPerPage
        (before.pidmap index).bits).card) : after.Counted layout := by
  intro other otherLt
  by_cases same : other = index
  · subst same
    have before_eq := counted other otherLt
    rw [replaced.replaced]
    omega
  · rw [replaced.kept other same]
    exact counted other otherLt

structure Takes (layout : Layout) (before : PidNamespace) (pid : ℕ) (after : PidNamespace) :
    Prop where
  free : ¬before.InUse layout pid
  counted : after.Counted layout
  inUse : ∀ other, after.InUse layout other ↔ other = pid ∨ before.InUse layout other
  lastPid : after.lastPid = pid

theorem take_takes {page : ℕ → Bool} (present : (ns.pidmap index).page = some page)
    (clear : page offset = false) (counted : ns.Counted layout) (lt : offset < layout.bitsPerPage) :
    Takes layout ns (mkPid layout index offset) (ns.take layout index offset) := by
  have bits_eq : (ns.pidmap index).bits = page := by simp [Pidmap.bits, present]
  have replaced : Replaced ns (ns.take layout index offset) index
      (Function.update (ns.pidmap index).bits offset true) := by
    refine ⟨?_, fun other differs => ?_⟩
    · simp [take, setMap, Pidmap.bits, present]
    · simp [take, setMap, differs]
  refine ⟨?_, ?_, ?_, rfl⟩
  · rw [inUse_mkPid lt, bits_eq, clear]
    simp
  · have cards := card_clearBits_set lt clear
    have nrFree_eq : ((ns.take layout index offset).pidmap index).nrFree =
        (ns.pidmap index).nrFree - 1 := by
      simp [take, setMap]
    refine replaced.counted counted ?_
    rw [nrFree_eq, bits_eq]
    omega
  · intro other
    rw [replaced.inUse lt]
    by_cases same : other = mkPid layout index offset <;> simp [same]

theorem Takes.of_alike {pid : ℕ} (alike : Alike first second)
    (takes : Takes layout second pid third) : Takes layout first pid third := by
  refine ⟨fun inUse => takes.free ((alike.inUse pid).mpr inUse), takes.counted, ?_, takes.lastPid⟩
  intro other
  rw [takes.inUse, alike.inUse]

theorem freePidmap_spec {nr : ℕ} (inUse : ns.InUse layout nr) (counted : ns.Counted layout) :
    (ns.freePidmap layout nr).Counted layout ∧
      ∀ other, (ns.freePidmap layout nr).InUse layout other ↔
        other ≠ nr ∧ ns.InUse layout other := by
  have lt : nr % layout.bitsPerPage < layout.bitsPerPage := Nat.mod_lt _ layout.bitsPerPage_pos
  have replaced : Replaced ns (ns.freePidmap layout nr) (nr / layout.bitsPerPage)
      (Function.update (ns.pidmap (nr / layout.bitsPerPage)).bits
        (nr % layout.bitsPerPage) false) := by
    refine ⟨?_, fun other differs => ?_⟩
    · cases present : (ns.pidmap (nr / layout.bitsPerPage)).page with
      | none => simp [InUse, Pidmap.bits, present] at inUse
      | some page => simp [freePidmap, setMap, Pidmap.bits, present]
    · simp [freePidmap, setMap, differs]
  constructor
  · have cards := card_clearBits_clear lt inUse
    have nrFree_eq : ((ns.freePidmap layout nr).pidmap (nr / layout.bitsPerPage)).nrFree =
        (ns.pidmap (nr / layout.bitsPerPage)).nrFree + 1 := by
      simp [freePidmap, setMap]
    refine replaced.counted counted ?_
    rw [nrFree_eq]
    omega
  · intro other
    rw [replaced.inUse lt, mkPid_div_mod]
    by_cases same : other = nr <;> simp [same]

end PidNamespace

end StreakKernel.PidMap
