import StreakKernel.FdTable.Basic

/-!
# Reserved descriptors

`next_fd` is only a hint, but every descriptor below it is open. A reserved descriptor has its bit
and no file, which is what keeps `sys_close` and `sys_dup3` from it.
-/

namespace StreakKernel.FdTable

open Run Nat Files

theorem Limits.lt_allocFdtable (limits : Limits) {nr : ℕ} (small : nr < limits.nrOpen) :
    nr < limits.allocFdtable nr := by
  have bound := limits.nrOpenMax
  have lt : nr / 256 < 2 ^ size (nr / 256) := lt_size_self _
  have le : 2 ^ size (nr / 256) ≤ 2 ^ 22 := by
    refine Nat.pow_le_pow_right (by decide) (Nat.size_le.mpr ?_)
    omega
  have clipped : limits.nrOpen - 1 ≤ (limits.nrOpen - 1) ||| 31 := Nat.left_le_or
  unfold allocFdtable
  dsimp only
  split <;> omega

theorem Limits.allocFdtable_le (limits : Limits) (nr : ℕ) :
    limits.allocFdtable nr ≤ 1073741824 := by
  have bound := limits.nrOpenMax
  have clipped : (limits.nrOpen - 1) ||| 31 < 2 ^ 30 := or_lt_two_pow (by omega) (by decide)
  unfold allocFdtable
  dsimp only
  split <;> omega

namespace Files

variable {files : Files} {limits : Limits} {fd : ℕ}

structure Sound (files : Files) : Prop where
  below : ∀ fd < files.nextFd, files.openFds fd = true
  beyond : ∀ fd, files.maxFds ≤ fd → files.openFds fd = false
  installed : ∀ fd, files.fd fd ≠ none → files.openFds fd = true
  bound : files.maxFds ≤ 1073741824

structure Reserves (files : Files) (reserved : List ℕ) : Prop where
  nodup : reserved.Nodup
  isOpen : ∀ fd ∈ reserved, files.openFds fd = true
  empty : ∀ fd ∈ reserved, files.fd fd = none

theorem Sound.lt_maxFds (sound : files.Sound) (isOpen : files.openFds fd = true) :
    fd < files.maxFds := by
  by_contra beyond
  rw [sound.beyond fd (not_lt.mp beyond)] at isOpen
  cases isOpen

theorem Sound.nextFd_le (sound : files.Sound) : files.nextFd ≤ files.maxFds := by
  by_contra beyond
  have isOpen := sound.below files.maxFds (not_le.mp beyond)
  exact lt_irrefl _ (sound.lt_maxFds isOpen)

theorem Sound.expandFdtable (sound : files.Sound) (nr : ℕ) {maxFds : ℕ} (grows : nr < maxFds)
    (bound : maxFds ≤ 1073741824) :
    (files.expandFdtable nr maxFds).Sound ∧
      (files.expandFdtable nr maxFds).openFds = files.openFds ∧
      nr < (files.expandFdtable nr maxFds).maxFds := by
  unfold Files.expandFdtable
  split
  · have same : ∀ fd, (if fd < files.maxFds then files.openFds fd else false) =
        files.openFds fd := by
      intro fd
      split
      · rfl
      · next beyond => exact (sound.beyond fd (not_lt.mp beyond)).symm
    refine ⟨⟨?_, ?_, ?_, bound⟩, funext same, grows⟩
    all_goals
      simp only [same]
    · exact sound.below
    · exact fun fd beyond => sound.beyond fd (by omega)
    intro fd present
    split at present
    · exact sound.installed fd present
    · exact absurd rfl present
  · next fits => exact ⟨sound, rfl, not_le.mp fits⟩

theorem Reserves.expandFdtable {reserved : List ℕ} (reserves : files.Reserves reserved)
    (sound : files.Sound) (nr : ℕ) {maxFds : ℕ} (grows : nr < maxFds)
    (bound : maxFds ≤ 1073741824) : (files.expandFdtable nr maxFds).Reserves reserved := by
  have same := (sound.expandFdtable nr grows bound).2.1
  refine ⟨reserves.nodup, fun fd mem => same ▸ reserves.isOpen fd mem, fun fd mem => ?_⟩
  have empty := reserves.empty fd mem
  unfold Files.expandFdtable
  split
  · dsimp only
    split
    · exact empty
    · rfl
  · exact empty

namespace Sound

/-- All descriptors from `start` up to the candidate are open, and if the table has the candidate,
it is not. -/
theorem candidate (sound : files.Sound) (start : ℕ) : start ≤ files.candidate start ∧
      (∀ fd, start ≤ fd → fd < files.candidate start → files.openFds fd = true) ∧
      (files.candidate start < files.maxFds → files.openFds (files.candidate start) = false) ∧
      (files.candidate start = start ∨ files.candidate start ≤ files.maxFds) ∧
      files.nextFd ≤ files.candidate start := by
  have hint := sound.nextFd_le
  unfold Files.candidate
  generalize isFirst : (if start < files.nextFd then files.nextFd else start) = first
  have starts : start ≤ first ∧ files.nextFd ≤ first ∧
      (first = start ∨ first = files.nextFd ∧ start < files.nextFd) := by
    split at isFirst <;> omega
  have open_before : ∀ fd, start ≤ fd → fd < first → files.openFds fd = true := by
    intro fd from_start before
    exact sound.below fd (by omega)
  dsimp only
  split
  · next inTable =>
      have lower := @Bitmap.le_nextZero files.openFds (files.maxFds - first) first
      have upper := @Bitmap.nextZero_le files.openFds (files.maxFds - first) first
      refine ⟨by omega, fun fd from_start before => ?_, fun found => ?_, by omega, by omega⟩
      · by_cases early : fd < first
        · exact open_before fd from_start early
        · exact Bitmap.set_of_lt_nextZero (not_lt.mp early) before
      · exact Bitmap.clear_nextZero (by omega)
  · next beyond =>
      exact ⟨starts.1, open_before, fun found => absurd found beyond, by omega, starts.2.1⟩

theorem put (sound : files.Sound) (fd : ℕ) (empty : files.fd fd = none) :
    (files.putUnusedFd fd).Sound := by
  refine ⟨fun other before => ?_, fun other beyond => ?_, fun other present => ?_, sound.bound⟩
  · have differ : other ≠ fd ∧ other < files.nextFd := by
      simp only [putUnusedFd] at before
      split at before <;> omega
    simpa [putUnusedFd, differ.1] using sound.below other differ.2
  · by_cases same : other = fd
    · simp [putUnusedFd, same]
    · simpa [putUnusedFd, same] using sound.beyond other beyond
  have differ : other ≠ fd := by
    rintro rfl
    exact present empty
  simpa [putUnusedFd, differ] using sound.installed other present

theorem clear (sound : files.Sound) (fd : ℕ) :
    Sound { files with fd := Function.update files.fd fd none } := by
  refine ⟨sound.below, sound.beyond, fun other present => ?_, sound.bound⟩
  by_cases same : other = fd
  · simp [same] at present
  · exact sound.installed other (by simpa [same] using present)

theorem close (sound : files.Sound) (fd : ℕ) : (files.close fd).Sound := by
  unfold Files.close
  split
  · exact sound
  · exact (sound.clear fd).put fd (by simp)

theorem fdInstall (sound : files.Sound) {file : ℕ} (isOpen : files.openFds fd = true) :
    (files.fdInstall fd file).Sound := by
  refine ⟨sound.below, sound.beyond, fun other present => ?_, sound.bound⟩
  by_cases same : other = fd
  · exact same ▸ isOpen
  · exact sound.installed other (by simpa [Files.fdInstall, same] using present)

theorem update (sound : files.Sound) (inTable : fd < files.maxFds) (file : Option ℕ) :
    Sound { files with
      openFds := Function.update files.openFds fd true
      fd := Function.update files.fd fd file } := by
  have opened : ∀ other, files.openFds other = true →
      Function.update files.openFds fd true other = true := by
    intro other isOpen
    by_cases same : other = fd
    · simp [same]
    · simpa [same] using isOpen
  refine ⟨fun other before => opened other (sound.below other before), fun other beyond => ?_,
    fun other present => ?_, sound.bound⟩
  · have differ : other ≠ fd := by
      rintro rfl
      exact absurd inTable (not_lt.mpr beyond)
    simpa [differ] using sound.beyond other beyond
  · by_cases same : other = fd
    · simp [same]
    · exact opened other (sound.installed other (by simpa [same] using present))

theorem dup3 (sound : files.Sound) (oldfd : ℕ) (inTable : fd < files.maxFds) :
    (files.dup3 oldfd fd).Sound := by
  unfold Files.dup3
  split
  · exact sound
  · split
    · exact sound
    · exact sound.update inTable _

end Sound

section Reserves

variable {reserved : List ℕ}

section Reserving

variable (reserves : files.Reserves reserved)
include reserves

namespace Reserves

theorem close_eq (mem : fd ∈ reserved) : files.close fd = files :=
  if_pos (Or.inr (reserves.empty fd mem))

theorem dup3_eq (oldfd : ℕ) (mem : fd ∈ reserved) : files.dup3 oldfd fd = files := by
  unfold Files.dup3
  split
  · rfl
  · exact if_pos ⟨reserves.empty fd mem, reserves.isOpen fd mem⟩

theorem of_others {changed : Files} (apart : fd ∉ reserved)
    (sameOpen : ∀ other ≠ fd, changed.openFds other = files.openFds other)
    (sameFile : ∀ other ≠ fd, changed.fd other = files.fd other) : changed.Reserves reserved := by
  refine ⟨reserves.nodup, fun other mem => ?_, fun other mem => ?_⟩
  · have differ : other ≠ fd := fun same => apart (same ▸ mem)
    rw [sameOpen other differ]
    exact reserves.isOpen other mem
  · have differ : other ≠ fd := fun same => apart (same ▸ mem)
    rw [sameFile other differ]
    exact reserves.empty other mem

theorem close (fd : ℕ) : (files.close fd).Reserves reserved := by
  by_cases mem : fd ∈ reserved
  · rwa [reserves.close_eq mem]
  unfold Files.close
  split
  · exact reserves
  · refine reserves.of_others mem (fun other differ => ?_) fun other differ => ?_
    all_goals simp [putUnusedFd, differ]

theorem dup3 (oldfd fd : ℕ) : (files.dup3 oldfd fd).Reserves reserved := by
  by_cases mem : fd ∈ reserved
  · rwa [reserves.dup3_eq oldfd mem]
  unfold Files.dup3
  split
  · exact reserves
  split
  · exact reserves
  · refine reserves.of_others mem (fun other differ => ?_) fun other differ => ?_
    · simp [differ]
    · simp [differ]

theorem erase {changed : Files}
    (sameOpen : ∀ other ≠ fd, changed.openFds other = files.openFds other)
    (sameFile : ∀ other ≠ fd, changed.fd other = files.fd other) :
    changed.Reserves (reserved.erase fd) := by
  have rest : files.Reserves (reserved.erase fd) :=
    ⟨reserves.nodup.erase fd,
      fun other mem => reserves.isOpen other (List.mem_of_mem_erase mem),
      fun other mem => reserves.empty other (List.mem_of_mem_erase mem)⟩
  exact rest.of_others (reserves.nodup.not_mem_erase) sameOpen sameFile

end Reserves

end Reserving

end Reserves

end Files

end StreakKernel.FdTable
