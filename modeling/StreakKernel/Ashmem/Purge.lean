import StreakKernel.Ashmem.Invariant

/-!
# Pinning reports purged pages

A page is lost from the moment the shrinker truncates it to the next pin that covers it.

Lost pages lie in ranges that are flagged as purged. The flag disappears with the range
when `range_alloc` fails: a pin that punches a hole drops the upper half, and an unpin has
already deleted the ranges it wanted to merge.
-/

namespace StreakKernel.Ashmem

open Run

structure Watched where
  state : State
  lost : Set ℕ

def truncatedPages (asma : ℕ) (truncated : List Truncation) : Set ℕ :=
  {page | ∃ truncation ∈ truncated, truncation.asma = asma ∧
    truncation.pgstart ≤ page ∧ page ≤ truncation.pgend}

namespace Watched

def init : Watched := ⟨State.init, ∅⟩

def trackLost (asma : ℕ) (state : State) (request : Request) (lost : Set ℕ) : Set ℕ :=
  match request with
  | .release target => if target = asma then ∅ else lost
  | _ =>
    match pinEffect state request with
    | some effect =>
      if effect.asma = asma ∧ effect.command = .pin then
        lost \ Set.Icc effect.pgstart effect.pgend
      else lost
    | none => lost ∪ truncatedPages asma (execute state request).truncated

def step (asma : ℕ) (watched : Watched) (request : Request) : Watched :=
  ⟨Ashmem.step watched.state request, trackLost asma watched.state request watched.lost⟩

end Watched

/-- A failing `range_alloc` loses no purged range: a pin punches no hole into one, and an unpin
that is not covered meets none. -/
def KeepsPurged (state : State) (request : Request) : Prop :=
  allocOutcome request = true ∨ ∀ effect ∈ pinEffect state request,
    (effect.command = .pin → ∀ range ∈ state.unpinned effect.asma, range.purged = true →
      ¬(range.pgstart < effect.pgstart ∧ effect.pgend < range.pgend)) ∧
    (effect.command = .unpin → (∃ range ∈ state.unpinned effect.asma,
        pageRangeSubsumedByRange range effect.pgstart effect.pgend) ∨
      ∀ range ∈ state.unpinned effect.asma, range.purged = true →
        min range.pgend effect.pgend < max range.pgstart effect.pgstart)
  deriving Decidable

/-- A pin that covers a lost page returns `ASHMEM_WAS_PURGED`. -/
def PinReports (asma : ℕ) (watched : Watched) : Prop :=
  ∀ offset len allocOk first last,
    pinEffect watched.state (.pinUnpin asma .pin offset len true allocOk) =
      some ⟨asma, .pin, first, last⟩ →
    (watched.lost ∩ Set.Icc first last).Nonempty →
    (execute watched.state (.pinUnpin asma .pin offset len true allocOk)).ret = ashmemWasPurged

structure LostFlagged (asma : ℕ) (watched : Watched) : Prop where
  inv : Inv watched.state
  flagged : watched.lost ⊆ flaggedPages true (watched.state.unpinned asma)

/-! ## Shrinking -/

variable {state : State} {asma : ℕ} {request : Request} {lost : Set ℕ}

theorem flaggedPages_purge {ptr : RangePtr} {range : Range}
    (found : state.rangeAt ptr = some range) :
    flaggedPages true (state.unpinned asma) ∪
        truncatedPages asma [⟨ptr.asma, range.pgstart, range.pgend⟩] ⊆
      flaggedPages true ((purge state ptr range).unpinned asma) := by
  rw [unpinned_purge]
  rintro page (⟨old, mem, purged, inside⟩ | ⟨truncation, mem, here, inside⟩)
  · split_ifs
    · refine ⟨if old.id = ptr.id then { old with purged := true } else old,
        List.mem_map.mpr ⟨old, mem, rfl⟩, ?_, ?_⟩
      · split_ifs
        · rfl
        · exact purged
      · split_ifs <;> exact inside
    · exact ⟨old, mem, purged, inside⟩
  simp only [List.mem_singleton] at mem
  subst mem
  rcases State.mem_of_rangeAt found with ⟨inList, idEq⟩
  rw [if_pos here.symm, ← here]
  refine ⟨{ range with purged := true }, List.mem_map.mpr ⟨range, inList, ?_⟩, rfl, inside⟩
  rw [if_pos idEq]

theorem flaggedPages_shrinkLoop (ok : LruOk state) (nrToScan : ℤ) (asma : ℕ) :
    flaggedPages true (state.unpinned asma) ∪
        truncatedPages asma (shrinkLoop state.lru.list nrToScan state).2 ⊆
      flaggedPages true ((shrinkLoop state.lru.list nrToScan state).1.unpinned asma) := by
  refine shrinkLoop_induction (motive := fun state result =>
    flaggedPages true (state.unpinned asma) ∪ truncatedPages asma result.2 ⊆
      flaggedPages true (result.1.unpinned asma)) ?_ ?_ nrToScan ok
  · intro state _
    simp [truncatedPages]
  intro state ptr range rest _ found _ result
  rintro page (old | ⟨truncation, mem, here, inside⟩)
  · exact result (.inl (flaggedPages_purge found (.inl old)))
  rcases List.mem_cons.mp mem with rfl | inRest
  · exact result (.inl (flaggedPages_purge found
      (.inr ⟨_, List.mem_singleton_self _, here, inside⟩)))
  · exact result (.inr ⟨truncation, inRest, here, inside⟩)

/-! ## Runs -/

theorem trackLost_of_effect {effect : PinEffect}
    (isEffect : pinEffect state request = some effect) :
    Watched.trackLost asma state request lost =
      if effect.asma = asma ∧ effect.command = .pin then
        lost \ Set.Icc effect.pgstart effect.pgend
      else lost := by
  cases request <;> simp [pinEffect, Watched.trackLost] at isEffect ⊢
  simp [isEffect]

theorem trackLost_subset : Watched.trackLost asma state request lost ⊆
      lost ∪ truncatedPages asma (execute state request).truncated := by
  unfold Watched.trackLost
  split
  · split_ifs
    · exact Set.empty_subset _
    · exact Set.subset_union_left
  split
  · split_ifs
    · exact Set.sdiff_subset.trans Set.subset_union_left
    · exact Set.subset_union_left
  · exact subset_rfl

theorem unpinned_replace {other : ℕ} {area : Area} {list : List Range} {lru : Lru} :
    ({ state.setArea other (some { area with unpinnedList := list }) with lru := lru } :
      State).unpinned asma = if asma = other then list else state.unpinned asma :=
  unpinned_setArea

namespace LostFlagged

variable {asma : ℕ} {watched : Watched}

theorem init : LostFlagged asma Watched.init := ⟨Inv.init, Set.empty_subset _⟩

theorem step {request : Request} (lostFlagged : LostFlagged asma watched)
    (keeps : KeepsPurged watched.state request) : LostFlagged asma (watched.step asma request) := by
  refine ⟨lostFlagged.inv.step request, ?_⟩
  have inv := lostFlagged.inv
  have flagged := lostFlagged.flagged
  simp only [Watched.step]
  generalize watched.state = state at inv keeps flagged ⊢
  generalize watched.lost = lost at flagged ⊢
  have change := transition state request
  generalize Ashmem.step state request = newState at change
  cases change with
  | @pinned target area offset len allocOk first last opened backed accepted =>
    have ok := inv.areas _ _ opened
    have isEffect := @pinEffect_eq _ _ _ _ _ _ _ .pin allocOk opened backed accepted
    rw [trackLost_of_effect isEffect, pinUnpinLocked, unpinned_replace]
    by_cases same : asma = target
    · subst same
      have list : state.unpinned asma = area.unpinnedList := by simp [State.unpinned, opened]
      rw [if_pos rfl, if_pos ⟨rfl, rfl⟩]
      rintro page ⟨wasLost, outside⟩
      refine (mem_flaggedPages_pinLoop _ _ _ ok.ordered (ok.fits accepted) ?_ page).mpr
        ⟨list ▸ flagged wasLost, outside⟩
      rcases keeps with succeeds | keeps
      · exact .inl succeeds
      · exact .inr (list ▸ (keeps _ isEffect).1 rfl)
    · rw [if_neg same, if_neg (fun both => same both.1.symm)]
      exact flagged
  | @unpinned target area offset len allocOk first last opened backed accepted =>
    have ok := inv.areas _ _ opened
    have isEffect := @pinEffect_eq _ _ _ _ _ _ _ .unpin allocOk opened backed accepted
    rw [trackLost_of_effect isEffect, pinUnpinLocked, unpinned_replace, if_neg (by simp)]
    by_cases same : asma = target
    · subst same
      have list : state.unpinned asma = area.unpinnedList := by simp [State.unpinned, opened]
      rw [if_pos rfl]
      rw [list] at flagged
      refine flagged.trans (flaggedPages_ashmemUnpin ok.ordered (ok.fits accepted) ?_)
      rcases keeps with succeeds | keeps
      · exact .inl succeeds
      rcases (keeps _ isEffect).2 rfl with covered | apart
      · exact .inr (.inl (list ▸ covered))
      refine .inr (.inr ?_)
      rintro page ⟨range, mem, purged, inside⟩ inInterval
      have := apart range (list ▸ mem) purged
      simp only at this
      omega
    · rw [if_neg same]
      exact flagged
  | @released target area opened =>
    simp only [Watched.trackLost]
    split_ifs with same
    · exact Set.empty_subset _
    · rwa [unpinned_release.2 asma (Ne.symm same)]
  | @notOpen target closed =>
    simp only [Watched.trackLost]
    split_ifs
    · exact Set.empty_subset _
    · exact flagged
  | shrunk nrToScan noEffect notRelease truncated =>
    refine trackLost_subset.trans ?_
    rw [truncated]
    exact (Set.union_subset_union_left _ flagged).trans
      (flaggedPages_shrinkLoop inv.lru nrToScan asma)
  | quiet quiet noEffect notRelease truncated =>
    refine trackLost_subset.trans ?_
    rw [truncated, quiet.unpinned]
    simpa [truncatedPages] using flagged

theorem pinReports (lostFlagged : LostFlagged asma watched) : PinReports asma watched := by
  rintro offset len allocOk first last isEffect ⟨page, lost, inside⟩
  rcases pinEffect_eq_some isEffect with ⟨area, _, _, _, same, opened, backed, accepted⟩
  rcases same with ⟨_, _, rfl, rfl, _, rfl⟩
  have ok := lostFlagged.inv.areas _ _ opened
  have list : watched.state.unpinned asma = area.unpinnedList := by
    simp only [State.unpinned]
    rw [opened]
  have reported : (pinLoop asma first last allocOk area.unpinnedList watched.state.lru false).ret =
      true :=
    pinLoop_ret _ _ _ ok.ordered (ok.fits accepted)
      (.inr ⟨page, list ▸ lostFlagged.flagged lost, inside⟩)
  rw [execute_pinUnpin opened backed accepted]
  simp [pinUnpinLocked, ashmemPin, reported]

end LostFlagged

/-- As long as no allocation failure throws away a purged range, the first pin
that covers a truncated page reports the loss. -/
theorem pin_reports_lost_pages {asma : ℕ} {requests : List Request}
    (keeps : Run.Admits (Watched.step asma)
      (fun watched request => KeepsPurged watched.state request) Watched.init requests) :
    PinReports asma (run (Watched.step asma) Watched.init requests) := by
  have lostFlagged := invariant_run (LostFlagged asma)
    (fun _ _ lostFlagged keeps => lostFlagged.step keeps) LostFlagged.init keeps
  exact lostFlagged.pinReports

/-- Unpin an area of three pages, let the shrinker truncate it, and unpin it again while
`range_alloc` fails. -/
def unpinAgainWithoutMemory : List Request :=
  [.openFile 0 true, .setSize 0 12288, .mmap 0 3#32 0, .pinUnpin 0 .unpin 0 0 true true,
    .shrink 1 true, .pinUnpin 0 .unpin 4096 4096 true false]

theorem pin_reports_lost_pages_unpinAgain :
    Run.Admits (Watched.step 0) (fun watched request => KeepsPurged watched.state request)
        Watched.init unpinAgainWithoutMemory ∧
      PinReports 0 (run (Watched.step 0) Watched.init unpinAgainWithoutMemory) :=
  ⟨by decide +kernel, pin_reports_lost_pages (by decide +kernel)⟩

/-- Unpin an area of three pages and let the shrinker truncate it. -/
def truncateAll : List Request :=
  [.openFile 0 true, .setSize 0 12288, .mmap 0 3#32 0, .pinUnpin 0 .unpin 0 0 true true,
    .shrink 1 true]

/-- When the second half of the split cannot be allocated, pinning the middle page
forgets that the last page was truncated. -/
theorem not_pinReports_of_split_without_memory :
    ¬PinReports 0 (run (Watched.step 0) Watched.init
      (truncateAll ++ [.pinUnpin 0 .pin 4096 4096 true false])) := by
  intro reports
  have lost : 2 ∈ (run (Watched.step 0) Watched.init truncateAll).lost :=
    .inr ⟨⟨0, 0, 2⟩, by decide +kernel, rfl, by decide, by decide⟩
  have effect : pinEffect (run (Watched.step 0) Watched.init truncateAll).state
      (.pinUnpin 0 .pin 4096 4096 true false) = some ⟨0, .pin, 1, 1⟩ := by decide +kernel
  have stillLost : 2 ∈ (run (Watched.step 0) Watched.init
      (truncateAll ++ [.pinUnpin 0 .pin 4096 4096 true false])).lost := by
    rw [run_append, run_cons, run_nil, Watched.step, trackLost_of_effect effect]
    exact ⟨lost, by simp⟩
  have answer := reports 8192 4096 true 2 2 (by decide +kernel) ⟨2, stillLost, by simp⟩
  have notPurged : (execute (run (Watched.step 0) Watched.init
      (truncateAll ++ [.pinUnpin 0 .pin 4096 4096 true false])).state
      (.pinUnpin 0 .pin 8192 4096 true true)).ret = ashmemNotPurged := by decide +kernel
  rw [notPurged] at answer
  simp [ashmemNotPurged, ashmemWasPurged] at answer

end StreakKernel.Ashmem
