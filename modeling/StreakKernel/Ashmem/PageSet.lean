import StreakKernel.Ashmem.Invariant

/-!
# Pinning refines a set of pages

The purpose of the unpinned list: an area has a set of unpinned pages, `ASHMEM_UNPIN` adds
an interval to it, `ASHMEM_PIN` removes one and `ASHMEM_GET_PIN_STATUS` asks whether an
interval meets it. `Tracked.step` runs this specification next to the driver.

The status query is exact as long as no accepted unpin has an empty interval.
-/

namespace StreakKernel.Ashmem

open Intervals Run

structure Tracked where
  state : State
  unpinned : Set ℕ

def PinCommand.track (command : PinCommand) (first last : ℕ) (unpinned : Set ℕ) : Set ℕ :=
  match command with
  | .pin => unpinned \ Set.Icc first last
  | .unpin => unpinned ∪ Set.Icc first last
  | .getPinStatus => unpinned

namespace Tracked

def init : Tracked := ⟨State.init, ∅⟩

def trackSet (asma : ℕ) (state : State) (request : Request) (unpinned : Set ℕ) : Set ℕ :=
  match request with
  | .release target => if target = asma then ∅ else unpinned
  | _ =>
    match pinEffect state request with
    | some effect =>
      if effect.asma = asma then effect.command.track effect.pgstart effect.pgend unpinned
      else unpinned
    | none => unpinned

def step (asma : ℕ) (tracked : Tracked) (request : Request) : Tracked :=
  ⟨Ashmem.step tracked.state request, trackSet asma tracked.state request tracked.unpinned⟩

theorem trackSet_of_quiet {asma : ℕ} {state : State} {request : Request} {unpinned : Set ℕ}
    (notRelease : ∀ target, request ≠ .release target)
    (noEffect : ∀ effect ∈ pinEffect state request, effect.command = .getPinStatus) :
    trackSet asma state request unpinned = unpinned := by
  rcases effectEq : pinEffect state request with _ | effect
  · cases request <;> simp [trackSet, effectEq] at notRelease ⊢
  · have query := noEffect effect effectEq
    cases request <;> simp [trackSet, effectEq, query, PinCommand.track] at notRelease ⊢

end Tracked

def NonemptyUnpin (state : State) (request : Request) : Prop :=
  ∀ effect ∈ pinEffect state request, effect.command = .unpin → effect.pgstart ≤ effect.pgend
  deriving Decidable

/-- `ASHMEM_GET_PIN_STATUS` reports whether the queried interval meets the set. -/
def StatusExact (asma : ℕ) (tracked : Tracked) : Prop :=
  ∀ offset len allocOk first last,
    pinEffect tracked.state (.pinUnpin asma .getPinStatus offset len true allocOk) =
      some ⟨asma, .getPinStatus, first, last⟩ →
    ((execute tracked.state (.pinUnpin asma .getPinStatus offset len true allocOk)).ret =
      ashmemIsUnpinned ↔ (tracked.unpinned ∩ Set.Icc first last).Nonempty)

/-! ## The set of the list -/

variable {asma first last : ℕ} {list : List Range} {lru : Lru} {state : State} {tracked : Tracked}
  {request : Request}

theorem pages_ashmemPin (ordered : Ordered list) (fits : Fits first last list) :
    pages (ashmemPin asma first last true list lru).list = pages list \ Set.Icc first last := by
  ext page
  simp only [Set.mem_sdiff, mem_pages_iff, ashmemPin,
    mem_flaggedPages_pinLoop list lru false ordered fits (.inl rfl), Set.mem_Icc,
    exists_and_right]

theorem pages_flag (id : ℕ) (list : List Range) :
    pages (list.map fun range => if range.id = id then { range with purged := true } else range) =
      pages list := by
  induction list with
  | nil => rfl
  | cons range next ih =>
    simp only [List.map_cons, covered_cons, ih]
    split_ifs <;> rfl

theorem pages_shrinkLoop (ok : LruOk state) (nrToScan : ℤ) (asma : ℕ) :
    pages ((shrinkLoop state.lru.list nrToScan state).1.unpinned asma) =
      pages (state.unpinned asma) := by
  refine shrinkLoop_induction (motive := fun state result =>
    pages (result.1.unpinned asma) = pages (state.unpinned asma)) ?_ ?_ nrToScan ok
  · intro state _
    rfl
  intro state ptr range rest _ _ _ result
  rw [result, unpinned_purge]
  split_ifs
  · exact pages_flag ptr.id _
  · rfl

structure Represents (asma : ℕ) (tracked : Tracked) : Prop where
  inv : Inv tracked.state
  pages_eq : pages (tracked.state.unpinned asma) = tracked.unpinned

theorem pages_replace {other : ℕ} {area : Area} {command : PinCommand}
    (opened : state.areas other = some area)
    (listPages : pages list = command.track first last (pages area.unpinnedList)) :
    pages (({ state.setArea other (some { area with unpinnedList := list }) with lru := lru } :
        State).unpinned asma) =
      if other = asma then command.track first last (pages (state.unpinned asma))
      else pages (state.unpinned asma) := by
  have newList :
      ({ state.setArea other (some { area with unpinnedList := list }) with lru := lru } :
        State).unpinned asma = if asma = other then list else state.unpinned asma :=
    unpinned_setArea
  rw [newList]
  by_cases same : other = asma
  · subst same
    simp [listPages, State.unpinned, opened]
  · rw [if_neg same, if_neg (Ne.symm same)]

theorem Represents.init (asma : ℕ) : Represents asma Tracked.init :=
  ⟨Inv.init, by simp [Tracked.init, State.init, State.unpinned]⟩

theorem Represents.step (represents : Represents asma tracked)
    (succeeds : allocOutcome request = true) : Represents asma (tracked.step asma request) := by
  refine ⟨represents.inv.step request, ?_⟩
  have inv := represents.inv
  simp only [Tracked.step, ← represents.pages_eq]
  generalize tracked.state = state at inv ⊢
  have change := transition state request
  generalize Ashmem.step state request = newState at change
  cases change with
  | pinned opened backed accepted =>
    have ok := inv.areas _ _ opened
    have allocated : _ = true := succeeds
    subst allocated
    simp only [Tracked.trackSet, pinEffect_eq opened backed accepted]
    exact pages_replace opened (pages_ashmemPin ok.ordered (ok.fits accepted))
  | unpinned opened backed accepted =>
    have ok := inv.areas _ _ opened
    simp only [Tracked.trackSet, pinEffect_eq opened backed accepted]
    exact pages_replace opened (pages_ashmemUnpin ok.ordered (ok.fits accepted) succeeds)
  | @released target area opened =>
    simp only [Tracked.trackSet]
    split_ifs with same
    · rw [← same, unpinned_release.1]
      exact covered_nil
    · rw [unpinned_release.2 asma (Ne.symm same)]
  | @notOpen target closed =>
    simp only [Tracked.trackSet]
    split_ifs with same
    · simp [State.unpinned, ← same, closed]
    · rfl
  | shrunk nrToScan noEffect notRelease truncated =>
    rw [pages_shrinkLoop inv.lru, Tracked.trackSet_of_quiet notRelease (by simp [noEffect])]
  | quiet quiet noEffect notRelease truncated =>
    rw [quiet.unpinned, Tracked.trackSet_of_quiet notRelease noEffect]

theorem represents_of_run {requests : List Request}
    (succeeds : Run.Admits (Tracked.step asma) (fun _ request => allocOutcome request = true)
      Tracked.init requests) : Represents asma (run (Tracked.step asma) Tracked.init requests) :=
  invariant_run (Represents asma) (fun _ _ represents succeeds => represents.step succeeds)
    (Represents.init asma) succeeds

/-! ## The status query -/

abbrev Solid (state : State) : Prop :=
  RangesHold (fun _ pgstart pgend => pgstart ≤ pgend) state

theorem Solid.step (solid : Solid state) (inv : Inv state)
    (nonempty : NonemptyUnpin state request) : Solid (Ashmem.step state request) := by
  refine RangesHold.step solid inv ?_ ?_
  · intro _ start finish newStart newFinish _ _ nonempty _
    exact nonempty
  · intro effect isEffect unpins area _ start finish startLe finishGe _ _
    exact startLe.trans ((nonempty effect isEffect unpins).trans finishGe)

theorem Represents.statusExact (represents : Represents asma tracked)
    (solid : Solid tracked.state) : StatusExact asma tracked := by
  intro offset len allocOk first last isEffect
  rcases pinEffect_eq_some isEffect with ⟨area, _, _, _, same, opened, backed, accepted⟩
  rcases same with ⟨_, _, rfl, rfl, _, rfl⟩
  have ok := represents.inv.areas _ _ opened
  have list : tracked.state.unpinned asma = area.unpinnedList := by
    simp only [State.unpinned]
    rw [opened]
  rw [execute_pinUnpin opened backed accepted, ← represents.pages_eq, list]
  exact ashmemGetPinStatus_eq ok.ordered (ok.fits accepted) (solid _ _ opened)

/-- In runs without allocation failure the list stands for the set of unpinned
pages, and if moreover no accepted unpin is empty, the status query is exact. -/
theorem unpinnedList_refines_pageSet {asma : ℕ} {requests : List Request}
    (succeeds : Run.Admits (Tracked.step asma) (fun _ request => allocOutcome request = true)
      Tracked.init requests) :
    pages ((run (Tracked.step asma) Tracked.init requests).state.unpinned asma) =
        (run (Tracked.step asma) Tracked.init requests).unpinned ∧
      (Run.Admits (Tracked.step asma) (fun tracked request => NonemptyUnpin tracked.state request)
          Tracked.init requests →
        StatusExact asma (run (Tracked.step asma) Tracked.init requests)) := by
  have represents := represents_of_run succeeds
  refine ⟨represents.pages_eq, fun nonempty => represents.statusExact ?_⟩
  have both := invariant_run (fun tracked : Tracked => Inv tracked.state ∧ Solid tracked.state)
      (fun tracked request both nonempty => ⟨both.1.step request, both.2.step both.1 nonempty⟩)
      ⟨Inv.init, by simp [RangesHold, Tracked.init, State.init]⟩ nonempty
  exact both.2

def pinFirstAgain : List Request :=
  [.openFile 0 true, .setSize 0 8192, .mmap 0 3#32 0, .pinUnpin 0 .unpin 0 0 true true,
    .pinUnpin 0 .pin 0 4096 true true, .shrink 1 true]

theorem unpinnedList_refines_pageSet_pinFirstAgain :
    pages ((run (Tracked.step 0) Tracked.init pinFirstAgain).state.unpinned 0) =
        (run (Tracked.step 0) Tracked.init pinFirstAgain).unpinned ∧
      StatusExact 0 (run (Tracked.step 0) Tracked.init pinFirstAgain) := by
  have refines := @unpinnedList_refines_pageSet 0 pinFirstAgain (by decide +kernel)
  exact ⟨refines.1, refines.2 (by decide +kernel)⟩

def unpinAtEnd : List Request :=
  [.openFile 0 true, .setSize 0 4096, .mmap 0 3#32 0, .pinUnpin 0 .unpin 4096 0 true true]

/-- The set of unpinned pages is empty, but the only page is reported as unpinned. -/
theorem not_statusExact_unpinAtEnd :
    Run.Admits (Tracked.step 0) (fun _ request => allocOutcome request = true) Tracked.init
        unpinAtEnd ∧
      ¬StatusExact 0 (run (Tracked.step 0) Tracked.init unpinAtEnd) := by
  have succeeds : Run.Admits (Tracked.step 0) (fun _ request => allocOutcome request = true)
      Tracked.init unpinAtEnd := by decide +kernel
  have list : (run (Tracked.step 0) Tracked.init unpinAtEnd).state.unpinned 0 =
      [⟨0, 1, 0, false⟩] := by decide +kernel
  have empty : (run (Tracked.step 0) Tracked.init unpinAtEnd).unpinned = ∅ := by
    rw [← (represents_of_run succeeds).pages_eq, list]
    simp
  refine ⟨succeeds, fun exact => ?_⟩
  have answer := exact 0 4096 true 0 0 (by decide +kernel)
  have unpinned : (execute (run (Tracked.step 0) Tracked.init unpinAtEnd).state
      (.pinUnpin 0 .getPinStatus 0 4096 true true)).ret = ashmemIsUnpinned := by decide +kernel
  rw [empty] at answer
  simpa using answer.mp unpinned

end StreakKernel.Ashmem
