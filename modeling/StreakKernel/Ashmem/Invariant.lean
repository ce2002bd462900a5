import StreakKernel.Ashmem.Lru
import StreakKernel.Lib.Run

/-!
# Representation invariant of ashmem

`Transition` says once what a request can do to the state. `Inv` holds in every reachable
state; it allows the empty range that a request of length zero at the end of an area
leaves behind, which `StrictInv` excludes.
-/

namespace StreakKernel.Ashmem

open List Function Word Intervals
open Word (U32)

/-- The number of pages of an area, `PAGE_ALIGN(size) / PAGE_SIZE`. -/
def pageCount (area : Area) : ℕ := pageAlign area.size / 4096

/-! ## Accepted intervals -/

theorem pageAlign_lt (size : ℕ) : pageAlign size < 4294967296 :=
  (alignDown_le _ _).trans_lt (add_lt _ _)

theorem and_page_mask_eq_zero {offset len : ℕ} :
    (offset ||| len) &&& 4095 = 0 ↔ offset % 4096 = 0 ∧ len % 4096 = 0 := by
  have mask : (4095 : ℕ) = 2 ^ 12 - 1 := rfl
  rw [mask, Nat.and_two_pow_sub_one_eq_mod, Nat.or_mod_two_pow, Nat.or_eq_zero_iff]

variable {area : Area} {offset len : U32} {first last asma other : ℕ} {state newState : State}
  {command : PinCommand} {allocOk : Bool} {request : Request} {ptr : RangePtr} {range : Range}
  {lru : Lru}

/-- A request of length zero at the end of the area passes all checks: the other two cases. -/
theorem pinInterval_cases (accepted : pinInterval area.size offset len = some (first, last)) :
    (first ≤ last ∧ last < pageCount area) ∨
      (0 < pageCount area ∧ first = pageCount area ∧ first = last + 1) ∨
      (pageCount area = 0 ∧ first = 0 ∧ last = 4294967295) := by
  have sizeLt := pageAlign_lt area.size
  unfold pinInterval at accepted
  generalize effectiveEq : (if (len : ℕ) = 0 then sub (pageAlign area.size) offset
    else (len : ℕ)) = effective at accepted
  simp only at accepted
  split_ifs at accepted with misaligned overflows beyond
  rw [not_not, and_page_mask_eq_zero] at misaligned
  rw [sub_eq (by omega) (by omega)] at overflows
  have sumEq : add offset effective = offset + effective := add_eq (by omega)
  rcases accepted with ⟨rfl, rfl⟩
  rw [add_eq (by omega)]
  unfold pageCount
  by_cases empty : effective = 0
  · have lenEq : (len : ℕ) = 0 := by
      by_contra lenPos
      rw [if_neg lenPos] at effectiveEq
      omega
    rw [if_pos lenEq] at effectiveEq
    have atEnd : (offset : ℕ) = pageAlign area.size := by
      unfold sub at effectiveEq
      omega
    subst empty
    right
    by_cases none : pageAlign area.size / 4096 = 0
    · right
      refine ⟨none, by omega, ?_⟩
      have startZero : (offset : ℕ) / 4096 + 0 / 4096 = 0 := by omega
      rw [startZero]
      unfold sub
      omega
    left
    refine ⟨by omega, by omega, ?_⟩
    rw [sub_eq (by omega) (by omega)]
    omega
  · left
    rw [sub_eq (by omega) (by omega)]
    exact ⟨by omega, by omega⟩

/-! ## What a request can do -/

/-- The area, command and interval of a request that reaches the list code. -/
structure PinEffect where
  asma : ℕ
  command : PinCommand
  pgstart : ℕ
  pgend : ℕ
  deriving DecidableEq, Repr

def pinEffect (state : State) : Request → Option PinEffect
  | .pinUnpin asma command offset len copyOk _ =>
    match state.areas asma with
    | some area =>
      if area.file = true ∧ copyOk = true then
        (pinInterval area.size offset len).map fun interval =>
          ⟨asma, command, interval.1, interval.2⟩
      else none
    | none => none
  | _ => none

def allocOutcome : Request → Bool
  | .pinUnpin _ _ _ _ _ allocOk => allocOk
  | _ => true

theorem pinEffect_eq (opened : state.areas asma = some area) (backed : area.file = true)
    (accepted : pinInterval area.size offset len = some (first, last)) :
    pinEffect state (.pinUnpin asma command offset len true allocOk) =
      some ⟨asma, command, first, last⟩ := by
  simp [pinEffect, opened, backed, accepted]

theorem execute_pinUnpin (opened : state.areas asma = some area) (backed : area.file = true)
    (accepted : pinInterval area.size offset len = some (first, last)) :
    execute state (.pinUnpin asma command offset len true allocOk) =
      pinUnpinLocked asma area command first last allocOk state := by
  simp [execute, withArea, opened, ashmemPinUnpin, backed, accepted]

theorem pinEffect_eq_some {effect : PinEffect} (isEffect : pinEffect state request = some effect) :
    ∃ (area : Area) (offset len : U32) (allocOk : Bool),
      request = .pinUnpin effect.asma effect.command offset len true allocOk ∧
        state.areas effect.asma = some area ∧ area.file = true ∧
        pinInterval area.size offset len = some (effect.pgstart, effect.pgend) := by
  cases request with
  | pinUnpin asma command offset len copyOk allocOk =>
    rcases opened : state.areas asma with _ | area
    · simp [pinEffect, opened] at isEffect
    simp only [pinEffect, opened] at isEffect
    split_ifs at isEffect with reached
    rcases Option.map_eq_some_iff.mp isEffect with ⟨interval, accepted, rfl⟩
    exact ⟨area, offset, len, allocOk, by rw [reached.2], opened, reached.1, accepted⟩
  | _ => simp [pinEffect] at isEffect

inductive QuietArea : Option Area → Option Area → Prop where
  | same (area : Option Area) : QuietArea area area
  | opened (area : Area) (empty : area.unpinnedList = []) : QuietArea none (some area)
  | changed (area newArea : Area) (list : newArea.unpinnedList = area.unpinnedList)
      (fixed : area.file = true → newArea.file = true ∧ newArea.size = area.size) :
      QuietArea (some area) (some newArea)

structure Quiet (state newState : State) : Prop where
  lru : newState.lru = state.lru
  areas : ∀ asma, QuietArea (state.areas asma) (newState.areas asma)

inductive Transition (state : State) : Request → State → Prop where
  | pinned {asma : ℕ} {area : Area} {offset len : U32} {allocOk : Bool} {first last : ℕ}
      (opened : state.areas asma = some area) (backed : area.file = true)
      (accepted : pinInterval area.size offset len = some (first, last)) :
      Transition state (.pinUnpin asma .pin offset len true allocOk)
        (pinUnpinLocked asma area .pin first last allocOk state).state
  | unpinned {asma : ℕ} {area : Area} {offset len : U32} {allocOk : Bool} {first last : ℕ}
      (opened : state.areas asma = some area) (backed : area.file = true)
      (accepted : pinInterval area.size offset len = some (first, last)) :
      Transition state (.pinUnpin asma .unpin offset len true allocOk)
        (pinUnpinLocked asma area .unpin first last allocOk state).state
  | released {asma : ℕ} {area : Area} (opened : state.areas asma = some area) :
      Transition state (.release asma) (ashmemRelease asma area state).state
  | notOpen {asma : ℕ} (closed : state.areas asma = none) : Transition state (.release asma) state
  | shrunk {request : Request} (nrToScan : ℤ)
      (noEffect : pinEffect state request = none) (notRelease : ∀ asma, request ≠ .release asma)
      (truncated : (execute state request).truncated =
        (shrinkLoop state.lru.list nrToScan state).2) :
      Transition state request (shrinkLoop state.lru.list nrToScan state).1
  | quiet {request : Request} {newState : State} (quiet : Quiet state newState)
      (noEffect : ∀ effect ∈ pinEffect state request, effect.command = .getPinStatus)
      (notRelease : ∀ asma, request ≠ .release asma)
      (truncated : (execute state request).truncated = []) :
      Transition state request newState

theorem Quiet.refl (state : State) : Quiet state state :=
  ⟨rfl, fun asma => .same (state.areas asma)⟩

theorem Quiet.setArea {area : Option Area} (here : QuietArea (state.areas asma) area) :
    Quiet state (state.setArea asma area) := by
  refine ⟨rfl, fun other => ?_⟩
  by_cases same : other = asma
  · subst same
    simpa [State.setArea] using here
  · simpa [State.setArea, update_of_ne same] using .same (state.areas other)

structure QuietOutcome (state : State) (outcome : Outcome) : Prop where
  quiet : Quiet state outcome.state
  truncated : outcome.truncated = []

namespace QuietOutcome

theorem refl (ret : ℤ) : QuietOutcome state ⟨state, ret, []⟩ := ⟨Quiet.refl state, rfl⟩

theorem setArea {area : Option Area} {ret : ℤ}
    (here : QuietArea (state.areas asma) area) :
    QuietOutcome state ⟨state.setArea asma area, ret, []⟩ := ⟨Quiet.setArea here, rfl⟩

theorem withArea {action : Area → State → Outcome}
    (each : ∀ area, state.areas asma = some area → QuietOutcome state (action area state)) :
    QuietOutcome state (withArea state asma action) := by
  unfold Ashmem.withArea
  split
  · next area opened => exact each area opened
  · exact .refl _

theorem transition (outcome : QuietOutcome state (execute state request))
    (noEffect : ∀ effect ∈ pinEffect state request, effect.command = .getPinStatus)
    (notRelease : ∀ asma, request ≠ .release asma) :
    Transition state request (execute state request).state :=
  .quiet outcome.quiet noEffect notRelease outcome.truncated

end QuietOutcome

theorem ashmemShrink_transition (nrToScan : ℤ) (gfpFs : Bool)
    (noEffect : pinEffect state request = none) (notRelease : ∀ asma, request ≠ .release asma)
    (truncated : (execute state request).truncated =
      (ashmemShrink nrToScan gfpFs state).truncated) :
    Transition state request (ashmemShrink nrToScan gfpFs state).state := by
  have none : ∀ effect ∈ pinEffect state request, effect.command = .getPinStatus := by
    simp [noEffect]
  unfold ashmemShrink at truncated ⊢
  split_ifs at truncated ⊢
  · exact .quiet (Quiet.refl state) none notRelease truncated
  · exact .quiet (Quiet.refl state) none notRelease truncated
  · exact .shrunk nrToScan noEffect notRelease truncated

theorem transition (state : State) (request : Request) :
    Transition state request (step state request) := by
  unfold step
  cases request with
  | openFile asma allocOk =>
    refine QuietOutcome.transition ?_ (by simp [pinEffect]) (by simp)
    simp only [execute, ashmemOpen]
    split_ifs with inUse
    · exact .refl _
    · refine .setArea ?_
      rw [not_not.mp inUse]
      exact .opened _ rfl
    · exact .refl _
  | release asma =>
    rcases opened : state.areas asma with _ | area
    · simpa [execute, withArea, opened] using Transition.notOpen opened
    · simpa [execute, withArea, opened] using Transition.released opened
  | mmap asma vmFlags setupErr =>
    refine (QuietOutcome.withArea fun area opened => ?_).transition (by simp [pinEffect]) (by simp)
    unfold ashmemMmap
    split_ifs
    · exact .refl _
    · exact .refl _
    · exact .refl _
    · refine .setArea ?_
      rw [opened]
      exact .changed _ _ rfl fun _ => ⟨rfl, rfl⟩
  | setSize asma arg =>
    refine QuietOutcome.transition ?_ (by simp [pinEffect]) (by simp)
    unfold execute
    refine .withArea fun area opened => ?_
    split_ifs with backed
    · exact .refl _
    · refine .setArea ?_
      rw [opened]
      exact .changed _ _ rfl fun file => absurd file backed
  | setProtMask asma prot readImpliesExec =>
    refine (QuietOutcome.withArea fun area opened => ?_).transition (by simp [pinEffect]) (by simp)
    unfold setProtMask
    split_ifs
    · exact .refl _
    all_goals
      refine .setArea ?_
      rw [opened]
      exact .changed _ _ rfl fun file => ⟨file, rfl⟩
  | getSize asma | getProtMask asma =>
    refine QuietOutcome.transition ?_ (by simp [pinEffect]) (by simp)
    unfold execute
    exact .withArea fun _ _ => .refl _
  | pinUnpin asma command offset len copyOk allocOk =>
    rcases isEffect : pinEffect state (.pinUnpin asma command offset len copyOk allocOk)
      with _ | effect
    · refine (QuietOutcome.withArea fun area opened => ?_).transition (by simp [isEffect]) (by simp)
      unfold ashmemPinUnpin
      split_ifs with unbacked faulted
      · exact .refl _
      · exact .refl _
      · have rejected : pinInterval area.size offset len = none := by
          simpa [pinEffect, opened, unbacked, faulted] using isEffect
        rw [rejected]
        exact .refl _
    · rcases pinEffect_eq_some isEffect with ⟨area, _, _, _, isRequest, opened, backed, accepted⟩
      obtain ⟨rfl, rfl, rfl, rfl, rfl, rfl⟩ := Request.pinUnpin.inj isRequest
      rw [execute_pinUnpin opened backed accepted]
      cases isCommand : effect.command with
      | pin => exact .pinned opened backed accepted
      | unpin => exact .unpinned opened backed accepted
      | getPinStatus =>
        refine .quiet (Quiet.refl state) ?_ (by simp) ?_
        · simp [pinEffect, opened, backed, accepted]
        · rw [execute_pinUnpin opened backed accepted]
          rfl
  | purgeAllCaches capable =>
    cases capable with
    | false => exact (QuietOutcome.refl _).transition (by simp [pinEffect]) (by simp)
    | true => exact ashmemShrink_transition _ true rfl (by simp) rfl
  | shrink nrToScan gfpFs => exact ashmemShrink_transition nrToScan gfpFs rfl (by simp) rfl

/-! ## Shrinking -/

theorem unpinned_setArea : (state.setArea asma (some area)).unpinned other =
      if other = asma then area.unpinnedList else state.unpinned other := by
  unfold State.unpinned State.setArea
  by_cases same : other = asma
  · subst same
    simp
  · simp [same]

theorem unpinned_purge : (purge state ptr range).unpinned asma =
      if asma = ptr.asma then (state.unpinned asma).map fun other =>
        if other.id = ptr.id then { other with purged := true } else other
      else state.unpinned asma := by
  have lists : (purge state ptr range).unpinned asma = (state.markPurged ptr).unpinned asma := rfl
  rw [lists]
  unfold State.markPurged
  rcases opened : state.areas ptr.asma with _ | area
  · by_cases same : asma = ptr.asma
    · subst same
      simp [State.unpinned, opened]
    · simp [same]
  dsimp only
  rw [unpinned_setArea]
  by_cases same : asma = ptr.asma
  · subst same
    simp [State.unpinned, opened]
  · simp [same]

theorem areas_purge (opened : (purge state ptr range).areas asma = some area) :
    ∃ old, state.areas asma = some old ∧ (area = old ∨ area = { old with
      unpinnedList := old.unpinnedList.map fun range =>
        if range.id = ptr.id then { range with purged := true } else range }) := by
  rcases ptrArea : state.areas ptr.asma with _ | old
  · refine ⟨area, ?_, .inl rfl⟩
    simpa [purge, State.markPurged, ptrArea] using opened
  simp only [purge, State.markPurged, ptrArea, State.setArea] at opened
  by_cases same : asma = ptr.asma
  · subst same
    simp only [update_self, Option.some.injEq] at opened
    exact ⟨old, ptrArea, .inr opened.symm⟩
  · rw [update_of_ne same] at opened
    exact ⟨area, opened, .inl rfl⟩

theorem areas_release {released : Area}
    (opened : (ashmemRelease asma released state).state.areas other = some area) :
    state.areas other = some area := by
  by_cases same : other = asma
  · subst same
    simp [ashmemRelease, State.setArea] at opened
  · simpa [ashmemRelease, State.setArea, update_of_ne same] using opened

theorem unpinned_release :
    (ashmemRelease asma area state).state.unpinned asma = [] ∧ ∀ other, other ≠ asma →
      (ashmemRelease asma area state).state.unpinned other = state.unpinned other := by
  refine ⟨by simp [ashmemRelease, State.setArea, State.unpinned], fun other differs => ?_⟩
  simp [ashmemRelease, State.setArea, State.unpinned, update_of_ne differs]

namespace LruOk

variable {state : State} {ptr : RangePtr} {range : Range}

theorem rangeAt_of_mem (ok : LruOk state) (mem : ptr ∈ state.lru.list) :
    ∃ range, state.rangeAt ptr = some range ∧ range.purged = false := by
  have filtered : ptr ∈ state.lru.list.filter fun other => other.asma = ptr.asma := by
    simpa using mem
  rcases mem_onLru.mp ((ok.perm ptr.asma).mem_iff.mp filtered) with ⟨range, inList, unpurged, eq⟩
  refine ⟨range, ?_, unpurged⟩
  rw [eq]
  exact State.rangeAt_of_mem (ok.distinct ptr.asma) inList

theorem purge (ok : LruOk state) (found : state.rangeAt ptr = some range)
    (unpurged : range.purged = false) : LruOk (purge state ptr range) := by
  rcases State.mem_of_rangeAt found with ⟨inList, idEq⟩
  refine ok.update ptr.asma ?_ le_rfl ?_
  · intro other differs
    rw [unpinned_purge, if_neg differs]
  · intro rest total synced
    rw [unpinned_purge, if_pos rfl, ← idEq]
    exact synced.purge inList unpurged

end LruOk

/-- Induction over the iterations of `ashmem_shrink`, on states in which every
pointer of the LRU list is valid. -/
theorem shrinkLoop_induction {motive : State → State × List Truncation → Prop}
    (stop : ∀ state, LruOk state → motive state (state, []))
    (next : ∀ {state ptr range rest}, LruOk state → state.rangeAt ptr = some range → range.purged =
      false → motive (purge state ptr range) rest → motive state (rest.1, ⟨ptr.asma, range.pgstart,
        range.pgend⟩ :: rest.2)) (nrToScan : ℤ) (ok : LruOk state) :
    motive state (shrinkLoop state.lru.list nrToScan state) := by
  generalize listEq : state.lru.list = list
  induction list generalizing state nrToScan with
  | nil => exact stop state ok
  | cons ptr tail ih =>
    have onList : ptr ∈ state.lru.list := by simp [listEq]
    rcases ok.rangeAt_of_mem onList with ⟨range, found, unpurged⟩
    have purgedOk := ok.purge found unpurged
    have tailEq : (purge state ptr range).lru.list = tail := by
      rcases State.mem_of_rangeAt found with ⟨_, idEq⟩
      simp [purge, lruDel, listEq, idEq]
    simp only [shrinkLoop, found]
    split_ifs
    · exact next ok found unpurged (stop _ purgedOk)
    · exact next ok found unpurged (ih _ purgedOk tailEq)

/-! ## Invariant of all runs -/

structure AreaOk (area : Area) : Prop where
  ordered : Ordered area.unpinnedList
  bounded : ∀ range ∈ area.unpinnedList, pageCount area = 0 ∨ range.pgend < pageCount area
  backed : area.unpinnedList ≠ [] → area.file = true

structure Inv (state : State) : Prop where
  areas : ∀ asma area, state.areas asma = some area → AreaOk area
  lru : LruOk state

theorem AreaOk.fits (ok : AreaOk area)
    (accepted : pinInterval area.size offset len = some (first, last)) :
    Fits first last area.unpinnedList := by
  have countLt : pageCount area < 4294967296 := (Nat.div_le_self _ _).trans_lt (pageAlign_lt _)
  rcases pinInterval_cases accepted with ⟨le, lt⟩ | ⟨pos, eq, succ⟩ | ⟨_, rfl, rfl⟩
  · exact ⟨by omega, .inl le⟩
  · refine ⟨by omega, .inr ⟨succ, fun range mem => ?_⟩⟩
    rcases ok.bounded range mem with zero | lt <;> omega
  · exact ⟨by omega, .inl (by omega)⟩

theorem pinInterval_last (accepted : pinInterval area.size offset len = some (first, last)) :
    pageCount area = 0 ∨ last < pageCount area := by
  rcases pinInterval_cases accepted with ⟨_, lt⟩ | ⟨_, eq, succ⟩ | ⟨zero, _, _⟩
  · exact .inr lt
  · exact .inr (by omega)
  · exact .inl zero

section

variable (ok : AreaOk area) (backed : area.file = true)
  (accepted : pinInterval area.size offset len = some (first, last))
include ok backed accepted

theorem AreaOk.pin :
    AreaOk { area with
      unpinnedList := (ashmemPin asma first last allocOk area.unpinnedList lru).list } := by
  refine ⟨pinLoop_ordered _ _ _ ok.ordered (ok.fits accepted), ?_, fun _ => backed⟩
  intro piece mem
  rcases pinLoop_piece _ _ _ ok.ordered (ok.fits accepted) mem with ⟨range, inList, isPiece⟩
  rcases ok.bounded range inList with zero | lt
  · exact .inl zero
  · exact .inr (isPiece.end_le.trans_lt lt)

theorem AreaOk.unpin :
    AreaOk { area with
      unpinnedList := (ashmemUnpin asma first last allocOk area.unpinnedList lru).list } := by
  refine ⟨ashmemUnpin_ordered ok.ordered (ok.fits accepted), ?_, fun _ => backed⟩
  intro range mem
  rcases mem_ashmemUnpin ok.ordered (ok.fits accepted) mem with
    old | ⟨_, _, eq | ⟨old, inList, eq⟩⟩
  · exact ok.bounded range old
  · rw [eq]
    exact pinInterval_last accepted
  · rw [eq]
    exact ok.bounded old inList

end

theorem AreaOk.flag {id : ℕ} (ok : AreaOk area) :
    AreaOk { area with unpinnedList := area.unpinnedList.map fun range =>
      if range.id = id then { range with purged := true } else range } := by
  have kept : ∀ range : Range, ∃ flag,
      (if range.id = id then { range with purged := true } else range) =
        { range with purged := flag } := by
    intro range
    by_cases here : range.id = id
    · exact ⟨true, by simp [here]⟩
    · exact ⟨range.purged, by simp [here]⟩
  refine ⟨⟨?_, ?_, ?_⟩, ?_, ?_⟩
  · refine pairwise_map.mpr (ok.ordered.descending.imp fun {upper lower} apart => ?_)
    rcases kept upper with ⟨_, upperEq⟩
    rcases kept lower with ⟨_, lowerEq⟩
    rw [upperEq, lowerEq]
    exact apart
  · intro range mem
    rcases mem_map.mp mem with ⟨old, inList, rfl⟩
    rcases kept old with ⟨_, eq⟩
    rw [eq]
    exact ok.ordered.start_le old inList
  · intro range mem
    rcases mem_map.mp mem with ⟨old, inList, rfl⟩
    rcases kept old with ⟨_, eq⟩
    rw [eq]
    exact ok.ordered.end_lt old inList
  · intro range mem
    rcases mem_map.mp mem with ⟨old, inList, rfl⟩
    rcases kept old with ⟨_, eq⟩
    rw [eq]
    exact ok.bounded old inList
  · intro nonempty
    exact ok.backed (by simpa using nonempty)

theorem AreaOk.quiet {newArea : Area} (ok : AreaOk area)
    (list : newArea.unpinnedList = area.unpinnedList)
    (fixed : area.file = true → newArea.file = true ∧ newArea.size = area.size) :
    AreaOk newArea := by
  by_cases empty : area.unpinnedList = []
  · rw [empty] at list
    refine ⟨?_, ?_, ?_⟩ <;> simp [list, Ordered.nil]
  rcases fixed (ok.backed empty) with ⟨backed, sizeEq⟩
  refine ⟨?_, ?_, fun _ => backed⟩
  · rw [list]
    exact ok.ordered
  · unfold pageCount
    rw [list, sizeEq]
    exact ok.bounded

theorem LruOk.congr (ok : LruOk state)
    (lists : ∀ asma, newState.unpinned asma = state.unpinned asma)
    (lru : newState.lru = state.lru) : LruOk newState := by
  refine ok.update 0 (fun other _ => lists other) (by rw [lru]) ?_
  intro rest total synced
  rw [lists, lru]
  exact synced

theorem Quiet.unpinned (quiet : Quiet state newState) (asma : ℕ) :
    newState.unpinned asma = state.unpinned asma := by
  have here := quiet.areas asma
  unfold State.unpinned
  generalize state.areas asma = before at here
  generalize newState.areas asma = after at here
  cases here with
  | same => rfl
  | opened area empty => exact empty
  | changed area newArea list fixed => exact list

namespace Inv

theorem init : Inv State.init := ⟨by simp [State.init], LruOk.init⟩

variable {state : State} {asma : ℕ} {area : Area}

theorem replace {newArea : Area} {lru : Lru} (inv : Inv state)
    (opened : state.areas asma = some area) (ok : AreaOk newArea)
    (keeps : ∀ {rest total}, Synced asma rest total area.unpinnedList state.lru → Synced asma rest
      total newArea.unpinnedList lru ∧ state.lru.nextId ≤ lru.nextId) :
    Inv { state.setArea asma (some newArea) with lru := lru } := by
  have oldList : state.unpinned asma = area.unpinnedList := by simp [State.unpinned, opened]
  constructor
  · intro other otherArea found
    by_cases same : other = asma
    · subst same
      simp only [State.setArea, update_self, Option.some.injEq] at found
      rwa [← found]
    · simp only [State.setArea, update_of_ne same] at found
      exact inv.areas other otherArea found
  have synced := inv.lru.synced asma
  rw [oldList] at synced
  refine inv.lru.update asma ?_ (keeps synced).2 ?_
  · intro other differs
    exact unpinned_setArea.trans (if_neg differs)
  intro rest total synced
  have here : ({ state.setArea asma (some newArea) with lru := lru } : State).unpinned asma =
      newArea.unpinnedList := unpinned_setArea.trans (if_pos rfl)
  rw [here]
  rw [oldList] at synced
  exact (keeps synced).1

section

variable (inv : Inv state)
include inv

theorem purge {ptr : RangePtr} {range : Range} (found : state.rangeAt ptr = some range)
    (unpurged : range.purged = false) : Inv (purge state ptr range) := by
  refine ⟨?_, inv.lru.purge found unpurged⟩
  intro asma area opened
  rcases areas_purge opened with ⟨old, wasOpen, rfl | rfl⟩
  · exact inv.areas asma area wasOpen
  · exact (inv.areas asma old wasOpen).flag

theorem shrinkLoop (nrToScan : ℤ) : Inv (shrinkLoop state.lru.list nrToScan state).1 := by
  have lruOk := inv.lru
  revert inv
  refine shrinkLoop_induction (motive := fun state result => Inv state → Inv result.1) ?_ ?_
    nrToScan lruOk
  · intro state _ inv
    exact inv
  · intro state ptr range rest _ found unpurged result inv
    exact result (inv.purge found unpurged)

theorem release (opened : state.areas asma = some area) :
    Inv (ashmemRelease asma area state).state := by
  have oldList : state.unpinned asma = area.unpinnedList := by simp [State.unpinned, opened]
  have synced := inv.lru.synced asma
  rw [oldList] at synced
  refine ⟨fun other otherArea found => inv.areas other otherArea (areas_release found), ?_⟩
  refine inv.lru.update asma unpinned_release.2 (release_synced synced).2 ?_
  intro rest total synced
  rw [oldList] at synced
  rw [unpinned_release.1]
  exact (release_synced synced).1

theorem quiet {newState : State} (quiet : Quiet state newState) : Inv newState := by
  refine ⟨?_, inv.lru.congr quiet.unpinned quiet.lru⟩
  intro asma area found
  have here := quiet.areas asma
  rw [found] at here
  generalize before : state.areas asma = old at here
  cases here with
  | same => exact inv.areas asma area before
  | opened _ empty => refine ⟨?_, ?_, ?_⟩ <;> simp [empty, Ordered.nil]
  | changed old _ list fixed => exact (inv.areas asma old before).quiet list fixed

end

theorem step (inv : Inv state) (request : Request) : Inv (step state request) := by
  have change := transition state request
  generalize Ashmem.step state request = newState at change
  cases change with
  | pinned opened backed accepted =>
    exact inv.replace opened ((inv.areas _ _ opened).pin backed accepted) ashmemPin_synced
  | unpinned opened backed accepted =>
    have ok := inv.areas _ _ opened
    exact inv.replace opened (ok.unpin backed accepted)
      (ashmemUnpin_synced ok.ordered (ok.fits accepted))
  | released opened => exact inv.release opened
  | notOpen closed => exact inv
  | shrunk nrToScan noEffect notRelease truncated => exact inv.shrinkLoop nrToScan
  | quiet quiet noEffect notRelease truncated => exact inv.quiet quiet

end Inv

/-! ## Properties of single ranges -/

/-- Every range of every area satisfies a property of the area size and its bounds. -/
def RangesHold (property : U32 → ℕ → ℕ → Prop) (state : State) : Prop :=
  ∀ asma area, state.areas asma = some area → ∀ range ∈ area.unpinnedList,
    property area.size range.pgstart range.pgend

namespace RangesHold

variable {property : U32 → ℕ → ℕ → Prop} {state : State}

theorem replace {asma : ℕ} {area : Area} {list : List Range} {lru : Lru}
    (holds : RangesHold property state)
    (here : ∀ range ∈ list, property area.size range.pgstart range.pgend) :
    RangesHold property
      { state.setArea asma (some { area with unpinnedList := list }) with lru := lru } := by
  intro other otherArea found
  by_cases same : other = asma
  · subst same
    simp only [State.setArea, update_self, Option.some.injEq] at found
    rw [← found]
    exact here
  · simp only [State.setArea, update_of_ne same] at found
    exact holds other otherArea found

theorem shrinkLoop (holds : RangesHold property state) (ok : LruOk state) (nrToScan : ℤ) :
    RangesHold property (shrinkLoop state.lru.list nrToScan state).1 := by
  revert holds
  refine shrinkLoop_induction (motive := fun state result =>
    RangesHold property state → RangesHold property result.1) ?_ ?_ nrToScan ok
  · intro state _ holds
    exact holds
  intro state ptr range rest _ _ _ result holds
  refine result fun asma area opened => ?_
  rcases areas_purge opened with ⟨old, wasOpen, rfl | rfl⟩
  · exact holds asma area wasOpen
  intro range mem
  rcases mem_map.mp mem with ⟨before, inList, rfl⟩
  have property := holds asma old wasOpen before inList
  split_ifs
  · exact property
  · exact property

theorem quiet {newState : State} (holds : RangesHold property state) (inv : Inv state)
    (quiet : Quiet state newState) : RangesHold property newState := by
  intro asma area found
  have here := quiet.areas asma
  rw [found] at here
  generalize before : state.areas asma = old at here
  cases here with
  | same => exact holds asma area before
  | opened _ empty => simp [empty]
  | changed old _ list fixed =>
    intro range mem
    rw [list] at mem
    have backed := (inv.areas asma old before).backed (ne_nil_of_mem mem)
    rw [(fixed backed).2]
    exact holds asma old before range mem

/-- A property that nonempty pieces inherit is kept by every request, if the
ranges that an unpin can create have it. -/
theorem step {request : Request} (holds : RangesHold property state) (inv : Inv state)
    (piece : ∀ {size start finish newStart newFinish}, property size start finish →
      start ≤ newStart → newStart ≤ newFinish → newFinish ≤ finish →
      property size newStart newFinish)
    (created : ∀ effect ∈ pinEffect state request, effect.command = .unpin →
      ∀ area, state.areas effect.asma = some area → ∀ start finish, start ≤ effect.pgstart →
      effect.pgend ≤ finish → (finish = effect.pgend ∨
        ∃ old ∈ area.unpinnedList, finish = old.pgend) →
      (∃ offset len : U32, pinInterval area.size offset len = some (effect.pgstart, effect.pgend)) →
      property area.size start finish) : RangesHold property (step state request) := by
  have change := transition state request
  generalize Ashmem.step state request = newState at change
  cases change with
  | pinned opened backed accepted =>
    have ok := inv.areas _ _ opened
    refine holds.replace fun range mem => ?_
    rcases pinLoop_piece _ _ _ ok.ordered (ok.fits accepted) mem with ⟨old, inList, isPiece⟩
    have oldProperty := holds _ _ opened old inList
    rcases isPiece.whole_or_nonempty with nonempty | ⟨startEq, endEq⟩
    · exact piece oldProperty isPiece.start_le nonempty isPiece.end_le
    · rwa [startEq, endEq]
  | unpinned opened backed accepted =>
    have ok := inv.areas _ _ opened
    refine holds.replace fun range mem => ?_
    rcases mem_ashmemUnpin ok.ordered (ok.fits accepted) mem with old | ⟨startLe, endGe, ends⟩
    · exact holds _ _ opened range old
    · exact created _ (pinEffect_eq opened backed accepted) rfl _ opened _ _ startLe endGe ends
        ⟨_, _, accepted⟩
  | released opened => exact fun other area found => holds other area (areas_release found)
  | notOpen closed => exact holds
  | shrunk nrToScan noEffect notRelease truncated => exact holds.shrinkLoop inv.lru nrToScan
  | quiet quiet noEffect notRelease truncated => exact holds.quiet inv quiet

end RangesHold

end StreakKernel.Ashmem
