import StreakKernel.Ashmem.Invariant

/-!
# The range lists are well formed

`Representation` is kept by every request except two kinds of `ASHMEM_UNPIN`: one with
length zero at the page-aligned end of the area, and one that takes `lru_count` past the
range of an `unsigned long`.
-/

namespace StreakKernel.Ashmem

open List Intervals
open Word (U32)

structure Representation (state : State) : Prop where
  inside : ∀ asma area, state.areas asma = some area → ∀ range ∈ area.unpinnedList,
    range.pgstart ≤ range.pgend ∧ range.pgend < pageCount area
  descending : ∀ asma, Descending Range.pgstart Range.pgend (state.unpinned asma)
  lru_nodup : state.lru.list.Nodup
  mem_lru : ∀ ptr, ptr ∈ state.lru.list ↔
    ∃ range ∈ state.unpinned ptr.asma, range.id = ptr.id ∧ range.purged = false
  count : state.lru.count = state.lruTotal

/-- The interval of an accepted `ASHMEM_UNPIN` is not empty, and its pages can be
added to `lru_count` without overflow. -/
def RegularUnpin (state : State) (request : Request) : Prop :=
  ∀ effect ∈ pinEffect state request, effect.command = .unpin → effect.pgstart ≤ effect.pgend ∧
      state.lruTotal + (effect.pgend + 1 - effect.pgstart) < 4294967296
  deriving Decidable

def Inside (size : U32) (pgstart pgend : ℕ) : Prop :=
  pgstart ≤ pgend ∧ pgend < pageAlign size / 4096

/-- `Inv`, without the empty ranges and without overflow. -/
structure StrictInv (state : State) : Prop where
  inv : Inv state
  inside : RangesHold Inside state
  room : state.lruTotal < 4294967296

theorem pageCount_lt (area : Area) : pageCount area < 4294967295 := by
  have alignLt := pageAlign_lt area.size
  unfold pageCount
  omega

namespace LruOk

variable {state : State}

theorem mem_lru (ok : LruOk state) (ptr : RangePtr) : ptr ∈ state.lru.list ↔
      ∃ range ∈ state.unpinned ptr.asma, range.id = ptr.id ∧ range.purged = false := by
  constructor
  · intro mem
    rcases ok.rangeAt_of_mem mem with ⟨range, found, unpurged⟩
    rcases State.mem_of_rangeAt found with ⟨inList, idEq⟩
    exact ⟨range, inList, idEq, unpurged⟩
  rintro ⟨range, inList, idEq, unpurged⟩
  have onList : ptr ∈ onLru ptr.asma (state.unpinned ptr.asma) :=
    mem_onLru.mpr ⟨range, inList, unpurged, by rw [idEq]⟩
  exact (mem_filter.mp ((ok.perm ptr.asma).mem_iff.mpr onList)).1

theorem onLru_nodup {asma : ℕ} {list : List Range} (distinct : (list.map Range.id).Nodup) :
    (onLru asma list).Nodup := by
  have filtered : ((list.filter fun range => range.purged = false).map Range.id).Nodup :=
    distinct.sublist (filter_sublist.map _)
  refine List.Nodup.of_map RangePtr.id ?_
  simpa [onLru, map_map, Function.comp_def] using filtered

section

variable (ok : LruOk state)
include ok

theorem lru_nodup : state.lru.list.Nodup := by
  refine nodup_iff_count_le_one.mpr fun ptr => ?_
  have perArea := nodup_iff_count_le_one.mp
    ((ok.perm ptr.asma).nodup_iff.mpr (onLru_nodup (ok.distinct ptr.asma))) ptr
  rwa [count_filter (by simp)] at perArea

theorem lruTotal_replace_le {asma room : ℕ} {area : Area} {list : List Range} {lru : Lru}
    (opened : state.areas asma = some area)
    (keeps : ∀ {rest total}, Synced asma rest total area.unpinnedList state.lru →
      Synced asma rest total list lru)
    (pagesLe : lruPages list ≤ lruPages area.unpinnedList + room) :
    ({ state.setArea asma (some { area with unpinnedList := list }) with lru := lru } :
      State).lruTotal ≤ state.lruTotal + room := by
  have oldList : state.unpinned asma = area.unpinnedList := by simp [State.unpinned, opened]
  have newList : ({ state.setArea asma (some { area with unpinnedList := list }) with lru := lru } :
      State).unpinned asma = list := unpinned_setArea.trans (if_pos rfl)
  refine ok.lruTotal_le asma (fun other differs => unpinned_setArea.trans (if_neg differs)) ?_ ?_
  · intro rest total synced
    rw [oldList] at synced
    rw [newList]
    exact keeps synced
  · rwa [newList, oldList]

theorem lruTotal_purge_le {ptr : RangePtr} {range : Range}
    (found : state.rangeAt ptr = some range) (unpurged : range.purged = false) :
    (Ashmem.purge state ptr range).lruTotal ≤ state.lruTotal := by
  rcases State.mem_of_rangeAt found with ⟨inList, idEq⟩
  have total : (Ashmem.purge state ptr range).lruTotal ≤ state.lruTotal + 0 := by
    refine ok.lruTotal_le ptr.asma
      (fun other differs => unpinned_purge.trans (if_neg differs)) ?_ ?_
    · intro rest total synced
      rw [unpinned_purge, if_pos rfl, ← idEq]
      exact synced.purge inList unpurged
    · rw [unpinned_purge, if_pos rfl]
      exact lruPages_flag_le ptr.id _
  exact total

theorem lruTotal_shrinkLoop_le (nrToScan : ℤ) :
    (shrinkLoop state.lru.list nrToScan state).1.lruTotal ≤ state.lruTotal := by
  refine shrinkLoop_induction (motive := fun state result =>
    result.1.lruTotal ≤ state.lruTotal) ?_ ?_ nrToScan ok
  · intro state _
    exact le_rfl
  · intro state ptr range rest ok found unpurged result
    exact result.trans (ok.lruTotal_purge_le found unpurged)

end

end LruOk

namespace StrictInv

variable {state : State}

theorem init : StrictInv State.init :=
  ⟨Inv.init, by simp [RangesHold, State.init], by simp [State.init, State.lruTotal]⟩

section

variable (strict : StrictInv state)
include strict

theorem representation : Representation state := by
  refine ⟨strict.inside, ?_, strict.inv.lru.lru_nodup, strict.inv.lru.mem_lru, ?_⟩
  · intro asma
    rcases opened : state.areas asma with _ | area
    · simp [State.unpinned, opened, Descending]
    · simpa [State.unpinned, opened] using (strict.inv.areas asma area opened).ordered.descending
  · rw [strict.inv.lru.count, Nat.mod_eq_of_lt strict.room]

theorem proper {asma : ℕ} {area : Area} (opened : state.areas asma = some area) :
    Proper area.unpinnedList := by
  intro range mem
  have bounds := strict.inside asma area opened range mem
  exact ⟨bounds.1, bounds.2.trans (pageCount_lt area)⟩

theorem lruTotal_step_le {request : Request} {room : ℕ}
    (bounded : ∀ effect ∈ pinEffect state request, effect.command = .unpin →
      effect.pgend + 1 - effect.pgstart ≤ room) :
    (Ashmem.step state request).lruTotal ≤ state.lruTotal + room := by
  have ok := strict.inv.lru
  have change := transition state request
  generalize Ashmem.step state request = newState at change
  cases change with
  | pinned opened backed accepted =>
    have areaOk := strict.inv.areas _ _ opened
    refine ok.lruTotal_replace_le opened (fun synced => (ashmemPin_synced synced).1) ?_
    exact (lruPages_pinLoop_le _ _ _ areaOk.ordered (areaOk.fits accepted)
      (strict.proper opened)).trans (Nat.le_add_right _ _)
  | unpinned opened backed accepted =>
    have areaOk := strict.inv.areas _ _ opened
    have fits := areaOk.fits accepted
    have sizeLe := bounded _ (pinEffect_eq opened backed accepted) rfl
    refine ok.lruTotal_replace_le opened
      (fun synced => (ashmemUnpin_synced areaOk.ordered fits synced).1) ?_
    exact (lruPages_ashmemUnpin_le areaOk.ordered fits (strict.proper opened)).trans
      (Nat.add_le_add_left sizeLe _)
  | released opened =>
    refine ok.lruTotal_le _ unpinned_release.2 ?_ (by simp [unpinned_release.1])
    intro rest total synced
    rw [unpinned_release.1]
    rw [State.unpinned, opened] at synced
    exact (release_synced synced).1
  | notOpen closed => exact Nat.le_add_right _ _
  | shrunk nrToScan noEffect notRelease truncated =>
    exact (ok.lruTotal_shrinkLoop_le nrToScan).trans (Nat.le_add_right _ _)
  | quiet quiet noEffect notRelease truncated =>
    refine ok.lruTotal_le 0 (fun other _ => quiet.unpinned other) ?_ ?_
    · intro rest total synced
      rwa [quiet.unpinned, quiet.lru]
    · rw [quiet.unpinned]
      exact Nat.le_add_right _ _

theorem inside_step {request : Request}
    (nonempty : ∀ effect ∈ pinEffect state request, effect.command = .unpin →
      effect.pgstart ≤ effect.pgend ∧ effect.pgend + 1 - effect.pgstart < 4294967296) :
    RangesHold Inside (Ashmem.step state request) := by
  refine strict.inside.step strict.inv ?_ ?_
  · rintro size start finish newStart newFinish ⟨_, finishLt⟩ _ nonempty finishLe
    exact ⟨nonempty, finishLe.trans_lt finishLt⟩
  rintro effect isEffect unpins area opened start finish startLe finishGe ends
    ⟨offset, len, accepted⟩
  rcases nonempty effect isEffect unpins with ⟨intervalLe, sizeLt⟩
  refine ⟨by omega, ?_⟩
  rcases ends with rfl | ⟨old, inList, rfl⟩
  · rcases pinInterval_cases accepted with ⟨_, lt⟩ | ⟨_, _, succ⟩ | ⟨_, firstEq, lastEq⟩
    · exact lt
    · omega
    · omega
  · exact (strict.inside _ _ opened old inList).2

end

theorem step (strict : StrictInv state) {request : Request}
    (regular : RegularUnpin state request) : StrictInv (step state request) := by
  refine ⟨strict.inv.step request, strict.inside_step ?_, ?_⟩
  · intro effect isEffect unpins
    have bounds := regular effect isEffect unpins
    omega
  have room := strict.room
  have total : (Ashmem.step state request).lruTotal ≤
      state.lruTotal + (4294967295 - state.lruTotal) := by
    refine strict.lruTotal_step_le fun effect isEffect unpins => ?_
    have bounds := regular effect isEffect unpins
    omega
  omega

end StrictInv

/-- In every run without an irregular unpin the representation is well formed. -/
theorem representation_of_run {requests : List Request}
    (regular : Run.Admits step RegularUnpin State.init requests) :
    Representation (Run.run step State.init requests) := by
  have strict :=
    Run.invariant_run StrictInv (fun _ _ strict regular => strict.step regular) StrictInv.init
      regular
  exact strict.representation

/-- Unpin four pages, pin the second one again and purge one of the two ranges. -/
def splitAndPurge : List Request :=
  [.openFile 0 true, .setSize 0 16384, .mmap 0 3#32 0, .pinUnpin 0 .unpin 0 0 true true,
    .pinUnpin 0 .pin 4096 4096 true true, .shrink 1 true]

theorem representation_of_splitAndPurge : Run.Admits step RegularUnpin State.init splitAndPurge ∧
      Representation (Run.run step State.init splitAndPurge) :=
  ⟨by decide +kernel, representation_of_run (by decide +kernel)⟩

/-- Unpinning length zero at the end of a one-page area leaves the empty range `[1, 0]`. -/
theorem not_representation_of_unpin_at_end : ¬Representation (Run.run step State.init
      [.openFile 0 true, .setSize 0 4096, .mmap 0 3#32 0,
        .pinUnpin 0 .unpin 4096 0 true true]) := by
  intro representation
  have area : (Run.run step State.init [.openFile 0 true, .setSize 0 4096, .mmap 0 3#32 0,
        .pinUnpin 0 .unpin 4096 0 true true]).areas 0 =
      some ⟨[⟨0, 1, 0, false⟩], true, 4096, protMaskAll⟩ := by decide +kernel
  have bounds := representation.inside 0 _ area ⟨0, 1, 0, false⟩ (by simp)
  simp at bounds

end StreakKernel.Ashmem
