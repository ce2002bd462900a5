import StreakKernel.Ashmem.Basic
import StreakKernel.Lib.Intervals

/-!
# The unpinned list as a set of pages

What `ashmem_pin`, `ashmem_unpin` and `ashmem_get_pin_status` do to the list of one area.
The walks stop early because the list is descending. `Ordered` tolerates ranges with
`pgend + 1 = pgstart`, which a request of length zero at the end of an area leaves behind.

`Fits` describes the intervals that can reach the list code.
-/

namespace StreakKernel.Ashmem

open List Intervals Range Set

abbrev pages (list : List Range) : Set ℕ := covered pgstart pgend list

def flaggedPages (flag : Bool) (list : List Range) : Set ℕ :=
  {page | ∃ range ∈ list, range.purged = flag ∧ pageInRange range page}

variable {flag purged allocOk : Bool} {page asma start finish : ℕ} {range : Range}

@[simp]
theorem mem_flaggedPages_nil : page ∉ flaggedPages flag [] := by
  rintro ⟨range, mem, _⟩
  simp at mem

@[simp]
theorem mem_flaggedPages_cons {list : List Range} : page ∈ flaggedPages flag (range :: list) ↔
      range.purged = flag ∧ pageInRange range page ∨ page ∈ flaggedPages flag list := by
  simp [flaggedPages]

@[simp]
theorem mem_flaggedPages_append {left right : List Range} :
    page ∈ flaggedPages flag (left ++ right) ↔
      page ∈ flaggedPages flag left ∨ page ∈ flaggedPages flag right := by
  simp [flaggedPages, or_and_right, exists_or]

theorem mem_pages_iff {list : List Range} :
    page ∈ pages list ↔ ∃ flag, page ∈ flaggedPages flag list := by
  constructor
  · rintro ⟨range, mem, inside⟩
    exact ⟨range.purged, range, mem, rfl, inside⟩
  · rintro ⟨_, range, mem, _, inside⟩
    exact ⟨range, mem, inside⟩

theorem lt_of_mem_flaggedPages {point : ℕ} {list : List Range} (below : Below pgend point list)
    (mem : page ∈ flaggedPages flag list) : page < point := by
  rcases mem with ⟨range, inList, _, _, pageLe⟩
  exact pageLe.trans_lt (below range inList)

/-- Descending, pairwise disjoint ranges of `size_t` page numbers. -/
structure Ordered (list : List Range) : Prop where
  descending : Descending pgstart pgend list
  start_le : ∀ range ∈ list, range.pgstart ≤ range.pgend + 1
  end_lt : ∀ range ∈ list, range.pgend < 4294967296

/-- A request interval as the argument checks let it through: not empty, or
empty and above the whole list. -/
structure Fits (first last : ℕ) (list : List Range) : Prop where
  last_lt : last < 4294967296
  shape : first ≤ last ∨ first = last + 1 ∧ Below pgend first list

namespace Ordered

variable {range : Range} {list : List Range}

theorem nil : Ordered [] := by
  constructor <;> simp [Descending]

section

variable (ordered : Ordered (range :: list))
include ordered

theorem tail : Ordered list := by
  refine ⟨(pairwise_cons.mp ordered.descending).2, ?_, ?_⟩
  · intro mem inList
    exact ordered.start_le mem (mem_cons_of_mem _ inList)
  · intro mem inList
    exact ordered.end_lt mem (mem_cons_of_mem _ inList)

theorem below_head : Below pgend range.pgstart list :=
  below_of_descending_cons ordered.descending

theorem below_of_head_before {first : ℕ} (before : rangeBeforePage range first) :
    Below pgend first (range :: list) := by
  intro mem inList
  rcases mem_cons.mp inList with rfl | inTail
  · exact before
  have memberBelow := ordered.below_head mem inTail
  have startLe := ordered.start_le range (by simp)
  omega

end

end Ordered

namespace Fits

variable {range : Range} {list : List Range} {first last : ℕ}

theorem tail (fits : Fits first last (range :: list)) : Fits first last list := by
  refine ⟨fits.last_lt, ?_⟩
  rcases fits.shape with le | ⟨eq, below⟩
  · exact .inl le
  · exact .inr ⟨eq, fun mem inList => below mem (mem_cons_of_mem _ inList)⟩

theorem nonempty_of_reached (fits : Fits first last (range :: list))
    (reached : ¬rangeBeforePage range first) : first ≤ last := by
  rcases fits.shape with le | ⟨_, below⟩
  · exact le
  · exact absurd (below range (by simp)) reached

end Fits

theorem rangeAlloc_eq_some {lru newLru : Lru}
    (allocated : rangeAlloc asma purged start finish allocOk lru = some (range, newLru)) :
    allocOk = true ∧ range = ⟨lru.nextId, start, finish, purged⟩ ∧
      newLru = if rangeOnLru range then lruAdd asma range { lru with nextId := lru.nextId + 1 }
        else { lru with nextId := lru.nextId + 1 } := by
  cases allocOk with
  | false => simp [rangeAlloc] at allocated
  | true =>
    rcases allocated with ⟨rfl, rfl⟩
    exact ⟨rfl, rfl, rfl⟩

theorem rangeAlloc_eq_none {lru : Lru}
    (failed : rangeAlloc asma purged start finish allocOk lru = none) : allocOk = false := by
  cases allocOk with
  | false => rfl
  | true => simp [rangeAlloc] at failed

/-! ## Pinning -/

section Pin

variable {asma first last : ℕ} {allocOk : Bool}

structure Piece (range piece : Range) : Prop where
  start_le : range.pgstart ≤ piece.pgstart
  end_le : piece.pgend ≤ range.pgend
  purged_eq : piece.purged = range.purged
  whole_or_nonempty : piece.pgstart ≤ piece.pgend ∨
    piece.pgstart = range.pgstart ∧ piece.pgend = range.pgend

theorem Piece.refl (range : Range) : Piece range range :=
  ⟨le_rfl, le_rfl, rfl, Or.inr ⟨rfl, rfl⟩⟩

theorem piece_after {range : Range} {id : ℕ} (lastLt : last < range.pgend)
    (startLe : range.pgstart ≤ last + 1) : Piece range ⟨id, last + 1, range.pgend, range.purged⟩ :=
  ⟨startLe, Nat.le_refl _, rfl, Or.inl lastLt⟩

theorem piece_before {range : Range} {id : ℕ} (startLt : range.pgstart < first)
    (firstLe : first ≤ range.pgend + 1) :
    Piece range ⟨id, range.pgstart, first - 1, range.purged⟩ := by
  refine ⟨le_refl _, ?_, rfl, .inl ?_⟩
  · show first - 1 ≤ range.pgend
    omega
  · show range.pgstart ≤ first - 1
    omega

/-- What a pin leaves of a range, and whether the range meets the interval. -/
inductive Cut (first last : ℕ) (allocOk : Bool) (range : Range) : Bool → List Range → Prop
  | apart (above : last < range.pgstart) : Cut first last allocOk range false [range]
  | gone (inside : first ≤ range.pgstart ∧ range.pgend ≤ last) :
      Cut first last allocOk range true []
  | upper (id : ℕ) (firstLe : first ≤ range.pgstart) (startLe : range.pgstart ≤ last + 1)
      (lastLt : last < range.pgend) :
      Cut first last allocOk range true [⟨id, last + 1, range.pgend, range.purged⟩]
  | lower (id : ℕ) (startLt : range.pgstart < first) (firstLe : first ≤ range.pgend)
      (ends : range.pgend ≤ last ∨ allocOk = false ∧ last < range.pgend) :
      Cut first last allocOk range true [⟨id, range.pgstart, first - 1, range.purged⟩]
  | both (id other : ℕ) (startLt : range.pgstart < first) (lastLt : last < range.pgend) :
      Cut first last allocOk range true
        [⟨id, last + 1, range.pgend, range.purged⟩, ⟨other, range.pgstart, first - 1, range.purged⟩]

/-- The induction over the ranges that `ashmem_pin` looks at. Those below the interval stay, also
when the loop ends at a range that it has split. -/
theorem pinLoop_induction {motive : List Range → Bool → Walk Bool → Prop}
    (passed : ∀ {list lru ret}, Below pgend first list → motive list ret ⟨list, lru, ret⟩)
    (cut : ∀ {range next ret met left walk}, first ≤ last → Ordered (range :: next) →
      Cut first last allocOk range met left →
      motive next (cond met (ret || range.purged) ret) walk →
      motive (range :: next) ret ⟨left ++ walk.list, walk.lru, walk.ret⟩) (list : List Range)
    (lru : Lru) (ret : Bool) (ordered : Ordered list) (fits : Fits first last list) :
    motive list ret (pinLoop asma first last allocOk list lru ret) := by
  fun_induction pinLoop asma first last allocOk list lru ret with
  | case1 => exact passed fun _ never => absurd never not_mem_nil
  | case2 range next lru ret before => exact passed (ordered.below_of_head_before before)
  | case3 range next lru ret reached _ subsumed ih =>
    exact cut (fits.nonempty_of_reached reached) ordered (.gone subsumed)
      (ih ordered.tail fits.tail)
  | case4 range next _ ret reached meets notSubsumed fromStart _ rest ih =>
    have nonempty := fits.nonempty_of_reached reached
    exact cut nonempty ordered (.upper range.id fromStart (by omega) (by omega))
      (ih ordered.tail fits.tail)
  | case5 range next _ ret reached _ _ notFromStart fromRear _ rest ih =>
    exact cut (fits.nonempty_of_reached reached) ordered
      (.lower range.id (by omega) (by omega) (.inl fromRear)) (ih ordered.tail fits.tail)
  | case6 range next lru ret reached _ _ notFromStart notFromRear upper lru'
      allocated shrunk =>
      rw [(rangeAlloc_eq_some allocated).2.1]
      exact cut (fits.nonempty_of_reached reached) ordered
        (.both _ range.id (by omega) (by omega)) (passed (ordered.below_head.mono (by omega)))
  | case7 range next lru ret reached _ _ notFromStart notFromRear failed shrunk =>
    exact cut (fits.nonempty_of_reached reached) ordered
      (.lower range.id (by omega) (by omega) (.inr ⟨rangeAlloc_eq_none failed, by omega⟩))
      (passed (ordered.below_head.mono (by omega)))
  | case8 range next _ ret reached disjoint rest ih =>
    have nonempty := fits.nonempty_of_reached reached
    exact cut nonempty ordered (.apart (by omega)) (ih ordered.tail fits.tail)

section Cut

variable {range : Range} {met : Bool} {left : List Range}

section Cuts

variable (cut : Cut first last allocOk range met left) (nonempty : first ≤ last)
include cut nonempty

theorem Cut.piece : ∀ piece ∈ left, Piece range piece := by
  cases cut with
  | apart above => exact forall_mem_singleton.mpr (Piece.refl range)
  | gone inside => exact forall_mem_nil _
  | upper id firstLe startLe lastLt => exact forall_mem_singleton.mpr (piece_after lastLt startLe)
  | lower id startLt firstLe ends =>
    exact forall_mem_singleton.mpr (piece_before startLt (by omega))
  | both id other startLt lastLt =>
    exact forall_mem_cons.mpr ⟨piece_after lastLt (by omega),
      forall_mem_singleton.mpr (piece_before startLt (by omega))⟩

theorem Cut.descending : Descending pgstart pgend left := by
  cases cut with
  | gone inside => exact List.Pairwise.nil
  | both id other startLt lastLt =>
    refine pairwise_pair.mpr ?_
    show first - 1 < last + 1
    omega
  | _ => exact pairwise_singleton _ _

theorem Cut.mem_flaggedPages {flag : Bool}
    (noLoss : allocOk = true ∨ (range.purged = flag → ¬(range.pgstart < first ∧
      last < range.pgend))) (page : ℕ) :
    page ∈ flaggedPages flag left ↔
      (range.purged = flag ∧ pageInRange range page) ∧ ¬(first ≤ page ∧ page ≤ last) := by
  by_cases same : range.purged = flag
  · have noLoss := noLoss.imp_right fun safe => safe same
    cases cut with
    | gone inside =>
      refine iff_of_false mem_flaggedPages_nil ?_
      omega
    | lower id startLt firstLe ends =>
      have short : range.pgend ≤ last := by
        rcases ends with short | ⟨failed, long⟩
        · exact short
        · exact absurd ⟨startLt, long⟩ (noLoss.resolve_left (by simp [failed]))
      simp only [mem_flaggedPages_cons, mem_flaggedPages_nil, same, pageInRange, or_false, true_and]
      omega
    | _ =>
      simp only [mem_flaggedPages_cons, mem_flaggedPages_nil, same, pageInRange, or_false, true_and]
      omega
  · cases cut <;> simp [mem_flaggedPages_cons, same]

end Cuts

end Cut

section Pinned

variable (list : List Range) (lru : Lru) (ret : Bool) (ordered : Ordered list)
  (fits : Fits first last list)
include list lru ret ordered fits

theorem pinLoop_piece {piece : Range}
    (mem : piece ∈ (pinLoop asma first last allocOk list lru ret).list) :
    ∃ range ∈ list, Piece range piece := by
  revert mem
  refine pinLoop_induction (motive := fun list _ walk =>
    piece ∈ walk.list → ∃ range ∈ list, Piece range piece) ?_ ?_ list lru ret ordered fits
  · intro list lru ret _ mem
    exact ⟨piece, mem, Piece.refl piece⟩
  intro range next _ met left walk nonempty _ cut ih mem
  rcases mem_append.mp mem with inLeft | inRest
  · exact ⟨range, mem_cons_self, cut.piece nonempty piece inLeft⟩
  · rcases ih inRest with ⟨old, inNext, isPiece⟩
    exact ⟨old, mem_cons_of_mem _ inNext, isPiece⟩

theorem pinLoop_ordered : Ordered (pinLoop asma first last allocOk list lru ret).list := by
  have bounds : ∀ piece ∈ (pinLoop asma first last allocOk list lru ret).list,
      piece.pgstart ≤ piece.pgend + 1 ∧ piece.pgend < 4294967296 := by
    intro piece mem
    rcases pinLoop_piece list lru ret ordered fits mem with ⟨range, inList, isPiece⟩
    have startLe := ordered.start_le range inList
    have endLt := ordered.end_lt range inList
    have endLe := isPiece.end_le
    rcases isPiece.whole_or_nonempty with nonempty | ⟨startEq, endEq⟩ <;> omega
  refine ⟨?_, fun piece mem => (bounds piece mem).1, fun piece mem => (bounds piece mem).2⟩
  refine (pinLoop_induction (motive := fun list _ walk => Ordered list →
    Descending pgstart pgend walk.list ∧
      ∀ point, Below pgend point list → Below pgend point walk.list)
    ?_ ?_ list lru ret ordered fits ordered).1
  · intro list lru ret _ ordered
    exact ⟨ordered.descending, fun _ below => below⟩
  intro range next _ met left walk nonempty ordered cut ih _
  rcases ih ordered.tail with ⟨descending, keeps⟩
  have restBelow := keeps _ ordered.below_head
  refine ⟨pairwise_append.mpr ⟨cut.descending nonempty, descending, ?_⟩, ?_⟩
  · intro piece inLeft lower inRest
    exact (restBelow lower inRest).trans_le (cut.piece nonempty piece inLeft).start_le
  intro point below piece mem
  rcases mem_append.mp mem with inLeft | inRest
  · exact (cut.piece nonempty piece inLeft).end_le.trans_lt (below range mem_cons_self)
  · exact keeps point (fun lower inNext => below lower (mem_cons_of_mem _ inNext)) piece inRest

/-- A pin removes exactly its interval from the pages with a given flag, unless
the second half of a split range of that flag could not be allocated. -/
theorem mem_flaggedPages_pinLoop {flag : Bool}
    (noLoss : allocOk = true ∨ ∀ range ∈ list, range.purged = flag → ¬(range.pgstart < first ∧
      last < range.pgend)) (page : ℕ) :
    page ∈ flaggedPages flag (pinLoop asma first last allocOk list lru ret).list ↔
      page ∈ flaggedPages flag list ∧ ¬(first ≤ page ∧ page ≤ last) := by
  revert noLoss
  refine pinLoop_induction (motive := fun list _ walk =>
    (allocOk = true ∨ ∀ range ∈ list, range.purged = flag →
      ¬(range.pgstart < first ∧ last < range.pgend)) →
    (page ∈ flaggedPages flag walk.list ↔
      page ∈ flaggedPages flag list ∧ ¬(first ≤ page ∧ page ≤ last)))
    ?_ ?_ list lru ret ordered fits
  · intro list lru ret below _
    refine iff_self_and.mpr fun mem => ?_
    have := lt_of_mem_flaggedPages below mem
    omega
  intro range next _ met left walk nonempty _ cut ih noLoss
  have headLoss := noLoss.imp_right fun safe => safe range mem_cons_self
  have inner := ih (noLoss.imp_right fun safe mem inNext =>
    safe mem (mem_cons_of_mem _ inNext))
  rw [mem_flaggedPages_append, mem_flaggedPages_cons, inner, or_and_right,
    cut.mem_flaggedPages nonempty headLoss]

theorem pinLoop_ret
    (reported : ret = true ∨ ∃ page ∈ flaggedPages true list, first ≤ page ∧ page ≤ last) :
    (pinLoop asma first last allocOk list lru ret).ret = true := by
  revert reported
  refine pinLoop_induction (motive := fun list ret walk =>
    (ret = true ∨ ∃ page ∈ flaggedPages true list, first ≤ page ∧ page ≤ last) → walk.ret = true)
    ?_ ?_ list lru ret ordered fits
  · rintro list lru ret below (set | ⟨page, mem, inside⟩)
    · exact set
    · have := lt_of_mem_flaggedPages below mem
      omega
  intro range next ret met left walk _ _ cut ih reported
  refine ih ?_
  rcases reported with set | ⟨page, mem, inside⟩
  · exact .inl (by cases met <;> simp [set])
  rcases mem_flaggedPages_cons.mp mem with ⟨purged, inRange⟩ | inNext
  · cases cut with
    | apart above => omega
    | _ => exact .inl (by simp [purged])
  · exact .inr ⟨page, inNext, inside⟩

end Pinned

end Pin

/-! ## Unpinning -/

section Unpin

variable {asma first last : ℕ} {allocOk : Bool} {list before after : List Range} {range : Range}

theorem unpinScan_insert (scan : unpinScan first last list = .insert before after)
    (ordered : Ordered list) (fits : Fits first last list) :
    list = before ++ after ∧ (∀ range ∈ before, last < range.pgstart) ∧
      Below pgend first after := by
  induction list generalizing before with
  | nil =>
    rcases scan with ⟨rfl, rfl⟩
    exact ⟨rfl, by simp, by simp [Below]⟩
  | cons head next ih =>
    simp only [unpinScan] at scan
    split_ifs at scan with reached covers meets
    · simp only [UnpinScan.insert.injEq] at scan
      rcases scan with ⟨rfl, rfl⟩
      exact ⟨rfl, by simp, ordered.below_of_head_before reached⟩
    split at scan
    · rename_i inner rest innerScan
      rcases scan with ⟨rfl, rfl⟩
      rcases ih innerScan ordered.tail fits.tail with ⟨eq, above, below⟩
      refine ⟨by rw [eq]; rfl, ?_, below⟩
      intro mem inBefore
      rcases mem_cons.mp inBefore with rfl | inInner
      · omega
      · exact above mem inInner
    · simp at scan
    · simp at scan

theorem unpinScan_covered (scan : unpinScan first last list = .covered) :
    ∃ range ∈ list, pageRangeSubsumedByRange range first last := by
  induction list with
  | nil => simp [unpinScan] at scan
  | cons head next ih =>
    simp only [unpinScan] at scan
    split_ifs at scan with reached covers meets
    · exact ⟨head, by simp, covers⟩
    split at scan
    · simp at scan
    · rename_i innerScan
      rcases ih innerScan with ⟨range, inNext, covers⟩
      exact ⟨range, mem_cons_of_mem _ inNext, covers⟩
    · simp at scan

theorem unpinScan_overlap (scan : unpinScan first last list = .overlap before range after)
    (fits : Fits first last list) :
    list = before ++ range :: after ∧ pageRangeInRange range first last ∧
      ¬pageRangeSubsumedByRange range first last ∧ first ≤ last := by
  induction list generalizing before with
  | nil => simp [unpinScan] at scan
  | cons head next ih =>
    simp only [unpinScan] at scan
    split_ifs at scan with reached covers meets
    · simp only [UnpinScan.overlap.injEq] at scan
      rcases scan with ⟨rfl, rfl, rfl⟩
      exact ⟨rfl, meets, covers, fits.nonempty_of_reached reached⟩
    split at scan
    · simp at scan
    · simp at scan
    rename_i inner hit rest innerScan
    rcases scan with ⟨rfl, rfl, rfl⟩
    rcases ih innerScan fits.tail with ⟨eq, rest⟩
    exact ⟨by rw [eq]; rfl, rest⟩

private theorem mem_of_mem_rest {mem : Range} (inRest : mem ∈ before ++ after) :
    mem ∈ before ++ range :: after := by
  have sub : (before ++ after).Sublist (before ++ range :: after) := by simp
  exact sub.subset inRest

namespace Ordered

theorem erase (ordered : Ordered (before ++ range :: after)) : Ordered (before ++ after) := by
  have sub : (before ++ after).Sublist (before ++ range :: after) := by simp
  exact ⟨ordered.descending.sublist sub,
    fun mem inRest => ordered.start_le mem (sub.subset inRest),
    fun mem inRest => ordered.end_lt mem (sub.subset inRest)⟩

theorem disjoint (ordered : Ordered (before ++ range :: after)) {other : Range}
    (mem : other ∈ before ++ after) :
    range.pgend < other.pgstart ∨ other.pgend < range.pgstart := by
  rcases pairwise_append.mp ordered.descending with ⟨_, rest, cross⟩
  rcases mem_append.mp mem with inBefore | inAfter
  · exact .inl (cross other inBefore range (by simp))
  · exact .inr ((pairwise_cons.mp rest).1 other inAfter)

theorem insert (ordered : Ordered (before ++ after))
    (above : ∀ mem ∈ before, range.pgend < mem.pgstart)
    (below : Below pgend range.pgstart after) (start_le : range.pgstart ≤ range.pgend + 1)
    (end_lt : range.pgend < 4294967296) : Ordered (before ++ range :: after) := by
  rcases pairwise_append.mp ordered.descending with ⟨left, right, cross⟩
  refine ⟨?_, ?_, ?_⟩
  · refine pairwise_append.mpr ⟨left, pairwise_cons.mpr ⟨below, right⟩, ?_⟩
    intro upper inBefore lower inRest
    rcases mem_cons.mp inRest with rfl | inAfter
    · exact above upper inBefore
    · exact cross upper inBefore lower inAfter
  · intro mem inList
    rcases mem_append.mp inList with inBefore | inRest
    · exact ordered.start_le mem (mem_append_left _ inBefore)
    · rcases mem_cons.mp inRest with rfl | inAfter
      · exact start_le
      · exact ordered.start_le mem (mem_append_right _ inAfter)
  intro mem inList
  rcases mem_append.mp inList with inBefore | inRest
  · exact ordered.end_lt mem (mem_append_left _ inBefore)
  · rcases mem_cons.mp inRest with rfl | inAfter
    · exact end_lt
    · exact ordered.end_lt mem (mem_append_right _ inAfter)

end Ordered

theorem Fits.hull (fits : Fits first last (before ++ range :: after))
    (ordered : Ordered (before ++ range :: after)) (nonempty : first ≤ last) :
    Fits (min range.pgstart first) (max range.pgend last) (before ++ after) := by
  have endLt := ordered.end_lt range (by simp)
  have lastLt := fits.last_lt
  refine ⟨by omega, .inl (by omega)⟩

theorem unpinRestart_induction {motive : ℕ → ℕ → Bool → List Range → Lru → Walk ℤ → Prop}
    (inserted : ∀ {first last purged before after lru}, Ordered (before ++ after) →
      Fits first last (before ++ after) → (∀ range ∈ before, last < range.pgstart) →
      Below pgend first after → ∀ {range newLru},
      rangeAlloc asma purged first last allocOk lru = some (range, newLru) →
      motive first last purged (before ++ after) lru ⟨before ++ range :: after, newLru, 0⟩)
    (failed : ∀ {first last purged list lru}, Ordered list → Fits first last list →
      allocOk = false → motive first last purged list lru ⟨list, lru, -12⟩)
    (covered : ∀ {first last purged list lru}, Ordered list → Fits first last list →
      (∃ range ∈ list, pageRangeSubsumedByRange range first last) →
      motive first last purged list lru ⟨list, lru, 0⟩)
    (merged : ∀ {first last purged before range after lru walk},
      Ordered (before ++ range :: after) → Fits first last (before ++ range :: after) →
      pageRangeInRange range first last → ¬pageRangeSubsumedByRange range first last →
      first ≤ last →
      motive (min range.pgstart first) (max range.pgend last) (purged || range.purged)
        (before ++ after) (rangeDel asma range lru) walk →
      motive first last purged (before ++ range :: after) lru walk) {passes : ℕ} {purged : Bool}
    {lru : Lru} (enough : list.length ≤ passes) (ordered : Ordered list)
    (fits : Fits first last list) :
    motive first last purged list lru
      (unpinRestart asma allocOk passes first last purged list lru) := by
  induction passes generalizing first last purged list lru with
  | zero =>
    have empty : list = [] := eq_nil_of_length_eq_zero (by omega)
    subst empty
    simp only [unpinRestart, unpinScan]
    split
    · rename_i range newLru allocated
      exact @inserted first last purged [] [] lru ordered fits (by simp) (by simp [Below])
        range newLru allocated
    · rename_i allocFailed
      exact failed ordered fits (rangeAlloc_eq_none allocFailed)
  | succ passes ih =>
    unfold unpinRestart
    split
    · rename_i before after scan
      rcases unpinScan_insert scan ordered fits with ⟨rfl, above, below⟩
      split
      · rename_i range newLru allocated
        exact inserted ordered fits above below allocated
      · rename_i allocFailed
        exact failed ordered fits (rangeAlloc_eq_none allocFailed)
    · rename_i scan
      exact covered ordered fits (unpinScan_covered scan)
    rename_i before range after scan
    rcases unpinScan_overlap scan fits with ⟨rfl, meets, notCovers, nonempty⟩
    refine merged ordered fits meets notCovers nonempty (ih ?_ ordered.erase
      (fits.hull ordered nonempty))
    simp only [length_append, length_cons] at enough ⊢
    omega

section

variable (ordered : Ordered list) (fits : Fits first last list)
include ordered fits

theorem ashmemUnpin_ordered {lru : Lru} :
    Ordered (ashmemUnpin asma first last allocOk list lru).list := by
  refine unpinRestart_induction (motive := fun _ _ _ _ _ walk => Ordered walk.list)
    ?_ ?_ ?_ ?_ le_rfl ordered fits
  · intro first last purged before after lru ordered fits above below range newLru allocated
    rw [(rangeAlloc_eq_some allocated).2.1]
    refine ordered.insert above below ?_ fits.last_lt
    rcases fits.shape with le | ⟨eq, _⟩
    · exact Nat.le_succ_of_le le
    · exact eq.le
  · intro first last _ list _ ordered _ _
    exact ordered
  · intro first last _ list _ ordered _ _
    exact ordered
  · intro first last _ before range after _ walk _ _ _ _ _ result
    exact result

/-- A range of the new list is an old one, or contains the interval and ends
where the interval or an old range ends. -/
theorem mem_ashmemUnpin {lru : Lru} {mem : Range}
    (inNew : mem ∈ (ashmemUnpin asma first last allocOk list lru).list) :
    mem ∈ list ∨ mem.pgstart ≤ first ∧ last ≤ mem.pgend ∧
      (mem.pgend = last ∨ ∃ old ∈ list, mem.pgend = old.pgend) := by
  revert inNew
  refine unpinRestart_induction (motive := fun first last _ list _ walk =>
    mem ∈ walk.list → mem ∈ list ∨ mem.pgstart ≤ first ∧ last ≤ mem.pgend ∧
      (mem.pgend = last ∨ ∃ old ∈ list, mem.pgend = old.pgend))
    ?_ ?_ ?_ ?_ le_rfl ordered fits
  · intro first last purged before after lru _ _ _ _ range newLru allocated inNew
    rcases mem_append.mp inNew with inBefore | inRest
    · exact .inl (mem_append_left _ inBefore)
    rcases mem_cons.mp inRest with rfl | inAfter
    · rw [(rangeAlloc_eq_some allocated).2.1]
      exact .inr ⟨le_rfl, le_rfl, .inl rfl⟩
    · exact .inl (mem_append_right _ inAfter)
  · intro first last _ list lru _ _ _ inNew
    exact .inl inNew
  · intro first last _ list lru _ _ _ inNew
    exact .inl inNew
  · intro first last _ before range after _ walk _ _ _ _ _ result inNew
    rcases result inNew with old | ⟨startLe, endGe, ends⟩
    · exact .inl (mem_of_mem_rest old)
    refine .inr ⟨by omega, by omega, ?_⟩
    rcases ends with eq | ⟨old, inRest, eq⟩
    · rcases le_total range.pgend last with le | le
      · exact .inl (by omega)
      · exact .inr ⟨range, by simp, by omega⟩
    · exact .inr ⟨old, mem_of_mem_rest inRest, eq⟩

theorem pages_ashmemUnpin {lru : Lru} (ok : allocOk = true) :
    pages (ashmemUnpin asma first last allocOk list lru).list =
      pages list ∪ Set.Icc first last := by
  refine unpinRestart_induction (motive := fun first last _ list _ walk =>
    pages walk.list = pages list ∪ Set.Icc first last) ?_ ?_ ?_ ?_ le_rfl ordered fits
  · intro first last purged before after lru _ _ _ _ range newLru allocated
    rw [(rangeAlloc_eq_some allocated).2.1]
    simp only [covered_append, covered_cons]
    rw [union_comm (Set.Icc first last), union_assoc]
  · intro first last _ list lru _ _ failed
    rw [ok] at failed
    simp at failed
  · rintro first last _ list lru _ _ ⟨range, mem, covers⟩
    refine (union_eq_self_of_subset_right ?_).symm
    rintro page ⟨firstLe, leLast⟩
    exact ⟨range, mem, by omega, by omega⟩
  · intro first last _ before range after _ walk _ _ meets _ _ result
    rw [result, icc_union_icc_hull meets]
    simp only [covered_append, covered_cons]
    ext page
    simp only [mem_union]
    tauto

end

/-- The flagged pages of the ranges that were merged, which the new range has to get. -/
structure Owed (allocOk : Bool) (first last : ℕ) (purged : Bool) (list : List Range)
    (debt : Set ℕ) : Prop where
  inside : debt ⊆ Set.Icc first last
  flagged : debt.Nonempty → purged = true
  fresh : ∀ page ∈ debt, page ∉ pages list
  noLoss : allocOk = true ∨ (∃ range ∈ list, pageRangeSubsumedByRange range first last) ∨
    debt = ∅ ∧ ∀ page ∈ flaggedPages true list, ¬(first ≤ page ∧ page ≤ last)

section Owed

variable {purged : Bool} {debt : Set ℕ}

theorem Owed.eq_empty (owed : Owed allocOk first last purged list debt) (mem : range ∈ list)
    (covers : pageRangeSubsumedByRange range first last) : debt = ∅ := by
  refine eq_empty_of_forall_notMem fun page isOwed => ?_
  have bounds := owed.inside isOwed
  exact owed.fresh page isOwed ⟨range, mem, covers.1.trans bounds.1, bounds.2.trans covers.2⟩

theorem Owed.merge (owed : Owed allocOk first last purged (before ++ range :: after) debt)
    (ordered : Ordered (before ++ range :: after)) (meets : pageRangeInRange range first last)
    (notCovers : ¬pageRangeSubsumedByRange range first last) (nonempty : first ≤ last) :
    Owed allocOk (min range.pgstart first) (max range.pgend last) (purged || range.purged)
      (before ++ after) (debt ∪ {page | range.purged = true ∧ pageInRange range page}) := by
  refine ⟨?_, ?_, ?_, ?_⟩
  · rintro page (isOwed | ⟨_, inRange⟩)
    · have bounds := owed.inside isOwed
      simp only [mem_Icc] at bounds ⊢
      omega
    · simp only [mem_Icc]
      omega
  · rintro ⟨page, isOwed | ⟨purged, _⟩⟩
    · simp [owed.flagged ⟨page, isOwed⟩]
    · simp [purged]
  · rintro page (isOwed | ⟨_, inRange⟩) ⟨other, mem, inOther⟩
    · exact owed.fresh page isOwed ⟨other, mem_of_mem_rest mem, inOther⟩
    · rcases ordered.disjoint mem with apart | apart <;> omega
  rcases owed.noLoss with ok | ⟨cover, mem, covers⟩ | ⟨rfl, clean⟩
  · exact .inl ok
  · have coverMem : cover ∈ before ++ after := by
      simp only [mem_append, mem_cons] at mem ⊢
      rcases mem with inBefore | rfl | inAfter
      · exact .inl inBefore
      · exact absurd covers notCovers
      · exact .inr inAfter
    refine .inr (.inl ⟨cover, coverMem, ?_⟩)
    rcases ordered.disjoint coverMem with apart | apart <;> omega
  have cleanRange : ∀ page, pageInRange range page → first ≤ page → page ≤ last →
      range.purged ≠ true := by
    intro page inRange firstLe leLast purged
    exact clean page ⟨range, by simp, purged, inRange⟩ ⟨firstLe, leLast⟩
  refine .inr (.inr ⟨?_, ?_⟩)
  · refine eq_empty_of_forall_notMem ?_
    rintro page (isOwed | ⟨purged, inRange⟩)
    · exact isOwed
    rcases meets with atFirst | atLast | ⟨startGe, endLe⟩
    · exact cleanRange first atFirst le_rfl nonempty purged
    · exact cleanRange last atLast nonempty le_rfl purged
    · exact cleanRange page inRange (by omega) (by omega) purged
  · rintro page ⟨other, mem, purged, inOther⟩ inHull
    have apart := ordered.disjoint mem
    exact clean page ⟨other, mem_of_mem_rest mem, purged, inOther⟩ (by omega)

end Owed

/-- Purged pages stay flagged across an unpin, unless an allocation failure
throws away a purged range that meets the interval. -/
theorem flaggedPages_ashmemUnpin {lru : Lru} (ordered : Ordered list) (fits : Fits first last list)
    (noLoss : allocOk = true ∨ (∃ range ∈ list, pageRangeSubsumedByRange range first last) ∨
      ∀ page ∈ flaggedPages true list, ¬(first ≤ page ∧ page ≤ last)) :
    flaggedPages true list ⊆
      flaggedPages true (ashmemUnpin asma first last allocOk list lru).list := by
  have none : Owed allocOk first last false list ∅ :=
    ⟨by simp, by simp, by simp, by simpa using noLoss⟩
  rw [← union_empty (flaggedPages true list)]
  refine unpinRestart_induction (motive := fun first last purged list _ walk =>
    ∀ debt, Owed allocOk first last purged list debt →
      flaggedPages true list ∪ debt ⊆ flaggedPages true walk.list)
    ?_ ?_ ?_ ?_ le_rfl ordered fits ∅ none
  · intro first last purged before after lru _ _ _ _ range newLru allocated debt owed
    rw [(rangeAlloc_eq_some allocated).2.1]
    rintro page (old | isOwed)
    · simp only [mem_flaggedPages_append, mem_flaggedPages_cons] at old ⊢
      tauto
    · have bounds := owed.inside isOwed
      simp only [mem_flaggedPages_append, mem_flaggedPages_cons]
      exact .inr (.inl ⟨owed.flagged ⟨page, isOwed⟩, bounds.1, bounds.2⟩)
  · intro first last purged list _ _ _ failed debt owed
    have empty : debt = ∅ := by
      rcases owed.noLoss with ok | ⟨range, mem, covers⟩ | ⟨empty, _⟩
      · rw [ok] at failed
        simp at failed
      · exact owed.eq_empty mem covers
      · exact empty
    simp [empty]
  · rintro first last purged list lru _ _ ⟨range, mem, covers⟩ debt owed
    simp [owed.eq_empty mem covers]
  · intro first last purged before range after _ walk ordered _ meets notCovers nonempty result debt
      owed
    refine Set.Subset.trans ?_ (result _ (owed.merge ordered meets notCovers nonempty))
    rintro page (old | isOwed)
    · simp only [mem_flaggedPages_append, mem_flaggedPages_cons] at old
      simp only [mem_union, mem_flaggedPages_append]
      rcases old with inBefore | here | inAfter
      · exact .inl (.inl inBefore)
      · exact .inr (.inr here)
      · exact .inl (.inr inAfter)
    · exact .inr (.inl isOwed)

theorem ashmemGetPinStatus_eq (ordered : Ordered list) (fits : Fits first last list)
    (nonempty : ∀ range ∈ list, range.pgstart ≤ range.pgend) :
    ashmemGetPinStatus first last list = ashmemIsUnpinned ↔
      (pages list ∩ Set.Icc first last).Nonempty := by
  induction list with
  | nil => simp [ashmemGetPinStatus, ashmemIsPinned, ashmemIsUnpinned]
  | cons range next ih =>
    have tailNonempty : ∀ mem ∈ next, mem.pgstart ≤ mem.pgend :=
      fun mem inNext => nonempty mem (mem_cons_of_mem _ inNext)
    have headNonempty := nonempty range (by simp)
    simp only [ashmemGetPinStatus]
    split_ifs with before meets
    · have empty : ¬(pages (range :: next) ∩ Set.Icc first last).Nonempty := by
        rintro ⟨page, ⟨mem, inList, inside⟩, firstLe, _⟩
        have := ordered.below_of_head_before before mem inList
        omega
      exact iff_of_false (by simp [ashmemIsPinned, ashmemIsUnpinned]) empty
    · have intervalNonempty := fits.nonempty_of_reached before
      refine iff_of_true rfl ?_
      rcases meets with atFirst | atLast | ⟨startGe, endLe⟩
      · exact ⟨first, ⟨range, by simp, atFirst⟩, le_rfl, intervalNonempty⟩
      · exact ⟨last, ⟨range, by simp, atLast⟩, intervalNonempty, le_rfl⟩
      · exact ⟨range.pgstart, ⟨range, by simp, le_rfl, headNonempty⟩, startGe, by omega⟩
    rw [ih ordered.tail fits.tail tailNonempty]
    constructor
    · rintro ⟨page, ⟨mem, inNext, inside⟩, inInterval⟩
      exact ⟨page, ⟨mem, mem_cons_of_mem _ inNext, inside⟩, inInterval⟩
    rintro ⟨page, ⟨mem, inList, inside⟩, firstLe, leLast⟩
    rcases mem_cons.mp inList with rfl | inNext
    · omega
    · exact ⟨page, ⟨mem, inNext, inside⟩, firstLe, leLast⟩

end Unpin

end StreakKernel.Ashmem
