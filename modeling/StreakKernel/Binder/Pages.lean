import StreakKernel.Binder.BufferList

/-!
# Pages of the buffer area

`Touched` says which pages the buffers of a list need. Header and data are adjacent, so
every buffer has one footprint, `[addr, footEnd)`.

The first part describes the loops of `binder_update_page_range`; the second part
is the arithmetic of the page roundings.
-/

namespace StreakKernel.Binder

open Function List Word

/-! ## Loops -/

def indices (buffer : ℕ) (addrs : List ℕ) : List ℕ :=
  addrs.map fun pageAddr => (pageAddr - buffer) / 4096

@[simp]
theorem indices_nil (buffer : ℕ) : indices buffer [] = [] := rfl

@[simp]
theorem indices_cons (buffer pageAddr : ℕ) (addrs : List ℕ) :
    indices buffer (pageAddr :: addrs) = (pageAddr - buffer) / 4096 :: indices buffer addrs := rfl

variable {proc : Proc} {buffer start finish index : ℕ} {outcome : ℕ → PageOutcome} {present : Bool}

theorem unmapPages_eq {addrs : List ℕ} {pages : ℕ → Bool} (distinct : (indices buffer addrs).Nodup)
    (present : ∀ index ∈ indices buffer addrs, pages index = true) :
    unmapPages buffer addrs pages =
      .ok fun index => pages index && decide (index ∉ indices buffer addrs) := by
  induction addrs generalizing pages with
  | nil => simp [unmapPages]
  | cons pageAddr rest ih =>
    simp only [indices_cons, nodup_cons, mem_cons, forall_eq_or_imp] at distinct present
    simp only [unmapPages, present.1]
    rw [ih distinct.2]
    · simp only [Bool.true_eq_false, if_false, Except.ok.injEq]
      funext index
      by_cases here : index = (pageAddr - buffer) / 4096
      · simp [here]
      · simp [here]
    intro index mem
    rw [update_of_ne]
    · exact present.2 index mem
    · rintro rfl
      exact distinct.1 mem

theorem mapPages_eq {todo mapped : List ℕ} {original : ℕ → Bool}
    (todoDistinct : (indices buffer todo).Nodup) (mappedDistinct : (indices buffer mapped).Nodup)
    (apart : ∀ index ∈ indices buffer todo, index ∉ indices buffer mapped)
    (absent : ∀ index, index ∈ indices buffer todo ∨ index ∈ indices buffer mapped → original index
      = false) :
    mapPages buffer outcome todo mapped
        (fun index => original index || decide (index ∈ indices buffer mapped)) =
      .ok (fun index => original index || decide (index ∈ indices buffer mapped) ||
        decide (index ∈ indices buffer todo), true) ∨
    mapPages buffer outcome todo mapped
        (fun index => original index || decide (index ∈ indices buffer mapped)) =
      .ok (original, false) := by
  induction todo generalizing mapped with
  | nil => exact .inl (by simp [mapPages])
  | cons pageAddr rest ih =>
    have headMem : (pageAddr - buffer) / 4096 ∈ indices buffer (pageAddr :: rest) := by simp
    have headAbsent := absent _ (.inl headMem)
    have headApart := apart _ headMem
    have undone : (unmapPages buffer mapped fun index =>
        original index || decide (index ∈ indices buffer mapped)) = .ok original := by
      rw [unmapPages_eq mappedDistinct]
      · congr 1
        funext index
        by_cases mem : index ∈ indices buffer mapped
        · simp [mem, absent index (.inr mem)]
        · simp [mem]
      · intro index mem
        simp [mem]
    simp only [mapPages, headAbsent, headApart, decide_false, Bool.or_false, Bool.false_eq_true,
      if_false]
    rcases outcome pageAddr with _ | _ | _ | _
    · simp only [indices_cons, nodup_cons] at todoDistinct
      have extended : update
          (fun index => original index || decide (index ∈ indices buffer mapped))
          ((pageAddr - buffer) / 4096) true =
          fun index => original index || decide (index ∈ indices buffer (pageAddr :: mapped)) := by
        funext index
        by_cases here : index = (pageAddr - buffer) / 4096
        · simp [here]
        · simp [here]
      have continued := @ih (pageAddr :: mapped) todoDistinct.2 ?_ ?_ ?_
      · rw [extended]
        rcases continued with all | none
        · left
          rw [all]
          refine congrArg (fun pages => Except.ok (pages, true)) (funext fun index => ?_)
          by_cases here : index = (pageAddr - buffer) / 4096
          · simp [here]
          · simp [here]
        · exact .inr none
      · simpa [headApart] using mappedDistinct
      · intro index mem
        simp only [indices_cons, mem_cons, not_or]
        refine ⟨?_, apart index (by simp [mem])⟩
        rintro rfl
        exact todoDistinct.1 mem
      · intro index mem
        apply absent
        simp only [indices_cons, mem_cons] at mem ⊢
        tauto
    all_goals
      right
      simp [undone, bind, Except.bind, pure, Except.pure]

def inPageRange (buffer start finish index : ℕ) : Bool :=
  decide (start ≤ buffer + index * 4096 ∧ buffer + index * 4096 < finish)

theorem and_not_inPageRange :
    (present && !inPageRange buffer start finish index) = true ↔ present = true ∧
      ¬(start ≤ buffer + index * 4096 ∧ buffer + index * 4096 < finish) := by
  rw [Bool.and_eq_true, Bool.not_eq_true', inPageRange, decide_eq_false_iff_not]

theorem or_inPageRange :
    (present || inPageRange buffer start finish index) = true ↔ present = true ∨
      start ≤ buffer + index * 4096 ∧ buffer + index * 4096 < finish := by
  rw [Bool.or_eq_true, inPageRange, decide_eq_true_eq]

structure PageRange (buffer start finish : ℕ) : Prop where
  buffer_le : buffer ≤ start
  start_aligned : (start - buffer) % 4096 = 0
  finish_aligned : (finish - buffer) % 4096 = 0

theorem PageRange.mem_indices (range : PageRange buffer start finish) (startLt : start < finish) :
    index ∈ indices buffer (pageAddrs start finish) ↔
      inPageRange buffer start finish index = true := by
  have bufferLe := range.buffer_le
  have startAligned := range.start_aligned
  simp only [indices, pageAddrs, inPageRange, map_map, mem_map, mem_range,
    comp_apply, decide_eq_true_eq]
  constructor
  · rintro ⟨step, stepLt, rfl⟩
    omega
  · rintro ⟨startLe, ltFinish⟩
    exact ⟨index - (start - buffer) / 4096, by omega, by omega⟩

theorem PageRange.nodup_indices (range : PageRange buffer start finish) :
    (indices buffer (pageAddrs start finish)).Nodup := by
  have bufferLe := range.buffer_le
  simp only [indices, pageAddrs, map_map]
  refine List.Nodup.map_on ?_ nodup_range
  intro first _ second _ same
  simp only [comp_apply] at same
  omega

theorem unmapPageRange_eq (range : PageRange proc.buffer start finish)
    (present : ∀ index, inPageRange proc.buffer start finish index = true → proc.pages index =
      true) :
    unmapPageRange proc start finish = .ok { proc with
      pages := fun index => proc.pages index && !inPageRange proc.buffer start finish index } := by
  unfold unmapPageRange
  split_ifs with empty
  · have none : ∀ index, inPageRange proc.buffer start finish index = false := by
      intro index
      simp only [inPageRange, decide_eq_false_iff_not]
      omega
    simp [none]
  have members : ∀ index, index ∈ indices proc.buffer (pageAddrs start finish).reverse ↔
      inPageRange proc.buffer start finish index = true := by
    intro index
    rw [← range.mem_indices (by omega)]
    simp [indices]
  have distinct : (indices proc.buffer (pageAddrs start finish).reverse).Nodup := by
    simpa [indices] using range.nodup_indices
  rw [unmapPages_eq distinct fun index mem => present index ((members index).mp mem)]
  simp only [bind, Except.bind, pure, Except.pure, Except.ok.injEq, Proc.mk.injEq, true_and]
  funext index
  by_cases mem : inPageRange proc.buffer start finish index = true
  · simp [members, mem]
  · simp [members, mem]

theorem mapPageRange_eq {vma : Bool} (range : PageRange proc.buffer start finish)
    (absent : ∀ index, inPageRange proc.buffer start finish index = true → proc.pages index =
      false) :
    mapPageRange proc start finish vma outcome = .ok ({ proc with
        pages := fun index => proc.pages index || inPageRange proc.buffer start finish index },
        true) ∨
      mapPageRange proc start finish vma outcome = .ok (proc, false) := by
  unfold mapPageRange
  split_ifs with empty noVma
  · have none : ∀ index, inPageRange proc.buffer start finish index = false := by
      intro index
      simp only [inPageRange, decide_eq_false_iff_not]
      omega
    simp [none]
  · exact .inr rfl
  have members : ∀ index, index ∈ indices proc.buffer (pageAddrs start finish) ↔
      inPageRange proc.buffer start finish index = true := by
    intro index
    exact range.mem_indices (by omega)
  have loop := @mapPages_eq proc.buffer outcome (pageAddrs start finish) [] proc.pages
    range.nodup_indices (by simp) (by simp) (by
      intro index mem
      simp only [indices_nil, not_mem_nil, or_false] at mem
      exact absent index ((members index).mp mem))
  simp only [indices_nil, not_mem_nil, decide_false, Bool.or_false] at loop
  rcases loop with all | none
  · left
    rw [all]
    simp only [bind, Except.bind, pure, Except.pure, Except.ok.injEq, Prod.mk.injEq,
      Proc.mk.injEq, true_and, and_true]
    funext index
    by_cases mem : inPageRange proc.buffer start finish index = true
    all_goals simp [members, mem]
  · right
    rw [none]
    rfl

/-! ## Footprints -/

/-- The page at address `page` meets `[lo, hi)`. -/
def Touches (page lo hi : ℕ) : Prop := lo < page + 4096 ∧ page < hi ∧ lo < hi

/-- The end of what a buffer needs: its header, and its data if it is allocated. -/
def Extent.footEnd (extent : Extent) : ℕ :=
  if extent.buffer.free then extent.buffer.addr + 40 else extent.stop

def Touched (stop page : ℕ) (buffers : List Buffer) : Prop :=
  ∃ extent ∈ extents stop buffers, Touches page extent.buffer.addr extent.footEnd

section Touched

variable {start stop page : ℕ} {buffer : Buffer} {buffers left right : List Buffer}

theorem touched_append : Touched stop page (left ++ right) ↔
    Touched (bufferEnd stop right) page left ∨ Touched stop page right := by
  simp [Touched, extents_append, or_and_right, exists_or]

theorem touched_cons : Touched stop page (buffer :: buffers) ↔
    Touches page buffer.addr (Extent.footEnd ⟨buffer, bufferEnd stop buffers⟩) ∨
      Touched stop page buffers := by
  simp [Touched, extents]

theorem Tiled.touched_bounds (tiled : Tiled start stop buffers)
    (touched : Touched stop page buffers) : page < stop ∧ start < page + 4096 := by
  rcases touched with ⟨extent, mem, lo, hi, _⟩
  have bounds := tiled.extent_bounds mem
  have footLe : extent.footEnd ≤ extent.stop := by
    unfold Extent.footEnd
    split_ifs <;> omega
  omega

theorem Tiled.touched_start (tiled : Tiled start stop buffers) (nonempty : buffers ≠ [])
    (pageLe : page ≤ start) (startLt : start < page + 4096) : Touched stop page buffers := by
  cases buffers with
  | nil => exact absurd rfl nonempty
  | cons buffer rest =>
    rcases cons_iff.mp tiled with ⟨rfl, le, _⟩
    refine touched_cons.mpr (.inl ?_)
    unfold Touches Extent.footEnd
    dsimp only
    split_ifs <;> omega

end Touched

theorem pageAlign_eq {addr : ℕ} (fits : addr + 4096 ≤ 4294967296) :
    pageAlign addr = addr + 4095 - (addr + 4095) % 4096 := by
  have sum : add addr (4096 - 1) = addr + 4095 := add_eq (by omega)
  simp [pageAlign, alignUp, alignDown, sum]

/-! ## Roundings

In this section `addr` is a header, `stop` the end of its buffer and `rest` says
that the page is needed by another buffer. -/

section Roundings

variable {page addr stop : ℕ} {rest : Prop}

section

variable (aligned : page % 4096 = 0)
include aligned

theorem inside_data (fits : addr + 40 + 4096 ≤ 4294967296)
    (outside : rest → page < addr ∨ stop < page + 4096) (first : pageAlign (addr + 40) ≤ page)
    (last : page < pageMask stop) :
    ¬rest ∧ ¬Touches page addr (addr + 40) ∧ Touches page addr stop := by
  rw [pageAlign_eq fits] at first
  simp only [pageMask, alignDown] at last
  refine ⟨fun other => ?_, ?_, ?_⟩
  · have := outside other
    omega
  all_goals
    unfold Touches
    omega

theorem map_pages_iff {used finish : ℕ} (fits : stop + 4096 ≤ 4294967296)
    (usedLe : addr + 40 + used ≤ finish) (finishLe : finish ≤ stop)
    (slack : finish = addr + 40 + used ∨ finish = stop ∧ stop ≤ addr + 40 + used + 44)
    (next : stop % 4096 ≠ 0 → page ≤ stop → stop < page + 4096 → rest) :
    (rest ∨ Touches page addr (addr + 40)) ∨ pageAlign (addr + 40) ≤ page ∧
        page < min (pageAlign (addr + 40 + used)) (pageMask stop) ↔
      rest ∨ Touches page addr finish := by
  rw [pageAlign_eq (by omega), pageAlign_eq (by omega)]
  simp only [pageMask, alignDown, Touches]
  by_cases other : rest
  · simp [other]
  simp only [other, false_or]
  have notNext : ¬(stop % 4096 ≠ 0 ∧ page ≤ stop ∧ stop < page + 4096) := by
    rintro ⟨unaligned, le, lt⟩
    exact other (next unaligned le lt)
  omega

theorem unmap_pages_iff (fits : stop + 4096 ≤ 4294967296) (headerLe : addr + 40 ≤ stop)
    (outside : rest → page < addr ∨ stop < page + 4096)
    (next : stop % 4096 ≠ 0 → page ≤ stop → stop < page + 4096 → rest) :
    (rest ∨ Touches page addr stop) ∧ ¬(pageAlign (addr + 40) ≤ page ∧ page < pageMask stop) ↔
      rest ∨ Touches page addr (addr + 40) := by
  rw [pageAlign_eq (by omega)]
  simp only [pageMask, alignDown, Touches]
  by_cases other : rest
  · have := outside other
    simp only [other, true_or, true_and, iff_true]
    omega
  simp only [other, false_or]
  have notNext : ¬(stop % 4096 ≠ 0 ∧ page ≤ stop ∧ stop < page + 4096) := by
    rintro ⟨unaligned, le, lt⟩
    exact other (next unaligned le lt)
  omega

end

variable {prev : ℕ} {next : Option Buffer}

theorem freePageStart_iff (nextAddr : ∀ buffer ∈ next, buffer.addr = stop) :
    freePageStart prev addr next = true ↔ bufferEndPage prev ≠ bufferStartPage addr ∧
      ¬(next.isSome = true ∧ pageMask stop = bufferEndPage addr ∧
        pageMask stop = bufferStartPage addr) := by
  rcases next with _ | buffer
  · simp [freePageStart]
  have same : bufferStartPage buffer.addr = pageMask stop := by
    rw [nextAddr buffer rfl]
    rfl
  simp [freePageStart, same]
  tauto

theorem freePageEnd_iff (nextAddr : ∀ buffer ∈ next, buffer.addr = stop) :
    freePageEnd prev addr next = true ↔
      ¬(bufferEndPage prev = bufferStartPage addr ∧ bufferEndPage prev = bufferEndPage addr) ∧
      ¬(next.isSome = true ∧ pageMask stop = bufferEndPage addr) := by
  rcases next with _ | buffer
  · simp [freePageEnd]
    tauto
  have same : bufferStartPage buffer.addr = pageMask stop := by
    rw [nextAddr buffer rfl]
    rfl
  simp [freePageEnd, same]
  tauto

theorem freed_iff (aligned : page % 4096 = 0) :
    (freePageStart prev addr next || freePageEnd prev addr next) = true ∧
        freedFrom prev addr next ≤ page ∧ page < freedTo prev addr next ↔
      page = bufferStartPage addr ∧ freePageStart prev addr next = true ∨
        page = bufferEndPage addr ∧ freePageEnd prev addr next = true := by
  unfold freedFrom freedTo bufferStartPage bufferEndPage pageMask alignDown
  rcases freePageStart prev addr next with _ | _ <;>
    rcases freePageEnd prev addr next with _ | _ <;>
    simp <;> omega

theorem delete_pages_iff (aligned : page % 4096 = 0) (prevLe : prev + 40 ≤ addr)
    (headerLe : addr + 40 ≤ stop) (nextAddr : ∀ buffer ∈ next, buffer.addr = stop)
    (outside : rest → page < prev + 40 ∨ next.isSome = true ∧ stop < page + 4096)
    (prevNeeds : Touches page prev (prev + 40) → rest)
    (nextNeeds : next.isSome = true → page ≤ stop → stop < page + 4096 → rest) :
    (rest ∨ Touches page addr (addr + 40)) ∧
        ¬((freePageStart prev addr next || freePageEnd prev addr next) = true ∧
          freedFrom prev addr next ≤ page ∧ page < freedTo prev addr next) ↔ rest := by
  rw [freed_iff aligned, freePageStart_iff nextAddr, freePageEnd_iff nextAddr]
  simp only [Touches, bufferStartPage, bufferEndPage, pageMask, alignDown] at prevNeeds ⊢
  by_cases hasNext : next.isSome = true
  · simp only [hasNext, true_and, forall_const] at outside nextNeeds ⊢
    by_cases other : rest
    · have := outside other
      simp only [other, true_or, true_and, iff_true]
      omega
    have notPrev := mt prevNeeds other
    have notNext : ¬(page ≤ stop ∧ stop < page + 4096) :=
      fun both => other (nextNeeds both.1 both.2)
    simp only [other, false_or, iff_false]
    omega
  simp only [hasNext, Bool.false_eq_true, false_and, or_false, not_false_eq_true, and_true]
    at outside ⊢
  by_cases other : rest
  · have := outside other
    simp only [other, true_or, true_and, iff_true]
    omega
  · have notPrev := mt prevNeeds other
    simp only [other, false_or, iff_false]
    omega

end Roundings

end StreakKernel.Binder
