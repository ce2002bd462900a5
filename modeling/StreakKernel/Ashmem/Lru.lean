import Mathlib.Algebra.BigOperators.Group.List.Basic
import Mathlib.Data.List.Nodup
import StreakKernel.Ashmem.RangeList

/-!
# LRU bookkeeping

`Synced` isolates one area: `rest` are the pointers of the other areas and `total` their
pages. `LruOk` is the invariant of the whole state, and `LruOk.update` transports it
along a change of one area.
-/

namespace StreakKernel.Ashmem

open List Word State

def onLru (asma : ℕ) (list : List Range) : List RangePtr :=
  (list.filter fun range => range.purged = false).map fun range => ⟨asma, range.id⟩

def lruPages (list : List Range) : ℕ :=
  ((list.filter fun range => range.purged = false).map rangeSize).sum

/-- One area agrees with the LRU globals, up to the contribution of the others. -/
structure Synced (asma : ℕ) (rest : List RangePtr) (total : ℕ) (list : List Range) (lru : Lru) :
    Prop where
  perm : lru.list.Perm (onLru asma list ++ rest)
  count : lru.count = (total + lruPages list) % 4294967296
  fresh : ∀ range ∈ list, range.id < lru.nextId
  distinct : (list.map Range.id).Nodup

variable {range : Range} {asma : ℕ} {list : List Range} {ptr : RangePtr} {state : State}

theorem rangeSize_eq (nonempty : range.pgstart ≤ range.pgend)
    (fits : range.pgend - range.pgstart + 1 < 4294967296) (endLt : range.pgend < 4294967296) :
    rangeSize range = range.pgend - range.pgstart + 1 := by
  unfold rangeSize
  rw [sub_eq nonempty endLt, add_eq fits]

@[simp]
theorem lruPages_nil : lruPages [] = 0 := rfl

theorem onLru_cons_of_onLru (onList : rangeOnLru range) :
    onLru asma (range :: list) = ⟨asma, range.id⟩ :: onLru asma list := by
  simp [onLru, onList]

theorem onLru_cons_of_purged (purged : range.purged = true) :
    onLru asma (range :: list) = onLru asma list := by
  simp [onLru, purged]

theorem lruPages_cons_of_onLru (onList : rangeOnLru range) :
    lruPages (range :: list) = rangeSize range + lruPages list := by
  simp [lruPages, onList]

theorem lruPages_cons_of_purged (purged : range.purged = true) :
    lruPages (range :: list) = lruPages list := by
  simp [lruPages, purged]

def lruShare (range : Range) : ℕ := if rangeOnLru range then rangeSize range else 0

theorem lruPages_cons (range : Range) (list : List Range) :
    lruPages (range :: list) = lruShare range + lruPages list := by
  unfold lruShare
  split_ifs with onList
  · exact lruPages_cons_of_onLru onList
  · simpa using lruPages_cons_of_purged (by simpa using onList)

theorem lruPages_append (left right : List Range) :
    lruPages (left ++ right) = lruPages left + lruPages right := by
  simp [lruPages]

theorem mem_onLru :
    ptr ∈ onLru asma list ↔ ∃ range ∈ list, range.purged = false ∧ ptr = ⟨asma, range.id⟩ := by
  simp only [onLru, mem_map, mem_filter, decide_eq_true_eq]
  constructor
  · rintro ⟨range, ⟨mem, unpurged⟩, rfl⟩
    exact ⟨range, mem, unpurged, rfl⟩
  · rintro ⟨range, mem, unpurged, rfl⟩
    exact ⟨range, ⟨mem, unpurged⟩, rfl⟩

namespace Synced

variable {asma total : ℕ} {rest : List RangePtr} {list : List Range} {lru : Lru} {range : Range}

theorem reorder {other : List Range} (synced : Synced asma rest total list lru)
    (same : list.Perm other) : Synced asma rest total other lru := by
  have filtered := same.filter fun range => range.purged = false
  refine ⟨synced.perm.trans ((filtered.map _).append_right rest), ?_, ?_, ?_⟩
  · rw [synced.count]
    unfold lruPages
    rw [(filtered.map rangeSize).sum_eq]
  · intro mem inOther
    exact synced.fresh mem (same.mem_iff.mpr inOther)
  · exact (same.map Range.id).nodup_iff.mp synced.distinct

theorem del (synced : Synced asma rest total (range :: list) lru) :
    Synced asma rest total list (rangeDel asma range lru) := by
  have fresh : ∀ mem ∈ list, mem.id < lru.nextId :=
    fun mem inList => synced.fresh mem (mem_cons_of_mem _ inList)
  have distinct := (nodup_cons.mp synced.distinct).2
  unfold rangeDel
  split_ifs with onList
  · refine ⟨?_, ?_, fresh, distinct⟩
    · have erased := synced.perm.erase ⟨asma, range.id⟩
      rw [onLru_cons_of_onLru onList] at erased
      simpa [lruDel] using erased
    have count := synced.count
    rw [lruPages_cons_of_onLru onList] at count
    simp only [lruDel, count, sub]
    omega
  have purged : range.purged = true := by simpa using onList
  refine ⟨?_, ?_, fresh, distinct⟩
  · simpa [onLru_cons_of_purged purged] using synced.perm
  · simpa [lruPages_cons_of_purged purged] using synced.count

variable {start finish : ℕ} {purged allocOk : Bool} {newLru : Lru} {before after : List Range}

theorem shrink (synced : Synced asma rest total (range :: list) lru) :
    Synced asma rest total ((rangeShrink range start finish lru).1 :: list)
      (rangeShrink range start finish lru).2 := by
  have perm := synced.perm
  have count := synced.count
  have fresh : ∀ mem ∈ (rangeShrink range start finish lru).1 :: list,
      mem.id < lru.nextId := by
    intro mem inList
    rcases mem_cons.mp inList with rfl | inTail
    · exact synced.fresh range (by simp)
    · exact synced.fresh mem (mem_cons_of_mem _ inTail)
  have distinct : (((rangeShrink range start finish lru).1 :: list).map Range.id).Nodup := by
    simpa [rangeShrink] using synced.distinct
  by_cases onList : rangeOnLru range
  · have shrunkOn : rangeOnLru (rangeShrink range start finish lru).1 := onList
    rw [onLru_cons_of_onLru onList] at perm
    rw [lruPages_cons_of_onLru onList] at count
    have newLru : (rangeShrink range start finish lru).2 = { lru with
        count := sub lru.count
          (sub (rangeSize range) (rangeSize (rangeShrink range start finish lru).1)) } := by
      simp [rangeShrink, onList]
    rw [newLru]
    refine ⟨?_, ?_, fresh, distinct⟩
    · rw [onLru_cons_of_onLru shrunkOn]
      exact perm
    · rw [lruPages_cons_of_onLru shrunkOn]
      simp only [count, sub]
      omega
  · have purged : range.purged = true := by simpa using onList
    have shrunkPurged : (rangeShrink range start finish lru).1.purged = true := purged
    have newLru : (rangeShrink range start finish lru).2 = lru := by simp [rangeShrink, onList]
    rw [newLru]
    refine ⟨?_, ?_, fresh, distinct⟩
    · rw [onLru_cons_of_purged purged] at perm
      rw [onLru_cons_of_purged shrunkPurged]
      exact perm
    · rw [lruPages_cons_of_purged purged] at count
      rw [lruPages_cons_of_purged shrunkPurged]
      exact count

theorem alloc (synced : Synced asma rest total list lru)
    (allocated : rangeAlloc asma purged start finish allocOk lru = some (range, newLru)) :
    Synced asma rest total (range :: list) newLru ∧ lru.nextId ≤ newLru.nextId := by
  rcases rangeAlloc_eq_some allocated with ⟨_, rangeEq, rfl⟩
  have idEq : range.id = lru.nextId := by rw [rangeEq]
  have fresh : ∀ mem ∈ range :: list, mem.id < lru.nextId + 1 := by
    intro mem inList
    rcases mem_cons.mp inList with rfl | inTail
    · omega
    · exact (synced.fresh mem inTail).trans (Nat.lt_succ_self _)
  have distinct : ((range :: list).map Range.id).Nodup := by
    refine nodup_cons.mpr ⟨?_, synced.distinct⟩
    intro inIds
    rcases mem_map.mp inIds with ⟨mem, inList, same⟩
    have := synced.fresh mem inList
    omega
  split_ifs with onList
  · refine ⟨⟨?_, ?_, fresh, distinct⟩, Nat.le_succ _⟩
    · rw [onLru_cons_of_onLru onList]
      exact (perm_append_singleton _ lru.list).trans (synced.perm.cons _)
    · rw [lruPages_cons_of_onLru onList]
      simp only [lruAdd, synced.count, add]
      omega
  have isPurged : range.purged = true := by simpa using onList
  refine ⟨⟨?_, ?_, fresh, distinct⟩, Nat.le_succ _⟩
  · rw [onLru_cons_of_purged isPurged]
    exact synced.perm
  · rw [lruPages_cons_of_purged isPurged]
    exact synced.count

section

variable (synced : Synced asma rest total (before ++ range :: after) lru)
include synced

theorem del_middle : Synced asma rest total (before ++ after) (rangeDel asma range lru) :=
  (synced.reorder perm_middle).del

theorem shrink_middle :
    Synced asma rest total (before ++ (rangeShrink range start finish lru).1 :: after)
      (rangeShrink range start finish lru).2 :=
  ((synced.reorder perm_middle).shrink).reorder perm_middle.symm

end

theorem alloc_middle (synced : Synced asma rest total (before ++ after) lru)
    (allocated : rangeAlloc asma purged start finish allocOk lru = some (range, newLru)) :
    Synced asma rest total (before ++ range :: after) newLru :=
  (synced.alloc allocated).1.reorder perm_middle.symm

theorem add_purged (synced : Synced asma rest total list lru) (purged : range.purged = true)
    (fresh : range.id < lru.nextId) (distinct : range.id ∉ list.map Range.id) :
    Synced asma rest total (range :: list) lru := by
  refine ⟨?_, ?_, ?_, nodup_cons.mpr ⟨distinct, synced.distinct⟩⟩
  · rw [onLru_cons_of_purged purged]
    exact synced.perm
  · rw [lruPages_cons_of_purged purged]
    exact synced.count
  intro mem inList
  rcases mem_cons.mp inList with rfl | inTail
  · exact fresh
  · exact synced.fresh mem inTail

theorem purge (synced : Synced asma rest total list lru) (mem : range ∈ list)
    (unpurged : range.purged = false) :
    Synced asma rest total (list.map fun other =>
      if other.id = range.id then { other with purged := true } else other)
      (lruDel asma range lru) := by
  rcases append_of_mem mem with ⟨before, after, rfl⟩
  have deleted : Synced asma rest total (before ++ after) (lruDel asma range lru) := by
    have removed := synced.del_middle
    rwa [rangeDel, if_pos unpurged] at removed
  have distinct := (synced.reorder perm_middle).distinct
  rw [map_cons, nodup_cons, map_append, mem_append, not_or] at distinct
  have untouched : ∀ part : List Range, range.id ∉ part.map Range.id →
      part.map (fun other => if other.id = range.id then { other with purged := true } else other) =
        part := by
    intro part absent
    refine (map_congr_left fun other inPart => ?_).trans (map_id part)
    have differs : other.id ≠ range.id := by
      intro same
      exact absent (mem_map.mpr ⟨other, inPart, same⟩)
    rw [if_neg differs]
    rfl
  rw [map_append, map_cons, untouched before distinct.1.1, untouched after distinct.1.2, if_pos rfl]
  refine (deleted.add_purged rfl ?_ ?_).reorder perm_middle.symm
  · exact synced.fresh range mem
  · simpa [map_append] using distinct.1

end Synced

@[simp]
theorem rangeDel_nextId (asma : ℕ) (range : Range) (lru : Lru) :
    (rangeDel asma range lru).nextId = lru.nextId := by
  unfold rangeDel
  split_ifs <;> rfl

@[simp]
theorem rangeShrink_nextId (range : Range) (start finish : ℕ) (lru : Lru) :
    (rangeShrink range start finish lru).2.nextId = lru.nextId := by
  unfold rangeShrink
  dsimp only
  split_ifs <;> rfl

/-! ## Walks -/

section Walks

variable {asma first last total : ℕ} {allocOk : Bool} {rest : List RangePtr}

/-- The pin loop keeps its area synchronised; `done` is the part of the list the
walk has already passed. -/
theorem pinLoop_synced (done list : List Range) (lru : Lru) (ret : Bool)
    (synced : Synced asma rest total (done ++ list) lru) :
    Synced asma rest total (done ++ (pinLoop asma first last allocOk list lru ret).list)
        (pinLoop asma first last allocOk list lru ret).lru ∧
      lru.nextId ≤ (pinLoop asma first last allocOk list lru ret).lru.nextId := by
  fun_induction pinLoop asma first last allocOk list lru ret generalizing done with
  | case1 | case2 => exact ⟨synced, le_rfl⟩
  | case3 range next lru ret _ _ _ ih =>
    simpa using ih done synced.del_middle
  | case4 range next lru ret _ _ _ _ shrunk walk ih
  | case5 range next lru ret _ _ _ _ _ shrunk walk ih =>
    have shrunkSynced : Synced asma rest total (done ++ shrunk.1 :: next) shrunk.2 :=
      synced.shrink_middle
    have inner := ih (done ++ [shrunk.1]) (by simpa using shrunkSynced)
    have idEq : shrunk.2.nextId = lru.nextId := rangeShrink_nextId _ _ _ _
    rw [idEq] at inner
    simpa [walk] using inner
  | case6 range next lru ret _ _ _ _ _ upper lru'
      allocated shrunk =>
    have grown : Synced asma rest total ((done ++ [upper]) ++ range :: next) lru' := by
      simpa using synced.alloc_middle allocated
    have idEq : shrunk.2.nextId = lru'.nextId := rangeShrink_nextId _ _ _ _
    have shrunkSynced : Synced asma rest total ((done ++ [upper]) ++ shrunk.1 :: next) shrunk.2 :=
      grown.shrink_middle
    refine ⟨by simpa using shrunkSynced, ?_⟩
    rw [idEq]
    exact (synced.alloc allocated).2
  | case7 range next lru ret _ _ _ _ _ _ shrunk =>
    exact ⟨synced.shrink_middle, (rangeShrink_nextId _ _ _ _).ge⟩
  | case8 range next lru ret _ _ walk ih =>
    have inner := ih (done ++ [range]) (by simpa using synced)
    simpa [walk] using inner

variable {list : List Range} {lru : Lru} {range : Range}

theorem ashmemPin_synced (synced : Synced asma rest total list lru) :
    Synced asma rest total (ashmemPin asma first last allocOk list lru).list
        (ashmemPin asma first last allocOk list lru).lru ∧
      lru.nextId ≤ (ashmemPin asma first last allocOk list lru).lru.nextId :=
  pinLoop_synced [] list lru false synced

theorem ashmemUnpin_synced (ordered : Ordered list) (fits : Fits first last list)
    (synced : Synced asma rest total list lru) :
    Synced asma rest total (ashmemUnpin asma first last allocOk list lru).list
        (ashmemUnpin asma first last allocOk list lru).lru ∧
      lru.nextId ≤ (ashmemUnpin asma first last allocOk list lru).lru.nextId := by
  revert synced
  refine unpinRestart_induction (motive := fun _ _ _ list lru walk =>
    Synced asma rest total list lru →
      Synced asma rest total walk.list walk.lru ∧ lru.nextId ≤ walk.lru.nextId)
    ?_ ?_ ?_ ?_ le_rfl ordered fits
  · intro first last purged before after lru _ _ _ _ range newLru allocated synced
    exact ⟨synced.alloc_middle allocated, (synced.alloc allocated).2⟩
  · intro first last _ list lru _ _ _ synced
    exact ⟨synced, le_rfl⟩
  · intro first last _ list lru _ _ _ synced
    exact ⟨synced, le_rfl⟩
  · intro first last _ before range after lru walk _ _ _ _ _ result synced
    simpa using result synced.del_middle

theorem release_synced (synced : Synced asma rest total list lru) :
    Synced asma rest total [] (list.foldl (fun lru range => rangeDel asma range lru) lru) ∧
      lru.nextId ≤ (list.foldl (fun lru range => rangeDel asma range lru) lru).nextId := by
  induction list generalizing lru with
  | nil => exact ⟨synced, le_rfl⟩
  | cons range next ih => simpa using ih synced.del

def Proper (list : List Range) : Prop :=
  ∀ range ∈ list, range.pgstart ≤ range.pgend ∧ range.pgend < 4294967295

theorem Proper.tail (proper : Proper (range :: list)) : Proper list :=
  fun mem inList => proper mem (mem_cons_of_mem _ inList)

theorem lruShare_le (startLe : range.pgstart ≤ range.pgend + 1) :
    lruShare range ≤ if range.purged = true then 0 else range.pgend + 1 - range.pgstart := by
  have sizeLe : rangeSize range ≤ range.pgend + 1 - range.pgstart := by
    unfold rangeSize add sub
    omega
  rcases flag : range.purged with _ | _
  · simpa [lruShare, rangeOnLru, flag] using sizeLe
  · simp [lruShare, rangeOnLru, flag]

theorem lruShare_eq (proper : range.pgstart ≤ range.pgend ∧ range.pgend < 4294967295) :
    lruShare range = if range.purged = true then 0 else range.pgend + 1 - range.pgstart := by
  have sizeEq : rangeSize range = range.pgend + 1 - range.pgstart := by
    rw [rangeSize_eq proper.1 (by omega) (by omega)]
    omega
  rcases flag : range.purged with _ | _
  · simpa [lruShare, rangeOnLru, flag] using sizeEq
  · simp [lruShare, rangeOnLru, flag]

theorem lruPages_flag_le (id : ℕ) (list : List Range) : lruPages (list.map fun range =>
      if range.id = id then { range with purged := true } else range) ≤ lruPages list := by
  induction list with
  | nil => exact le_rfl
  | cons range next ih =>
    rw [map_cons, lruPages_cons, lruPages_cons]
    refine Nat.add_le_add ?_ ih
    split_ifs
    · simp [lruShare, rangeOnLru]
    · exact le_rfl

theorem Cut.lruPages_le {met : Bool} {left : List Range}
    (cut : Cut first last allocOk range met left) (nonempty : first ≤ last)
    (proper : range.pgstart ≤ range.pgend ∧ range.pgend < 4294967295) :
    lruPages left ≤ lruShare range := by
  have share : ∀ {id start finish}, start ≤ finish → finish ≤ range.pgend →
      lruShare ⟨id, start, finish, range.purged⟩ =
        if range.purged = true then 0 else finish + 1 - start :=
    fun startLe endLe => lruShare_eq ⟨startLe, lt_of_le_of_lt endLe proper.2⟩
  cases cut with
  | apart above => exact (lruPages_cons range []).le
  | gone inside => exact Nat.zero_le _
  | upper id firstLe startLe lastLt =>
    rw [lruPages_cons, share lastLt le_rfl, lruPages_nil, lruShare_eq proper]
    split_ifs <;> omega
  | lower id startLt firstLe ends =>
    rw [lruPages_cons, share (by omega) (by omega), lruPages_nil, lruShare_eq proper]
    split_ifs <;> omega
  | both id other startLt lastLt =>
    rw [lruPages_cons, lruPages_cons, share lastLt le_rfl, share (by omega) (by omega),
      lruPages_nil, lruShare_eq proper]
    split_ifs <;> omega

theorem lruPages_pinLoop_le (list : List Range) (lru : Lru) (ret : Bool) (ordered : Ordered list)
    (fits : Fits first last list) (proper : Proper list) :
    lruPages (pinLoop asma first last allocOk list lru ret).list ≤ lruPages list := by
  revert proper
  refine pinLoop_induction (motive := fun list _ walk =>
    Proper list → lruPages walk.list ≤ lruPages list) ?_ ?_ list lru ret ordered fits
  · intro list lru ret _ _
    exact le_rfl
  intro range next _ met left walk nonempty _ cut ih proper
  rw [lruPages_append, lruPages_cons]
  exact Nat.add_le_add (cut.lruPages_le nonempty (proper range mem_cons_self)) (ih proper.tail)

theorem lruPages_ashmemUnpin_le (ordered : Ordered list) (fits : Fits first last list)
    (proper : Proper list) :
    lruPages (ashmemUnpin asma first last allocOk list lru).list ≤
      lruPages list + (last + 1 - first) := by
  suffices withFlag : lruPages (ashmemUnpin asma first last allocOk list lru).list ≤
      lruPages list + if false = true then 0 else last + 1 - first by simpa using withFlag
  revert proper
  refine unpinRestart_induction (motive := fun first last purged list _ walk => Proper list →
    lruPages walk.list ≤ lruPages list + if purged = true then 0 else last + 1 - first)
    ?_ ?_ ?_ ?_ le_rfl ordered fits
  · intro first last purged before after lru _ fits _ _ range newLru allocated _
    have startLe : first ≤ last + 1 := by rcases fits.shape with le | ⟨eq, _⟩ <;> omega
    have share := @lruShare_le ⟨lru.nextId, first, last, purged⟩ startLe
    rw [(rangeAlloc_eq_some allocated).2.1]
    simp only [lruPages_append, lruPages_cons] at share ⊢
    omega
  · intro first last purged list lru _ _ _ _
    exact Nat.le_add_right _ _
  · intro first last purged list lru _ _ _ _
    exact Nat.le_add_right _ _
  · intro first last purged before range after _ walk _ _ meets _ nonempty result proper
    have bounds := proper range (by simp)
    have properRest : Proper (before ++ after) := by
      intro mem inRest
      refine proper mem ?_
      simp only [mem_append, mem_cons] at inRest ⊢
      tauto
    have bound := result properRest
    simp only [lruPages_append, lruPages_cons, lruShare_eq bounds] at bound ⊢
    cases purged with
    | true =>
      simp only [Bool.true_or, if_true] at bound ⊢
      omega
    | false =>
      rcases flag : range.purged with _ | _ <;>
        simp only [flag, Bool.or_true, Bool.or_false, Bool.false_eq_true, if_true, if_false]
          at bound ⊢ <;> omega

end Walks

/-! ## The whole state -/

def State.sizeAt (state : State) (ptr : RangePtr) : ℕ :=
  match state.rangeAt ptr with
  | some range => rangeSize range
  | none => 0

def State.lruTotal (state : State) : ℕ := (state.lru.list.map state.sizeAt).sum

/-- The LRU list holds each range that is not purged once, and `lru_count` is their size as an
`unsigned long`. -/
structure LruOk (state : State) : Prop where
  perm : ∀ asma, (state.lru.list.filter fun ptr => ptr.asma = asma).Perm
    (onLru asma (state.unpinned asma))
  count : state.lru.count = state.lruTotal % 4294967296
  fresh : ∀ asma, ∀ range ∈ state.unpinned asma, range.id < state.lru.nextId
  distinct : ∀ asma, ((state.unpinned asma).map Range.id).Nodup

theorem State.rangeAt_of_mem (distinct : ((state.unpinned asma).map Range.id).Nodup)
    (mem : range ∈ state.unpinned asma) : state.rangeAt ⟨asma, range.id⟩ = some range := by
  rcases found : (state.unpinned asma).find? fun other => other.id = range.id with _ | other
  · have := find?_eq_none.mp found range mem
    simp at this
  have same : other.id = range.id := by simpa using find?_some found
  have otherMem := mem_of_find?_eq_some found
  rw [inj_on_of_nodup_map distinct otherMem mem same] at found
  exact found

theorem State.mem_of_rangeAt (found : state.rangeAt ptr = some range) :
    range ∈ state.unpinned ptr.asma ∧ range.id = ptr.id :=
  ⟨mem_of_find?_eq_some found, by simpa using find?_some found⟩

theorem sum_sizeAt_onLru (distinct : ((state.unpinned asma).map Range.id).Nodup) :
    ((onLru asma (state.unpinned asma)).map state.sizeAt).sum =
      lruPages (state.unpinned asma) := by
  unfold onLru lruPages
  rw [map_map]
  congr 1
  apply map_congr_left
  intro range mem
  have inList := (mem_filter.mp mem).1
  simp [sizeAt, rangeAt_of_mem distinct inList]

namespace LruOk

variable {state newState : State}

theorem init : LruOk State.init := by
  constructor <;> simp [State.init, unpinned, lruTotal, onLru]

def others (state : State) (asma : ℕ) : List RangePtr :=
  state.lru.list.filter fun ptr => ¬ptr.asma = asma

theorem split (ok : LruOk state) (asma : ℕ) :
    state.lru.list.Perm (onLru asma (state.unpinned asma) ++ others state asma) := by
  have filtered := filter_append_perm (fun ptr : RangePtr => decide (ptr.asma = asma))
    state.lru.list
  refine filtered.symm.trans ?_
  simpa [others] using (ok.perm asma).append_right _

theorem lruTotal_eq {asma : ℕ} {rest : List RangePtr}
    (perm : state.lru.list.Perm (onLru asma (state.unpinned asma) ++ rest))
    (distinct : ((state.unpinned asma).map Range.id).Nodup) :
    state.lruTotal = (rest.map state.sizeAt).sum + lruPages (state.unpinned asma) := by
  unfold lruTotal
  rw [(perm.map state.sizeAt).sum_eq, map_append, sum_append, sum_sizeAt_onLru distinct, add_comm]

theorem synced (ok : LruOk state) (asma : ℕ) :
    Synced asma (others state asma) ((others state asma).map state.sizeAt).sum
      (state.unpinned asma) state.lru := by
  refine ⟨ok.split asma, ?_, ok.fresh asma, ok.distinct asma⟩
  rw [ok.count, lruTotal_eq (ok.split asma) (ok.distinct asma)]

theorem sizeAt_others {asma : ℕ}
    (unchanged : ∀ other, other ≠ asma → newState.unpinned other = state.unpinned other) :
    (others state asma).map newState.sizeAt = (others state asma).map state.sizeAt := by
  refine map_congr_left fun ptr mem => ?_
  have differs : ptr.asma ≠ asma := by simpa using (mem_filter.mp mem).2
  unfold sizeAt rangeAt
  rw [unchanged ptr.asma differs]

theorem update (ok : LruOk state) (asma : ℕ)
    (unchanged : ∀ other, other ≠ asma → newState.unpinned other = state.unpinned other)
    (grows : state.lru.nextId ≤ newState.lru.nextId)
    (keeps : ∀ rest total, Synced asma rest total (state.unpinned asma) state.lru →
      Synced asma rest total (newState.unpinned asma) newState.lru) : LruOk newState := by
  have after := keeps _ _ (ok.synced asma)
  refine ⟨?_, ?_, ?_, ?_⟩
  · intro other
    have filtered := after.perm.filter fun ptr => decide (ptr.asma = other)
    rw [filter_append, LruOk.others, filter_filter] at filtered
    by_cases same : other = asma
    · subst same
      have whole : (onLru other (newState.unpinned other)).filter
          (fun ptr => decide (ptr.asma = other)) = onLru other (newState.unpinned other) := by
        refine filter_eq_self.mpr fun ptr mem => ?_
        rcases mem_onLru.mp mem with ⟨range, _, _, rfl⟩
        simp
      have none : state.lru.list.filter (fun ptr => decide (ptr.asma = other) &&
          decide ¬ptr.asma = other) = [] := by
        refine filter_eq_nil_iff.mpr fun ptr _ => ?_
        simp
      rw [whole, none, append_nil] at filtered
      exact filtered
    · have none : (onLru asma (newState.unpinned asma)).filter
          (fun ptr => decide (ptr.asma = other)) = [] := by
        refine filter_eq_nil_iff.mpr fun ptr mem => ?_
        rcases mem_onLru.mp mem with ⟨range, _, _, rfl⟩
        simpa using Ne.symm same
      have whole : state.lru.list.filter (fun ptr => decide (ptr.asma = other) &&
          decide ¬ptr.asma = asma) = state.lru.list.filter fun ptr => ptr.asma = other := by
        refine filter_congr fun ptr _ => ?_
        by_cases here : ptr.asma = other
        · simp [here, same]
        · simp [here]
      rw [none, whole, nil_append] at filtered
      rw [unchanged other same]
      exact filtered.trans (ok.perm other)
  · rw [after.count, lruTotal_eq after.perm after.distinct, sizeAt_others unchanged]
  · intro other range mem
    by_cases same : other = asma
    · subst same
      exact after.fresh range mem
    · rw [unchanged other same] at mem
      exact (ok.fresh other range mem).trans_le grows
  · intro other
    by_cases same : other = asma
    · subst same
      exact after.distinct
    · rw [unchanged other same]
      exact ok.distinct other

theorem lruTotal_le (ok : LruOk state) (asma : ℕ) {room : ℕ}
    (unchanged : ∀ other, other ≠ asma → newState.unpinned other = state.unpinned other)
    (keeps : ∀ rest total, Synced asma rest total (state.unpinned asma) state.lru →
      Synced asma rest total (newState.unpinned asma) newState.lru)
    (pagesLe : lruPages (newState.unpinned asma) ≤ lruPages (state.unpinned asma) + room) :
    newState.lruTotal ≤ state.lruTotal + room := by
  have after := keeps _ _ (ok.synced asma)
  rw [lruTotal_eq after.perm after.distinct, sizeAt_others unchanged,
    lruTotal_eq (ok.split asma) (ok.distinct asma)]
  omega

end LruOk

end StreakKernel.Ashmem
