import Mathlib.Data.List.Pairwise
import Mathlib.Algebra.Order.Group.Int
import StreakKernel.FileLocks.Basic

/-!
# The pass over the locks of one owner

While the loop runs, the bytes outside the request that the locks already passed have held
are those of the locks that are kept, and the request has grown only over bytes that were
held with its own type.
-/

namespace StreakKernel.FileLocks

open List Function

universe u

variable {Owner : Type u}

/-! ## Locks in order -/

namespace Lock

def Covers (lock : Lock Owner) (byte : ℤ) : Prop := lock.start ≤ byte ∧ byte ≤ lock.finish

/-- The first lock lies below the second, and with a gap if their types are equal. -/
def Before (first second : Lock Owner) : Prop :=
  first.finish < second.start ∧ (first.flType = second.flType → first.finish + 1 < second.start)

structure Proper (lock : Lock Owner) : Prop where
  start_nonneg : 0 ≤ lock.start
  start_le : lock.start ≤ lock.finish
  finish_le : lock.finish ≤ offsetMax
  isType : lock.flType ≠ .unlock

end Lock

open Lock

def Holds (lock : ℕ → Lock Owner) (ids : List ℕ) (byte : ℤ) (flType : LockType) : Prop :=
  ∃ fl ∈ ids, (lock fl).Covers byte ∧ (lock fl).flType = flType

structure Tidy (lock : ℕ → Lock Owner) (ids : List ℕ) : Prop where
  proper : ∀ fl ∈ ids, (lock fl).Proper
  ordered : ids.Pairwise fun first second => (lock first).Before (lock second)

section Tidy

variable {lock other : ℕ → Lock Owner} {ids front back : List ℕ} {byte : ℤ} {flType : LockType}

theorem Tidy.append (frontTidy : Tidy lock front) (backTidy : Tidy lock back)
    (inOrder : ∀ first ∈ front, ∀ second ∈ back, (lock first).Before (lock second)) :
    Tidy lock (front ++ back) := by
  refine ⟨?_, pairwise_append.mpr ⟨frontTidy.ordered, backTidy.ordered, inOrder⟩⟩
  intro fl mem
  rcases mem_append.mp mem with inFront | inBack
  · exact frontTidy.proper fl inFront
  · exact backTidy.proper fl inBack

theorem Tidy.sublist (tidy : Tidy lock back) (sublist : front.Sublist back) : Tidy lock front :=
  ⟨fun fl mem => tidy.proper fl (sublist.subset mem), tidy.ordered.sublist sublist⟩

theorem Tidy.congr (tidy : Tidy lock ids) (same : ∀ fl ∈ ids, other fl = lock fl) :
    Tidy other ids := by
  refine ⟨?_, ?_⟩
  · intro fl mem
    rw [same fl mem]
    exact tidy.proper fl mem
  refine tidy.ordered.imp_of_mem ?_
  intro first second firstMem secondMem before
  rw [same first firstMem, same second secondMem]
  exact before

theorem Holds.mono (holds : Holds lock front byte flType) (subset : ∀ fl ∈ front, fl ∈ back) :
    Holds lock back byte flType := by
  rcases holds with ⟨fl, mem, covers, isType⟩
  exact ⟨fl, subset fl mem, covers, isType⟩

theorem holds_append : Holds lock (front ++ back) byte flType ↔
      Holds lock front byte flType ∨ Holds lock back byte flType := by
  constructor
  · rintro ⟨fl, mem, covers, isType⟩
    rcases mem_append.mp mem with inFront | inBack
    · exact .inl ⟨fl, inFront, covers, isType⟩
    · exact .inr ⟨fl, inBack, covers, isType⟩
  · rintro (holds | holds)
    · exact holds.mono fun fl mem => mem_append_left _ mem
    · exact holds.mono fun fl mem => mem_append_right _ mem

theorem holds_congr (same : ∀ fl ∈ ids, other fl = lock fl) :
    Holds other ids byte flType ↔ Holds lock ids byte flType := by
  constructor
  · rintro ⟨fl, mem, covers, isType⟩
    rw [same fl mem] at covers isType
    exact ⟨fl, mem, covers, isType⟩
  · rintro ⟨fl, mem, covers, isType⟩
    rw [← same fl mem] at covers isType
    exact ⟨fl, mem, covers, isType⟩

theorem Tidy.notMem_of_append (tidy : Tidy lock (front ++ back)) {fl : ℕ} (inFront : fl ∈ front) :
    fl ∉ back := by
  intro inBack
  have before := (pairwise_append.mp tidy.ordered).2.2 fl inFront fl inBack
  have proper := (tidy.proper fl (mem_append_left _ inFront)).start_le
  exact absurd before.1 (not_lt.mpr proper)

theorem Tidy.type_eq (tidy : Tidy lock ids) {otherType : LockType}
    (holds : Holds lock ids byte flType) (holdsOther : Holds lock ids byte otherType) :
    flType = otherType := by
  let Agree (first second : ℕ) : Prop := (lock first).Covers byte → (lock second).Covers byte →
    (lock first).flType = (lock second).flType
  have symm : Std.Symm Agree := ⟨fun _ _ agree second first => (agree first second).symm⟩
  have agree : ids.Pairwise Agree := by
    refine tidy.ordered.imp ?_
    intro first second before firstCovers secondCovers
    have := before.1
    have := firstCovers.2
    have := secondCovers.1
    omega
  rcases holds with ⟨fl, mem, covers, rfl⟩
  rcases holdsOther with ⟨other, otherMem, otherCovers, rfl⟩
  exact agree.forall_of_forall (fun _ _ _ _ => rfl) mem otherMem covers otherCovers

end Tidy

/-! ## What has been passed -/

namespace Pass

def current (pass : Pass Owner) : Lock Owner := pass.lock pass.request

end Pass

/-- The loop has passed the locks `done` and kept `clean` of them as they were. `new` is the
request as it was made, `id` its structure. -/
structure Passing (lock : ℕ → Lock Owner) (new : Lock Owner) (id : ℕ) (done clean : List ℕ)
    (pass : Pass Owner) : Prop where
  shape : pass.current = { new with start := pass.current.start, finish := pass.current.finish }
  low : pass.current.start ≤ new.start
  high : new.finish ≤ pass.current.finish
  start_nonneg : 0 ≤ pass.current.start
  finish_le : pass.current.finish ≤ offsetMax
  grown : ∀ byte, pass.current.Covers byte → ¬new.Covers byte → Holds lock done byte new.flType
  outside : ∀ byte flType, ¬pass.current.Covers byte →
    (Holds lock done byte flType ↔ Holds lock clean byte flType)
  placed : ∀ fl ∈ clean, some fl ≠ pass.left → (lock fl).Before pass.current
  left : ∀ fl, pass.left = some fl → (∃ front, clean = front ++ [fl]) ∧
    (lock fl).flType ≠ new.flType ∧ (lock fl).start < pass.current.start ∧
    pass.current.start ≤ (lock fl).finish ∧ (lock fl).finish ≤ pass.current.finish
  sublist : clean.Sublist done
  same : ∀ fl, fl ∉ done → fl ≠ id → pass.lock fl = lock fl
  sameClean : ∀ fl ∈ clean, pass.lock fl = lock fl
  isKept : (pass.added = false ∨ new.flType = .unlock) ∧ pass.request = id ∧ pass.kept = clean ∨
    (pass.added = true ∧ new.flType ≠ .unlock) ∧ (pass.request ∈ done ∧ pass.request ∉ clean) ∧
      pass.kept = clean ++ [pass.request]
  notAdded : pass.added = false → pass.lock = lock ∧ pass.kept = done ∧ clean = done
  noRight : pass.right = none
  marked : new.flType = .unlock → pass.left ≠ none → pass.added = true

/-- Nothing has happened yet: all locks passed lie below the request. -/
structure Pristine (lock : ℕ → Lock Owner) (new : Lock Owner) (id : ℕ) (done : List ℕ)
    (pass : Pass Owner) : Prop where
  isLock : pass.lock = lock
  isRequest : pass.request = id
  isAdded : pass.added = false
  isLeft : pass.left = none
  isRight : pass.right = none
  isKept : pass.kept = done
  below : ∀ fl ∈ done, (lock fl).Before new

section Steps

variable {lock : ℕ → Lock Owner} {new : Lock Owner} {id fl : ℕ} {done clean rest : List ℕ}
  {pass : Pass Owner}

structure Ready (lock : ℕ → Lock Owner) (new : Lock Owner) (id : ℕ) (mine : List ℕ) : Prop where
  tidy : Tidy lock mine
  isNew : lock id = new
  fresh : id ∉ mine
  start_nonneg : 0 ≤ new.start
  start_le : new.start ≤ new.finish
  finish_le : new.finish ≤ offsetMax
  owner : ∀ fl ∈ mine, (lock fl).owner = new.owner
  posix : ∀ fl ∈ mine, (lock fl).posix = new.posix

theorem Pristine.current_eq (pristine : Pristine lock new id done pass)
    (ready : Ready lock new id mine) : pass.current = new := by
  rw [Pass.current, pristine.isLock, pristine.isRequest, ready.isNew]

theorem Pristine.passing (pristine : Pristine lock new id done pass)
    (ready : Ready lock new id (done ++ rest)) : Passing lock new id done done pass := by
  have isCurrent := pristine.current_eq ready
  refine ⟨?_, ?_, ?_, ?_, ?_, ?_, fun _ _ _ => Iff.rfl, ?_, ?_, List.Sublist.refl _, ?_, ?_, ?_,
    ?_, pristine.isRight, fun _ hasLeft => absurd pristine.isLeft hasLeft⟩
  · rw [isCurrent]
  · rw [isCurrent]
  · rw [isCurrent]
  · rw [isCurrent]
    exact ready.start_nonneg
  · rw [isCurrent]
    exact ready.finish_le
  · intro byte covers notCovers
    rw [isCurrent] at covers
    exact absurd covers notCovers
  · intro fl mem _
    rw [isCurrent]
    exact pristine.below fl mem
  · intro fl isLeft
    rw [pristine.isLeft] at isLeft
    cases isLeft
  · intro fl _ _
    rw [pristine.isLock]
  · intro fl _
    rw [pristine.isLock]
  · exact .inl ⟨.inl pristine.isAdded, pristine.isRequest, pristine.isKept⟩
  · exact fun _ => ⟨pristine.isLock, pristine.isKept, rfl⟩

theorem Passing.isType (passing : Passing lock new id done clean pass) :
    pass.current.flType = new.flType := by
  rw [passing.shape]

theorem Passing.next (passing : Passing lock new id done clean pass)
    (ready : Ready lock new id (done ++ fl :: rest)) : pass.lock fl = lock fl := by
  refine passing.same fl ?_ ?_
  · intro mem
    exact ready.tidy.notMem_of_append mem mem_cons_self
  · rintro rfl
    exact ready.fresh (mem_append_right _ mem_cons_self)

variable {other request : ℕ} {after : Pass Owner}

section

variable (ready : Ready lock new id (done ++ fl :: rest))
include ready

theorem Ready.before (mem : other ∈ done) : (lock other).Before (lock fl) :=
  (pairwise_append.mp ready.tidy.ordered).2.2 other mem fl mem_cons_self

theorem Ready.proper : (lock fl).Proper :=
  ready.tidy.proper fl (mem_append_right _ mem_cons_self)

theorem Ready.eq_new (start finish : ℤ) :
    { lock fl with start := start, finish := finish, flType := new.flType } =
      { new with start := start, finish := finish } := by
  have isOwner := ready.owner fl (mem_append_right _ mem_cons_self)
  have isPosix := ready.posix fl (mem_append_right _ mem_cons_self)
  simp [isOwner, isPosix]

end

theorem holds_snoc {byte : ℤ} {flType : LockType} : Holds lock (done ++ [fl]) byte flType ↔
      Holds lock done byte flType ∨ (lock fl).Covers byte ∧ (lock fl).flType = flType := by
  rw [holds_append]
  refine or_congr_right ⟨?_, ?_⟩
  · rintro ⟨other, mem, covers, isType⟩
    rw [mem_singleton.mp mem] at covers isType
    exact ⟨covers, isType⟩
  · rintro ⟨covers, isType⟩
    exact ⟨fl, mem_singleton_self fl, covers, isType⟩

/-- The lock takes the place of the request, or the request stays what it is. -/
def Takes (new : Lock Owner) (fl : ℕ) (pass after : Pass Owner) : Prop :=
  (after.request = fl ∧ after.kept = pass.kept ++ [fl]) ∧ pass.added = false ∧
      new.flType ≠ .unlock ∨
    (after.request = pass.request ∧ after.kept = pass.kept) ∧
      (pass.added = true ∨ new.flType = .unlock)

section

variable (passing : Passing lock new id done clean pass)
include passing

theorem Passing.ne_request (ready : Ready lock new id (done ++ fl :: rest))
    (known : other ∈ clean ∨ other ∉ done ∧ other ≠ id) : other ≠ pass.request := by
  rintro rfl
  rcases passing.isKept with ⟨_, isRequest, _⟩ | ⟨_, ⟨mem, notClean⟩, _⟩
  · rcases known with isClean | ⟨_, ne⟩
    · refine ready.fresh (mem_append_left _ ?_)
      rw [← isRequest]
      exact passing.sublist.subset isClean
    · exact ne isRequest
  · rcases known with isClean | ⟨outside, _⟩
    · exact notClean isClean
    · exact outside mem

theorem Passing.kept_takes (notClean : fl ∉ clean) (isAdded : after.added = true)
    (takes : Takes new fl pass after) :
    (after.added = false ∨ new.flType = .unlock) ∧ after.request = id ∧ after.kept = clean ∨
      (after.added = true ∧ new.flType ≠ .unlock) ∧
        (after.request ∈ done ++ [fl] ∧ after.request ∉ clean) ∧
        after.kept = clean ++ [after.request] := by
  rcases takes with ⟨⟨isRequest, isList⟩, notAdded, isLock⟩ | ⟨⟨isRequest, isList⟩, wasAdded⟩
  · rw [isRequest, isList]
    rcases passing.isKept with ⟨_, _, isClean⟩ | ⟨⟨never, _⟩, _⟩
    · exact .inr ⟨⟨isAdded, isLock⟩, ⟨mem_append_right _ (mem_singleton_self fl), notClean⟩,
        by rw [isClean]⟩
    · rw [notAdded] at never
      cases never
  rw [isRequest, isList]
  rcases passing.isKept with ⟨notAlias, isId, isClean⟩ | ⟨isAlias, ⟨mem, notClean⟩, isClean⟩
  · refine .inl ⟨.inr ?_, isId, isClean⟩
    rcases wasAdded with wasAdded | isUnlock
    · exact notAlias.resolve_left (by simp [wasAdded])
    · exact isUnlock
  · exact .inr ⟨⟨isAdded, isAlias.2⟩, ⟨mem_append_left _ mem, notClean⟩, isClean⟩

theorem Passing.absorb (ready : Ready lock new id (done ++ fl :: rest)) (shape : after.current =
      { new with start := after.current.start, finish := after.current.finish })
    (low : after.current.start ≤ pass.current.start)
    (high : pass.current.finish ≤ after.current.finish) (start_nonneg : 0 ≤ after.current.start)
    (finish_le : after.current.finish ≤ offsetMax) (startLe : after.current.start ≤ (lock fl).start)
    (leFinish : (lock fl).finish ≤ after.current.finish)
    (union : ∀ byte, after.current.Covers byte →
      pass.current.Covers byte ∨ (lock fl).Covers byte ∧ (lock fl).flType = new.flType)
    (isStart : after.current.start = pass.current.start ∨
      after.current.start = (lock fl).start ∧ (lock fl).flType = new.flType)
    (sameLeft : after.left = pass.left) (noRight : after.right = none)
    (same : ∀ other, other ≠ fl → other ≠ pass.request → after.lock other = pass.lock other)
    (isAdded : after.added = true) (takes : Takes new fl pass after) :
    Passing lock new id (done ++ [fl]) clean after ∧ after.current.start ≤ (lock fl).start := by
  have inClean : ∀ other ∈ clean, other ∈ done := fun other mem => passing.sublist.subset mem
  have notClean : fl ∉ clean := fun mem =>
    ready.tidy.notMem_of_append (inClean fl mem) mem_cons_self
  refine ⟨⟨shape, low.trans passing.low, passing.high.trans high, start_nonneg, finish_le, ?_, ?_,
    ?_, ?_, passing.sublist.trans (sublist_append_left _ _), ?_, ?_,
    passing.kept_takes notClean isAdded takes, ?_, noRight, fun _ _ => isAdded⟩, startLe⟩
  · intro byte covers notCovers
    rw [holds_snoc]
    rcases union byte covers with inCurrent | inLock
    · exact .inl (passing.grown byte inCurrent notCovers)
    · exact .inr inLock
  · intro byte flType notCovers
    have notCurrent : ¬pass.current.Covers byte := fun covers =>
      notCovers ⟨low.trans covers.1, covers.2.trans high⟩
    rw [holds_snoc, passing.outside byte flType notCurrent]
    exact or_iff_left fun holds =>
      notCovers ⟨startLe.trans holds.1.1, holds.1.2.trans leFinish⟩
  · intro other mem notLeft
    rw [sameLeft] at notLeft
    have before := passing.placed other mem notLeft
    have beforeLock := ready.before (inClean other mem)
    have isType : after.current.flType = new.flType := by rw [shape]
    unfold Lock.Before at before beforeLock ⊢
    rw [isType]
    rw [passing.isType] at before
    rcases isStart with isStart | ⟨isStart, sameType⟩
    · rw [isStart]
      exact before
    · rw [isStart]
      rwa [sameType] at beforeLock
  · intro other isLeft
    rw [sameLeft] at isLeft
    rcases passing.left other isLeft with ⟨⟨front, isClean⟩, otherType, below, above, inside⟩
    have beforeLock := (ready.before (inClean other (by simp [isClean]))).1
    rcases isStart with isStart | ⟨isStart, _⟩
    · rw [isStart]
      exact ⟨⟨front, isClean⟩, otherType, below, above, inside.trans high⟩
    · omega
  · intro other outside ne
    rw [mem_append, mem_singleton, not_or] at outside
    rw [same other outside.2 (passing.ne_request ready (.inr ⟨outside.1, ne⟩))]
    exact passing.same other outside.1 ne
  · intro other mem
    rw [same other (ne_of_mem_of_not_mem mem notClean) (passing.ne_request ready (.inl mem))]
    exact passing.sameClean other mem
  · intro notAdded
    rw [isAdded] at notAdded
    cases notAdded

end

/-! ## Joining -/

theorem joinStarts_apply (isOne : other = fl ∨ other = request) : joinStarts lock request fl other =
      { lock other with start := min (lock request).start (lock fl).start } := by
  unfold joinStarts setStart
  split_ifs with isLower
  · rw [min_eq_left isLower.le]
    by_cases isFl : other = fl
    · subst isFl
      exact update_self _ _ _
    · rw [update_of_ne isFl, isOne.resolve_left isFl]
  rw [min_eq_right (not_lt.mp isLower)]
  by_cases isRequest : other = request
  · subst isRequest
    exact update_self _ _ _
  · rw [update_of_ne isRequest, isOne.resolve_right isRequest]

theorem joinFinishes_apply (isOne : other = fl ∨ other = request) :
    joinFinishes lock request fl other =
      { lock other with finish := max (lock request).finish (lock fl).finish } := by
  unfold joinFinishes setFinish
  split_ifs with isLower
  · rw [max_eq_left isLower.le]
    by_cases isFl : other = fl
    · subst isFl
      exact update_self _ _ _
    · rw [update_of_ne isFl, isOne.resolve_left isFl]
  rw [max_eq_right (not_lt.mp isLower)]
  by_cases isRequest : other = request
  · subst isRequest
    exact update_self _ _ _
  · rw [update_of_ne isRequest, isOne.resolve_right isRequest]

theorem joinStarts_other (notFl : other ≠ fl) (notRequest : other ≠ request) :
    joinStarts lock request fl other = lock other := by
  unfold joinStarts setStart
  split_ifs with isLower
  · exact update_of_ne notFl _ _
  · exact update_of_ne notRequest _ _

theorem joinFinishes_other (notFl : other ≠ fl) (notRequest : other ≠ request) :
    joinFinishes lock request fl other = lock other := by
  unfold joinFinishes setFinish
  split_ifs with isLower
  · exact update_of_ne notFl _ _
  · exact update_of_ne notRequest _ _

theorem join_apply (isOne : other = fl ∨ other = pass.request) : (pass.join fl).lock other =
      { pass.lock other with
        start := min pass.current.start (pass.lock fl).start
        finish := max pass.current.finish (pass.lock fl).finish } := by
  unfold Pass.join
  simp only
  rw [joinFinishes_apply isOne, joinStarts_apply isOne, joinStarts_apply (.inr rfl),
    joinStarts_apply (.inl rfl)]
  rfl

theorem join_other (notFl : other ≠ fl) (notRequest : other ≠ pass.request) :
    (pass.join fl).lock other = pass.lock other := by
  unfold Pass.join
  simp only
  rw [joinFinishes_other notFl notRequest, joinStarts_other notFl notRequest]

section

variable (passing : Passing lock new id done clean pass)
  (ready : Ready lock new id (done ++ fl :: rest))
include passing ready

theorem Passing.join (isType : pass.current.flType = (lock fl).flType)
    (notBelow : ¬(lock fl).finish < pass.current.start - 1)
    (notAbove : ¬pass.current.finish < (lock fl).start - 1)
    (isLock : after.lock = (pass.join fl).lock) (sameLeft : after.left = pass.left)
    (noRight : after.right = none) (isAdded : after.added = true)
    (isKept : (after.request = fl ∧ after.kept = pass.kept ++ [fl]) ∧ pass.added = false ∨
      (after.request = pass.request ∧ after.kept = pass.kept) ∧ pass.added = true) :
    Passing lock new id (done ++ [fl]) clean after ∧ after.current.start ≤ (lock fl).start := by
  have sameFl := passing.next ready
  have proper := ready.proper
  have isNewType := isType.symm.trans passing.isType
  have isOne : after.request = fl ∨ after.request = pass.request := by
    rcases isKept with ⟨⟨isRequest, _⟩, _⟩ | ⟨⟨isRequest, _⟩, _⟩
    · exact .inl isRequest
    · exact .inr isRequest
  have shape : after.current = { new with
      start := min pass.current.start (lock fl).start
      finish := max pass.current.finish (lock fl).finish } := by
    rw [Pass.current, isLock, join_apply isOne, sameFl]
    rcases isOne with isFl | isRequest
    · rw [isFl, sameFl, ← ready.eq_new]
      simp [isNewType]
    rw [isRequest]
    have shape := passing.shape
    unfold Pass.current at shape
    rw [shape]
  have isStart : after.current.start = min pass.current.start (lock fl).start := by rw [shape]
  have isFinish : after.current.finish = max pass.current.finish (lock fl).finish := by rw [shape]
  have := passing.start_nonneg
  have := passing.finish_le
  have := proper.start_nonneg
  have := proper.finish_le
  refine passing.absorb ready (by rw [isStart, isFinish]; exact shape) (by omega) (by omega)
    (by omega) (by omega) (by omega) (by omega) ?_ ?_ sameLeft noRight ?_ isAdded ?_
  · intro byte inside
    unfold Covers at inside
    by_cases covers : pass.current.Covers byte
    · exact .inl covers
    refine .inr ⟨?_, isNewType⟩
    unfold Covers at covers ⊢
    omega
  · rw [isStart]
    rcases min_choice pass.current.start (lock fl).start with isStart | isStart
    · exact .inl isStart
    · exact .inr ⟨isStart, isNewType⟩
  · intro other notFl notRequest
    rw [isLock]
    exact join_other notFl notRequest
  · rcases isKept with ⟨isFl, notAdded⟩ | ⟨isRequest, wasAdded⟩
    · exact .inl ⟨isFl, notAdded, isNewType ▸ proper.isType⟩
    · exact .inr ⟨isRequest, .inl wasAdded⟩

/-! ## Locks of another type -/

theorem Passing.cover (startLe : pass.current.start ≤ (lock fl).start)
    (leFinish : (lock fl).finish ≤ pass.current.finish) (shape : after.current = pass.current)
    (sameLeft : after.left = pass.left) (noRight : after.right = none)
    (same : ∀ other, other ≠ fl → other ≠ pass.request → after.lock other = pass.lock other)
    (isAdded : after.added = true) (takes : Takes new fl pass after) :
    Passing lock new id (done ++ [fl]) clean after ∧ after.current.start ≤ (lock fl).start := by
  refine passing.absorb ready ?_ ?_ ?_ ?_ ?_ ?_ ?_ ?_ ?_ sameLeft noRight same isAdded takes <;>
    rw [shape]
  · exact passing.shape
  · exact passing.start_nonneg
  · exact passing.finish_le
  · exact startLe
  · exact leFinish
  · exact fun _ covers => .inl covers
  · exact .inl rfl

end

theorem Pristine.keepLeft (pristine : Pristine lock new id done pass)
    (ready : Ready lock new id (done ++ fl :: rest)) (otherType : new.flType ≠ (lock fl).flType)
    (startLt : (lock fl).start < new.start) (startLe : new.start ≤ (lock fl).finish)
    (finishLe : (lock fl).finish ≤ new.finish) :
    Passing lock new id (done ++ [fl]) (done ++ [fl]) ((pass.mark fl).keep fl) := by
  have isCurrent := pristine.current_eq ready
  have isNew : ((pass.mark fl).keep fl).current = new := isCurrent
  have isLeft : ((pass.mark fl).keep fl).left = some fl := by
    refine if_pos ?_
    rw [pristine.isLock, pristine.isRequest, ready.isNew]
    exact startLt
  refine ⟨?_, ?_, ?_, ?_, ?_, ?_, fun _ _ _ => Iff.rfl, ?_, ?_, List.Sublist.refl _, ?_, ?_, ?_,
    ?_, pristine.isRight, ?_⟩
  · rw [isNew]
  · rw [isNew]
  · rw [isNew]
  · rw [isNew]
    exact ready.start_nonneg
  · rw [isNew]
    exact ready.finish_le
  · intro byte covers notCovers
    rw [isNew] at covers
    exact absurd covers notCovers
  · intro other mem notLeft
    rw [isLeft] at notLeft
    rw [isNew]
    rcases mem_append.mp mem with inDone | isFl
    · exact pristine.below other inDone
    · rw [mem_singleton.mp isFl] at notLeft
      exact absurd rfl notLeft
  · intro other isOther
    rw [isLeft] at isOther
    obtain rfl := Option.some.inj isOther
    rw [isNew]
    exact ⟨⟨done, rfl⟩, otherType.symm, startLt, startLe, finishLe⟩
  · intro other _ _
    simp [Pass.keep, Pass.mark, pristine.isLock]
  · intro other _
    simp [Pass.keep, Pass.mark, pristine.isLock]
  · refine .inl ⟨?_, pristine.isRequest, ?_⟩
    · by_cases isUnlock : new.flType = .unlock
      · exact .inr isUnlock
      refine .inl ?_
      simp only [Pass.keep, Pass.mark]
      rw [if_neg]
      · exact pristine.isAdded
      · rw [pristine.isLock, pristine.isRequest, ready.isNew]
        exact isUnlock
    · simp [Pass.keep, Pass.mark, pristine.isKept]
  · intro _
    simp [Pass.keep, Pass.mark, pristine.isKept, pristine.isLock]
  · intro isUnlock _
    refine if_pos ?_
    rw [pristine.isLock, pristine.isRequest, ready.isNew]
    exact isUnlock

section

variable (passing : Passing lock new id done clean pass)
include passing

theorem Passing.mark (ready : Ready lock new id (done ++ fl :: rest))
    (startLe : pass.current.start ≤ (lock fl).start) :
    Passing lock new id done clean (pass.mark fl) ∧ (pass.mark fl).left = pass.left := by
  have sameLeft : (pass.mark fl).left = pass.left := by
    refine if_neg ?_
    rw [passing.next ready]
    exact not_lt.mpr startLe
  have isAdded : (pass.mark fl).added = false → pass.added = false := by
    intro notAdded
    simp only [Pass.mark] at notAdded
    split_ifs at notAdded with isUnlock
    exact notAdded
  refine ⟨?_, sameLeft⟩
  refine ⟨passing.shape, passing.low, passing.high, passing.start_nonneg, passing.finish_le,
    passing.grown, passing.outside, ?_, ?_, passing.sublist, passing.same, passing.sameClean, ?_,
    fun notAdded => passing.notAdded (isAdded notAdded), passing.noRight, ?_⟩
  · rw [sameLeft]
    exact passing.placed
  · rw [sameLeft]
    exact passing.left
  · rcases passing.isKept with ⟨notAlias, rest⟩ | ⟨⟨wasAdded, isLock⟩, rest⟩
    · refine .inl ⟨?_, rest⟩
      rcases notAlias with notAdded | isUnlock
      · by_cases isUnlock : new.flType = .unlock
        · exact .inr isUnlock
        refine .inl ?_
        simp only [Pass.mark]
        rw [if_neg]
        · exact notAdded
        · exact fun isType => isUnlock (passing.isType.symm.trans isType)
      · exact .inr isUnlock
    · refine .inr ⟨⟨?_, isLock⟩, rest⟩
      simp [Pass.mark, wasAdded]
  · intro isUnlock _
    exact if_pos (passing.isType.trans isUnlock)

theorem Passing.clearRight {right : Option ℕ} :
    Passing lock new id done clean { { pass with right := right } with right := none } :=
  ⟨passing.shape, passing.low, passing.high, passing.start_nonneg, passing.finish_le,
    passing.grown, passing.outside, passing.placed, passing.left, passing.sublist, passing.same,
    passing.sameClean, passing.isKept, passing.notAdded, rfl, passing.marked⟩

theorem Passing.replace_current (ready : Ready lock new id (done ++ fl :: rest)) :
    (((pass.replace fl).adopt fl).keep fl).current = pass.current := by
  have isLock : (((pass.replace fl).adopt fl).keep fl).current = { lock fl with
      start := pass.current.start, finish := pass.current.finish
      flType := pass.current.flType } := by
    rw [← passing.next ready]
    exact update_self _ _ _
  rw [isLock, passing.isType, ready.eq_new]
  exact passing.shape.symm

end

/-! ## The loop -/

/-- The loop ends at a lock that lies beyond the request, one that ends beyond it, or one that
contains it. -/
inductive Passed (lock : ℕ → Lock Owner) (new : Lock Owner) (id : ℕ) (mine post : List ℕ)
    (pass : Pass Owner) (list : List ℕ) : Prop
  | clear (done tail clean : List ℕ) (isMine : mine = done ++ tail) (isList : list = tail ++ post)
      (passing : Passing lock new id done clean pass)
      (beyond : ∀ fl ∈ tail, pass.current.Before (lock fl))
  | cut (done tail clean : List ℕ) (fl : ℕ) (isMine : mine = done ++ fl :: tail)
      (isList : list = fl :: tail ++ post)
      (passing : Passing lock new id done clean { pass with right := none })
      (isRight : pass.right = some fl) (otherType : new.flType ≠ (lock fl).flType)
      (startLe : pass.current.start ≤ (lock fl).start)
      (leFinish : (lock fl).start ≤ pass.current.finish)
      (beyond : pass.current.finish < (lock fl).finish)
      (isAdded : new.flType = .unlock → pass.added = true)
  | split (done tail : List ℕ) (fl : ℕ) (isMine : mine = done ++ fl :: tail)
      (isList : list = fl :: tail ++ post)
      (pristine : Pristine lock new id done
        { pass with right := none, left := none, added := false })
      (isRight : pass.right = some fl) (isLeft : pass.left = some fl)
      (otherType : new.flType ≠ (lock fl).flType) (startLt : (lock fl).start < new.start)
      (finishLt : new.finish < (lock fl).finish)
      (isAdded : pass.added = decide (new.flType = .unlock))

/-- Either nothing has happened yet, or one of the locks passed reaches up to the request. -/
def Underway (lock : ℕ → Lock Owner) (new : Lock Owner) (id : ℕ) (done : List ℕ)
    (pass : Pass Owner) : Prop :=
  Pristine lock new id done pass ∨ ∃ clean, Passing lock new id done clean pass ∧
    ∃ other ∈ done, pass.current.start ≤ (lock other).finish + 1

theorem Underway.passing (underway : Underway lock new id done pass)
    (ready : Ready lock new id (done ++ rest)) : ∃ clean, Passing lock new id done clean pass := by
  rcases underway with pristine | ⟨clean, passing, _⟩
  · exact ⟨done, pristine.passing ready⟩
  · exact ⟨clean, passing⟩

theorem Underway.pristine (underway : Underway lock new id done pass)
    (ready : Ready lock new id (done ++ fl :: rest))
    (below : (lock fl).start < pass.current.start) : Pristine lock new id done pass := by
  rcases underway with pristine | ⟨clean, _, other, mem, reaches⟩
  · exact pristine
  · have before := (ready.before mem).1
    omega

theorem Ready.beyond (ready : Ready lock new id (done ++ fl :: rest)) {current : Lock Owner}
    (before : current.Before (lock fl)) : ∀ other ∈ fl :: rest, current.Before (lock other) := by
  intro other mem
  rcases mem_cons.mp mem with rfl | inRest
  · exact before
  have ordered := (pairwise_append.mp ready.tidy.ordered).2.1
  have after := (pairwise_cons.mp ordered).1 other inRest
  have proper := ready.proper.start_le
  have := before.1
  have := after.1
  exact ⟨by omega, fun _ => by omega⟩

theorem Underway.keep (underway : Underway lock new id done pass)
    (ready : Ready lock new id (done ++ fl :: rest))
    (isBelow : (lock fl).finish < pass.current.start)
    (gap : (lock fl).flType = new.flType → (lock fl).finish + 1 < pass.current.start) :
    Underway lock new id (done ++ [fl]) (pass.keep fl) := by
  have pristine := underway.pristine ready (ready.proper.start_le.trans_lt isBelow)
  rw [pristine.current_eq ready] at isBelow gap
  refine .inl ⟨pristine.isLock, pristine.isRequest, pristine.isAdded, pristine.isLeft,
    pristine.isRight, ?_, ?_⟩
  · simp [Pass.keep, pristine.isKept]
  intro other mem
  rcases mem_append.mp mem with inDone | isLast
  · exact pristine.below other inDone
  · rw [mem_singleton.mp isLast]
    exact ⟨isBelow, gap⟩

theorem Ready.underway (ready : Ready lock new id (done ++ fl :: rest))
    (touches : Passing lock new id (done ++ [fl]) clean after ∧
      after.current.start ≤ (lock fl).start) : Underway lock new id (done ++ [fl]) after := by
  have start_le := ready.proper.start_le
  exact .inr ⟨clean, touches.1, fl, mem_append_right _ (mem_singleton_self fl), by omega⟩

theorem Passing.owner_eq (passing : Passing lock new id done clean pass) :
    pass.current.owner = new.owner := by rw [passing.shape]

theorem Pristine.passed_split {post : List ℕ} (pristine : Pristine lock new id done pass)
    (ready : Ready lock new id (done ++ fl :: rest)) (isFl : pass.lock fl = lock fl)
    (otherType : new.flType ≠ (lock fl).flType) (startsBelow : (lock fl).start < pass.current.start)
    (endsBeyond : pass.current.finish < (lock fl).finish) :
    Passed lock new id (done ++ fl :: rest) post { pass.mark fl with right := some fl }
      (fl :: rest ++ post) := by
  have isCurrent := pristine.current_eq ready
  have isLeft : (pass.mark fl).left = some fl := by
    refine if_pos ?_
    rw [isFl]
    exact startsBelow
  have isAdded : (pass.mark fl).added = decide (new.flType = .unlock) := by
    simp only [Pass.mark, pristine.isAdded]
    change (if pass.current.flType = .unlock then true else false) = _
    rw [isCurrent]
    split_ifs with isUnlock
    · exact (decide_eq_true isUnlock).symm
    · exact (decide_eq_false isUnlock).symm
  rw [isCurrent] at startsBelow endsBeyond
  exact .split done rest fl rfl rfl ⟨pristine.isLock, pristine.isRequest, rfl, rfl, rfl,
    pristine.isKept, pristine.below⟩ rfl isLeft otherType startsBelow endsBeyond isAdded

variable [DecidableEq Owner]

theorem Passing.stops {post : List ℕ} (passing : Passing lock new id done clean pass)
    (apart : ∀ fl ∈ post, fl ∉ done ∧ fl ≠ id)
    (otherOwner : ∀ fl ∈ post.head?, (lock fl).owner ≠ new.owner) :
    pass.locksOfOwner post = (pass, post) := by
  cases post with
  | nil => rfl
  | cons head others =>
    have fromHead := apart head mem_cons_self
    rw [Pass.locksOfOwner]
    refine if_pos ?_
    rw [passing.same head fromHead.1 fromHead.2]
    exact fun same => otherOwner head rfl (same.symm.trans passing.owner_eq)

theorem locksOfOwner_spec {todo post : List ℕ} (ready : Ready lock new id (done ++ todo))
    (apart : ∀ fl ∈ post, fl ∉ done ++ todo ∧ fl ≠ id)
    (otherOwner : ∀ fl ∈ post.head?, (lock fl).owner ≠ new.owner)
    (underway : Underway lock new id done pass) :
    Passed lock new id (done ++ todo) post (pass.locksOfOwner (todo ++ post)).1
      (pass.locksOfOwner (todo ++ post)).2 := by
  induction todo generalizing done pass with
  | nil =>
    rcases underway.passing ready with ⟨clean, passing⟩
    rw [append_nil] at apart
    rw [nil_append, passing.stops apart otherOwner]
    exact .clear done [] clean rfl rfl passing fun _ never =>
      absurd never not_mem_nil
  | cons fl rest ih =>
    rcases underway.passing ready with ⟨clean, passing⟩
    have isFl := passing.next ready
    have isType := passing.isType
    have isOwner : ¬(pass.lock pass.request).owner ≠ (lock fl).owner := by
      rw [not_not]
      exact passing.owner_eq.trans (ready.owner fl (mem_append_right _ mem_cons_self)).symm
    have readyNext : Ready lock new id (done ++ [fl] ++ rest) := by
      rwa [append_assoc, singleton_append]
    have apartNext : ∀ other ∈ post, other ∉ done ++ [fl] ++ rest ∧ other ≠ id := by
      rwa [append_assoc, singleton_append]
    have goesOn : ∀ after, Underway lock new id (done ++ [fl]) after →
        Passed lock new id (done ++ fl :: rest) post (after.locksOfOwner (rest ++ post)).1
          (after.locksOfOwner (rest ++ post)).2 := by
      intro after isUnderway
      have passed := ih readyNext apartNext isUnderway
      rwa [append_assoc, singleton_append] at passed
    rw [cons_append, Pass.locksOfOwner]
    simp only [isFl]
    rw [if_neg isOwner]
    have otherType : ¬(pass.lock pass.request).flType = (lock fl).flType →
        new.flType ≠ (lock fl).flType := fun ne same => ne (isType.trans same)
    split_ifs with sameType isBelow isAbove wasAdded isBelow isAbove endsBeyond isCovered wasAdded
    · change _ < pass.current.start - 1 at isBelow
      exact goesOn _ (underway.keep ready (by omega) fun _ => by omega)
    · change pass.current.finish < _ at isAbove
      have before : pass.current.Before (lock fl) := ⟨by omega, fun _ => by omega⟩
      exact .clear done (fl :: rest) clean rfl rfl passing (ready.beyond before)
    · exact goesOn _ (ready.underway (passing.join ready sameType isBelow isAbove rfl rfl
        passing.noRight wasAdded (.inr ⟨⟨rfl, rfl⟩, wasAdded⟩)))
    · exact goesOn _ (ready.underway (passing.join ready sameType isBelow isAbove rfl rfl
        passing.noRight rfl (.inl ⟨⟨rfl, rfl⟩, Bool.not_eq_true _ ▸ wasAdded⟩)))
    · exact goesOn _ (underway.keep ready isBelow fun same => absurd same.symm (otherType sameType))
    · exact .clear done (fl :: rest) clean rfl rfl passing
        (ready.beyond ⟨isAbove, fun same => absurd same sameType⟩)
    · by_cases startsBelow : (lock fl).start < pass.current.start
      · exact (underway.pristine ready startsBelow).passed_split ready isFl (otherType sameType)
          startsBelow endsBeyond
      · rcases passing.mark ready (not_lt.mp startsBelow) with ⟨isMarked, _⟩
        exact .cut done rest clean fl rfl rfl isMarked.clearRight rfl (otherType sameType)
          (not_lt.mp startsBelow) (not_lt.mp isAbove) endsBeyond
          fun isUnlock => if_pos (isType.trans isUnlock)
    · rcases passing.mark ready isCovered with ⟨isMarked, _⟩
      exact goesOn _ (ready.underway (isMarked.cover ready isCovered (not_lt.mp endsBeyond) rfl rfl
        isMarked.noRight (fun _ _ _ => rfl) wasAdded (.inr ⟨⟨rfl, rfl⟩, .inl wasAdded⟩)))
    · rcases passing.mark ready isCovered with ⟨isMarked, _⟩
      have isLock : new.flType ≠ .unlock :=
        fun isUnlock => wasAdded (if_pos (isType.trans isUnlock))
      refine goesOn _ (ready.underway (isMarked.cover ready isCovered (not_lt.mp endsBeyond) ?_ rfl
        isMarked.noRight ?_ rfl (.inl ⟨⟨rfl, rfl⟩, Bool.not_eq_true _ ▸ wasAdded, isLock⟩)))
      · exact isMarked.replace_current ready
      · exact fun other notFl _ => update_of_ne notFl _ _
    · have startsBelow : (lock fl).start < pass.current.start := not_le.mp isCovered
      have pristine := underway.pristine ready startsBelow
      change ¬_ < pass.current.start at isBelow
      change ¬pass.current.finish < _ at endsBeyond
      rw [pristine.current_eq ready] at startsBelow isBelow endsBeyond
      have kept := pristine.keepLeft ready (otherType sameType) startsBelow (not_lt.mp isBelow)
        (not_lt.mp endsBeyond)
      refine goesOn _ (.inr ⟨_, kept, fl, mem_append_right _ (mem_singleton_self fl), ?_⟩)
      have low := kept.low
      omega

end Steps

end StreakKernel.FileLocks
