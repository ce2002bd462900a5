import Mathlib.Tactic.Tauto
import StreakKernel.FileLocks.Pass

/-!
# The locks of an owner after a request

Behind the loop the locks of the owner are those below the request, the request itself
unless it unlocks, and those beyond it, cut off at the two ends.
-/

namespace StreakKernel.FileLocks

open List Function Lock

universe u

variable {Owner : Type u}

structure Shrinks (after before : Lock Owner) : Prop where
  flType : after.flType = before.flType
  start : before.start ≤ after.start
  finish : after.finish ≤ before.finish
  start_le : after.start ≤ after.finish

section Shrinks

variable {lock after : ℕ → Lock Owner} {ids : List ℕ}

theorem shrinks_refl {fl : ℕ} (proper : (lock fl).Proper) : Shrinks (lock fl) (lock fl) :=
  ⟨rfl, le_rfl, le_rfl, proper.start_le⟩

theorem Tidy.shrink (tidy : Tidy lock ids) (shrinks : ∀ fl ∈ ids, Shrinks (after fl) (lock fl)) :
    Tidy after ids := by
  refine ⟨?_, tidy.ordered.imp_of_mem ?_⟩
  · intro fl mem
    have proper := tidy.proper fl mem
    have less := shrinks fl mem
    exact ⟨proper.start_nonneg.trans less.start, less.start_le, less.finish.trans proper.finish_le,
      less.flType ▸ proper.isType⟩
  intro first second firstMem secondMem before
  have firstLess := shrinks first firstMem
  have secondLess := shrinks second secondMem
  have finish := firstLess.finish
  have start := secondLess.start
  refine ⟨by have := before.1; omega, fun sameType => ?_⟩
  rw [firstLess.flType, secondLess.flType] at sameType
  have := before.2 sameType
  omega

theorem holds_iff_of_covers {byte : ℤ} {flType : LockType}
    (same : ∀ fl ∈ ids, (after fl).flType = (lock fl).flType ∧
      ((after fl).Covers byte ↔ (lock fl).Covers byte)) :
    Holds after ids byte flType ↔ Holds lock ids byte flType := by
  constructor
  · rintro ⟨fl, mem, covers, isType⟩
    exact ⟨fl, mem, (same fl mem).2.mp covers, (same fl mem).1.symm.trans isType⟩
  · rintro ⟨fl, mem, covers, isType⟩
    exact ⟨fl, mem, (same fl mem).2.mpr covers, (same fl mem).1.trans isType⟩

end Shrinks

variable {lock : ℕ → Lock Owner} {fl : ℕ} {byte : ℤ} {flType : LockType}

theorem holds_singleton :
    Holds lock [fl] byte flType ↔ (lock fl).Covers byte ∧ (lock fl).flType = flType := by
  constructor
  · rintro ⟨other, mem, covers, isType⟩
    rw [mem_singleton.mp mem] at covers isType
    exact ⟨covers, isType⟩
  · rintro ⟨covers, isType⟩
    exact ⟨fl, mem_singleton_self fl, covers, isType⟩

theorem holds_cons {tail : List ℕ} : Holds lock (fl :: tail) byte flType ↔
      Holds lock [fl] byte flType ∨ Holds lock tail byte flType := by
  rw [← holds_append, singleton_append]

/-- The locks of the owner hold what they held, with the request written over it. -/
structure Overwritten (lock after : ℕ → Lock Owner) (new : Lock Owner) (mine result : List ℕ) :
    Prop where
  tidy : Tidy after result
  inside : ∀ byte flType, new.Covers byte →
    (Holds after result byte flType ↔ flType = new.flType ∧ new.flType ≠ .unlock)
  outside : ∀ byte flType, ¬new.Covers byte →
    (Holds after result byte flType ↔ Holds lock mine byte flType)

section Assemble

variable {lock after : ℕ → Lock Owner} {new current : Lock Owner} {id : ℕ}
  {mine low middle high : List ℕ}

def Fills (after : ℕ → Lock Owner) (new current : Lock Owner) (middle : List ℕ) : Prop :=
  new.flType = .unlock ∧ middle = [] ∨
    new.flType ≠ .unlock ∧ ∃ fl, middle = [fl] ∧ after fl = current

section

variable (fills : Fills after new current middle)
include fills

theorem Fills.eq_current {fl : ℕ} (mem : fl ∈ middle) : after fl = current := by
  rcases fills with ⟨_, rfl⟩ | ⟨_, other, rfl, isCurrent⟩
  · exact absurd mem not_mem_nil
  · rw [mem_singleton.mp mem, isCurrent]

theorem Fills.tidy (proper : new.flType ≠ .unlock → current.Proper) : Tidy after middle := by
  rcases fills with ⟨_, rfl⟩ | ⟨isLock, fl, rfl, isCurrent⟩
  · exact ⟨fun fl never => absurd never not_mem_nil, .nil⟩
  refine ⟨fun other mem => ?_, pairwise_singleton _ _⟩
  rw [mem_singleton.mp mem, isCurrent]
  exact proper isLock

theorem Fills.holds_iff {byte : ℤ} {flType : LockType} (isType : current.flType = new.flType) :
    Holds after middle byte flType ↔
      current.Covers byte ∧ flType = new.flType ∧ new.flType ≠ .unlock := by
  rcases fills with ⟨isUnlock, rfl⟩ | ⟨isLock, fl, rfl, isCurrent⟩
  · refine ⟨?_, fun never => absurd isUnlock never.2.2⟩
    rintro ⟨fl, never, _⟩
    cases never
  rw [holds_singleton, isCurrent, isType]
  exact and_congr_right fun _ => ⟨fun same => ⟨same.symm, isLock⟩, fun same => same.1.symm⟩

end

theorem Ready.assemble (ready : Ready lock new id mine)
    (shape : current = { new with start := current.start, finish := current.finish })
    (startLe : current.start ≤ new.start) (leFinish : new.finish ≤ current.finish)
    (start_nonneg : 0 ≤ current.start) (finish_le : current.finish ≤ offsetMax)
    (grown : ∀ byte, current.Covers byte → ¬new.Covers byte → Holds lock mine byte new.flType)
    (lowTidy : Tidy after low) (highTidy : Tidy after high)
    (below : ∀ fl ∈ low, (after fl).Before current)
    (beyond : ∀ fl ∈ high, current.Before (after fl)) (fills : Fills after new current middle)
    (outside : ∀ byte flType, ¬current.Covers byte →
      (Holds after (low ++ high) byte flType ↔ Holds lock mine byte flType)) :
    Overwritten lock after new mine (low ++ (middle ++ high)) := by
  have isType : current.flType = new.flType := by rw [shape]
  have start_le := (startLe.trans ready.start_le).trans leFinish
  have lowHigh : ∀ first ∈ low, ∀ second ∈ high, (after first).Before (after second) := by
    intro first firstMem second secondMem
    have := (below first firstMem).1
    have := (beyond second secondMem).1
    exact ⟨by omega, fun _ => by omega⟩
  have outer : ∀ byte flType, current.Covers byte → ¬Holds after (low ++ high) byte flType := by
    intro byte flType covers holds
    have startByte := covers.1
    have byteFinish := covers.2
    rcases holds_append.mp holds with ⟨fl, mem, otherCovers, _⟩ | ⟨fl, mem, otherCovers, _⟩
    · have := (below fl mem).1
      have := otherCovers.2
      omega
    · have := (beyond fl mem).1
      have := otherCovers.1
      omega
  have whole : ∀ byte flType, Holds after (low ++ (middle ++ high)) byte flType ↔
      Holds after (low ++ high) byte flType ∨ Holds after middle byte flType := by
    intro byte flType
    rw [holds_append, holds_append, holds_append]
    tauto
  refine ⟨?_, ?_, ?_⟩
  · have middleTidy := fills.tidy fun isLock =>
      ⟨start_nonneg, start_le, finish_le, isType ▸ isLock⟩
    refine lowTidy.append (middleTidy.append highTidy ?_) ?_
    · intro first firstMem second secondMem
      rw [fills.eq_current firstMem]
      exact beyond second secondMem
    intro first firstMem second secondMem
    rcases mem_append.mp secondMem with inMiddle | inHigh
    · rw [fills.eq_current inMiddle]
      exact below first firstMem
    · exact lowHigh first firstMem second inHigh
  · intro byte flType covers
    have coversCurrent : current.Covers byte := ⟨startLe.trans covers.1, covers.2.trans leFinish⟩
    rw [whole, fills.holds_iff isType]
    tauto
  · intro byte flType notCovers
    rw [whole, fills.holds_iff isType]
    by_cases covers : current.Covers byte
    · have isHeld := grown byte covers notCovers
      have notOuter := outer byte flType covers
      constructor
      · rintro (isOuter | ⟨_, rfl, _⟩)
        · exact absurd isOuter notOuter
        · exact isHeld
      intro holds
      have sameType := ready.tidy.type_eq holds isHeld
      refine .inr ⟨covers, sameType, ?_⟩
      rcases isHeld with ⟨fl, mem, _, hasType⟩
      exact hasType ▸ (ready.tidy.proper fl mem).isType
    · rw [outside byte flType covers]
      tauto

end Assemble

/-! ## Cutting off -/

/-- The request has its place between the kept locks `clean` and the locks `tail` that the loop
did not reach. -/
structure Staged (lock : ℕ → Lock Owner) (new : Lock Owner) (id : ℕ)
    (done clean middle tail post : List ℕ) (base pass : Pass Owner) (list : List ℕ) : Prop where
  passing : Passing lock new id done clean base
  isCurrent : pass.current = base.current
  isLeft : pass.left = base.left
  isMiddle : new.flType = .unlock ∧ middle = [] ∨
    new.flType ≠ .unlock ∧ ∃ fl, middle = [fl] ∧ pass.lock fl = base.current
  isList : pass.kept ++ list = clean ++ (middle ++ (tail ++ post))
  same : ∀ fl ∈ clean ++ tail, pass.lock fl = lock fl
  apart : ∀ fl ∈ clean ++ tail, fl ∉ middle ∧ fl ≠ pass.request

section Cut

variable {lock : ℕ → Lock Owner} {new : Lock Owner} {id : ℕ}
  {done clean middle tail post list : List ℕ} {base pass : Pass Owner}

def cutLocks (pass : Pass Owner) : ℕ → Lock Owner := fun fl =>
  if pass.left = some fl then { pass.lock fl with finish := pass.current.start - 1 }
  else if pass.right = some fl then { pass.lock fl with start := pass.current.finish + 1 }
  else pass.lock fl

theorem cutLeft_lock (pass : Pass Owner) (fl : ℕ) : pass.cutLeft.lock fl =
      if pass.left = some fl then { pass.lock fl with finish := pass.current.start - 1 }
      else pass.lock fl := by
  unfold Pass.cutLeft
  cases isLeft : pass.left with
  | none => rfl
  | some left =>
    simp only [setFinish, Option.some.injEq]
    split_ifs with isFl
    · subst isFl
      exact update_self _ _ _
    · exact update_of_ne (Ne.symm isFl) _ _

theorem cutLeft_kept (pass : Pass Owner) : pass.cutLeft.kept = pass.kept := by
  unfold Pass.cutLeft
  cases pass.left with
  | none => rfl
  | some left => rfl

section

variable (notBoth : ∀ right, pass.right = some right → pass.left ≠ some right)
include notBoth

theorem cutRight_eq (newFl2 : Option ℕ) (list : List ℕ) :
    (pass.cutRight newFl2 list).2 = list ∧ (pass.cutRight newFl2 list).1.kept = pass.kept ∧
      (pass.cutRight newFl2 list).1.left = pass.left ∧
      (pass.cutRight newFl2 list).1.request = pass.request ∧
      ∀ fl, (pass.cutRight newFl2 list).1.lock fl =
        if pass.right = some fl then { pass.lock fl with start := pass.current.finish + 1 }
        else pass.lock fl := by
  unfold Pass.cutRight
  cases isRight : pass.right with
  | none => exact ⟨rfl, rfl, rfl, rfl, fun _ => rfl⟩
  | some right =>
    have isLock : ∀ fl, setStart pass.lock right ((pass.lock pass.request).finish + 1) fl =
        if some right = some fl then { pass.lock fl with start := pass.current.finish + 1 }
        else pass.lock fl := by
      intro fl
      simp only [setStart, Option.some.injEq]
      split_ifs with isFl
      · subst isFl
        exact update_self _ _ _
      · exact update_of_ne (Ne.symm isFl) _ _
    cases newFl2 with
    | none => exact ⟨rfl, rfl, rfl, rfl, isLock⟩
    | some second =>
      simp only [if_neg (notBoth right isRight), true_and]
      exact isLock

theorem cut_eq (notRight : pass.right ≠ some pass.request) (newFl2 : Option ℕ) (list : List ℕ) :
    (pass.cut newFl2 list).1.lock = cutLocks pass ∧ (pass.cut newFl2 list).1.kept = pass.kept ∧
      (pass.cut newFl2 list).2 = (list, .ok) := by
  rcases cutRight_eq notBoth newFl2 list with
    ⟨isList, isKept, isLeft, isRequest, isLock⟩
  refine ⟨?_, ?_, ?_⟩
  · funext fl
    have sameCurrent : (pass.cutRight newFl2 list).1.current = pass.current := by
      rw [Pass.current, isRequest, isLock, if_neg notRight]
      rfl
    unfold Pass.cut
    rw [cutLeft_lock, isLeft, isLock, sameCurrent]
    unfold cutLocks
    by_cases isFl : pass.left = some fl
    · have notFl : pass.right ≠ some fl := fun isRight => notBoth fl isRight isFl
      rw [if_pos isFl, if_pos isFl, if_neg notFl]
    · rw [if_neg isFl, if_neg isFl]
  · unfold Pass.cut
    rw [cutLeft_kept, isKept]
  · unfold Pass.cut
    rw [isList]

end

theorem Ready.owned {mine : List ℕ} {fl : ℕ} (ready : Ready lock new id mine) (mem : fl ∈ mine) :
    (lock fl).owner = new.owner ∧ (lock fl).posix = new.posix :=
  ⟨ready.owner fl mem, ready.posix fl mem⟩

theorem Passing.left_mem {fl : ℕ} (passing : Passing lock new id done clean base)
    (isLeft : base.left = some fl) : fl ∈ clean := by
  rcases passing.left fl isLeft with ⟨⟨front, isClean⟩, _⟩
  simp [isClean]

section

variable (staged : Staged lock new id done clean middle tail post base pass list)
include staged

theorem Staged.left_mem {fl : ℕ} (isLeft : pass.left = some fl) : fl ∈ clean :=
  staged.passing.left_mem (staged.isLeft ▸ isLeft)

theorem Staged.lower (tidy : Tidy lock (done ++ tail))
    (notRight : ∀ fl ∈ clean, pass.right ≠ some fl) :
    ∀ fl ∈ clean, Shrinks (cutLocks pass fl) (lock fl) ∧ (cutLocks pass fl).Before base.current ∧
      ∀ byte, ¬base.current.Covers byte →
        ((cutLocks pass fl).Covers byte ↔ (lock fl).Covers byte) := by
  intro fl mem
  have isSame := staged.same fl (mem_append_left _ mem)
  have proper := tidy.proper fl (mem_append_left _ (staged.passing.sublist.subset mem))
  unfold cutLocks
  by_cases isLeft : pass.left = some fl
  · rw [if_pos isLeft, isSame, staged.isCurrent]
    rw [staged.isLeft] at isLeft
    rcases staged.passing.left fl isLeft with ⟨_, otherType, below, above, inside⟩
    refine ⟨⟨rfl, le_rfl, ?_, ?_⟩, ⟨?_, ?_⟩, ?_⟩
    · simp only
      omega
    · simp only
      omega
    · simp only
      omega
    · intro sameType
      rw [staged.passing.isType] at sameType
      exact absurd sameType otherType
    · intro byte notCovers
      unfold Covers at notCovers ⊢
      simp only
      omega
  · rw [if_neg isLeft, if_neg (notRight fl mem), isSame]
    rw [staged.isLeft] at isLeft
    exact ⟨⟨rfl, le_rfl, le_rfl, proper.start_le⟩,
      staged.passing.placed fl mem (fun isFl => isLeft isFl.symm), fun _ _ => Iff.rfl⟩

end

/-- A lock that the loop did not reach lies beyond the request, or it ends beyond it. -/
def EndsBeyond (lock : ℕ → Lock Owner) (current : Lock Owner) (right : Option ℕ) (fl : ℕ) : Prop :=
  if right = some fl then
    current.flType ≠ (lock fl).flType ∧ current.start ≤ (lock fl).start ∧
      (lock fl).start ≤ current.finish ∧ current.finish < (lock fl).finish
  else current.Before (lock fl)

section

variable (staged : Staged lock new id done clean middle tail post base pass list)
include staged

theorem Staged.upper (tidy : Tidy lock (done ++ tail))
    (ends : ∀ fl ∈ tail, EndsBeyond lock base.current pass.right fl) :
    ∀ fl ∈ tail, Shrinks (cutLocks pass fl) (lock fl) ∧ base.current.Before (cutLocks pass fl) ∧
      ∀ byte, ¬base.current.Covers byte →
        ((cutLocks pass fl).Covers byte ↔ (lock fl).Covers byte) := by
  intro fl mem
  have isSame := staged.same fl (mem_append_right _ mem)
  have proper := tidy.proper fl (mem_append_right _ mem)
  have notLeft : pass.left ≠ some fl := fun isLeft =>
    tidy.notMem_of_append (staged.passing.sublist.subset (staged.left_mem isLeft)) mem
  have isEnd := ends fl mem
  unfold cutLocks
  unfold EndsBeyond at isEnd
  rw [if_neg notLeft]
  by_cases isRight : pass.right = some fl
  · rw [if_pos isRight] at isEnd ⊢
    rw [isSame, staged.isCurrent]
    rcases isEnd with ⟨otherType, startLe, leFinish, beyond⟩
    refine ⟨⟨rfl, ?_, le_rfl, ?_⟩, ⟨?_, ?_⟩, ?_⟩
    · simp only
      omega
    · simp only
      omega
    · simp only
      omega
    · exact fun sameType => absurd sameType otherType
    · intro byte notCovers
      unfold Covers at notCovers ⊢
      simp only
      omega
  · rw [if_neg isRight] at isEnd ⊢
    rw [isSame]
    exact ⟨⟨rfl, le_rfl, le_rfl, proper.start_le⟩, isEnd, fun _ _ => Iff.rfl⟩

theorem Staged.overwritten (ready : Ready lock new id (done ++ tail))
    (ends : ∀ fl ∈ tail, EndsBeyond lock base.current pass.right fl)
    (isRight : ∀ fl, pass.right = some fl → fl ∈ tail) :
    Overwritten lock (cutLocks pass) new (done ++ tail) (clean ++ (middle ++ tail)) := by
  have passing := staged.passing
  have notRight : ∀ fl ∈ clean, pass.right ≠ some fl := fun fl mem isFl =>
    ready.tidy.notMem_of_append (passing.sublist.subset mem) (isRight fl isFl)
  have lower := staged.lower ready.tidy notRight
  have upper := staged.upper ready.tidy ends
  have cleanTidy : Tidy lock clean :=
    ready.tidy.sublist (passing.sublist.trans (sublist_append_left _ _))
  have tailTidy : Tidy lock tail := ready.tidy.sublist (sublist_append_right _ _)
  refine ready.assemble passing.shape passing.low passing.high passing.start_nonneg
    passing.finish_le ?_ (cleanTidy.shrink fun fl mem => (lower fl mem).1)
    (tailTidy.shrink fun fl mem => (upper fl mem).1) (fun fl mem => (lower fl mem).2.1)
    (fun fl mem => (upper fl mem).2.1) ?_ ?_
  · intro byte covers notCovers
    exact (passing.grown byte covers notCovers).mono fun fl mem => mem_append_left _ mem
  · rcases staged.isMiddle with isUnlock | ⟨isLock, fl, rfl, isCurrent⟩
    · exact .inl isUnlock
    refine .inr ⟨isLock, fl, rfl, ?_⟩
    have notOuter : ∀ other ∈ clean ++ tail, other ≠ fl := by
      rintro other mem rfl
      exact (staged.apart other mem).1 (mem_singleton_self other)
    unfold cutLocks
    rw [if_neg, if_neg, isCurrent]
    · intro isFl
      exact notOuter fl (mem_append_right _ (isRight fl isFl)) rfl
    · exact fun isFl => notOuter fl (mem_append_left _ (staged.left_mem isFl)) rfl
  · intro byte flType notCovers
    rw [holds_append, holds_append, passing.outside byte flType notCovers]
    refine or_congr ?_ ?_
    · exact holds_iff_of_covers fun fl mem =>
        ⟨(lower fl mem).1.flType, (lower fl mem).2.2 byte notCovers⟩
    · exact holds_iff_of_covers fun fl mem =>
        ⟨(upper fl mem).1.flType, (upper fl mem).2.2 byte notCovers⟩

end

theorem cutLocks_owner (pass : Pass Owner) (fl : ℕ) :
    (cutLocks pass fl).owner = (pass.lock fl).owner ∧
      (cutLocks pass fl).posix = (pass.lock fl).posix := by
  unfold cutLocks
  split_ifs with isLeft isRight
  all_goals exact ⟨rfl, rfl⟩

end Cut

/-! ## The end of a request -/

/-- What a request without a conflict has done to the locks of its owner. `fresh` are the new
locks. -/
structure Settled (lock : ℕ → Lock Owner) (new : Lock Owner) (id : ℕ) (fresh mine post : List ℕ)
    (after : Pass Owner) (list : List ℕ) (result : Result) : Prop where
  same : ∀ fl, fl ∉ mine → fl ≠ id → fl ∉ fresh → after.lock fl = lock fl
  isResult : ∃ owned, after.kept ++ list = owned ++ post ∧ (∀ fl ∈ owned, fl ∈ mine ∨ fl ∈ fresh) ∧
    (∀ fl ∈ owned, (after.lock fl).owner = new.owner ∧ (after.lock fl).posix = new.posix) ∧
    (result = .ok ∧ Overwritten lock after.lock new mine owned ∨
      (result = .enolck ∨ result = .enoent) ∧ owned = mine ∧ after.lock = lock)

section Settle

variable {lock : ℕ → Lock Owner} {new : Lock Owner} {id : ℕ}
  {fresh mine done clean middle tail post list : List ℕ} {base pass : Pass Owner}
  {newFl newFl2 : Option ℕ}

theorem Ready.unchanged {result : Result} (ready : Ready lock new id (done ++ tail))
    (isLock : pass.lock = lock) (isKept : pass.kept = done)
    (fails : result = .enolck ∨ result = .enoent) :
    Settled lock new id fresh (done ++ tail) post pass (tail ++ post) result := by
  refine ⟨fun fl _ _ _ => congrFun isLock fl, done ++ tail, ?_, fun fl mem => .inl mem, ?_,
    .inr ⟨fails, rfl, isLock⟩⟩
  · rw [isKept, append_assoc]
  · intro fl mem
    rw [isLock]
    exact ready.owned mem

theorem Staged.settled (staged : Staged lock new id done clean middle tail post base pass list)
    (ready : Ready lock new id (done ++ tail))
    (ends : ∀ fl ∈ tail, EndsBeyond lock base.current pass.right fl)
    (isRight : ∀ fl, pass.right = some fl → fl ∈ tail)
    (isFresh : ∀ fl ∈ middle, fl ∈ done ∨ fl ∈ fresh)
    (others : ∀ fl, fl ∉ done → fl ≠ id → fl ∉ fresh → pass.lock fl = lock fl) :
    Settled lock new id fresh (done ++ tail) post (pass.cut newFl2 list).1
      (pass.cut newFl2 list).2.1 (pass.cut newFl2 list).2.2 := by
  have passing := staged.passing
  have notBoth : ∀ right, pass.right = some right → pass.left ≠ some right := fun fl isFl isLeft =>
    ready.tidy.notMem_of_append (passing.sublist.subset (staged.left_mem isLeft)) (isRight fl isFl)
  have notRight : pass.right ≠ some pass.request := fun isFl =>
    (staged.apart _ (mem_append_right _ (isRight _ isFl))).2 rfl
  rcases cut_eq notBoth notRight newFl2 list with ⟨isLock, isKept, isRest⟩
  rw [isRest]
  have inMine := (passing.sublist.append_right tail).subset
  refine ⟨?_, clean ++ (middle ++ tail), ?_, ?_, ?_, .inl ⟨rfl, ?_⟩⟩
  · intro fl outside notId notFresh
    rw [isLock]
    unfold cutLocks
    rw [if_neg, if_neg]
    · exact others fl (fun mem => outside (mem_append_left _ mem)) notId notFresh
    · exact fun isFl => outside (mem_append_right _ (isRight fl isFl))
    · exact fun isFl => outside (inMine (mem_append_left _ (staged.left_mem isFl)))
  · rw [isKept, staged.isList]
    simp
  · intro fl mem
    simp only [mem_append] at mem ⊢
    rcases mem with inClean | inMiddle | inTail
    · exact .inl (.inl (passing.sublist.subset inClean))
    · exact (isFresh fl inMiddle).imp_left .inl
    · exact .inl (.inr inTail)
  · intro fl mem
    rw [isLock, (cutLocks_owner pass fl).1, (cutLocks_owner pass fl).2]
    simp only [mem_append] at mem
    rcases mem with inClean | inMiddle | inTail
    · rw [staged.same fl (mem_append_left tail inClean)]
      exact ready.owned (inMine (mem_append_left tail inClean))
    · rcases staged.isMiddle with ⟨_, rfl⟩ | ⟨_, other, rfl, isCurrent⟩
      · cases inMiddle
      · rw [mem_singleton.mp inMiddle, isCurrent, passing.shape]
        exact ⟨rfl, rfl⟩
    · rw [staged.same fl (mem_append_right clean inTail)]
      exact ready.owned (mem_append_right done inTail)
  · rw [isLock]
    exact staged.overwritten ready ends isRight

structure Spare (id : ℕ) (fresh mine : List ℕ) (newFl : Option ℕ) : Prop where
  isFresh : ∀ fl, newFl = some fl → fl ∈ fresh
  notMine : ∀ fl, newFl = some fl → fl ∉ mine
  notId : ∀ fl, newFl = some fl → fl ≠ id

section Settled

variable (passing : Passing lock new id done clean base)
  (ready : Ready lock new id (done ++ tail))
include passing ready

namespace Passing

theorem notRequest : ∀ fl ∈ clean ++ tail, fl ≠ base.request := by
  rintro fl mem rfl
  rcases passing.isKept with ⟨_, isId, _⟩ | ⟨_, ⟨inDone, notClean⟩, _⟩
  · rw [isId] at mem
    exact ready.fresh ((passing.sublist.append_right tail).subset mem)
  · rcases mem_append.mp mem with inClean | inTail
    · exact notClean inClean
    · exact ready.tidy.notMem_of_append inDone inTail

theorem sameOuter : ∀ fl ∈ clean ++ tail, base.lock fl = lock fl := by
  intro fl mem
  rcases mem_append.mp mem with inClean | inTail
  · exact passing.sameClean fl inClean
  · refine passing.same fl (fun inDone => ready.tidy.notMem_of_append inDone inTail) ?_
    rintro rfl
    exact ready.fresh (mem_append_right _ inTail)

theorem stagedAdded {right : Option ℕ} (isAdded : base.added = true) :
    ∃ middle, Staged lock new id done clean middle tail post base { base with right := right }
      (tail ++ post) ∧ ∀ fl ∈ middle, fl ∈ done := by
  have notRequest := passing.notRequest ready
  have same := passing.sameOuter ready
  rcases passing.isKept with ⟨notAlias, _, isKept⟩ | ⟨isAlias, ⟨inDone, _⟩, isKept⟩
  · have isUnlock : new.flType = .unlock := by
      rcases notAlias with notAdded | isUnlock
      · rw [isAdded] at notAdded
        cases notAdded
      · exact isUnlock
    refine ⟨[], ⟨passing, rfl, rfl, .inl ⟨isUnlock, rfl⟩, ?_, same, ?_⟩, ?_⟩
    · rw [isKept, nil_append]
    · exact fun fl mem => ⟨not_mem_nil, notRequest fl mem⟩
    · exact fun fl never => absurd never not_mem_nil
  refine ⟨[base.request], ⟨passing, rfl, rfl, .inr ⟨isAlias.2, base.request, rfl, rfl⟩, ?_, same,
    ?_⟩, ?_⟩
  · rw [isKept, append_assoc]
  · intro fl mem
    exact ⟨fun isRequest => notRequest fl mem (mem_singleton.mp isRequest), notRequest fl mem⟩
  · intro fl isRequest
    rw [mem_singleton.mp isRequest]
    exact inDone

theorem stagedNew {right : Option ℕ} {fl : ℕ} (notAdded : base.added = false)
    (isLock : new.flType ≠ .unlock) (notMine : fl ∉ done ++ tail) (notId : fl ≠ id) :
    Staged lock new id done clean [fl] tail post base
      { base with lock := update base.lock fl base.current, right := right }
      (fl :: (tail ++ post)) := by
  have isKept : base.request = id ∧ base.kept = clean := by
    rcases passing.isKept with ⟨_, isKept⟩ | ⟨⟨isAdded, _⟩, _⟩
    · exact isKept
    · rw [notAdded] at isAdded
      cases isAdded
  have notNew : ∀ other ∈ clean ++ tail, other ≠ fl := by
    rintro other mem rfl
    exact notMine ((passing.sublist.append_right tail).subset mem)
  refine ⟨passing, ?_, rfl, .inr ⟨isLock, fl, rfl, update_self _ _ _⟩, ?_, ?_, ?_⟩
  · refine update_of_ne ?_ _ _
    rw [isKept.1]
    exact notId.symm
  · rw [isKept.2]
    rfl
  · intro other mem
    simp only [update_of_ne (notNew other mem)]
    exact passing.sameOuter ready other mem
  · intro other mem
    exact ⟨fun isNew => notNew other mem (mem_singleton.mp isNew),
      passing.notRequest ready other mem⟩

theorem nothing (notAdded : base.added = false) (isUnlock : new.flType = .unlock)
    (beyond : ∀ fl ∈ tail, base.current.Before (lock fl)) :
    Overwritten lock base.lock new (done ++ tail) (done ++ tail) := by
  rcases passing.notAdded notAdded with ⟨isLock, isKept, rfl⟩
  have noLeft : base.left = none := by
    by_contra hasLeft
    have isAdded := passing.marked isUnlock hasLeft
    rw [notAdded] at isAdded
    cases isAdded
  rw [isLock]
  refine ⟨ready.tidy, ?_, fun _ _ _ => Iff.rfl⟩
  intro byte flType covers
  have low := passing.low
  have high := passing.high
  have startByte := covers.1
  have byteFinish := covers.2
  refine ⟨?_, fun never => absurd isUnlock never.2⟩
  rintro ⟨fl, mem, otherCovers, _⟩
  rcases mem_append.mp mem with inDone | inTail
  · have before := (passing.placed fl inDone (by simp [noLeft])).1
    have := otherCovers.2
    omega
  · have before := (beyond fl inTail).1
    have := otherCovers.1
    omega

theorem settled {right : Option ℕ} {testExists : Bool}
    (ends : ∀ fl ∈ tail, EndsBeyond lock base.current right fl)
    (isRight : ∀ fl, right = some fl → fl ∈ tail)
    (isAdded : right ≠ none → new.flType = .unlock → base.added = true)
    (spare : Spare id fresh (done ++ tail) newFl) :
    Settled lock new id fresh (done ++ tail) post
      ({ base with right := right }.settle newFl newFl2 testExists (tail ++ post)).1
      ({ base with right := right }.settle newFl newFl2 testExists (tail ++ post)).2.1
      ({ base with right := right }.settle newFl newFl2 testExists (tail ++ post)).2.2 := by
  have notSplit : ¬(right ≠ none ∧ base.left = right ∧ newFl2 = none) := by
    rintro ⟨hasRight, isLeft, _⟩
    obtain ⟨fl, isFl⟩ := Option.ne_none_iff_exists'.mp hasRight
    rw [isFl] at isLeft
    exact ready.tidy.notMem_of_append (passing.sublist.subset (passing.left_mem isLeft))
      (isRight fl isFl)
  unfold Pass.settle
  simp only [if_neg notSplit]
  by_cases wasAdded : base.added = true
  · rw [if_pos wasAdded]
    rcases @stagedAdded _ _ _ _ _ _ _ post _ passing ready right wasAdded with
      ⟨middle, staged, inDone⟩
    exact staged.settled ready ends isRight (fun fl mem => .inl (inDone fl mem))
      fun fl outside notId _ => passing.same fl outside notId
  rw [if_neg wasAdded]
  rw [Bool.not_eq_true] at wasAdded
  have isType : (base.lock base.request).flType = new.flType := passing.isType
  rcases passing.notAdded wasAdded with ⟨isLock, isKept, _⟩
  by_cases isUnlock : new.flType = .unlock
  · rw [if_pos (isType.trans isUnlock)]
    have noRight : right = none := by
      by_contra hasRight
      have isAdded := isAdded hasRight isUnlock
      rw [wasAdded] at isAdded
      cases isAdded
    have beyond : ∀ fl ∈ tail, base.current.Before (lock fl) := by
      intro fl mem
      have isEnd := ends fl mem
      rw [noRight] at isEnd
      exact isEnd
    cases testExists with
    | true => exact ready.unchanged isLock isKept (.inr rfl)
    | false =>
      refine ⟨fun fl _ _ _ => congrFun isLock fl, done ++ tail, ?_,
        fun fl mem => .inl mem, ?_,
        .inl ⟨rfl, passing.nothing ready wasAdded isUnlock beyond⟩⟩
      · simp [isKept]
      · intro fl mem
        simp only [isLock]
        exact ready.owned mem
  · rw [if_neg (fun same => isUnlock (isType.symm.trans same))]
    cases isNew : newFl with
    | none => exact ready.unchanged isLock isKept (.inl rfl)
    | some fl =>
      have staged := @stagedNew _ _ _ _ _ _ _ post _ passing ready right fl wasAdded
        isUnlock (spare.notMine fl isNew) (spare.notId fl isNew)
      refine staged.settled ready ends isRight ?_ ?_
      · intro other mem
        rw [mem_singleton.mp mem]
        exact .inr (spare.isFresh fl isNew)
      intro other outside notId notFresh
      refine (update_of_ne ?_ _ _).trans (passing.same other outside notId)
      rintro rfl
      exact notFresh (spare.isFresh other isNew)

end Passing

end Settled

/-! ## Splitting a lock -/

theorem cut_split {fl second : ℕ} (isRight : pass.right = some fl) (isLeft : pass.left = some fl)
    (ne : second ≠ fl) (notFl : pass.request ≠ fl) (notSecond : pass.request ≠ second)
    (list : List ℕ) :
    (pass.cut (some second) list).1.kept = pass.kept ∧
      (pass.cut (some second) list).2 = (second :: list, .ok) ∧
      (pass.cut (some second) list).1.lock second =
        { pass.lock fl with finish := pass.current.start - 1 } ∧
      (pass.cut (some second) list).1.lock fl =
        { pass.lock fl with start := pass.current.finish + 1 } ∧
      ∀ other, other ≠ second → other ≠ fl →
        (pass.cut (some second) list).1.lock other = pass.lock other := by
  generalize isCut : pass.cutRight (some second) list = cut
  have isPass : cut = ({ pass with
      lock := setStart (update pass.lock second (pass.lock fl)) fl (pass.current.finish + 1)
      left := some second
      blocked := wakeUpBlocks pass.blocked fl }, second :: list) := by
    rw [← isCut]
    unfold Pass.cutRight
    simp only [isRight, if_pos isLeft]
    rfl
  have isCurrent : cut.1.current = pass.current := by
    rw [isPass]
    simp only [Pass.current, setStart]
    rw [update_of_ne notFl, update_of_ne notSecond]
  have isLock : ∀ other, (pass.cut (some second) list).1.lock other =
      if some second = some other then
        { cut.1.lock other with finish := pass.current.start - 1 }
      else cut.1.lock other := by
    intro other
    unfold Pass.cut
    rw [isCut, cutLeft_lock, isCurrent, isPass]
  refine ⟨?_, ?_, ?_, ?_, ?_⟩
  · unfold Pass.cut
    rw [isCut, cutLeft_kept, isPass]
  · unfold Pass.cut
    rw [isCut, isPass]
  · rw [isLock, if_pos rfl, isPass]
    simp only [setStart]
    rw [update_of_ne ne, update_self]
  · rw [isLock, if_neg (fun same => ne (Option.some.inj same)), isPass]
    simp only [setStart]
    rw [update_self, update_of_ne (Ne.symm ne)]
  · intro other notSecond notFl
    rw [isLock, if_neg (fun same => notSecond (Option.some.inj same).symm), isPass]
    simp only [setStart]
    rw [update_of_ne notFl, update_of_ne notSecond]

/-- The lock `fl` has been cut in two around the request; `second` is the lower part. -/
structure Halved (lock after : ℕ → Lock Owner) (new : Lock Owner) (done tail : List ℕ)
    (fl second : ℕ) : Prop where
  outer : ∀ other, other ∈ done ∨ other ∈ tail → after other = lock other
  atSecond : after second = { lock fl with finish := new.start - 1 }
  atFl : after fl = { lock fl with start := new.finish + 1 }

section Halved

variable {after : ℕ → Lock Owner} {fl second : ℕ}
    (halved : Halved lock after new done tail fl second)
  (ready : Ready lock new id (done ++ fl :: tail))
include halved ready

section

variable (startLt : (lock fl).start < new.start) (finishLt : new.finish < (lock fl).finish)
include startLt finishLt

theorem Halved.lowTidy : Tidy after (done ++ [second]) := by
  have proper := ready.proper
  have doneTidy : Tidy after done :=
    (ready.tidy.sublist (sublist_append_left _ _)).congr fun other mem =>
      halved.outer other (.inl mem)
  have secondProper : (after second).Proper := by
    rw [halved.atSecond]
    have nonneg := proper.start_nonneg
    have bounded := proper.finish_le
    have inside := ready.start_le
    exact ⟨nonneg, by simp only; omega, by simp only; omega, proper.isType⟩
  refine doneTidy.append ⟨?_, pairwise_singleton _ _⟩ ?_
  · intro other mem
    rw [mem_singleton.mp mem]
    exact secondProper
  · intro first firstMem other mem
    rw [mem_singleton.mp mem, halved.atSecond, halved.outer first (.inl firstMem)]
    exact ready.before firstMem

theorem Halved.highTidy : Tidy after (fl :: tail) := by
  refine (ready.tidy.sublist (sublist_append_right _ _)).shrink fun other mem => ?_
  rcases mem_cons.mp mem with rfl | inTail
  · rw [halved.atFl]
    have inside := ready.start_le
    exact ⟨rfl, by simp only; omega, le_rfl, by simp only; omega⟩
  · rw [halved.outer other (.inr inTail)]
    exact shrinks_refl (ready.tidy.proper other (mem_append_right _ (mem_cons_of_mem _ inTail)))

theorem Halved.holds_iff {byte : ℤ} (flType : LockType) (notCovers : ¬new.Covers byte) :
    Holds after (done ++ [second] ++ fl :: tail) byte flType ↔
      Holds lock (done ++ fl :: tail) byte flType := by
  have tailSame : Holds after tail byte flType ↔ Holds lock tail byte flType :=
    holds_congr fun other mem => halved.outer other (.inr mem)
  have doneSame : Holds after done byte flType ↔ Holds lock done byte flType :=
    holds_congr fun other mem => halved.outer other (.inl mem)
  have flSame : Holds after [second] byte flType ∨ Holds after [fl] byte flType ↔
      Holds lock [fl] byte flType := by
    have inside := ready.start_le
    rw [holds_singleton, holds_singleton, holds_singleton, halved.atSecond, halved.atFl,
      ← or_and_right]
    refine and_congr_left fun _ => ?_
    unfold Covers at notCovers ⊢
    simp only
    omega
  rw [holds_append, holds_append, @holds_cons _ after fl, holds_append, @holds_cons _ lock fl,
    doneSame, tailSame, or_assoc, ← or_assoc (b := Holds after [fl] byte flType), flSame]

end

end Halved

theorem Ready.split {fl second : ℕ} (ready : Ready lock new id (done ++ fl :: tail))
    (below : ∀ other ∈ done, (lock other).Before new) (isRight : pass.right = some fl)
    (isLeft : pass.left = some fl) (isKept : pass.kept = done) (isRequest : pass.request = id)
    (isCurrent : pass.current = new) (otherType : new.flType ≠ (lock fl).flType)
    (startLt : (lock fl).start < new.start) (finishLt : new.finish < (lock fl).finish)
    (isMiddle : new.flType = .unlock ∧ middle = [] ∨
      new.flType ≠ .unlock ∧ ∃ other, middle = [other] ∧ pass.lock other = new)
    (same : ∀ other ∈ done ++ fl :: tail, pass.lock other = lock other)
    (others : ∀ other, other ≠ id → other ∉ fresh → pass.lock other = lock other)
    (middleFresh : ∀ other ∈ middle, other ∈ fresh ∧ other ∉ done ++ fl :: tail)
    (secondFresh : second ∈ fresh) (secondMine : second ∉ done ++ fl :: tail)
    (secondId : second ≠ id) (secondMiddle : second ∉ middle) :
    Settled lock new id fresh (done ++ fl :: tail) post
      (pass.cut (some second) (middle ++ (fl :: tail ++ post))).1
      (pass.cut (some second) (middle ++ (fl :: tail ++ post))).2.1
      (pass.cut (some second) (middle ++ (fl :: tail ++ post))).2.2 := by
  have flMine : fl ∈ done ++ fl :: tail := mem_append_right _ mem_cons_self
  have ne : second ≠ fl := (ne_of_mem_of_not_mem flMine secondMine).symm
  have notFl : pass.request ≠ fl := by
    rw [isRequest]
    exact (ne_of_mem_of_not_mem flMine ready.fresh).symm
  have notSecond : pass.request ≠ second := by
    rw [isRequest]
    exact secondId.symm
  rcases cut_split isRight isLeft ne notFl notSecond (middle ++ (fl :: tail ++ post)) with
    ⟨cutKept, cutRest, atSecond, atFl, atOther⟩
  rw [cutRest]
  generalize (pass.cut (some second) (middle ++ (fl :: tail ++ post))).1 = after at *
  rw [isCurrent, same fl flMine] at atSecond atFl
  have outer : ∀ other, other ∈ done ∨ other ∈ tail → after.lock other = lock other := by
    intro other mem
    have inMine : other ∈ done ++ fl :: tail := by
      rcases mem with inDone | inTail
      · exact mem_append_left _ inDone
      · exact mem_append_right _ (mem_cons_of_mem _ inTail)
    have notFl : other ≠ fl := by
      rintro rfl
      rcases mem with inDone | inTail
      · exact ready.tidy.notMem_of_append inDone mem_cons_self
      · have ordered := (pairwise_append.mp ready.tidy.ordered).2.1
        have before := ((pairwise_cons.mp ordered).1 other inTail).1
        exact absurd before (not_lt.mpr ready.proper.start_le)
    rw [atOther other (ne_of_mem_of_not_mem inMine secondMine) notFl, same other inMine]
  have atMiddle : ∀ other ∈ middle, after.lock other = pass.lock other := by
    intro other mem
    refine atOther other ?_ ?_
    · exact ne_of_mem_of_not_mem mem secondMiddle
    · exact (ne_of_mem_of_not_mem flMine (middleFresh other mem).2).symm
  have halved : Halved lock after.lock new done tail fl second := ⟨outer, atSecond, atFl⟩
  refine ⟨?_, done ++ [second] ++ (middle ++ fl :: tail), ?_, ?_, ?_, .inl ⟨rfl, ?_⟩⟩
  · intro other outside notId notFresh
    rw [atOther other ?_ ?_]
    · exact others other notId notFresh
    · exact (ne_of_mem_of_not_mem secondFresh notFresh).symm
    · exact (ne_of_mem_of_not_mem flMine outside).symm
  · rw [cutKept, isKept]
    simp
  · intro other mem
    simp only [mem_append, mem_cons, not_mem_nil, or_false] at mem ⊢
    rcases mem with (inDone | rfl) | inMiddle | inHigh
    · exact .inl (.inl inDone)
    · exact .inr secondFresh
    · exact .inr (middleFresh other inMiddle).1
    · exact .inl (.inr inHigh)
  · intro other mem
    simp only [mem_append, mem_cons, not_mem_nil, or_false] at mem
    rcases mem with (inDone | rfl) | inMiddle | rfl | inTail
    · rw [outer other (.inl inDone)]
      exact ready.owned (mem_append_left _ inDone)
    · rw [atSecond]
      exact ready.owned flMine
    · rw [atMiddle other inMiddle]
      rcases isMiddle with ⟨_, rfl⟩ | ⟨_, only, rfl, isNew⟩
      · cases inMiddle
      · rw [mem_singleton.mp inMiddle, isNew]
        exact ⟨rfl, rfl⟩
    · rw [atFl]
      exact ready.owned flMine
    · rw [outer other (.inr inTail)]
      exact ready.owned (mem_append_right _ (mem_cons_of_mem _ inTail))
  · refine ready.assemble rfl le_rfl le_rfl ready.start_nonneg ready.finish_le
      (fun byte covers notCovers => absurd covers notCovers)
      (halved.lowTidy ready startLt finishLt) (halved.highTidy ready startLt finishLt) ?_ ?_ ?_ ?_
    · intro other mem
      rcases mem_append.mp mem with inDone | isSecond
      · rw [outer other (.inl inDone)]
        exact below other inDone
      · rw [mem_singleton.mp isSecond, atSecond]
        exact ⟨by simp only; omega, fun sameType => absurd sameType.symm otherType⟩
    · intro other mem
      rcases mem_cons.mp mem with rfl | inTail
      · rw [atFl]
        exact ⟨by simp only; omega, fun sameType => absurd sameType otherType⟩
      rw [outer other (.inr inTail)]
      have ordered := (pairwise_append.mp ready.tidy.ordered).2.1
      have before := ((pairwise_cons.mp ordered).1 other inTail).1
      exact ⟨by omega, fun _ => by omega⟩
    · rcases isMiddle with isUnlock | ⟨isLock, only, rfl, isNew⟩
      · exact .inl isUnlock
      · exact .inr ⟨isLock, only, rfl, (atMiddle only (mem_singleton_self only)).trans isNew⟩
    · exact fun _ flType => halved.holds_iff ready startLt finishLt flType

theorem Ready.settledSplit {fl : ℕ} {testExists : Bool}
    (ready : Ready lock new id (done ++ fl :: tail))
    (pristine : Pristine lock new id done { pass with right := none, left := none, added := false })
    (isRight : pass.right = some fl) (isLeft : pass.left = some fl)
    (otherType : new.flType ≠ (lock fl).flType) (startLt : (lock fl).start < new.start)
    (finishLt : new.finish < (lock fl).finish)
    (isAdded : pass.added = decide (new.flType = .unlock))
    (spare : Spare id fresh (done ++ fl :: tail) newFl)
    (spareSecond : Spare id fresh (done ++ fl :: tail) newFl2)
    (ne : ∀ first, newFl = some first → newFl2 ≠ some first) :
    Settled lock new id fresh (done ++ fl :: tail) post
      (pass.settle newFl newFl2 testExists (fl :: tail ++ post)).1
      (pass.settle newFl newFl2 testExists (fl :: tail ++ post)).2.1
      (pass.settle newFl newFl2 testExists (fl :: tail ++ post)).2.2 := by
  have isLock : pass.lock = lock := pristine.isLock
  have isRequest : pass.request = id := pristine.isRequest
  have isKept : pass.kept = done := pristine.isKept
  have isCurrent : pass.current = new := by rw [Pass.current, isLock, isRequest, ready.isNew]
  have isType : (pass.lock pass.request).flType = new.flType := congrArg Lock.flType isCurrent
  unfold Pass.settle
  cases isSecond : newFl2 with
  | none =>
    rw [if_pos ⟨by simp [isRight], by rw [isLeft, isRight], rfl⟩]
    exact ready.unchanged isLock isKept (.inl rfl)
  | some second =>
    rw [if_neg (by simp)]
    by_cases isUnlock : new.flType = .unlock
    · have wasAdded : pass.added = true := by rw [isAdded, decide_eq_true isUnlock]
      rw [if_pos wasAdded]
      exact ready.split pristine.below isRight isLeft isKept isRequest isCurrent otherType
        startLt finishLt (.inl ⟨isUnlock, rfl⟩) (fun other _ => congrFun isLock other)
        (fun other _ _ => congrFun isLock other)
        (fun other mem => absurd mem not_mem_nil)
        (spareSecond.isFresh second isSecond) (spareSecond.notMine second isSecond)
        (spareSecond.notId second isSecond) not_mem_nil
    have notAdded : ¬pass.added = true := by
      rw [isAdded, decide_eq_true_eq]
      exact isUnlock
    rw [if_neg notAdded, if_neg (fun same => isUnlock (isType.symm.trans same))]
    cases isFirst : newFl with
    | none => exact ready.unchanged isLock isKept (.inl rfl)
    | some first =>
      have firstNe : ∀ other, other ≠ first →
          update pass.lock first (pass.lock pass.request) other = lock other :=
        fun other notFirst => (update_of_ne notFirst _ _).trans
          (congrFun isLock other)
      have firstMine := spare.notMine first isFirst
      have firstFresh := spare.isFresh first isFirst
      have rightAfter : ({ pass with
          lock := update pass.lock first (pass.lock pass.request) } :
            Pass Owner).right = some fl := isRight
      refine ready.split pristine.below rightAfter isLeft isKept isRequest ?_ otherType
        startLt finishLt (.inr ⟨isUnlock, first, rfl, ?_⟩) ?_ ?_ ?_
        (spareSecond.isFresh second isSecond) (spareSecond.notMine second isSecond)
        (spareSecond.notId second isSecond) ?_
      · refine (update_of_ne ?_ _ _).trans isCurrent
        rw [isRequest]
        exact (spare.notId first isFirst).symm
      · exact (update_self _ _ _).trans isCurrent
      · intro other mem
        refine firstNe other ?_
        rintro rfl
        exact firstMine mem
      · intro other _ notFresh
        refine firstNe other ?_
        rintro rfl
        exact notFresh firstFresh
      · intro other mem
        rw [mem_singleton.mp mem]
        exact ⟨firstFresh, firstMine⟩
      · intro mem
        rw [mem_singleton] at mem
        rw [mem] at isSecond
        exact ne first isFirst isSecond

/-- A request without a conflict is written over the locks of its owner, or it fails and leaves
them as they are. -/
theorem Passed.settled {list : List ℕ}
    (passed : Passed lock new id mine post pass list) (ready : Ready lock new id mine)
    (spare : Spare id fresh mine newFl) (spareSecond : Spare id fresh mine newFl2)
    (ne : ∀ first, newFl = some first → newFl2 ≠ some first) (testExists : Bool) :
    Settled lock new id fresh mine post (pass.settle newFl newFl2 testExists list).1
      (pass.settle newFl newFl2 testExists list).2.1
      (pass.settle newFl newFl2 testExists list).2.2 := by
  cases passed with
  | clear done tail clean isMine isList passing beyond =>
    subst isMine isList
    have noRight : pass = { pass with right := none } := by rw [← passing.noRight]
    rw [noRight]
    refine passing.settled ready ?_ ?_ ?_ spare
    · intro fl mem
      exact beyond fl mem
    · intro fl never
      cases never
    · intro hasRight
      exact absurd rfl hasRight
  | cut done tail clean fl isMine isList passing isRight otherType startLe leFinish beyond
      isAdded =>
      subst isMine isList
      have sameRight : pass = { { pass with right := none } with right := some fl } := by
        rw [← isRight]
      rw [sameRight]
      refine passing.settled ready ?_ ?_ ?_ spare
      · intro other mem
        unfold EndsBeyond
        by_cases isFl : some fl = some other
        · rw [if_pos isFl, ← Option.some.inj isFl]
          exact ⟨fun same => otherType (passing.isType.symm.trans same), startLe, leFinish, beyond⟩
        rw [if_neg isFl]
        have inTail : other ∈ tail :=
          (mem_cons.mp mem).resolve_left fun same => isFl (congrArg some same.symm)
        have ordered := (pairwise_append.mp ready.tidy.ordered).2.1
        have before := ((pairwise_cons.mp ordered).1 other inTail).1
        have current : ({ pass with right := none } : Pass Owner).current = pass.current := rfl
        rw [current]
        exact ⟨by omega, fun _ => by omega⟩
      · intro other isOther
        rw [← Option.some.inj isOther]
        exact mem_cons_self
      · intro _ isUnlock
        exact isAdded isUnlock
  | split done tail fl isMine isList pristine isRight isLeft otherType startLt finishLt isAdded =>
    subst isMine isList
    exact ready.settledSplit pristine isRight isLeft otherType startLt finishLt isAdded spare
      spareSecond ne

end Settle

end StreakKernel.FileLocks
