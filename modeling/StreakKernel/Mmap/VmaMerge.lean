import Mathlib.Data.List.Basic
import StreakKernel.Lib.Word

/-!
# Merging memory areas

`vma_merge` and `vma_adjust` of `mm/mmap.c`, over the list of the areas of a process. In case 6 of
`mprotect` the area before the request absorbs two others in two passes. If only the last of the
three has an `anon_vma`, it is cloned in the second pass, when the first area is already gone.
-/

namespace StreakKernel.Mmap

open Option List Word

/-- `struct vm_area_struct`. Files, policies and `anon_vma`s are known by numbers. -/
structure Vma where
  start : ℕ
  stop : ℕ
  pgoff : ℕ
  flags : BitVec 32
  file : Option ℕ
  close : Bool
  anonVma : Option ℕ
  policy : ℕ
  truncateCount : ℕ
  deriving DecidableEq

/-- `VM_SPECIAL`: `VM_IO`, `VM_DONTEXPAND`, `VM_RESERVED` and `VM_PFNMAP`. -/
def vmSpecial : BitVec 32 := 0x000C4400#32

def vmCanNonlinear : BitVec 32 := 0x08000000#32

/-- The `anon_vma` of an area that gets pages of another one. It is cloned if there is none yet,
which may fail. -/
def Vma.importFrom (importer exporter : Vma) (fails : Bool) : Option Vma :=
  if exporter.anonVma.isSome ∧ importer.anonVma.isNone then
    if fails then none else some { importer with anonVma := exporter.anonVma }
  else some importer

/-- `vm_truncate_count` of an area that gets pages of its neighbour. -/
def Vma.rescan (importer vma next : Vma) : Vma :=
  if vma.file.isSome ∧ vma.truncateCount ≠ next.truncateCount then
    { importer with truncateCount := 0 }
  else importer

/-- The passes of `vma_adjust` in which `vma` absorbs the area behind it; `fails` tells where
`anon_vma_clone` fails. -/
def absorb (fails : ℕ → Bool) (vma : Vma) (start stop pgoff : ℕ) :
    ℕ → List Vma → Option (Bool × List Vma)
  | _, [] => none
  | pass, next :: rest =>
    match vma.importFrom next (fails pass) with
    | none => some (false, vma :: next :: rest)
    | some importer =>
      let grown :=
        { importer.rescan vma next with start := start, stop := next.stop, pgoff := pgoff }
      if next.stop < stop then absorb fails grown start next.stop pgoff (pass + 1) rest
      else some (true, grown :: rest)

/-- `vma_adjust` without an area to insert: whether it succeeds, and the areas from `vma` on. -/
def vmaAdjust (fails : ℕ → Bool) (vma : Vma) (tail : List Vma) (start stop pgoff : ℕ) :
    Option (Bool × List Vma) :=
  match tail with
  | [] => some (true, [{ vma with start := start, stop := stop, pgoff := pgoff }])
  | next :: rest =>
    if next.stop ≤ stop then absorb fails vma start stop pgoff 0 tail
    else if next.start < stop then
      -- case 5 of mprotect: the boundary goes up
      match vma.importFrom next (fails 0) with
      | none => some (false, vma :: tail)
      | some importer =>
        let adjust := (stop - next.start) / 4096
        some (true,
          { importer.rescan vma next with start := start, stop := stop, pgoff := pgoff } ::
          { next with
            start := add next.start (adjust * 4096)
            pgoff := add next.pgoff adjust } :: rest)
    else if stop < vma.stop then
      -- case 4 of mprotect: the boundary goes down
      match next.importFrom vma (fails 0) with
      | none => some (false, vma :: tail)
      | some importer =>
        let adjust := (vma.stop - stop) / 4096
        some (true,
          { vma with start := start, stop := stop, pgoff := pgoff } ::
          { importer.rescan vma next with
            start := sub next.start (adjust * 4096)
            pgoff := sub next.pgoff adjust } :: rest)
    else some (true, { vma with start := start, stop := stop, pgoff := pgoff } :: tail)

structure Request where
  addr : ℕ
  stop : ℕ
  flags : BitVec 32
  anonVma : Option ℕ
  file : Option ℕ
  pgoff : ℕ
  policy : ℕ

def isMergeableAnonVma (anonVma1 anonVma2 : Option ℕ) : Bool :=
  anonVma1.isNone || anonVma2.isNone || decide (anonVma1 = anonVma2)

namespace Request

variable (request : Request)

def pglen : ℕ := sub request.stop request.addr / 4096

def isMergeableVma (vma : Vma) : Bool :=
  decide ((vma.flags ^^^ request.flags) &&& ~~~vmCanNonlinear = 0#32) &&
    decide (vma.file = request.file) && !vma.close

/-- The request can be merged with `prev`, by `can_vma_merge_after`. -/
def joinsPrev (prev : Vma) : Bool :=
  decide (prev.stop = request.addr) && decide (prev.policy = request.policy) &&
    (request.isMergeableVma prev && isMergeableAnonVma request.anonVma prev.anonVma &&
      decide (add prev.pgoff (sub prev.stop prev.start / 4096) = request.pgoff))

/-- The request can be merged with `next`, by `can_vma_merge_before`. -/
def joinsNext (next : Vma) : Bool :=
  decide (request.stop = next.start) && decide (request.policy = next.policy) &&
    (request.isMergeableVma next && isMergeableAnonVma request.anonVma next.anonVma &&
      decide (next.pgoff = add request.pgoff request.pglen))

/-- The area behind the request. In cases 6, 7 and 8 the first one is the area itself. -/
def next (tail : List Vma) : Option Vma :=
  if tail.head?.any fun area => area.stop = request.stop then tail.tail.head? else tail.head?

/-- Where `prev` ends when it takes up the request, and perhaps the area behind it. -/
def prevStop (prev : Vma) (tail : List Vma) : ℕ :=
  match (request.next tail).filter fun next =>
      request.joinsNext next && isMergeableAnonVma prev.anonVma next.anonVma with
  | some next => next.stop
  | none => request.stop

/-- `vma_merge` between `front`, `prev` and `tail`: whether it returns an area, and all areas
afterwards. -/
def vmaMerge (fails : ℕ → Bool) (front : List Vma) (prev : Option Vma) (tail : List Vma) :
    Option (Bool × List Vma) :=
  if request.flags &&& vmSpecial ≠ 0#32 then some (false, front ++ (prev.toList ++ tail))
  else
    match prev.filter request.joinsPrev with
    | some prev =>
      (vmaAdjust fails prev tail prev.start (request.prevStop prev tail) prev.pgoff).map
        fun result => (result.1, front ++ result.2)
    | none =>
      match (request.next tail).filter request.joinsNext, tail with
      | some next, area :: rest =>
        match prev.filter fun prev => request.addr < prev.stop with
        | some prev =>
          (vmaAdjust fails prev tail prev.start request.addr prev.pgoff).map
            fun result => (result.1, front ++ result.2)
        | none =>
          (vmaAdjust fails area rest request.addr next.stop (sub next.pgoff request.pglen)).map
            fun result => (result.1, front ++ (prev.toList ++ result.2))
      | _, _ => some (false, front ++ (prev.toList ++ tail))

end Request

/-! ## Failures -/

structure Valid (areas : List Vma) : Prop where
  ordered : areas.Pairwise fun first second => first.stop ≤ second.start
  nonempty : ∀ vma ∈ areas, vma.start < vma.stop

/-- Two areas are absorbed, only the second has an `anon_vma`, and it cannot be cloned. -/
def Exposed (fails : ℕ → Bool) (vma : Vma) (stop : ℕ) (tail : List Vma) : Prop :=
  ∃ first second rest, tail = first :: second :: rest ∧ first.stop < stop ∧ fails 1 = true ∧
    vma.anonVma = none ∧ first.anonVma = none ∧ second.anonVma ≠ none

/-- The area before the request takes it up and is exposed then. -/
def Request.Exposed (request : Request) (fails : ℕ → Bool) (prev : Option Vma)
    (tail : List Vma) : Prop :=
  request.flags &&& vmSpecial = 0#32 ∧ ∃ vma ∈ prev, request.joinsPrev vma = true ∧
    Mmap.Exposed fails vma (request.prevStop vma tail) tail

section Atomic

variable {fails : ℕ → Bool} {vma first second : Vma} {front tail rest areas : List Vma}
  {start stop pgoff : ℕ}

theorem Valid.of_append (valid : Valid (front ++ tail)) : Valid tail :=
  ⟨(pairwise_append.mp valid.ordered).2.1,
    fun vma mem => valid.nonempty vma (mem_append_right front mem)⟩

theorem Valid.stop_lt (valid : Valid (first :: second :: rest)) : first.stop < second.stop := by
  have nonempty := valid.nonempty second (mem_cons_of_mem _ mem_cons_self)
  have ordered := rel_of_pairwise_cons valid.ordered mem_cons_self
  omega

theorem anonVma_of_importFrom {importer exporter grown : Vma} {fails : Bool}
    (imported : importer.importFrom exporter fails = some grown) (isNone : grown.anonVma = none) :
    importer.anonVma = none ∧ exporter.anonVma = none := by
  unfold Vma.importFrom at imported
  split_ifs at imported with needed
  · obtain rfl := some.inj imported
    exact absurd needed.1 (by rw [isNone]; decide)
  obtain rfl := some.inj imported
  refine ⟨isNone, ?_⟩
  by_contra isSome
  exact needed ⟨isSome_iff_ne_none.mpr isSome, by rw [isNone]; rfl⟩

theorem rescan_anonVma (importer vma next : Vma) :
    (importer.rescan vma next).anonVma = importer.anonVma := by
  unfold Vma.rescan
  split_ifs <;> rfl

section

variable (valid : Valid tail) (unexposed : ¬Exposed fails vma stop tail)
include valid unexposed

theorem absorb_atomic (failed : absorb fails vma start stop pgoff 0 tail = some (false, areas)) :
    areas = vma :: tail := by
  unfold absorb at failed
  split at failed
  · exact absurd failed (by simp)
  next first rest =>
  split at failed
  · exact (Prod.mk.inj (some.inj failed)).2.symm
  next importer imported =>
  dsimp only at failed
  split_ifs at failed with more
  · unfold absorb at failed
    split at failed
    · exact absurd failed (by simp)
    next second rest =>
    split at failed
    · next notImported =>
      unfold Vma.importFrom at notImported
      split_ifs at notImported with needed hasFailed
      rw [rescan_anonVma, isNone_iff_eq_none] at needed
      rcases anonVma_of_importFrom imported needed.2 with ⟨isNone, firstNone⟩
      exact absurd ⟨first, second, rest, rfl, more, hasFailed, isNone, firstNone,
        isSome_iff_ne_none.mp needed.1⟩ unexposed
    · dsimp only at failed
      rw [if_neg (Nat.lt_asymm valid.stop_lt)] at failed
      exact absurd failed (by simp)
  · exact absurd failed (by simp)

theorem vmaAdjust_atomic
    (failed : vmaAdjust fails vma tail start stop pgoff = some (false, areas)) :
    areas = vma :: tail := by
  unfold vmaAdjust at failed
  split at failed
  · exact absurd failed (by simp)
  next next rest =>
  split_ifs at failed with absorbs goesUp goesDown
  · exact absorb_atomic valid unexposed failed
  · split at failed
    · exact (Prod.mk.inj (some.inj failed)).2.symm
    · exact absurd failed (by simp)
  · split at failed
    · exact (Prod.mk.inj (some.inj failed)).2.symm
    · exact absurd failed (by simp)
  · exact absurd failed (by simp)

end

theorem Exposed.vmaAdjust (exposed : Exposed fails vma stop tail) (start pgoff : ℕ) :
    ∃ areas, Mmap.vmaAdjust fails vma tail start stop pgoff = some (false, areas) ∧
      areas.length < (vma :: tail).length := by
  rcases exposed with ⟨first, second, rest, rfl, more, hasFailed, isNone, firstNone, secondSome⟩
  have notCloned : ∀ grown : Vma, grown.anonVma = none →
      grown.importFrom second (fails 1) = none := by
    intro grown grownNone
    simp [Vma.importFrom, grownNone, hasFailed, isSome_iff_ne_none.mpr secondSome]
  have untouched : vma.importFrom first (fails 0) = some vma := by
    simp [Vma.importFrom, firstNone]
  let grown := { vma.rescan vma first with start := start, stop := first.stop, pgoff := pgoff }
  have firstPass : absorb fails vma start stop pgoff 0 (first :: second :: rest) =
      absorb fails grown start first.stop pgoff 1 (second :: rest) := by
    rw [absorb, untouched]
    exact if_pos more
  have secondPass : absorb fails grown start first.stop pgoff 1 (second :: rest) =
      some (false, grown :: second :: rest) := by
    rw [absorb, notCloned grown ((rescan_anonVma vma vma first).trans isNone)]
  refine ⟨grown :: second :: rest, ?_, by simp⟩
  exact (if_pos (Nat.le_of_lt more)).trans (firstPass.trans secondPass)

theorem place_vmaAdjust (place : List Vma → List Vma) (valid : Valid tail)
    (unexposed : ¬Exposed fails vma stop tail)
    (failed : (vmaAdjust fails vma tail start stop pgoff).map
      (fun result => (result.1, place result.2)) = some (false, areas)) :
    areas = place (vma :: tail) := by
  rcases map_eq_some_iff.mp failed with ⟨⟨_, result⟩, adjusted, isResult⟩
  obtain ⟨rfl, rfl⟩ := Prod.mk.inj isResult
  rw [vmaAdjust_atomic valid unexposed adjusted]

theorem stop_le_of_next {request : Request} {next area : Vma} (valid : Valid (area :: rest))
    (isNext : request.next (area :: rest) = some next) :
    ∀ first ∈ rest.head?, next.stop ≤ first.stop := by
  intro first isFirst
  unfold Request.next at isNext
  split_ifs at isNext
  · obtain rfl := some.inj (isFirst.symm.trans isNext)
    exact le_rfl
  obtain rfl := some.inj isNext
  cases rest with
  | nil => exact absurd isFirst (by simp)
  | cons second rest =>
    obtain rfl := some.inj isFirst
    exact le_of_lt valid.stop_lt

end Atomic

/-- A request that is not merged leaves all areas as they are, just when it does not expose the
area before it. -/
theorem vmaMerge_atomic_iff (request : Request) (fails : ℕ → Bool) (front : List Vma)
    (prev : Option Vma) (tail : List Vma) (valid : Valid (front ++ (prev.toList ++ tail))) :
    (∀ areas, request.vmaMerge fails front prev tail = some (false, areas) →
      areas = front ++ (prev.toList ++ tail)) ↔ ¬request.Exposed fails prev tail := by
  have tailValid := valid.of_append.of_append
  constructor
  · rintro atomic ⟨notSpecial, vma, rfl, joins, exposed⟩
    rcases exposed.vmaAdjust vma.start vma.pgoff with ⟨areas, failed, shorter⟩
    have isMerge : request.vmaMerge fails front (some vma) tail = some (false, front ++ areas) := by
      have isPrev : (some vma).filter request.joinsPrev = some vma :=
        filter_eq_some_iff.mpr ⟨rfl, joins⟩
      simp only [Request.vmaMerge, notSpecial, ne_eq, not_true, if_false, isPrev, failed, map_some]
    have same := List.append_cancel_left (atomic _ isMerge)
    rw [same] at shorter
    exact absurd shorter (by simp)
  intro unexposed areas failed
  unfold Request.vmaMerge at failed
  split_ifs at failed with special
  · exact (Prod.mk.inj (some.inj failed)).2.symm
  split at failed
  · next vma isPrev =>
    rcases filter_eq_some_iff.mp isPrev with ⟨rfl, joins⟩
    exact place_vmaAdjust (front ++ ·) tailValid
      (fun exposed => unexposed ⟨not_not.mp special, vma, rfl, joins, exposed⟩) failed
  split at failed
  · next _ next area rest isNext =>
    split at failed
    · next vma isPrev =>
      rcases filter_eq_some_iff.mp isPrev with ⟨rfl, overlaps⟩
      refine place_vmaAdjust (front ++ ·) tailValid ?_ failed
      -- the boundary goes down, so that nothing is absorbed
      rintro ⟨first, second, rest, isTail, longer, _⟩
      have pairValid := valid.of_append
      have stop := @Valid.stop_lt vma area _ pairValid
      obtain rfl := (List.cons.inj isTail).1
      have := of_decide_eq_true overlaps
      omega
    have restValid : Valid rest := @Valid.of_append [area] rest tailValid
    have short := stop_le_of_next tailValid (filter_eq_some_iff.mp isNext).1
    refine place_vmaAdjust (fun areas => front ++ (prev.toList ++ areas)) restValid ?_ failed
    rintro ⟨first, second, others, isRest, longer, _⟩
    exact absurd longer (Nat.not_lt.mpr (short first (by rw [isRest]; rfl)))
  · exact (Prod.mk.inj (some.inj failed)).2.symm

def page (index : ℕ) (flags : BitVec 32) (anonVma : Option ℕ) : Vma :=
  ⟨index * 4096, (index + 1) * 4096, index, flags, none, false, anonVma, 0, 0⟩

/-- A request for the second page, which is to get the flags of its neighbours. -/
def mprotect (anonVma : Option ℕ) : Request := ⟨8192, 12288, 3#32, anonVma, none, 2, 0⟩

/-- All three pages are merged, and the clone of the first pass fails. -/
theorem vmaMerge_atomic_first :
    let areas := [page 1 3#32 none, page 2 1#32 (some 7), page 3 3#32 (some 7)]
    (mprotect (some 7)).vmaMerge (fun _ => true) [] (areas.head?) areas.tail = some (false, areas) ∧
      ∀ after, (mprotect (some 7)).vmaMerge (fun _ => true) [] (areas.head?) areas.tail =
        some (false, after) → after = [] ++ (areas.head?.toList ++ areas.tail) := by
  refine ⟨by decide +kernel, (vmaMerge_atomic_iff (mprotect (some 7)) (fun _ => true) [] _ _
    ⟨by decide +kernel, by decide +kernel⟩).mpr ?_⟩
  rintro ⟨_, vma, _, _, first, second, rest, isTail, _, _, _, firstNone, _⟩
  obtain rfl := (List.cons.inj isTail).1
  exact absurd firstNone (by decide)

/-- Only the third page has an `anon_vma`, and it cannot be cloned: the request is not merged, and
the second page is gone. -/
theorem area_lost : (mprotect none).vmaMerge (fun _ => true) [] (some (page 1 3#32 none))
        [page 2 1#32 none, page 3 3#32 (some 7)] =
      some (false, [{ page 1 3#32 none with stop := 12288 }, page 3 3#32 (some 7)]) := by
  decide +kernel

end StreakKernel.Mmap
