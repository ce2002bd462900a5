import Mathlib.Data.List.Find
import StreakKernel.FileLocks.Settle
import StreakKernel.Lib.Contiguous
import StreakKernel.Lib.Run

/-!
# Record locks as byte maps

For every inode and owner, the locks stand for a function from bytes to the type that the
owner holds. A request that succeeds overwrites it on its range.
-/

namespace StreakKernel.FileLocks

open Option List Function

universe u v

variable {Owner : Type u} {Inode : Type v}

/-! ## The type held at a byte -/

def typeAt (lock : ℕ → Lock Owner) (ids : List ℕ) (byte : ℤ) : Option LockType :=
  (ids.find? fun fl => decide ((lock fl).start ≤ byte ∧ byte ≤ (lock fl).finish)).map fun fl =>
    (lock fl).flType

section TypeAt

variable {lock after : ℕ → Lock Owner} {ids : List ℕ} {byte : ℤ} {flType : LockType}

theorem Tidy.typeAt_eq_some (tidy : Tidy lock ids) :
    typeAt lock ids byte = some flType ↔ Holds lock ids byte flType := by
  unfold typeAt
  have ofFound : ∀ fl, (ids.find? fun fl =>
      decide ((lock fl).start ≤ byte ∧ byte ≤ (lock fl).finish)) = some fl →
        Holds lock ids byte (lock fl).flType := by
    intro fl found
    have covers : (lock fl).start ≤ byte ∧ byte ≤ (lock fl).finish := by
      simpa using find?_some found
    exact ⟨fl, mem_of_find?_eq_some found, covers, rfl⟩
  constructor
  · intro isType
    rcases map_eq_some_iff.mp isType with ⟨fl, found, rfl⟩
    exact ofFound fl found
  intro holds
  rcases holds with ⟨fl, mem, covers, isType⟩
  have isSome : (ids.find? fun fl =>
      decide ((lock fl).start ≤ byte ∧ byte ≤ (lock fl).finish)).isSome = true :=
    find?_isSome.mpr ⟨fl, mem, decide_eq_true covers⟩
  rcases isSome_iff_exists.mp isSome with ⟨other, found⟩
  rw [found, map_some, tidy.type_eq (ofFound other found) ⟨fl, mem, covers, isType⟩]

theorem typeAt_congr (same : ∀ fl ∈ ids, after fl = lock fl) :
    typeAt after ids byte = typeAt lock ids byte := by
  unfold typeAt
  have sameFound : (ids.find? fun fl =>
      decide ((after fl).start ≤ byte ∧ byte ≤ (after fl).finish)) = ids.find? fun fl =>
        decide ((lock fl).start ≤ byte ∧ byte ≤ (lock fl).finish) := by
    refine find?_congr fun fl mem => ?_
    rw [same fl mem]
  rw [sameFound]
  cases found : ids.find? fun fl =>
      decide ((lock fl).start ≤ byte ∧ byte ≤ (lock fl).finish) with
  | none => rfl
  | some fl => rw [map_some, map_some, same fl (mem_of_find?_eq_some found)]

end TypeAt

theorem State.enter_lock_of_lt {state : State Owner Inode} {request : Request Owner} {fl : ℕ}
    (isUsed : fl < state.used) : (state.enter request).lock fl = state.lock fl :=
  update_of_ne isUsed.ne _ _

variable [DecidableEq Owner]

/-- `IS_POSIX` and `posix_same_owner`. -/
def ownedBy (lock : ℕ → Lock Owner) (owner : Owner) (fl : ℕ) : Bool :=
  (lock fl).posix && decide (owner = (lock fl).owner)

def locksOf (lock : ℕ → Lock Owner) (list : List ℕ) (owner : Owner) : List ℕ :=
  list.filter (ownedBy lock owner)

/-- The locks of an owner stand together, sorted, disjoint and joined where they can be, and no
one else holds what it has locked for writing. -/
structure Orderly (lock : ℕ → Lock Owner) (list : List ℕ) : Prop where
  contiguous : ∀ owner, Contiguous (ownedBy lock owner) list
  tidy : ∀ owner, Tidy lock (locksOf lock list owner)
  exclusive : ∀ owner other byte, owner ≠ other →
    typeAt lock (locksOf lock list owner) byte = some .writeLock →
    typeAt lock (locksOf lock list other) byte = none

section Lists

variable {lock after : ℕ → Lock Owner} {list : List ℕ} {owner : Owner} {fl : ℕ}

theorem ownedBy_iff :
    ownedBy lock owner fl = true ↔ (lock fl).posix = true ∧ owner = (lock fl).owner := by
  simp [ownedBy]

theorem mem_locksOf : fl ∈ locksOf lock list owner ↔
      fl ∈ list ∧ (lock fl).posix = true ∧ owner = (lock fl).owner := by
  rw [locksOf, mem_filter, ownedBy_iff]

theorem ownedBy_congr (same : after fl = lock fl) :
    ownedBy after owner fl = ownedBy lock owner fl := by
  unfold ownedBy
  rw [same]

theorem locksOf_congr (same : ∀ fl ∈ list, after fl = lock fl) :
    locksOf after list owner = locksOf lock list owner :=
  filter_congr fun fl mem => ownedBy_congr (same fl mem)

theorem typeAt_locksOf_congr {byte : ℤ} (same : ∀ fl ∈ list, after fl = lock fl) :
    typeAt after (locksOf after list owner) byte = typeAt lock (locksOf lock list owner) byte := by
  rw [locksOf_congr same]
  exact typeAt_congr fun fl mem => same fl (mem_locksOf.mp mem).1

theorem Orderly.congr (orderly : Orderly lock list) (same : ∀ fl ∈ list, after fl = lock fl) :
    Orderly after list := by
  refine ⟨?_, ?_, ?_⟩
  · intro owner
    exact (orderly.contiguous owner).congr fun fl mem => ownedBy_congr (same fl mem)
  · intro owner
    rw [locksOf_congr same]
    exact (orderly.tidy owner).congr fun fl mem => same fl (mem_locksOf.mp mem).1
  · intro owner other byte ne
    rw [typeAt_locksOf_congr same, typeAt_locksOf_congr same]
    exact orderly.exclusive owner other byte ne

theorem orderly_of_forall_not (none : ∀ fl ∈ list, (lock fl).posix = false) :
    Orderly lock list := by
  have notOwned : ∀ owner, ∀ fl ∈ list, ownedBy lock owner fl = false := by
    intro owner fl mem
    simp [ownedBy, none fl mem]
  have empty : ∀ owner, locksOf lock list owner = [] := by
    intro owner
    exact filter_eq_nil_iff.mpr fun fl mem => by simp [notOwned owner fl mem]
  refine ⟨fun owner => contiguous_of_forall_not (notOwned owner), ?_, ?_⟩
  · intro owner
    rw [empty owner]
    exact ⟨fun fl never => absurd never not_mem_nil, List.Pairwise.nil⟩
  · intro owner other byte _ _
    rw [empty other]
    rfl

end Lists

/-! ## The byte maps -/

def ByteMaps (Owner : Type u) (Inode : Type v) := Inode → Owner → ℤ → Option LockType

def ByteMaps.overwrite [DecidableEq Inode] (maps : ByteMaps Owner Inode) (inode : Inode)
    (request : Request Owner) : ByteMaps Owner Inode := fun other owner byte =>
  if other = inode ∧ owner = request.owner ∧ request.start ≤ byte ∧ byte ≤ request.finish then
    if request.flType = .unlock then none else some request.flType
  else maps other owner byte

namespace State

def held (state : State Owner Inode) : ByteMaps Owner Inode := fun inode owner byte =>
  typeAt state.lock (locksOf state.lock (state.flock inode) owner) byte

structure Unlocked (state : State Owner Inode) : Prop where
  bounded : ∀ inode, ∀ fl ∈ state.flock inode, fl < state.used
  other : ∀ inode, ∀ fl ∈ state.flock inode, (state.lock fl).posix = false

/-- The lists are orderly, a record lock stands in one of them, and behind a record lock stand
record locks only. -/
structure Sound (state : State Owner Inode) : Prop where
  bounded : ∀ inode, ∀ fl ∈ state.flock inode, fl < state.used
  unique : ∀ inode other, ∀ fl ∈ state.flock inode, fl ∈ state.flock other →
    (state.lock fl).posix = true → inode = other
  behind : ∀ inode, (state.flock inode).Pairwise fun first second =>
    (state.lock first).posix = true → (state.lock second).posix = true
  orderly : ∀ inode, Orderly state.lock (state.flock inode)

variable {state after : State Owner Inode} {inode : Inode} {request : Request Owner}

theorem Unlocked.sound (unlocked : state.Unlocked) : state.Sound := by
  refine ⟨unlocked.bounded, ?_, ?_, fun inode => orderly_of_forall_not (unlocked.other inode)⟩
  · intro inode _ fl mem _ isPosix
    rw [unlocked.other inode fl mem] at isPosix
    cases isPosix
  intro inode
  refine List.Pairwise.imp_of_mem ?_ (pairwise_of_forall (R := fun _ _ => True) (by simp))
  intro first second firstMem _ _ isPosix
  rw [unlocked.other inode first firstMem] at isPosix
  cases isPosix

theorem Sound.congr (sound : state.Sound) (sameList : after.flock = state.flock)
    (same : ∀ fl < state.used, after.lock fl = state.lock fl) (used : state.used ≤ after.used) :
    after.Sound ∧ after.held = state.held := by
  have sameMember : ∀ inode, ∀ fl ∈ state.flock inode, after.lock fl = state.lock fl :=
    fun inode fl mem => same fl (sound.bounded inode fl mem)
  refine ⟨⟨?_, ?_, ?_, ?_⟩, ?_⟩
  · intro inode fl mem
    rw [sameList] at mem
    exact (sound.bounded inode fl mem).trans_le used
  · intro inode other fl mem otherMember isPosix
    rw [sameList] at mem otherMember
    rw [sameMember inode fl mem] at isPosix
    exact sound.unique inode other fl mem otherMember isPosix
  · intro inode
    rw [sameList]
    refine (sound.behind inode).imp_of_mem ?_
    intro first second firstMem secondMem behind
    rw [sameMember inode first firstMem, sameMember inode second secondMem]
    exact behind
  · intro inode
    rw [sameList]
    exact (sound.orderly inode).congr (sameMember inode)
  · funext inode owner byte
    unfold held
    rw [sameList]
    exact typeAt_locksOf_congr (sameMember inode)

theorem Sound.enter (sound : state.Sound) (blocked : List (ℕ × ℕ)) :
    ({ state.enter request with blocked := blocked } : State Owner Inode).Sound ∧
      ({ state.enter request with blocked := blocked } : State Owner Inode).held = state.held :=
  sound.congr rfl (fun _ isUsed => enter_lock_of_lt isUsed) (Nat.le_add_right _ _)

/-! ## One request -/

/-- The locks of the owner in the list of the inode, the locks in front of them and those behind
them. -/
structure Divided (state : State Owner Inode) (inode : Inode) (owner : Owner)
    (front mine post : List ℕ) : Prop where
  isList : state.flock inode = front ++ (mine ++ post)
  isMine : locksOf state.lock (state.flock inode) owner = mine
  inFront : ∀ fl ∈ front, ownedBy state.lock owner fl = false
  inPost : ∀ fl ∈ post, (state.lock fl).posix = true ∧ owner ≠ (state.lock fl).owner
  atEnd : mine = [] → post = []

theorem Sound.divided (sound : state.Sound) (inode : Inode) (owner : Owner) :
    ∃ post, Divided state inode owner (state.others inode owner)
        (locksOf state.lock (state.flock inode) owner) post ∧
      state.fromOwner inode owner = locksOf state.lock (state.flock inode) owner ++ post := by
  rcases ((sound.orderly inode).contiguous owner).split with ⟨post, isFrom, inPost, atEnd⟩
  have condition : (fun fl => !(state.lock fl).posix || decide (owner ≠ (state.lock fl).owner)) =
      fun fl => !ownedBy state.lock owner fl := by
    funext fl
    simp [ownedBy]
  have fromOwner : state.fromOwner inode owner =
      locksOf state.lock (state.flock inode) owner ++ post := by
    rw [State.fromOwner, condition, isFrom, locksOf]
  have isList : state.flock inode = state.others inode owner ++
      (locksOf state.lock (state.flock inode) owner ++ post) := by
    rw [← fromOwner]
    exact takeWhile_append_dropWhile.symm
  refine ⟨post, ⟨isList, rfl, ?_, ?_, atEnd⟩, fromOwner⟩
  · intro fl mem
    rw [State.others, condition] at mem
    simpa using mem_takeWhile_imp mem
  intro fl mem
  cases isMine : locksOf state.lock (state.flock inode) owner with
  | nil =>
    rw [atEnd isMine] at mem
    cases mem
  | cons first rest =>
    have firstMem : first ∈ locksOf state.lock (state.flock inode) owner := isMine ▸ mem_cons_self
    have behind := sound.behind inode
    rw [isList] at behind
    have inBlock := (pairwise_append.mp (pairwise_append.mp behind).2.1).2.2
    have isPosix := inBlock first firstMem fl mem (mem_locksOf.mp firstMem).2.1
    refine ⟨isPosix, fun isOwner => ?_⟩
    have notOwned := inPost fl mem
    rw [ownedBy_iff.mpr ⟨isPosix, isOwner⟩] at notOwned
    cases notOwned

theorem Sound.ready (sound : state.Sound) (inode : Inode) (request : Request Owner) :
    Ready (state.enter request).lock request.lock state.used
      (locksOf state.lock (state.flock inode) request.owner) := by
  have isUsed : ∀ fl ∈ locksOf state.lock (state.flock inode) request.owner, fl < state.used :=
    fun fl mem => sound.bounded inode fl (mem_locksOf.mp mem).1
  refine ⟨?_, update_self _ _ _, fun mem => (isUsed _ mem).false,
    request.start_nonneg, request.start_le, request.finish_le, ?_, ?_⟩
  · exact ((sound.orderly inode).tidy request.owner).congr fun fl mem =>
      enter_lock_of_lt (isUsed fl mem)
  · intro fl mem
    rw [enter_lock_of_lt (isUsed fl mem)]
    exact (mem_locksOf.mp mem).2.2.symm
  · intro fl mem
    rw [enter_lock_of_lt (isUsed fl mem)]
    exact (mem_locksOf.mp mem).2.1

theorem Divided.inBack {front mine post : List ℕ}
    (divided : Divided state inode request.owner front mine post) :
    ∀ fl ∈ post, ownedBy state.lock request.owner fl = false := by
  intro fl mem
  rw [← Bool.not_eq_true, ownedBy_iff]
  exact fun isOwned => (divided.inPost fl mem).2 isOwned.2

theorem Sound.shared (sound : state.Sound) (noConflict : state.conflict inode request = none)
    (isLock : request.flType ≠ .unlock) {byte : ℤ} (startLe : request.start ≤ byte)
    (leFinish : byte ≤ request.finish) {other : Owner} (ne : request.owner ≠ other)
    {flType : LockType} (holds : state.held inode other byte = some flType) :
    flType ≠ .writeLock ∧ request.flType ≠ .writeLock := by
  rcases ((sound.orderly inode).tidy other).typeAt_eq_some.mp holds with
    ⟨fl, mem, covers, isType⟩
  rcases mem_locksOf.mp mem with ⟨inList, isPosix, isOwner⟩
  unfold conflict at noConflict
  rw [if_neg isLock] at noConflict
  have noneFound := find?_eq_none.mp noConflict fl inList
  rw [decide_eq_true_eq] at noneFound
  have overlaps : locksOverlap request.lock (state.lock fl) :=
    ⟨covers.1.trans leFinish, startLe.trans covers.2⟩
  have noClash : ¬locksConflict request.lock (state.lock fl) := fun clash =>
    noneFound ⟨⟨isPosix, fun sameOwner => ne (sameOwner.trans isOwner.symm)⟩, overlaps, clash⟩
  rw [← isType]
  exact ⟨fun isWrite => noClash (.inl isWrite), fun isWrite => noClash (.inr isWrite)⟩

variable [DecidableEq Inode]

structure Applied (state after : State Owner Inode) (inode : Inode) (request : Request Owner)
    (front mine post owned : List ℕ) (result : Result) : Prop where
  isList : after.flock = Function.update state.flock inode (front ++ (owned ++ post))
  used : state.used ≤ after.used
  same : ∀ fl < state.used, fl ∉ mine → after.lock fl = state.lock fl
  isOwned : ∀ fl ∈ owned, fl ∈ mine ∨ state.used ≤ fl ∧ fl < after.used
  owner : ∀ fl ∈ owned, (after.lock fl).posix = true ∧ request.owner = (after.lock fl).owner
  isResult : result = .ok ∧ Overwritten state.lock after.lock request.lock mine owned ∨
    result ≠ .ok ∧ owned = mine ∧ ∀ fl < state.used, after.lock fl = state.lock fl

theorem spare_ite {condition : Bool} {id number : ℕ} {fresh mine : List ℕ}
    (isFresh : number ∈ fresh) (isId : id < number) (mineUsed : ∀ fl ∈ mine, fl < id) :
    Spare id fresh mine (if condition then some number else none) := by
  have isNumber : ∀ fl, (if condition then some number else none) = some fl → fl = number := by
    intro fl isSome
    split_ifs at isSome
    exact (some.inj isSome).symm
  refine ⟨?_, ?_, ?_⟩
  · intro fl isSome
    rw [isNumber fl isSome]
    exact isFresh
  · intro fl isSome mem
    rw [isNumber fl isSome] at mem
    have := mineUsed number mem
    omega
  · intro fl isSome
    rw [isNumber fl isSome]
    omega

omit [DecidableEq Inode] in
theorem Sound.passed (sound : state.Sound) (request : Request Owner) {post : List ℕ}
    (divided : Divided state inode request.owner (state.others inode request.owner)
      (locksOf state.lock (state.flock inode) request.owner) post)
    (fromOwner : state.fromOwner inode request.owner =
      locksOf state.lock (state.flock inode) request.owner ++ post) :
    Passed (state.enter request).lock request.lock state.used
      (locksOf state.lock (state.flock inode) request.owner) post
      (Pass.locksOfOwner ⟨(state.enter request).lock, (state.enter request).blocked, state.used,
        false, none, none, []⟩ (state.fromOwner inode request.owner)).1
      (Pass.locksOfOwner ⟨(state.enter request).lock, (state.enter request).blocked, state.used,
        false, none, none, []⟩ (state.fromOwner inode request.owner)).2 := by
  have postUsed : ∀ fl ∈ post, fl < state.used := by
    intro fl mem
    refine sound.bounded inode fl ?_
    rw [divided.isList]
    exact mem_append_right _ (mem_append_right _ mem)
  rw [fromOwner]
  refine @locksOfOwner_spec _ _ _ _ [] _ _ _ post (sound.ready inode request) ?_ ?_ (.inl ?_)
  · intro fl mem
    refine ⟨fun isMine => ?_, (postUsed fl mem).ne⟩
    exact (divided.inPost fl mem).2 (mem_locksOf.mp isMine).2.2
  · intro fl isHead
    have mem := mem_of_mem_head? isHead
    rw [enter_lock_of_lt (postUsed fl mem)]
    exact (divided.inPost fl mem).2.symm
  · exact ⟨rfl, rfl, rfl, rfl, rfl, rfl, fun _ never => absurd never not_mem_nil⟩

theorem Sound.applied (sound : state.Sound) (inode : Inode) (request : Request Owner) :
    ∃ post owned, Divided state inode request.owner (state.others inode request.owner)
        (locksOf state.lock (state.flock inode) request.owner) post ∧
      Applied state (state.apply inode request).1 inode request (state.others inode request.owner)
        (locksOf state.lock (state.flock inode) request.owner) post owned
        (state.apply inode request).2 := by
  rcases sound.divided inode request.owner with ⟨post, divided, fromOwner⟩
  have ready := sound.ready inode request
  have mineUsed : ∀ fl ∈ locksOf state.lock (state.flock inode) request.owner, fl < state.used :=
    fun fl mem => sound.bounded inode fl (mem_locksOf.mp mem).1
  have passed := sound.passed request divided fromOwner
  have spare : Spare state.used [state.used + 1, state.used + 2]
      (locksOf state.lock (state.flock inode) request.owner)
      (if wantsLocks request && request.allocates then some (state.used + 1) else none) :=
    spare_ite mem_cons_self (by omega) mineUsed
  have spareSecond : Spare state.used [state.used + 1, state.used + 2]
      (locksOf state.lock (state.flock inode) request.owner)
      (if wantsLocks request && request.allocatesSecond then some (state.used + 2) else none) :=
    spare_ite (mem_cons_of_mem _ mem_cons_self) (by omega) mineUsed
  have settled := passed.settled ready spare spareSecond (by
    intro first isFirst isSecond
    split_ifs at isFirst isSecond
    simp only [some.injEq] at isFirst isSecond
    omega) request.testExists
  rcases settled with ⟨same, owned, isOwned, inMine, isOwner, isResult⟩
  refine ⟨post, owned, divided, ?_⟩
  have sameUsed : ∀ fl < state.used, fl ∉ locksOf state.lock (state.flock inode) request.owner →
      (state.apply inode request).1.lock fl = state.lock fl := by
    intro fl isUsed notMine
    refine (same fl notMine isUsed.ne ?_).trans (enter_lock_of_lt isUsed)
    simp only [mem_cons, not_mem_nil, or_false]
    omega
  refine ⟨?_, Nat.le_add_right _ _, sameUsed, ?_, ?_, ?_⟩
  · exact congrArg (fun list => update state.flock inode
      (state.others inode request.owner ++ list)) isOwned
  · intro fl mem
    refine (inMine fl mem).imp_right fun isFresh => ?_
    simp only [mem_cons, not_mem_nil, or_false] at isFresh
    have used : (state.apply inode request).1.used = state.used + 3 := rfl
    omega
  · intro fl mem
    exact ⟨(isOwner fl mem).2, (isOwner fl mem).1.symm⟩
  · rcases isResult with ⟨isOk, overwritten⟩ | ⟨fails, isMine, isLock⟩
    · refine .inl ⟨isOk, overwritten.tidy, overwritten.inside, ?_⟩
      intro byte flType outside
      refine (overwritten.outside byte flType outside).trans ?_
      exact holds_congr fun fl mem => enter_lock_of_lt (mineUsed fl mem)
    refine .inr ⟨?_, isMine, ?_⟩
    · intro isOk
      rcases fails with isError | isError
      all_goals exact absurd (isOk.symm.trans isError) (by decide)
    · intro fl isUsed
      exact (congrFun isLock fl).trans (enter_lock_of_lt isUsed)

section Applied

variable {front mine post owned : List ℕ} {result : Result}
  (applied : Applied state after inode request front mine post owned result)
  (sound : state.Sound) (divided : Divided state inode request.owner front mine post)
include applied sound divided

theorem Applied.sameOutside {other : Inode} {fl : ℕ} (mem : fl ∈ state.flock other)
    (outside : other = inode → ownedBy state.lock request.owner fl = false) :
    after.lock fl = state.lock fl := by
  refine applied.same fl (sound.bounded other fl mem) fun isMine => ?_
  rw [← divided.isMine] at isMine
  rcases mem_locksOf.mp isMine with ⟨inList, isPosix, isOwner⟩
  have notOwned := outside (sound.unique other inode fl mem inList isPosix)
  rw [ownedBy_iff.mpr ⟨isPosix, isOwner⟩] at notOwned
  cases notOwned

theorem Applied.sameFront : ∀ fl ∈ front, after.lock fl = state.lock fl := by
  intro fl mem
  have inList : fl ∈ state.flock inode := by
    rw [divided.isList]
    exact mem_append_left _ mem
  exact applied.sameOutside sound divided inList fun _ => divided.inFront fl mem

theorem Applied.samePost : ∀ fl ∈ post, after.lock fl = state.lock fl := by
  intro fl mem
  have inList : fl ∈ state.flock inode := by
    rw [divided.isList]
    exact mem_append_right _ (mem_append_right _ mem)
  exact applied.sameOutside sound divided inList fun _ => divided.inBack fl mem

theorem Applied.own : locksOf after.lock (front ++ (owned ++ post)) request.owner = owned ∧
      Contiguous (ownedBy after.lock request.owner) (front ++ (owned ++ post)) := by
  refine contiguous_append ?_ ?_ ?_
  · intro fl mem
    rw [ownedBy_congr (applied.sameFront sound divided fl mem)]
    exact divided.inFront fl mem
  · intro fl mem
    exact ownedBy_iff.mpr (applied.owner fl mem)
  · intro fl mem
    rw [ownedBy_congr (applied.samePost sound divided fl mem)]
    exact divided.inBack fl mem

theorem Applied.foreign {other : Owner} (ne : request.owner ≠ other) :
    locksOf after.lock (front ++ (owned ++ post)) other =
        locksOf state.lock (state.flock inode) other ∧
      Contiguous (ownedBy after.lock other) (front ++ (owned ++ post)) := by
  have contiguous := (sound.orderly inode).contiguous other
  rw [divided.isList] at contiguous
  have replaced := @Contiguous.replace _ _ (ownedBy after.lock other) _ _ owned _ contiguous
    (fun fl mem => ownedBy_congr (applied.sameFront sound divided fl mem))
    (fun fl mem => ownedBy_congr (applied.samePost sound divided fl mem)) ?_ ?_ divided.atEnd
  · rw [← divided.isList] at replaced
    exact replaced
  · intro fl mem
    rw [← divided.isMine] at mem
    rw [← Bool.not_eq_true, ownedBy_iff]
    exact fun isOwned => ne ((mem_locksOf.mp mem).2.2.trans isOwned.2.symm)
  · intro fl mem
    rw [← Bool.not_eq_true, ownedBy_iff]
    exact fun isOwned => ne ((applied.owner fl mem).2.trans isOwned.2.symm)

theorem Applied.sameForeign {other : Owner} (ne : request.owner ≠ other) :
    ∀ fl ∈ locksOf state.lock (state.flock inode) other, after.lock fl = state.lock fl := by
  intro fl mem
  refine applied.sameOutside sound divided (mem_locksOf.mp mem).1 fun _ => ?_
  rw [← Bool.not_eq_true, ownedBy_iff]
  exact fun isOwned => ne (isOwned.2.trans (mem_locksOf.mp mem).2.2.symm)

theorem Applied.sameElsewhere {other : Inode} (ne : other ≠ inode) :
    ∀ fl ∈ state.flock other, after.lock fl = state.lock fl :=
  fun _ mem => applied.sameOutside sound divided mem fun same => absurd same ne

section

variable (overwritten : Overwritten state.lock after.lock request.lock mine owned)
include overwritten

theorem Applied.tidy (owner : Owner) :
    Tidy after.lock (locksOf after.lock (front ++ (owned ++ post)) owner) := by
  by_cases isOwner : request.owner = owner
  · rw [← isOwner, (applied.own sound divided).1]
    exact overwritten.tidy
  · rw [(applied.foreign sound divided isOwner).1]
    exact ((sound.orderly inode).tidy owner).congr (applied.sameForeign sound divided isOwner)

theorem Applied.held : after.held = state.held.overwrite inode request := by
  funext other owner byte
  unfold ByteMaps.overwrite
  by_cases isInode : other = inode
  · subst isInode
    by_cases isOwner : owner = request.owner
    · subst isOwner
      have isHeld : after.held other request.owner byte = typeAt after.lock owned byte := by
        unfold State.held
        rw [applied.isList, update_self, (applied.own sound divided).1]
      have wasHeld : state.held other request.owner byte = typeAt state.lock mine byte := by
        unfold State.held
        rw [divided.isMine]
      have wasTidy : Tidy state.lock mine := by
        rw [← divided.isMine]
        exact (sound.orderly other).tidy request.owner
      rw [isHeld, wasHeld]
      by_cases covers : request.start ≤ byte ∧ byte ≤ request.finish
      · rw [if_pos ⟨rfl, rfl, covers⟩]
        refine ext fun flType => ?_
        rw [overwritten.tidy.typeAt_eq_some, overwritten.inside byte flType covers]
        by_cases isUnlock : request.flType = .unlock
        · rw [if_pos isUnlock]
          exact ⟨fun isType => absurd isUnlock isType.2, fun never => by cases never⟩
        · rw [if_neg isUnlock, some.injEq]
          exact ⟨fun isType => isType.1.symm, fun isType => ⟨isType.symm, isUnlock⟩⟩
      rw [if_neg fun all => covers all.2.2]
      refine ext fun flType => ?_
      rw [overwritten.tidy.typeAt_eq_some, wasTidy.typeAt_eq_some]
      exact overwritten.outside byte flType covers
    · rw [if_neg fun all => isOwner all.2.1]
      unfold State.held
      rw [applied.isList, update_self, (applied.foreign sound divided (Ne.symm isOwner)).1]
      exact typeAt_congr (applied.sameForeign sound divided (Ne.symm isOwner))
  · rw [if_neg fun all => isInode all.1]
    unfold State.held
    rw [applied.isList, update_of_ne isInode]
    exact typeAt_locksOf_congr (applied.sameElsewhere sound divided isInode)

theorem Applied.exclusive (noConflict : state.conflict inode request = none) {owner other : Owner}
    {byte : ℤ} (ne : owner ≠ other) (isWrite : after.held inode owner byte = some .writeLock) :
    after.held inode other byte = none := by
  rw [applied.held sound divided overwritten] at isWrite ⊢
  unfold ByteMaps.overwrite at isWrite ⊢
  by_cases covers : request.start ≤ byte ∧ byte ≤ request.finish
  · by_cases isOwner : owner = request.owner
    · subst isOwner
      rw [if_pos ⟨rfl, rfl, covers⟩] at isWrite
      rw [if_neg fun all => ne all.2.1.symm]
      split_ifs at isWrite with isUnlock
      by_contra isHeld
      rcases ne_none_iff_exists'.mp isHeld with ⟨flType, holds⟩
      exact (sound.shared noConflict isUnlock covers.1 covers.2 ne holds).2 (some.inj isWrite)
    rw [if_neg fun all => isOwner all.2.1] at isWrite
    by_cases isOther : other = request.owner
    · subst isOther
      rw [if_pos ⟨rfl, rfl, covers⟩]
      by_cases isUnlock : request.flType = .unlock
      · rw [if_pos isUnlock]
      · exact absurd rfl
          (sound.shared noConflict isUnlock covers.1 covers.2 ne.symm isWrite).1
    · rw [if_neg fun all => isOther all.2.1]
      exact (sound.orderly inode).exclusive owner other byte ne isWrite
  · rw [if_neg fun all => covers all.2.2] at isWrite ⊢
    exact (sound.orderly inode).exclusive owner other byte ne isWrite

end

theorem Applied.place {other : Inode} {fl : ℕ} (mem : fl ∈ after.flock other) :
    fl ∈ state.flock other ∧ ((after.lock fl).posix = true → (state.lock fl).posix = true) ∨
      other = inode ∧ state.used ≤ fl ∧ fl < after.used := by
  by_cases isInode : other = inode
  · subst isInode
    rw [applied.isList, update_self] at mem
    rw [divided.isList]
    rcases mem_append.mp mem with inFront | inRest
    · rw [applied.sameFront sound divided fl inFront]
      exact .inl ⟨mem_append_left _ inFront, id⟩
    rcases mem_append.mp inRest with isOwned | inPost
    · rcases applied.isOwned fl isOwned with isMine | isNew
      · refine .inl ⟨mem_append_right _ (mem_append_left _ isMine), fun _ => ?_⟩
        rw [← divided.isMine] at isMine
        exact (mem_locksOf.mp isMine).2.1
      · exact .inr ⟨rfl, isNew⟩
    · rw [applied.samePost sound divided fl inPost]
      exact .inl ⟨mem_append_right _ (mem_append_right _ inPost), id⟩
  · rw [applied.isList, update_of_ne isInode] at mem
    rw [applied.sameElsewhere sound divided isInode fl mem]
    exact .inl ⟨mem, id⟩

theorem Applied.behind :
    (front ++ (owned ++ post)).Pairwise fun first second => (after.lock first).posix = true →
      (after.lock second).posix = true := by
  have isPosix : ∀ fl ∈ owned ++ post, (after.lock fl).posix = true := by
    intro fl mem
    rcases mem_append.mp mem with isOwned | inPost
    · exact (applied.owner fl isOwned).1
    · rw [applied.samePost sound divided fl inPost]
      exact (divided.inPost fl inPost).1
  have wasBehind := sound.behind inode
  rw [divided.isList] at wasBehind
  refine pairwise_append.mpr ⟨?_, ?_, fun _ _ fl mem _ => isPosix fl mem⟩
  · refine (pairwise_append.mp wasBehind).1.imp_of_mem ?_
    intro first second firstMem secondMem behind
    rw [applied.sameFront sound divided first firstMem,
      applied.sameFront sound divided second secondMem]
    exact behind
  · exact pairwise_of_forall_mem_list fun _ _ fl mem _ => isPosix fl mem

theorem Applied.sound_after
    (overwritten : Overwritten state.lock after.lock request.lock mine owned)
    (noConflict : state.conflict inode request = none) : after.Sound := by
  refine ⟨?_, ?_, ?_, ?_⟩
  · intro other fl mem
    rcases applied.place sound divided mem with ⟨wasMember, _⟩ | ⟨_, _, isNew⟩
    · exact (sound.bounded other fl wasMember).trans_le applied.used
    · exact isNew
  · intro first second fl firstMem secondMem isPosix
    rcases applied.place sound divided firstMem with ⟨inFirst, wasPosix⟩ | ⟨isFirst, isNew, _⟩
    · rcases applied.place sound divided secondMem with ⟨inSecond, _⟩ | ⟨_, isNew, _⟩
      · exact sound.unique first second fl inFirst inSecond (wasPosix isPosix)
      · exact absurd (sound.bounded first fl inFirst) (not_lt.mpr isNew)
    · rcases applied.place sound divided secondMem with ⟨inSecond, _⟩ | ⟨isSecond, _⟩
      · exact absurd (sound.bounded second fl inSecond) (not_lt.mpr isNew)
      · exact isFirst.trans isSecond.symm
  · intro other
    by_cases isInode : other = inode
    · subst isInode
      rw [applied.isList, update_self]
      exact applied.behind sound divided
    rw [applied.isList, update_of_ne isInode]
    refine (sound.behind other).imp_of_mem ?_
    intro first second firstMem secondMem behind
    rw [applied.sameElsewhere sound divided isInode first firstMem,
      applied.sameElsewhere sound divided isInode second secondMem]
    exact behind
  · intro other
    by_cases isInode : other = inode
    · subst isInode
      refine ⟨?_, ?_, ?_⟩
      · intro owner
        rw [applied.isList, update_self]
        by_cases isOwner : request.owner = owner
        · rw [← isOwner]
          exact (applied.own sound divided).2
        · exact (applied.foreign sound divided isOwner).2
      · intro owner
        rw [applied.isList, update_self]
        exact applied.tidy sound divided overwritten owner
      · intro owner second byte ne isWrite
        exact applied.exclusive sound divided overwritten noConflict ne isWrite
    · rw [applied.isList, update_of_ne isInode]
      exact (sound.orderly other).congr (applied.sameElsewhere sound divided isInode)

end Applied

theorem Sound.posixLockFile (sound : state.Sound) (inode : Inode) (request : Request Owner) :
    (state.posixLockFile inode request).1.Sound ∧ (state.posixLockFile inode request).1.held =
        if (state.posixLockFile inode request).2 = .ok ∧ request.access = false then
          state.held.overwrite inode request
        else state.held := by
  have isCall := call_posixLockFile state inode request
  generalize state.posixLockFile inode request = outcome at isCall ⊢
  cases isCall with
  | busy fl isConflict noSleep | deadlock fl isConflict found => exact sound.enter _
  | wait fl isConflict notFound => exact sound.enter _
  | look noConflict isAccess =>
    rw [if_neg fun both => by simp [isAccess] at both]
    exact sound.enter _
  | apply noConflict isAccess =>
    rcases sound.applied inode request with ⟨post, owned, divided, applied⟩
    rcases applied.isResult with ⟨isOk, overwritten⟩ | ⟨fails, isMine, isLock⟩
    · rw [if_pos ⟨isOk, isAccess⟩]
      exact ⟨applied.sound_after sound divided overwritten noConflict,
        applied.held sound divided overwritten⟩
    rw [if_neg fun both => fails both.1]
    have sameList : (state.apply inode request).1.flock = state.flock := by
      rw [applied.isList, isMine, ← divided.isList, update_eq_self]
    exact sound.congr sameList isLock applied.used

def step (state : State Owner Inode) (entry : Inode × Request Owner) : State Owner Inode :=
  (state.posixLockFile entry.1 entry.2).1

theorem Unlocked.sound_run (unlocked : state.Unlocked) (requests : List (Inode × Request Owner)) :
    (Run.run step state requests).Sound :=
  Run.invariant_always Sound
    (fun _ entry sound => (sound.posixLockFile entry.1 entry.2).1) unlocked.sound requests

/-- After any requests the lists are orderly, and the next one overwrites the map of its owner on
its range if it succeeds and changes no map otherwise. -/
theorem posixLockFile_refines (state : State Owner Inode) (unlocked : state.Unlocked)
    (requests : List (Inode × Request Owner)) (inode : Inode) (request : Request Owner) :
    let reached := Run.run step state requests
    let next := reached.posixLockFile inode request
    (∀ other, Orderly reached.lock (reached.flock other)) ∧ next.1.held =
        if next.2 = .ok ∧ request.access = false then reached.held.overwrite inode request
        else reached.held := by
  intro reached next
  have sound : reached.Sound := unlocked.sound_run requests
  exact ⟨sound.orderly, (sound.posixLockFile inode request).2⟩

/-- An inode whose list starts with a lock of another kind. -/
def withFlock : State ℕ Unit :=
  { lock := fun _ => ⟨false, 0, .writeLock, 0, offsetMax⟩
    used := 1
    flock := fun _ => [0]
    blocked := [] }

theorem withFlock_unlocked : withFlock.Unlocked :=
  ⟨fun _ fl mem => by rw [mem_singleton.mp mem]; decide, fun _ _ _ => rfl⟩

def lockBytes (owner : ℕ) (flType : LockType) : Request ℕ :=
  ⟨owner, flType, 0, 99, by decide, by decide, by decide, false, false, false, true, true⟩

def unlockBytes (owner : ℕ) : Request ℕ :=
  ⟨owner, .unlock, 40, 59, by decide, by decide, by decide, false, false, false, true, true⟩

theorem posixLockFile_refines_split :
    let reached := Run.run step withFlock [((), lockBytes 1 .writeLock),
      ((), lockBytes 2 .readLock)]
    let next := reached.posixLockFile () (unlockBytes 1)
    withFlock.Unlocked ∧ next.2 = .ok ∧ next.1.flock () = [0, 9, 2] ∧
      next.1.held = reached.held.overwrite () (unlockBytes 1) := by
  intro reached next
  have isOk : next.2 = .ok := by decide +kernel
  refine ⟨withFlock_unlocked, isOk, by decide +kernel, ?_⟩
  rw [(posixLockFile_refines withFlock withFlock_unlocked _ () (unlockBytes 1)).2]
  exact if_pos ⟨isOk, rfl⟩

end State

end StreakKernel.FileLocks
