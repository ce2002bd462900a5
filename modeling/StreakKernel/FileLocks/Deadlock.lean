import Mathlib.Data.List.Nodup
import StreakKernel.FileLocks.Refinement
import StreakKernel.Lib.Acyclic

/-!
# Deadlock detection

An owner waits for the owner of the lock that one of its requests is blocked on. Before a request
is put to sleep, `posix_locks_deadlock` follows the waits from the owner of the conflicting lock,
but it gives up after eleven of them. As long as no chain of waits is longer than that, no cycle
comes about.
-/

namespace StreakKernel.FileLocks

open List Function

universe u v

variable {Owner : Type u} {Inode : Type v}

/-! ## Owners do not change -/

/-- Some step of a request has kept the owners of all locks but the new ones, and has woken up
waiters only. -/
structure Kept (fresh : List ℕ) (before after : Pass Owner) : Prop where
  owner : ∀ fl ∉ fresh, (after.lock fl).owner = (before.lock fl).owner
  blocked : after.blocked.Sublist before.blocked

section Kept

variable {fresh : List ℕ} {first second third pass : Pass Owner} {fl : ℕ}

theorem Kept.trans (kept : Kept fresh first second) (keptThen : Kept fresh second third) :
    Kept fresh first third :=
  ⟨fun fl notFresh => (keptThen.owner fl notFresh).trans (kept.owner fl notFresh),
    keptThen.blocked.trans kept.blocked⟩

theorem owner_update {lock : ℕ → Lock Owner} {value : Lock Owner}
    (same : value.owner = (lock fl).owner) (other : ℕ) :
    (update lock fl value other).owner = (lock other).owner := by
  by_cases isFl : other = fl
  · subst isFl
    rw [update_self]
    exact same
  · rw [update_of_ne isFl]

theorem wakeUpBlocks_sublist (blocked : List (ℕ × ℕ)) (blocker : ℕ) :
    (wakeUpBlocks blocked blocker).Sublist blocked :=
  filter_sublist

theorem owner_joinStarts (lock : ℕ → Lock Owner) (request fl other : ℕ) :
    (joinStarts lock request fl other).owner = (lock other).owner := by
  unfold joinStarts setStart
  split_ifs
  all_goals exact owner_update (by rfl) other

theorem owner_joinFinishes (lock : ℕ → Lock Owner) (request fl other : ℕ) :
    (joinFinishes lock request fl other).owner = (lock other).owner := by
  unfold joinFinishes setFinish
  split_ifs
  all_goals exact owner_update (by rfl) other

theorem kept_keep : Kept fresh pass (pass.keep fl) := ⟨fun _ _ => rfl, .refl _⟩

theorem kept_adopt : Kept fresh pass (pass.adopt fl) := ⟨fun _ _ => rfl, .refl _⟩

theorem kept_mark : Kept fresh pass (pass.mark fl) := ⟨fun _ _ => rfl, .refl _⟩

theorem kept_deleteLock : Kept fresh pass (pass.deleteLock fl) :=
  ⟨fun _ _ => rfl, wakeUpBlocks_sublist _ _⟩

theorem kept_join : Kept fresh pass (pass.join fl) :=
  ⟨fun _ _ => (owner_joinFinishes _ _ _ _).trans (owner_joinStarts _ _ _ _), .refl _⟩

theorem kept_replace : Kept fresh pass (pass.replace fl) :=
  ⟨fun other _ => owner_update (by rfl) other, wakeUpBlocks_sublist _ _⟩

theorem kept_cutLeft : Kept fresh pass pass.cutLeft := by
  unfold Pass.cutLeft
  cases pass.left with
  | none => exact ⟨fun _ _ => rfl, .refl _⟩
  | some left => exact ⟨fun other _ => owner_update (by rfl) other, wakeUpBlocks_sublist _ _⟩

section

variable {newFl2 : Option ℕ} (isFresh : ∀ fl, newFl2 = some fl → fl ∈ fresh) (list : List ℕ)
include isFresh list

theorem kept_cutRight : Kept fresh pass (pass.cutRight newFl2 list).1 := by
  unfold Pass.cutRight
  cases pass.right with
  | none => exact ⟨fun _ _ => rfl, .refl _⟩
  | some right =>
    cases isSecond : newFl2 with
    | none => exact ⟨fun other _ => owner_update (by rfl) other, wakeUpBlocks_sublist _ _⟩
    | some second =>
      simp only
      split_ifs
      · refine ⟨fun other notFresh => ?_, wakeUpBlocks_sublist _ _⟩
        refine (owner_update (by rfl) other).trans ?_
        rw [update_of_ne]
        rintro rfl
        exact notFresh (isFresh other isSecond)
      · exact ⟨fun other _ => owner_update (by rfl) other, wakeUpBlocks_sublist _ _⟩

theorem kept_cut : Kept fresh pass (pass.cut newFl2 list).1 :=
  (kept_cutRight isFresh list).trans kept_cutLeft

end

theorem kept_settle {newFl newFl2 : Option ℕ} (isFresh : ∀ fl, newFl = some fl → fl ∈ fresh)
    (isFreshSecond : ∀ fl, newFl2 = some fl → fl ∈ fresh) (testExists : Bool) (list : List ℕ) :
    Kept fresh pass (pass.settle newFl newFl2 testExists list).1 := by
  have same : Kept fresh pass pass := ⟨fun _ _ => rfl, .refl _⟩
  unfold Pass.settle
  split_ifs
  · exact same
  · exact kept_cut isFreshSecond list
  · exact same
  · exact same
  · cases isNew : newFl with
    | none => exact same
    | some new =>
      have placed : Kept fresh pass
          { pass with lock := update pass.lock new (pass.lock pass.request) } := by
        refine ⟨fun other notFresh => ?_, .refl _⟩
        simp only
        rw [update_of_ne]
        rintro rfl
        exact notFresh (isFresh other isNew)
      exact placed.trans (kept_cut isFreshSecond _)

variable [DecidableEq Owner]

theorem kept_locksOfOwner (pass : Pass Owner) (list : List ℕ) :
    Kept fresh pass (pass.locksOfOwner list).1 := by
  have same : ∀ pass : Pass Owner, Kept fresh pass pass := fun _ => ⟨fun _ _ => rfl, .refl _⟩
  induction list generalizing pass with
  | nil => exact same pass
  | cons fl rest ih =>
    unfold Pass.locksOfOwner
    simp only
    split_ifs
    · exact same pass
    · exact kept_keep.trans (ih _)
    · exact same pass
    · exact (kept_join.trans kept_deleteLock).trans (ih _)
    · exact ((kept_join.trans kept_adopt).trans kept_keep).trans (ih _)
    · exact kept_keep.trans (ih _)
    · exact same pass
    · exact ⟨fun _ _ => rfl, .refl _⟩
    · exact (kept_mark.trans kept_deleteLock).trans (ih _)
    · exact (((kept_mark.trans kept_replace).trans kept_adopt).trans kept_keep).trans (ih _)
    · exact (kept_mark.trans kept_keep).trans (ih _)

end Kept

/-! ## The graph of waits -/

namespace State

/-- A request of the first owner is blocked on a lock of the second. -/
def WaitsFor (state : State Owner Inode) (first second : Owner) : Prop :=
  ∃ entry ∈ state.blocked, (state.lock entry.1).owner = first ∧ (state.lock entry.2).owner = second

theorem owner_enter (state : State Owner Inode) (request : Request Owner) {fl : ℕ}
    (isUsed : fl < state.used) : ((state.enter request).lock fl).owner = (state.lock fl).owner := by
  rw [enter_lock_of_lt isUsed]

theorem owner_enter_self (state : State Owner Inode) (request : Request Owner) :
    ((state.enter request).lock state.used).owner = request.owner := by
  unfold enter
  simp only [update_self]
  rfl

variable [DecidableEq Owner]

def waiting (state : State Owner Inode) (owner : Owner) : Bool :=
  state.blocked.any fun entry => decide ((state.lock entry.1).owner = owner)

/-- The walk from a lock along the waits ends, or it comes to the caller, after at most so many
locks. -/
def walkEnds (state : State Owner Inode) (caller : Owner) : ℕ → ℕ → Bool
  | 0, fl => (whatOwnerIsWaitingFor state.lock state.blocked fl).isNone
  | rest + 1, fl =>
    match whatOwnerIsWaitingFor state.lock state.blocked fl with
    | none => true
    | some next => decide (caller = (state.lock next).owner) || walkEnds state caller rest next

/-- The locks of the waits are in use, no owner waits twice, and there is no cycle. -/
structure Calm (state : State Owner Inode) : Prop where
  sound : state.Sound
  bounded : ∀ entry ∈ state.blocked, entry.1 < state.used ∧ entry.2 < state.used
  single : (state.blocked.map fun entry => (state.lock entry.1).owner).Nodup
  acyclic : Acyclic state.WaitsFor

variable {state after : State Owner Inode}

theorem Calm.sublist (calm : state.Calm) (sound : after.Sound)
    (blocked : after.blocked.Sublist state.blocked) (used : state.used ≤ after.used)
    (same : ∀ fl < state.used, (after.lock fl).owner = (state.lock fl).owner) : after.Calm := by
  have sameEntry : ∀ entry ∈ after.blocked,
      (after.lock entry.1).owner = (state.lock entry.1).owner ∧
        (after.lock entry.2).owner = (state.lock entry.2).owner := by
    intro entry mem
    have isUsed := calm.bounded entry (blocked.subset mem)
    exact ⟨same _ isUsed.1, same _ isUsed.2⟩
  refine ⟨sound, ?_, ?_, calm.acyclic.mono ?_⟩
  · intro entry mem
    have isUsed := calm.bounded entry (blocked.subset mem)
    exact ⟨isUsed.1.trans_le used, isUsed.2.trans_le used⟩
  · rw [map_congr_left fun entry mem => (sameEntry entry mem).1]
    exact calm.single.sublist (blocked.map _)
  rintro first second ⟨entry, mem, isFirst, isSecond⟩
  rw [(sameEntry entry mem).1] at isFirst
  rw [(sameEntry entry mem).2] at isSecond
  exact ⟨entry, blocked.subset mem, isFirst, isSecond⟩

theorem not_waiting {request : Request Owner} (notWaiting : ¬state.waiting request.owner = true) :
    ∀ entry ∈ state.blocked, (state.lock entry.1).owner ≠ request.owner := by
  intro entry mem isOwner
  exact notWaiting (any_eq_true.mpr ⟨entry, mem, decide_eq_true isOwner⟩)

theorem Sound.conflict_some (sound : state.Sound) {inode : Inode} {request : Request Owner} {fl : ℕ}
    (isConflict : state.conflict inode request = some fl) :
    fl < state.used ∧ (state.lock fl).owner ≠ request.owner := by
  unfold conflict at isConflict
  split_ifs at isConflict
  have mem := mem_of_find?_eq_some isConflict
  have conflicts : posixLocksConflict request.lock (state.lock fl) := by
    simpa using find?_some isConflict
  exact ⟨sound.bounded inode fl mem, conflicts.1.2.symm⟩

theorem Calm.waitingFor (calm : state.Calm) {entry : ℕ × ℕ} (mem : entry ∈ state.blocked) {fl : ℕ}
    (isOwner : (state.lock entry.1).owner = (state.lock fl).owner) :
    whatOwnerIsWaitingFor state.lock state.blocked fl = some entry.2 := by
  unfold whatOwnerIsWaitingFor
  have isSome : (state.blocked.find? fun entry =>
      decide ((state.lock entry.1).owner = (state.lock fl).owner)).isSome = true :=
    find?_isSome.mpr ⟨entry, mem, decide_eq_true isOwner⟩
  rcases Option.isSome_iff_exists.mp isSome with ⟨other, found⟩
  have isOther : (state.lock other.1).owner = (state.lock fl).owner := by
    simpa using find?_some found
  have same : other = entry :=
    inj_on_of_nodup_map calm.single (mem_of_find?_eq_some found) mem
      (isOther.trans isOwner.symm)
  rw [found, same, Option.map_some]

theorem Calm.notReached (calm : state.Calm) {lock : ℕ → Lock Owner} {caller : ℕ}
    (same : ∀ fl < state.used, lock fl = state.lock fl) {rest fl : ℕ} (isUsed : fl < state.used)
    (ends : state.walkEnds (lock caller).owner rest fl = true)
    (notFound : deadlockLoop lock state.blocked caller rest fl = false)
    (reached : Relation.ReflTransGen state.WaitsFor (state.lock fl).owner (lock caller).owner) :
    (state.lock fl).owner = (lock caller).owner := by
  have sameWaits : ∀ fl < state.used, whatOwnerIsWaitingFor lock state.blocked fl =
      whatOwnerIsWaitingFor state.lock state.blocked fl := by
    intro fl isUsed
    unfold whatOwnerIsWaitingFor
    congr 1
    refine find?_congr fun entry mem => ?_
    rw [same fl isUsed, same entry.1 (calm.bounded entry mem).1]
  induction rest generalizing fl with
  | zero =>
    rcases reached.cases_head with isCaller | ⟨owner, ⟨entry, mem, isOwner, _⟩, _⟩
    · exact isCaller
    · simp [walkEnds, calm.waitingFor mem isOwner] at ends
  | succ rest ih =>
    rcases reached.cases_head with isCaller | ⟨owner, ⟨entry, mem, isOwner, isNext⟩, onward⟩
    · exact isCaller
    have isWaiting := calm.waitingFor mem isOwner
    have nextUsed := (calm.bounded entry mem).2
    simp only [walkEnds, isWaiting, Bool.or_eq_true, decide_eq_true_eq] at ends
    simp only [deadlockLoop, sameWaits fl isUsed, isWaiting] at notFound
    rw [same _ nextUsed] at notFound
    split_ifs at notFound with isCaller
    rw [← isNext] at onward
    exact absurd (ih nextUsed (ends.resolve_left isCaller) notFound onward).symm isCaller

end State

/-- An owner that does not wait makes a request, or a waiter gives up or is woken, as
`locks_delete_block` does it. -/
inductive Event (Owner : Type u) (Inode : Type v)
  | request (inode : Inode) (request : Request Owner)
  | deleteBlock (waiter : ℕ)

namespace State

variable [DecidableEq Owner]

/-- The walk from the conflicting lock is not longer than `posix_locks_deadlock` goes. -/
def Short (state : State Owner Inode) : Event Owner Inode → Prop
  | .request inode request =>
    (state.conflict inode request).all
      (state.walkEnds request.owner (maxDeadlkIterations + 1)) = true
  | .deleteBlock _ => True

instance (state : State Owner Inode) : (event : Event Owner Inode) → Decidable (state.Short event)
  | .request _ _ => inferInstanceAs (Decidable (_ = true))
  | .deleteBlock _ => isTrue trivial

variable {state : State Owner Inode} {inode : Inode} {request : Request Owner}

theorem Calm.enter (calm : state.Calm) (request : Request Owner) : (state.enter request).Calm :=
  calm.sublist (calm.sound.enter _).1 (.refl _) (Nat.le_add_right _ _)
    fun _ isUsed => owner_enter state request isUsed

theorem Calm.notBack (calm : state.Calm) {fl : ℕ}
    (isConflict : state.conflict inode request = some fl)
    (short : state.Short (.request inode request))
    (notFound : posixLocksDeadlock (state.enter request).lock state.blocked state.used fl = false) :
    ¬Relation.ReflTransGen state.WaitsFor (state.lock fl).owner request.owner := by
  intro reached
  rcases calm.sound.conflict_some isConflict with ⟨isUsed, otherOwner⟩
  have isCaller := owner_enter_self state request
  have ends : state.walkEnds ((state.enter request).lock state.used).owner
      (maxDeadlkIterations + 1) fl = true := by
    simpa only [Short, isConflict, Option.all_some, isCaller] using short
  rw [← isCaller] at reached otherOwner
  exact otherOwner
    (calm.notReached (fun _ isUsed => enter_lock_of_lt isUsed) isUsed ends notFound reached)

theorem Calm.wait (calm : state.Calm) {fl : ℕ} (isConflict : state.conflict inode request = some fl)
    (notWaiting : ¬state.waiting request.owner = true)
    (notBack : ¬Relation.ReflTransGen state.WaitsFor (state.lock fl).owner request.owner) :
    ({ state.enter request with blocked := (state.used, fl) :: state.blocked } :
      State Owner Inode).Calm := by
  rcases calm.sound.conflict_some isConflict with ⟨isUsed, _⟩
  have entered := calm.enter request
  have isCaller := owner_enter_self state request
  refine ⟨(calm.sound.enter _).1, ?_, ?_, ?_⟩
  · intro entry mem
    rcases mem_cons.mp mem with rfl | inBlocked
    · have used : (state.enter request).used = state.used + 3 := rfl
      exact ⟨by simp only [used]; omega, by simp only [used]; omega⟩
    · exact entered.bounded entry inBlocked
  · refine nodup_cons.mpr ⟨?_, entered.single⟩
    intro mem
    rcases mem_map.mp mem with ⟨entry, inBlocked, isOwner⟩
    have same : ((state.enter request).lock entry.1).owner =
        ((state.enter request).lock state.used).owner := isOwner
    rw [owner_enter state request (calm.bounded entry inBlocked).1, isCaller] at same
    exact not_waiting notWaiting entry inBlocked same
  have isInsert : ∀ first second,
      ({ state.enter request with blocked := (state.used, fl) :: state.blocked } :
        State Owner Inode).WaitsFor first second →
      state.WaitsFor first second ∨ first = request.owner ∧ second = (state.lock fl).owner := by
    rintro first second ⟨entry, mem, isFirst, isSecond⟩
    rcases mem_cons.mp mem with rfl | inBlocked
    · exact .inr ⟨isFirst.symm.trans isCaller,
        isSecond.symm.trans (owner_enter state request isUsed)⟩
    · have entryUsed := calm.bounded entry inBlocked
      exact .inl ⟨entry, inBlocked, (owner_enter state request entryUsed.1).symm.trans isFirst,
        (owner_enter state request entryUsed.2).symm.trans isSecond⟩
  exact calm.acyclic.insert isInsert notBack

variable [DecidableEq Inode]

def next (state : State Owner Inode) : Event Owner Inode → State Owner Inode
  | .request inode request =>
    if state.waiting request.owner then state else (state.posixLockFile inode request).1
  | .deleteBlock waiter =>
    { state with blocked := state.blocked.filter fun entry => entry.1 != waiter }

theorem apply_kept (state : State Owner Inode) (inode : Inode) (request : Request Owner) :
    (∀ fl < state.used, ((state.apply inode request).1.lock fl).owner = (state.lock fl).owner) ∧
      (state.apply inode request).1.blocked.Sublist state.blocked := by
  have isFresh : ∀ (condition : Bool) (number : ℕ), number ∈ [state.used + 1, state.used + 2] →
      ∀ fl, (if condition then some number else none) = some fl →
        fl ∈ [state.used + 1, state.used + 2] := by
    intro condition number mem fl isSome
    split_ifs at isSome
    rwa [← Option.some.inj isSome]
  have walked : Kept [state.used + 1, state.used + 2] _ _ :=
    kept_locksOfOwner ⟨(state.enter request).lock, (state.enter request).blocked, state.used, false,
      none, none, []⟩ (state.fromOwner inode request.owner)
  have kept := walked.trans (kept_settle
    (isFresh (wantsLocks request && request.allocates) _ mem_cons_self)
    (isFresh (wantsLocks request && request.allocatesSecond) _
      (mem_cons_of_mem _ mem_cons_self)) request.testExists
    (Pass.locksOfOwner ⟨(state.enter request).lock, (state.enter request).blocked, state.used,
      false, none, none, []⟩ (state.fromOwner inode request.owner)).2)
  refine ⟨?_, kept.blocked⟩
  intro fl isUsed
  refine (kept.owner fl ?_).trans (owner_enter state request isUsed)
  simp only [mem_cons, not_mem_nil, or_false]
  omega

theorem Calm.posixLockFile (calm : state.Calm) (short : state.Short (.request inode request))
    (notWaiting : ¬state.waiting request.owner = true) :
    (state.posixLockFile inode request).1.Calm := by
  have entered := calm.enter request
  have isCall := call_posixLockFile state inode request
  have sound := (calm.sound.posixLockFile inode request).1
  generalize state.posixLockFile inode request = outcome at isCall sound ⊢
  cases isCall with
  | busy fl isConflict noSleep => exact entered
  | deadlock fl isConflict found => exact entered
  | wait fl isConflict notFound =>
    exact calm.wait isConflict notWaiting (calm.notBack isConflict short notFound)
  | look noConflict isAccess => exact entered
  | apply noConflict isAccess =>
    rcases apply_kept state inode request with ⟨owners, blocked⟩
    exact calm.sublist sound blocked (Nat.le_add_right _ _) owners

theorem Calm.next (calm : state.Calm) {event : Event Owner Inode} (short : state.Short event) :
    (state.next event).Calm := by
  cases event with
  | request inode request =>
    by_cases isWaiting : state.waiting request.owner = true
    · simp only [State.next, if_pos isWaiting]
      exact calm
    · simp only [State.next, if_neg isWaiting]
      exact calm.posixLockFile short isWaiting
  | deleteBlock waiter =>
    exact calm.sublist ⟨calm.sound.bounded, calm.sound.unique, calm.sound.behind,
      calm.sound.orderly⟩ filter_sublist le_rfl fun _ _ => rfl

/-- In every run in which no walk is too long, the waits have no cycle, and a request that would
close one fails. -/
theorem acyclic_run (state : State Owner Inode) (unlocked : state.Unlocked)
    (noWaiter : state.blocked = []) {events : List (Event Owner Inode)}
    (short : Run.Admits next Short state events) :
    let reached := Run.run next state events
    Acyclic reached.WaitsFor ∧
      ∀ inode request fl, reached.Short (.request inode request) → request.sleep = true →
        reached.conflict inode request = some fl →
        Relation.ReflTransGen reached.WaitsFor (reached.lock fl).owner request.owner →
        (reached.posixLockFile inode request).2 = .edeadlk := by
  intro reached
  have initially : state.Calm := by
    refine ⟨unlocked.sound, ?_, ?_, ?_⟩
    · simp [noWaiter]
    · simp [noWaiter]
    intro owner cycle
    rcases Relation.TransGen.head'_iff.mp cycle with ⟨_, ⟨entry, mem, _⟩, _⟩
    rw [noWaiter] at mem
    cases mem
  have calm : reached.Calm :=
    Run.invariant_run Calm (fun _ _ calm isShort => calm.next isShort) initially short
  refine ⟨calm.acyclic, ?_⟩
  intro inode request fl isShort sleeps isConflict closes
  have isCall := call_posixLockFile reached inode request
  generalize reached.posixLockFile inode request = outcome at isCall ⊢
  cases isCall with
  | busy _ _ noSleep =>
    rw [sleeps] at noSleep
    cases noSleep
  | deadlock => rfl
  | wait other isOther notFound =>
    rw [isConflict, Option.some.injEq] at isOther
    subst isOther
    exact absurd closes (calm.notBack isConflict isShort notFound)
  | look noConflict | apply noConflict =>
    rw [isConflict] at noConflict
    cases noConflict

/-! ## A cycle of thirteen owners -/

def noLocks : State (Fin 13) Unit :=
  { lock := fun _ => ⟨false, 0, .unlock, 0, 0⟩
    used := 0
    flock := fun _ => []
    blocked := [] }

theorem noLocks_unlocked : noLocks.Unlocked :=
  ⟨fun _ _ mem => absurd mem not_mem_nil, fun _ _ mem => absurd mem not_mem_nil⟩

def oneByte (owner byte : Fin 13) : Event (Fin 13) Unit :=
  .request () ⟨owner, .writeLock, byte.val, byte.val, Int.natCast_nonneg _, le_rfl,
    by have := byte.isLt; unfold offsetMax; omega, false, true, false, true, true⟩

/-- All owners lock their own byte, and then some of them ask for the byte of the next owner. -/
def ring (waiters : List (Fin 13)) : List (Event (Fin 13) Unit) :=
  (List.finRange 13).map (fun owner => oneByte owner owner) ++
    waiters.map fun owner => oneByte owner (owner + 1)

theorem acyclic_run_threeWaiters : Run.Admits next Short noLocks (ring [0, 1, 2]) ∧
      Acyclic (Run.run next noLocks (ring [0, 1, 2])).WaitsFor :=
  have short : Run.Admits next Short noLocks (ring [0, 1, 2]) := by decide +kernel
  ⟨short, (acyclic_run noLocks noLocks_unlocked rfl short).1⟩

/-- The last of thirteen owners is put to sleep although it closes a cycle. -/
theorem not_acyclic_ring : ¬Acyclic (Run.run next noLocks (ring (List.finRange 13))).WaitsFor := by
  have waits : ∀ owner : Fin 13, ∃ entry ∈ (Run.run next noLocks (ring (finRange 13))).blocked,
        ((Run.run next noLocks (ring (finRange 13))).lock entry.1).owner = owner ∧
        ((Run.run next noLocks (ring (finRange 13))).lock entry.2).owner = owner + 1 := by
    decide +kernel
  have reaches : ∀ count : ℕ, Relation.TransGen
      (Run.run next noLocks (ring (finRange 13))).WaitsFor 0 (Fin.ofNat 13 (count + 1)) := by
    intro count
    induction count with
    | zero => exact .single (waits 0)
    | succ count ih =>
      have isNext : Fin.ofNat 13 (count + 1 + 1) = Fin.ofNat 13 (count + 1) + 1 := by
        ext
        simp [Fin.ofNat, Fin.val_add]
      rw [isNext]
      exact ih.tail (waits _)
  intro acyclic
  exact acyclic 0 (reaches 12)

end State

end StreakKernel.FileLocks
