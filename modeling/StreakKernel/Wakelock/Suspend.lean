import Mathlib.Data.List.Nodup
import Mathlib.Tactic.IntervalCases
import StreakKernel.Lib.Run
import StreakKernel.Wakelock.Basic

/-!
# When wake locks let the system suspend

Each lock is held by nobody, without a limit, or up to a deadline. `History` records this
next to the state, with the deadline as a number that does not wrap, and `Correct` states
what the timer and the queued work have to do with it.

A lock that has stayed on its list for more than 2^31 ticks after its deadline looks as if
it had not expired. Only the function of the timer can be misled by this: it does not
start the timer again.
-/

namespace StreakKernel.Wakelock

open List Function Word State

inductive Hold where
  | released
  | forever
  | timed (deadline : ℤ)
  deriving DecidableEq

/-- A state with the history of each lock. `attended`: `suspend_work` was queued since a suspend
lock was last taken. -/
structure History where
  state : State
  holds : ℕ → Hold
  attended : Bool

def State.isSuspend (state : State) (id : ℕ) : Bool :=
  match state.locks[id]? with
  | some lock => lock.type = .suspend
  | none => false

def Hold.Lasts (now : ℕ) : Hold → Prop
  | .released => False
  | .forever => True
  | .timed deadline => now < deadline

/-- A deadline does not look as if it were still to come: it lies at most 2^31 ticks back,
modulo 2^32. -/
def Hold.LooksPast (now : ℕ) : Hold → Prop
  | .timed deadline => ((now : ℤ) - deadline) % 4294967296 ≤ 2147483648
  | _ => True

instance Hold.decidableLasts (now : ℕ) : ∀ hold : Hold, Decidable (hold.Lasts now)
  | .released => isFalse (fun lasts => lasts)
  | .forever => isTrue trivial
  | .timed deadline => inferInstanceAs (Decidable ((now : ℤ) < deadline))

instance Hold.decidableLooksPast (now : ℕ) : ∀ hold : Hold, Decidable (hold.LooksPast now)
  | .released => isTrue trivial
  | .forever => isTrue trivial
  | .timed deadline =>
    inferInstanceAs (Decidable (((now : ℤ) - deadline) % 4294967296 ≤ 2147483648))

def Hold.taken (now : ℕ) : Option Word.S32 → Hold
  | some timeout => .timed (now + timeout.val)
  | none => .forever

namespace History

def initial (now : ℕ) : History := ⟨State.initial now, fun _ => .released, true⟩

def note (history : History) (id : ℕ) (hold : Hold) : ℕ → Hold :=
  if id < history.state.locks.length then Function.update history.holds id hold
  else history.holds

def record (history : History) : Event → ℕ → Hold
  | .wakeLock id => history.note id (.taken history.state.now none)
  | .wakeLockTimeout id timeout => history.note id (.taken history.state.now (some timeout))
  | .wakeUnlock id => history.note id .released
  | _ => history.holds

def takes (history : History) : Event → Bool
  | .wakeLock id => history.state.isSuspend id
  | .wakeLockTimeout id _ => history.state.isSuspend id
  | _ => false

def step (history : History) (event : Event) : History :=
  let result := history.state.step event
  ⟨result.1, history.record event, result.2 || (!history.takes event && history.attended)⟩

def Held (history : History) (id : ℕ) : Prop :=
  history.state.isSuspend id = true ∧ (history.holds id).Lasts history.state.now

/-- What the timer and the work have to do with the locks. -/
structure Correct (history : History) : Prop where
  queued : ∀ event, (history.state.step event).2 = true → ∀ id, ¬ (history.step event).Held id
  stopped : ∀ id, history.state.isSuspend id = true → history.holds id = .forever →
    history.state.timer = none
  pending : (∀ id, history.state.isSuspend id = true → history.holds id ≠ .forever) →
    (∃ id, history.Held id) → ∃ expires, history.state.timer = some expires ∧
      ∀ id deadline, history.state.isSuspend id = true → history.holds id = .timed deadline →
        deadline - history.state.now ≤ Word.toSigned (Word.sub expires history.state.jiffies)
  left : (∀ id, ¬ history.Held id) → history.state.timer = none →
    history.state.expiring = false → history.attended = true

/-- When the function of the timer looks at the locks, no deadline looks as if it were to come,
unless the timer has been restarted. -/
def Punctual (history : History) : Event → Prop
  | .expireWakeLocks => history.state.timer = none →
      (∀ id ∈ history.state.active .suspend, history.holds id ≠ .forever) →
      ∀ id ∈ history.state.active .suspend, (history.holds id).LooksPast history.state.now
  | _ => True

end History

/-! ## Lists and holds -/

def WakeLock.Matches (lock : WakeLock) : Hold → Prop
  | .released => False
  | .forever => lock.autoExpire = false
  | .timed deadline => lock.autoExpire = true ∧ lock.expires = Word.ofSigned deadline

/-- Every hold that counts is on its list, and the list says when it ends. -/
structure Tracks (state : State) (holds : ℕ → Hold) : Prop where
  nodup : ∀ type, (state.active type).Nodup
  listed : ∀ type, ∀ id ∈ state.active type, ∃ lock, state.locks[id]? = some lock ∧
    lock.type = type ∧ lock.Matches (holds id)
  lasting : ∀ (id : ℕ) lock, state.locks[id]? = some lock → (holds id).Lasts state.now →
    id ∈ state.active lock.type
  bounded : ∀ id deadline, holds id = .timed deadline → deadline < state.now + 2147483648
  absent : ∀ id : ℕ, state.locks[id]? = none → holds id = .released

structure SameTimer (before after : State) : Prop where
  now : after.now = before.now
  timer : after.timer = before.timer
  expiring : after.expiring = before.expiring
  isSuspend : ∀ id, after.isSuspend id = before.isSuspend id

section Lists

variable {state : State} {holds : ℕ → Hold} {id : ℕ} {lock : WakeLock} {type : LockType}

theorem State.isSuspend_of_lock (isLock : state.locks[id]? = some lock) :
    state.isSuspend id = decide (lock.type = .suspend) := by
  simp [isSuspend, isLock]

theorem State.isSuspend_of_kept {after : State} (isSuspend : state.isSuspend id = true)
    (same : ∀ {lock}, state.locks[id]? = some lock → after.locks[id]? = some lock) :
    after.isSuspend id = true := by
  cases isLock : state.locks[id]? with
  | none => simp [State.isSuspend, isLock] at isSuspend
  | some lock =>
    rw [isSuspend_of_lock isLock] at isSuspend
    rw [isSuspend_of_lock (same isLock)]
    exact isSuspend

theorem State.lt_of_isSuspend (isSuspend : state.isSuspend id = true) :
    id < state.locks.length := by
  by_contra outside
  have isNone := getElem?_eq_none_iff.mpr (not_lt.mp outside)
  simp [State.isSuspend, isNone] at isSuspend

theorem SameTimer.refl (state : State) : SameTimer state state := ⟨rfl, rfl, rfl, fun _ => rfl⟩

theorem SameTimer.trans {first second third : State} (left : SameTimer first second)
    (right : SameTimer second third) : SameTimer first third :=
  ⟨right.now.trans left.now, right.timer.trans left.timer, right.expiring.trans left.expiring,
    fun id => (right.isSuspend id).trans (left.isSuspend id)⟩

theorem SameTimer.deactivate (state : State) (id : ℕ) : SameTimer state (state.deactivate id) := by
  refine ⟨rfl, rfl, rfl, ?_⟩
  intro other
  simp only [State.isSuspend, State.deactivate, getElem?_modify]
  cases state.locks[other]? with
  | none => rfl
  | some found =>
    by_cases same : id = other
    · simp [same]
    · simp [same]

theorem SameTimer.activate (isLock : state.locks[id]? = some lock) (timeout : Option Word.S32) :
    SameTimer state (state.activate id lock.type timeout) := by
  refine ⟨rfl, rfl, rfl, ?_⟩
  intro other
  by_cases same : id = other
  · subst same
    rw [State.isSuspend_of_lock isLock]
    have isNew : (state.activate id lock.type timeout).locks[id]? = some _ :=
      List.getElem?_set_self (List.getElem?_eq_some_iff.mp isLock).1
    rw [State.isSuspend_of_lock isNew]
  · simp [State.isSuspend, State.activate, List.getElem?_set_ne same]

theorem Tracks.deactivate {after : ℕ → Hold} (tracks : Tracks state holds)
    (isLock : state.locks[id]? = some lock) (agree : ∀ other, other ≠ id → after other = holds
      other)
    (ended : ¬ (after id).Lasts state.now) : Tracks (state.deactivate id) after := by
  have others : ∀ other, other ≠ id → (state.deactivate id).locks[other]? =
      state.locks[other]? := by
    intro other ne
    simp only [State.deactivate, getElem?_modify, if_neg (Ne.symm ne)]
    simp
  constructor
  · intro type
    exact (tracks.nodup type).filter _
  · intro type other mem
    rcases mem_filter.mp mem with ⟨wasListed, ne⟩
    have ne : other ≠ id := by simpa using ne
    rw [others other ne, agree other ne]
    exact tracks.listed type other wasListed
  · intro other found isFound lasts
    by_cases same : other = id
    · rw [same] at lasts
      exact absurd lasts ended
    · rw [others other same] at isFound
      rw [agree other same] at lasts
      exact mem_filter.mpr ⟨tracks.lasting other found isFound lasts, by simpa using same⟩
  · intro other deadline isTimed
    by_cases same : other = id
    · subst same
      rw [isTimed] at ended
      simp only [Hold.Lasts] at ended
      show deadline < state.now + 2147483648
      omega
    · rw [agree other same] at isTimed
      exact tracks.bounded other deadline isTimed
  · intro other isNone
    by_cases same : other = id
    · subst same
      simp [State.deactivate, isLock] at isNone
    · rw [others other same] at isNone
      rw [agree other same]
      exact tracks.absent other isNone

theorem Tracks.frame {other : State} (tracks : Tracks state holds) (now : other.now = state.now)
    (locks : other.locks = state.locks) (active : other.active = state.active) :
    Tracks other holds := by
  constructor
  · rw [active]
    exact tracks.nodup
  · rw [active, locks]
    exact tracks.listed
  · rw [active, locks, now]
    exact tracks.lasting
  · rw [now]
    exact tracks.bounded
  · rw [locks]
    exact tracks.absent

theorem Tracks.activate {after : ℕ → Hold} {timeout : Option Word.S32}
    (tracks : Tracks state holds) (isLock : state.locks[id]? = some lock)
    (agree : ∀ other, other ≠ id → after other = holds other)
    (isHold : after id = .taken state.now timeout) :
    Tracks (state.activate id lock.type timeout) after := by
  have bound : id < state.locks.length := (List.getElem?_eq_some_iff.mp isLock).1
  have others : ∀ other, other ≠ id →
      (state.activate id lock.type timeout).locks[other]? = state.locks[other]? := by
    intro other ne
    exact getElem?_set_ne (Ne.symm ne)
  have members : ∀ (type : LockType) other,
      other ∈ (state.activate id lock.type timeout).active type ↔
        (other = id ∧ type = lock.type) ∨ (other ∈ state.active type ∧ other ≠ id) := by
    intro type other
    by_cases isType : type = lock.type
    · cases timeout <;> simp [State.activate, State.listDel, isType, or_comm]
    · simp [State.activate, State.listDel, isType]
  constructor
  · intro type
    have rest := (tracks.nodup type).filter (fun other => decide (other ≠ id))
    by_cases isType : type = lock.type
    · cases timeout with
      | none =>
        simp only [State.activate, State.listDel, if_pos isType]
        refine nodup_cons.mpr ⟨?_, rest⟩
        intro mem
        simpa using (mem_filter.mp mem).2
      | some ticks =>
        simp only [State.activate, State.listDel, if_pos isType]
        refine nodup_append.mpr ⟨rest, nodup_singleton id, ?_⟩
        intro other mem last isLast
        obtain rfl := mem_singleton.mp isLast
        simpa using (mem_filter.mp mem).2
    · simpa [State.activate, State.listDel, isType] using rest
  · intro type other mem
    rcases (members type other).mp mem with ⟨rfl, rfl⟩ | ⟨wasListed, ne⟩
    · refine ⟨_, getElem?_set_self bound, rfl, ?_⟩
      rw [isHold]
      cases timeout with
      | none => rfl
      | some ticks =>
        refine ⟨rfl, ?_⟩
        show add (state.now % 4294967296) _ = _
        rw [← ofSigned_mod, add_ofSigned]
    · rw [others other ne, agree other ne]
      exact tracks.listed type other wasListed
  · intro other found isFound lasts
    by_cases same : other = id
    · subst same
      have isNew := isFound.symm.trans (getElem?_set_self bound)
      simp only [Option.some.injEq] at isNew
      rw [isNew]
      exact (members _ _).mpr (.inl ⟨rfl, rfl⟩)
    · rw [others other same] at isFound
      rw [agree other same] at lasts
      exact (members _ _).mpr (.inr ⟨tracks.lasting other found isFound lasts, same⟩)
  · intro other deadline isTimed
    by_cases same : other = id
    · subst same
      rw [isHold] at isTimed
      cases timeout with
      | none => cases isTimed
      | some ticks =>
        obtain rfl := Hold.timed.inj isTimed
        show (state.now : ℤ) + ticks.val < state.now + 2147483648
        omega
    · rw [agree other same] at isTimed
      exact tracks.bounded other deadline isTimed
  · intro other isNone
    by_cases same : other = id
    · subst same
      have isNew := isNone.symm.trans (getElem?_set_self bound)
      cases isNew
    · rw [others other same] at isNone
      rw [agree other same]
      exact tracks.absent other isNone

end Lists

/-! ## The loop over the active locks -/

/-- The time left to a deadline as the code computes it. -/
def ticksLeft (now : ℕ) (deadline : ℤ) : ℤ :=
  Word.toSigned (Word.sub (Word.ofSigned deadline) (Word.ofSigned now))

theorem ticksLeft_lt (now : ℕ) (deadline : ℤ) : ticksLeft now deadline < 2147483648 :=
  toSigned_lt (sub_lt _ _)

theorem ticksLeft_of_lt {now : ℕ} {deadline : ℤ} (ahead : now < deadline)
    (bounded : deadline < now + 2147483648) : ticksLeft now deadline = deadline - now :=
  toSigned_sub (by omega) (by omega)

/-- What the loop found: a lock that does not expire, or the longest time left. -/
inductive Found (now : ℕ) (holds : ℕ → Hold) (ids : List ℕ) (longest : ℤ) : ℤ → Prop
  | permanent (id : ℕ) (member : id ∈ ids) (isForever : holds id = .forever) :
      Found now holds ids longest (-1)
  | longest (value : ℤ) (least : longest ≤ value)
      (covers : ∀ id ∈ ids, ∃ deadline, holds id = .timed deadline ∧
        (ticksLeft now deadline ≤ 0 ∨ ticksLeft now deadline ≤ value))
      (attained : value = longest ∨ ∃ id ∈ ids, ∃ deadline, holds id = .timed deadline ∧
        value = ticksLeft now deadline) :
      Found now holds ids longest value

section Scan

variable {now : ℕ} {holds : ℕ → Hold} {id : ℕ} {rest : List ℕ} {longest next value : ℤ}

theorem Found.cons {deadline : ℤ} (found : Found now holds rest next value)
    (isTimed : holds id = .timed deadline)
    (isNext : next = longest ∨ next = ticksLeft now deadline) (least : longest ≤ next)
    (covered : ticksLeft now deadline ≤ 0 ∨ ticksLeft now deadline ≤ next) :
    Found now holds (id :: rest) longest value := by
  cases found with
  | permanent other mem isForever => exact .permanent other (mem_cons_of_mem _ mem) isForever
  | longest value leastRest covers attained =>
    refine .longest value (least.trans leastRest) ?_ ?_
    · intro other mem
      rcases mem_cons.mp mem with rfl | inRest
      · refine ⟨deadline, isTimed, ?_⟩
        rcases covered with ended | within
        · exact .inl ended
        · exact .inr (within.trans leastRest)
      · exact covers other inRest
    rcases attained with isStart | ⟨other, inRest, found⟩
    · rcases isNext with isLongest | isLeft
      · exact .inl (isStart.trans isLongest)
      · exact .inr ⟨id, mem_cons_self, deadline, isTimed, isStart.trans isLeft⟩
    · exact .inr ⟨other, mem_cons_of_mem _ inRest, found⟩

theorem Tracks.scanActive {type : LockType} {ids : List ℕ} {state : State} {longest : ℤ}
    (tracks : Tracks state holds) (nodup : ids.Nodup) (listed : ∀ id ∈ ids, id ∈ state.active type)
    (nonneg : 0 ≤ longest) :
    Tracks (state.scanActive ids longest).1 holds ∧
      SameTimer state (state.scanActive ids longest).1 ∧
      Found state.now holds ids longest (state.scanActive ids longest).2 := by
  induction ids generalizing state longest with
  | nil =>
    exact ⟨tracks, .refl state, .longest longest le_rfl (fun id mem => nomatch mem) (.inl rfl)⟩
  | cons id rest ih =>
    have idListed := listed id mem_cons_self
    have restListed : ∀ other ∈ rest, other ∈ state.active type :=
      fun other mem => listed other (mem_cons_of_mem _ mem)
    rcases nodup_cons.mp nodup with ⟨idFresh, restNodup⟩
    rcases tracks.listed type id idListed with ⟨lock, isLock, _, lockMatches⟩
    simp only [State.scanActive, isLock]
    cases isHold : holds id with
    | released =>
      rw [isHold] at lockMatches
      exact lockMatches.elim
    | forever =>
      rw [isHold] at lockMatches
      have isPermanent : lock.autoExpire = false := lockMatches
      simp only [isPermanent, Bool.false_eq_true, if_false]
      exact ⟨tracks, .refl state, .permanent id mem_cons_self isHold⟩
    | timed deadline =>
      rw [isHold] at lockMatches
      have isLeft : state.timeLeft lock = ticksLeft state.now deadline := by
        unfold timeLeft ticksLeft jiffies
        rw [lockMatches.2, ofSigned_mod]
      simp only [lockMatches.1, if_true, isLeft]
      split_ifs with ended more
      · have past : ¬ (holds id).Lasts state.now := by
          rw [isHold]
          intro ahead
          rw [ticksLeft_of_lt ahead (tracks.bounded id deadline isHold)] at ended
          simp only [Hold.Lasts] at ahead
          omega
        have pruned := tracks.deactivate isLock (fun _ _ => rfl) past
        have restKept : ∀ other ∈ rest, other ∈ (state.expireWakeLock id).active type := by
          intro other mem
          refine mem_filter.mpr ⟨restListed other mem, ?_⟩
          have : other ≠ id := fun same => idFresh (same ▸ mem)
          simpa using this
        rcases ih pruned restNodup restKept nonneg with ⟨tracksRest, same, found⟩
        exact ⟨tracksRest, (SameTimer.deactivate state id).trans same,
          found.cons isHold (.inl rfl) le_rfl (.inl ended)⟩
      · rcases ih tracks restNodup restListed (nonneg.trans (le_of_lt more)) with
          ⟨tracksRest, same, found⟩
        exact ⟨tracksRest, same, found.cons isHold (.inr rfl) (le_of_lt more) (.inr le_rfl)⟩
      · rcases ih tracks restNodup restListed nonneg with ⟨tracksRest, same, found⟩
        exact ⟨tracksRest, same, found.cons isHold (.inl rfl) le_rfl (.inr (not_lt.mp more))⟩

end Scan

/-! ## The timer -/

/-- The timer is off while a lock is held without a limit, and otherwise runs at least up to the
last deadline. -/
structure Timed (state : State) (holds : ℕ → Hold) : Prop where
  stopped : ∀ id, state.isSuspend id = true → holds id = .forever → state.timer = none
  started : ∀ id deadline, state.isSuspend id = true → holds id = .timed deadline →
    state.now < deadline → state.timer = none →
      ∃ other, state.isSuspend other = true ∧ holds other = .forever
  reaches : ∀ expires, state.timer = some expires → ∃ stop : ℤ, expires = Word.ofSigned stop ∧
    stop < state.now + 2147483648 ∧ ∀ id deadline, state.isSuspend id = true →
      holds id = .timed deadline → deadline ≤ stop ∨ deadline ≤ state.now

/-- What `has_wake_lock_locked` says about the holds. -/
inductive Verdict (state : State) (holds : ℕ → Hold) : ℤ → Prop
  | permanent (id : ℕ) (isSuspend : state.isSuspend id = true) (isForever : holds id = .forever) :
      Verdict state holds (-1)
  | nothing (ended : ∀ id, state.isSuspend id = true → ¬ (holds id).Lasts state.now) :
      Verdict state holds 0
  | waiting (value : ℤ) (positive : 0 < value) (small : value < 2147483648)
      (limited : ∀ id, state.isSuspend id = true → holds id ≠ .forever)
      (covers : ∀ id deadline, state.isSuspend id = true → holds id = .timed deadline →
        deadline ≤ state.now ∨ deadline ≤ state.now + value) :
      Verdict state holds value

structure Settled (result : State × Bool) (holds : ℕ → Hold) : Prop where
  tracks : Tracks result.1 holds
  timed : Timed result.1 holds
  queued : result.2 = true → ∀ id, result.1.isSuspend id = true → ¬ (holds id).Lasts result.1.now
  attended : result.2 = true ∨ (∃ id, result.1.isSuspend id = true ∧ holds id = .forever) ∨
    result.1.timer ≠ none

section Timer

variable {state before after : State} {holds afterHolds : ℕ → Hold} {value : ℤ}

theorem Timed.transfer (timed : Timed before holds) (now : before.now ≤ after.now)
    (timer : after.timer = before.timer)
    (back : ∀ id, after.isSuspend id = true → afterHolds id ≠ .released →
      before.isSuspend id = true ∧ holds id = afterHolds id)
    (forth : ∀ id, before.isSuspend id = true → holds id = .forever →
      after.isSuspend id = true ∧ afterHolds id = .forever) : Timed after afterHolds := by
  constructor
  · intro id isSuspend isForever
    rcases back id isSuspend (by simp [isForever]) with ⟨wasSuspend, same⟩
    rw [timer]
    exact timed.stopped id wasSuspend (same.trans isForever)
  · intro id deadline isSuspend isTimed ahead isNone
    rcases back id isSuspend (by simp [isTimed]) with ⟨wasSuspend, same⟩
    rw [timer] at isNone
    rcases timed.started id deadline wasSuspend (same.trans isTimed) (by omega) isNone with
      ⟨other, otherSuspend, otherForever⟩
    exact ⟨other, forth other otherSuspend otherForever⟩
  intro expires isSome
  rw [timer] at isSome
  rcases timed.reaches expires isSome with ⟨stop, isStop, small, covers⟩
  refine ⟨stop, isStop, by omega, ?_⟩
  intro id deadline isSuspend isTimed
  rcases back id isSuspend (by simp [isTimed]) with ⟨wasSuspend, same⟩
  have := covers id deadline wasSuspend (same.trans isTimed)
  omega

theorem Timed.of_sameTimer (timed : Timed before holds) (same : SameTimer before after) :
    Timed after holds :=
  timed.transfer (le_of_eq same.now.symm) same.timer
    (fun id isSuspend _ => ⟨(same.isSuspend id).symm.trans isSuspend, rfl⟩)
    (fun id isSuspend isForever => ⟨(same.isSuspend id).trans isSuspend, isForever⟩)

theorem Verdict.of_sameTimer (verdict : Verdict before holds value)
    (same : SameTimer before after) : Verdict after holds value := by
  cases verdict with
  | permanent id isSuspend isForever =>
    exact .permanent id ((same.isSuspend id).trans isSuspend) isForever
  | nothing ended =>
    refine .nothing ?_
    intro id isSuspend
    rw [same.isSuspend id] at isSuspend
    rw [same.now]
    exact ended id isSuspend
  | waiting value pos small limited covers =>
    refine .waiting value pos small ?_ ?_
    · intro id isSuspend
      exact limited id ((same.isSuspend id).symm.trans isSuspend)
    · intro id deadline isSuspend isTimed
      rw [same.now]
      exact covers id deadline ((same.isSuspend id).symm.trans isSuspend) isTimed

section Tracked

variable (tracks : Tracks state holds)
include tracks

namespace Tracks

theorem listed_of_lasts {id : ℕ} (isSuspend : state.isSuspend id = true)
    (lasts : (holds id).Lasts state.now) : id ∈ state.active .suspend := by
  cases isLock : state.locks[id]? with
  | none => simp [State.isSuspend, isLock] at isSuspend
  | some lock =>
    rw [State.isSuspend_of_lock isLock] at isSuspend
    have isType : lock.type = .suspend := of_decide_eq_true isSuspend
    exact isType ▸ tracks.lasting id lock isLock lasts

theorem isSuspend_of_listed {id : ℕ} (listed : id ∈ state.active .suspend) :
    state.isSuspend id = true := by
  rcases tracks.listed .suspend id listed with ⟨lock, isLock, isType, _⟩
  rw [State.isSuspend_of_lock isLock]
  exact decide_eq_true isType

theorem verdict : Verdict state holds (state.hasWakeLockLocked .suspend).2 := by
  rcases tracks.scanActive (tracks.nodup .suspend) (fun _ mem => mem) le_rfl with
    ⟨_, _, found⟩
  generalize isValue : (state.hasWakeLockLocked .suspend).2 = value
  rw [hasWakeLockLocked] at isValue
  rw [isValue] at found
  cases found with
  | permanent id mem isForever => exact .permanent id (tracks.isSuspend_of_listed mem) isForever
  | longest value least covers attained =>
    have limited : ∀ id, state.isSuspend id = true → holds id ≠ .forever := by
      intro id isSuspend isForever
      have lasts : (holds id).Lasts state.now := by
        rw [isForever]
        trivial
      rcases covers id (tracks.listed_of_lasts isSuspend lasts) with ⟨deadline, isTimed, _⟩
      rw [isForever] at isTimed
      cases isTimed
    have within : ∀ id deadline, state.isSuspend id = true → holds id = .timed deadline →
        state.now < deadline → deadline ≤ state.now + value := by
      intro id deadline isSuspend isTimed ahead
      have lasts : (holds id).Lasts state.now := by
        rw [isTimed]
        exact ahead
      rcases covers id (tracks.listed_of_lasts isSuspend lasts) with ⟨other, isOther, bound⟩
      obtain rfl : deadline = other := Hold.timed.inj (isTimed.symm.trans isOther)
      rw [ticksLeft_of_lt ahead (tracks.bounded id deadline isTimed)] at bound
      omega
    rcases least.eq_or_lt with isZero | pos
    · subst isZero
      refine .nothing ?_
      intro id isSuspend lasts
      cases isHold : holds id with
      | released => rwa [isHold] at lasts
      | forever => exact limited id isSuspend isHold
      | timed deadline =>
        rw [isHold] at lasts
        have := within id deadline isSuspend isHold lasts
        simp only [Hold.Lasts] at lasts
        omega
    · refine .waiting value pos ?_ limited ?_
      · rcases attained with isZero | ⟨_, _, deadline, _, isLeft⟩
        · omega
        · rw [isLeft]
          exact ticksLeft_lt state.now deadline
      intro id deadline isSuspend isTimed
      by_cases ahead : state.now < deadline
      · exact .inr (within id deadline isSuspend isTimed ahead)
      · exact .inl (not_lt.mp ahead)

theorem hasWakeLockLocked_nonpos
    (past : ∀ id ∈ state.active .suspend, ∀ deadline, holds id = .timed deadline →
      ticksLeft state.now deadline ≤ 0) : (state.hasWakeLockLocked .suspend).2 ≤ 0 := by
  rcases tracks.scanActive (tracks.nodup .suspend) (fun _ mem => mem) le_rfl with
    ⟨_, _, found⟩
  rw [hasWakeLockLocked]
  generalize (state.scanActive (state.active .suspend) 0).2 = value at found
  cases found with
  | permanent _ _ _ => decide
  | longest value _ _ attained =>
    rcases attained with isZero | ⟨id, mem, deadline, isTimed, isLeft⟩
    · exact le_of_eq isZero
    · rw [isLeft]
      exact past id mem deadline isTimed

theorem hasWakeLockLocked (type : LockType) : Tracks (state.hasWakeLockLocked type).1 holds ∧
      SameTimer state (state.hasWakeLockLocked type).1 := by
  rcases tracks.scanActive (tracks.nodup type) (fun _ mem => mem) le_rfl with
    ⟨kept, same, _⟩
  exact ⟨kept, same⟩

theorem adjustTimer (verdict : Verdict state holds value) :
    Settled (state.adjustTimer value) holds := by
  cases verdict with
  | permanent id isSuspend isForever =>
    refine ⟨tracks.frame rfl rfl rfl, ⟨?_, ?_, ?_⟩, ?_, ?_⟩
    · intro _ _ _
      rfl
    · intro _ _ _ _ _ _
      exact ⟨id, isSuspend, isForever⟩
    · intro expires isSome
      cases isSome
    · intro isQueued
      cases isQueued
    · exact .inr (.inl ⟨id, isSuspend, isForever⟩)
  | nothing ended =>
    refine ⟨tracks.frame rfl rfl rfl, ⟨?_, ?_, ?_⟩, ?_, ?_⟩
    · intro _ _ _
      rfl
    · intro id deadline isSuspend isTimed ahead
      refine absurd ?_ (ended id isSuspend)
      rw [isTimed]
      exact ahead
    · intro expires isSome
      cases isSome
    · intro _
      exact ended
    · exact .inl rfl
  | waiting value pos small limited covers =>
    have isResult : state.adjustTimer value =
        ({ state with timer := some (add state.jiffies value.toNat) }, false) :=
      if_pos pos
    rw [isResult]
    refine ⟨tracks.frame rfl rfl rfl, ⟨?_, ?_, ?_⟩, ?_, ?_⟩
    · intro id isSuspend isForever
      exact absurd isForever (limited id isSuspend)
    · intro _ _ _ _ _ isNone
      cases isNone
    · intro expires isSome
      refine ⟨state.now + value, ?_, by show _ < (state.now : ℤ) + _; omega, ?_⟩
      · obtain rfl := Option.some.inj isSome
        unfold jiffies add ofSigned
        omega
      · intro id deadline isSuspend isTimed
        exact (covers id deadline isSuspend isTimed).symm
    · intro isQueued
      cases isQueued
    · refine .inr (.inr ?_)
      intro isNone
      cases isNone

theorem settle : Settled ((state.hasWakeLockLocked .suspend).1.adjustTimer
      (state.hasWakeLockLocked .suspend).2) holds := by
  rcases tracks.hasWakeLockLocked .suspend with ⟨kept, same⟩
  exact kept.adjustTimer (tracks.verdict.of_sameTimer same)

end Tracks

end Tracked

end Timer

/-! ## Every event -/

namespace History

def Permanent (history : History) : Prop :=
  ∃ id, history.state.isSuspend id = true ∧ history.holds id = .forever

def Attending (history : History) : Prop :=
  history.attended = true ∨ history.Permanent ∨ history.state.timer ≠ none ∨
    history.state.expiring = true

structure Kept (history : History) : Prop where
  tracks : Tracks history.state history.holds
  timed : Timed history.state history.holds

structure Stepped (history : History) (event : Event) : Prop where
  kept : (history.step event).Kept
  queued : (history.state.step event).2 = true → ∀ id, ¬ (history.step event).Held id
  attending : history.Punctual event → history.Attending → (history.step event).Attending

section Steps

variable {history : History} {event : Event} {after : State} {id : ℕ} {lock : WakeLock}

theorem Stepped.of_settled (settled : Settled (history.state.step event) (history.record event)) :
    history.Stepped event := by
  refine ⟨⟨settled.tracks, settled.timed⟩, ?_, ?_⟩
  · intro isQueued id held
    exact settled.queued isQueued id held.1 held.2
  intro _ _
  rcases settled.attended with isQueued | permanent | running
  · refine .inl ?_
    simp [step, isQueued]
  · exact .inr (.inl permanent)
  · exact .inr (.inr (.inl running))

theorem Stepped.of_quiet (result : history.state.step event = (after, false))
    (takesNone : history.takes event = false) (tracks : Tracks after (history.record event))
    (timed : Timed after (history.record event))
    (forth : ∀ id, history.state.isSuspend id = true → history.holds id = .forever →
      after.isSuspend id = true ∧ history.record event id = .forever)
    (running : history.state.timer ≠ none ∨ history.state.expiring = true →
      after.timer ≠ none ∨ after.expiring = true) : history.Stepped event := by
  have isAfter : (history.step event).state = after := by simp [step, result]
  refine ⟨⟨isAfter ▸ tracks, isAfter ▸ timed⟩, ?_, ?_⟩
  · intro isQueued
    rw [result] at isQueued
    cases isQueued
  intro _ attending
  rcases attending with wasAttended | ⟨id, isSuspend, isForever⟩ | wasRunning
  · refine .inl ?_
    simp [step, result, takesNone, wasAttended]
  · refine .inr (.inl ⟨id, ?_⟩)
    rw [isAfter]
    exact forth id isSuspend isForever
  · refine .inr (.inr ?_)
    rw [isAfter]
    exact running wasRunning

theorem note_of_lock {hold : Hold} (isLock : history.state.locks[id]? = some lock) :
    history.note id hold = update history.holds id hold :=
  if_pos (List.getElem?_eq_some_iff.mp isLock).1

theorem note_of_none {hold : Hold} (isNone : history.state.locks[id]? = none) :
    history.note id hold = history.holds :=
  if_neg (not_lt.mpr (getElem?_eq_none_iff.mp isNone))

section Stepped

variable (kept : history.Kept)
include kept

namespace Kept

theorem stepped_other {hold : Hold} (isLock : history.state.locks[id]? = some lock)
    (isOther : lock.type ≠ .suspend) (result : history.state.step event = (after, false))
    (takesNone : history.takes event = false)
    (isRecord : history.record event = history.note id hold)
    (tracks : Tracks after (update history.holds id hold))
    (same : SameTimer history.state after) : history.Stepped event := by
  rw [note_of_lock isLock] at isRecord
  have ne : ∀ other, history.state.isSuspend other = true → other ≠ id := by
    rintro other isSuspend rfl
    rw [State.isSuspend_of_lock isLock] at isSuspend
    exact isOther (of_decide_eq_true isSuspend)
  have forth : ∀ other, history.state.isSuspend other = true → history.holds other = .forever →
      after.isSuspend other = true ∧ history.record event other = .forever := by
    intro other isSuspend isForever
    rw [isRecord, update_of_ne (ne other isSuspend)]
    exact ⟨(same.isSuspend other).trans isSuspend, isForever⟩
  refine .of_quiet result takesNone (isRecord ▸ tracks) ?_ forth ?_
  · refine kept.timed.transfer (le_of_eq same.now.symm) same.timer ?_ forth
    intro other isSuspend _
    have wasSuspend := (same.isSuspend other).symm.trans isSuspend
    rw [isRecord, update_of_ne (ne other wasSuspend)]
    exact ⟨wasSuspend, rfl⟩
  · rw [same.timer, same.expiring]
    exact fun running => running

theorem stepped_none (result : history.state.step event = (history.state, false))
    (takesNone : history.takes event = false) (isRecord : history.record event = history.holds) :
    history.Stepped event := by
  refine .of_quiet result takesNone (isRecord ▸ kept.tracks) (isRecord ▸ kept.timed) ?_
    (fun running => running)
  intro other isSuspend isForever
  rw [isRecord]
  exact ⟨isSuspend, isForever⟩

theorem stepped_wakeLockInternal {timeout : Option Word.S32}
    (isStep : history.state.step event = history.state.wakeLockInternal id timeout)
    (isTaking : history.takes event = history.state.isSuspend id)
    (isRecord : history.record event = history.note id (.taken history.state.now timeout)) :
    history.Stepped event := by
  cases isLock : history.state.locks[id]? with
  | none =>
    refine kept.stepped_none ?_ ?_ (isRecord.trans (note_of_none isLock))
    · simp [isStep, wakeLockInternal, isLock]
    · simp [isTaking, State.isSuspend, isLock]
  | some lock =>
    have tracks := @Tracks.activate _ _ _ _ _ timeout kept.tracks isLock
      (fun other ne => update_of_ne ne _ history.holds)
      (update_self id _ history.holds)
    by_cases isSuspend : lock.type = .suspend
    · refine .of_settled ?_
      rw [isStep, isRecord, note_of_lock isLock]
      simp only [wakeLockInternal, isLock, if_pos isSuspend]
      cases timeout with
      | some ticks => exact tracks.settle
      | none =>
        refine tracks.adjustTimer (.permanent id ?_ (update_self id _ history.holds))
        rw [(SameTimer.activate isLock none).isSuspend id, State.isSuspend_of_lock isLock]
        exact decide_eq_true isSuspend
    refine kept.stepped_other isLock isSuspend ?_ ?_ isRecord tracks (.activate isLock timeout)
    · simp [isStep, wakeLockInternal, isLock, if_neg isSuspend]
    · rw [isTaking, State.isSuspend_of_lock isLock]
      exact decide_eq_false isSuspend

theorem stepped_wakeUnlock : history.Stepped (.wakeUnlock id) := by
  cases isLock : history.state.locks[id]? with
  | none =>
    refine kept.stepped_none ?_ rfl (note_of_none isLock)
    simp [State.step, State.wakeUnlock, isLock]
  | some lock =>
    have ended : ¬ (update history.holds id .released id).Lasts history.state.now := by
      rw [update_self]
      exact fun lasts => lasts
    have tracks := kept.tracks.deactivate isLock (fun other ne =>
      update_of_ne ne _ history.holds) ended
    by_cases isSuspend : lock.type = .suspend
    · refine .of_settled ?_
      show Settled (history.state.wakeUnlock id) (history.note id .released)
      rw [note_of_lock isLock]
      simp only [State.wakeUnlock, isLock, if_pos isSuspend]
      exact tracks.settle
    · refine kept.stepped_other isLock isSuspend ?_ rfl rfl tracks (.deactivate _ id)
      simp [State.step, State.wakeUnlock, isLock, if_neg isSuspend]

theorem stepped_wakeLockInit (type : LockType) : history.Stepped (.wakeLockInit type) := by
  have old : ∀ {id : ℕ} {lock : WakeLock}, history.state.locks[id]? = some lock →
      (history.state.wakeLockInit type).locks[id]? = some lock := by
    intro id lock isLock
    rw [State.wakeLockInit, List.getElem?_append_left (List.getElem?_eq_some_iff.mp isLock).1]
    exact isLock
  have new : ∀ {id : ℕ} {lock : WakeLock},
    (history.state.wakeLockInit type).locks[id]? = some lock →
      history.holds id ≠ .released → history.state.locks[id]? = some lock := by
    intro id lock isLock isHeld
    cases wasLock : history.state.locks[id]? with
    | none => exact absurd (kept.tracks.absent id wasLock) isHeld
    | some found => exact (old wasLock).symm.trans isLock
  have forth : ∀ id, history.state.isSuspend id = true → history.holds id = .forever →
      (history.state.wakeLockInit type).isSuspend id = true ∧ history.holds id = .forever :=
    fun _ isSuspend isForever => ⟨isSuspend_of_kept isSuspend old, isForever⟩
  refine .of_quiet rfl rfl ?_ ?_ forth (fun running => running)
  · constructor
    · exact kept.tracks.nodup
    · intro other id mem
      rcases kept.tracks.listed other id mem with ⟨lock, isLock, isType, matched⟩
      exact ⟨lock, old isLock, isType, matched⟩
    · intro id lock isLock lasts
      refine kept.tracks.lasting id lock (new isLock ?_) lasts
      intro isReleased
      have stays : (history.holds id).Lasts history.state.now := lasts
      rw [isReleased] at stays
      exact stays
    · exact kept.tracks.bounded
    · intro id isNone
      refine kept.tracks.absent id (getElem?_eq_none_iff.mpr ?_)
      have := getElem?_eq_none_iff.mp isNone
      simp only [State.wakeLockInit, length_append, length_singleton] at this
      omega
  · refine kept.timed.transfer le_rfl rfl ?_ forth
    intro id isSuspend isHeld
    exact ⟨isSuspend_of_kept isSuspend fun isLock => new isLock isHeld, rfl⟩

theorem stepped_hasWakeLock (type : LockType) : history.Stepped (.hasWakeLock type) := by
  rcases kept.tracks.hasWakeLockLocked type with ⟨tracks, same⟩
  refine .of_quiet rfl rfl tracks (kept.timed.of_sameTimer same) ?_ ?_
  · intro id isSuspend isForever
    exact ⟨(same.isSuspend id).trans isSuspend, isForever⟩
  · rw [same.timer, same.expiring]
    exact fun running => running

theorem stepped_tick (ticks : ℕ) : history.Stepped (.tick ticks) := by
  refine .of_quiet rfl rfl ⟨kept.tracks.nodup, kept.tracks.listed, ?_, ?_, kept.tracks.absent⟩
    (kept.timed.transfer (Nat.le_add_right _ _) rfl (fun _ isSuspend _ => ⟨isSuspend, rfl⟩)
      (fun _ isSuspend isForever => ⟨isSuspend, isForever⟩))
    (fun _ isSuspend isForever => ⟨isSuspend, isForever⟩) (fun running => running)
  · intro id lock isLock lasts
    refine kept.tracks.lasting id lock isLock ?_
    simp only [record] at lasts
    cases isHold : history.holds id with
    | released => rwa [isHold] at lasts
    | forever => trivial
    | timed deadline =>
      rw [isHold] at lasts
      simp only [Hold.Lasts] at lasts ⊢
      omega
  intro id deadline isTimed
  have := kept.tracks.bounded id deadline isTimed
  show deadline < ((history.state.now + ticks : ℕ) : ℤ) + 2147483648
  omega

theorem stepped_fireTimer : history.Stepped .fireTimer := by
  cases isTimer : history.state.timer with
  | none =>
    refine kept.stepped_none ?_ rfl rfl
    simp [State.step, State.fireTimer, isTimer]
  | some expires =>
    by_cases due : 0 ≤ toSigned (sub history.state.jiffies expires) ∧ history.state.expiring = false
    · rcases kept.timed.reaches expires isTimer with ⟨stop, isStop, small, covers⟩
      have reached : stop ≤ history.state.now := by
        by_contra ahead
        have late := due.1
        rw [jiffies, ← ofSigned_mod, isStop, toSigned_sub (by omega) (by omega)] at late
        omega
      have result : history.state.step .fireTimer =
          ({ history.state with timer := none, expiring := true }, false) := by
        simp [State.step, State.fireTimer, isTimer, if_pos due]
      refine .of_quiet result rfl (kept.tracks.frame rfl rfl rfl) ⟨?_, ?_, ?_⟩
        (fun _ isSuspend isForever => ⟨isSuspend, isForever⟩) (fun _ => .inr rfl)
      · intro _ _ _
        rfl
      · intro id deadline isSuspend isTimed ahead
        have := covers id deadline isSuspend isTimed
        simp only at ahead
        omega
      · intro other isSome
        cases isSome
    · refine kept.stepped_none ?_ rfl rfl
      simp [State.step, State.fireTimer, isTimer, if_neg due]

theorem stepped_expireWakeLocks : history.Stepped .expireWakeLocks := by
  by_cases entered : history.state.expiring = true
  · have tracks : Tracks { history.state with expiring := false } history.holds :=
      kept.tracks.frame rfl rfl rfl
    rcases tracks.hasWakeLockLocked .suspend with ⟨pruned, same⟩
    have verdict := tracks.verdict
    have nonpos := tracks.hasWakeLockLocked_nonpos
    generalize isResult :
      ({ history.state with expiring := false } : State).hasWakeLockLocked .suspend = result at *
    have stepped : history.state.step .expireWakeLocks = (result.1, decide (result.2 = 0)) := by
      simp [State.step, State.expireWakeLocks, if_pos entered, isResult]
    have isAfter : (history.step .expireWakeLocks).state = result.1 := by simp [step, stepped]
    have timed : Timed result.1 history.holds :=
      kept.timed.transfer (le_of_eq same.now.symm) same.timer
        (fun id isSuspend _ => ⟨(same.isSuspend id).symm.trans isSuspend, rfl⟩)
        (fun id isSuspend isForever => ⟨(same.isSuspend id).trans isSuspend, isForever⟩)
    refine ⟨⟨isAfter ▸ pruned, isAfter ▸ timed⟩, ?_, ?_⟩
    · intro isQueued id held
      rw [stepped] at isQueued
      rw [of_decide_eq_true isQueued] at verdict
      rw [Held, isAfter, same.isSuspend id, same.now] at held
      cases verdict with
      | nothing ended => exact ended id held.1 held.2
      | waiting _ pos _ _ _ => exact absurd pos (lt_irrefl 0)
    intro punctual _
    generalize isValue : result.2 = value at verdict nonpos stepped
    cases verdict with
    | permanent id isSuspend isForever =>
      refine .inr (.inl ⟨id, ?_, isForever⟩)
      rw [isAfter, same.isSuspend id]
      exact isSuspend
    | nothing _ =>
      refine .inl ?_
      simp [step, stepped]
    | waiting value pos _ limited _ =>
      refine .inr (.inr (.inl ?_))
      rw [isAfter, same.timer]
      intro isNone
      refine absurd (nonpos ?_) (not_le.mpr pos)
      intro id mem deadline isTimed
      have past := punctual isNone
        (fun other listed => limited other (tracks.isSuspend_of_listed listed)) id mem
      rw [isTimed] at past
      exact toSigned_sub_nonpos past
  · refine kept.stepped_none ?_ rfl rfl
    simp [State.step, State.expireWakeLocks, if_neg entered]

theorem stepped (event : Event) : history.Stepped event := by
  cases event with
  | wakeLockInit type => exact kept.stepped_wakeLockInit type
  | wakeLock id | wakeLockTimeout id timeout => exact kept.stepped_wakeLockInternal rfl rfl rfl
  | wakeUnlock id => exact kept.stepped_wakeUnlock
  | hasWakeLock type => exact kept.stepped_hasWakeLock type
  | tick ticks => exact kept.stepped_tick ticks
  | fireTimer => exact kept.stepped_fireTimer
  | expireWakeLocks => exact kept.stepped_expireWakeLocks

theorem correct (attending : history.Attending) : history.Correct := by
  refine ⟨fun event => (kept.stepped event).queued, kept.timed.stopped, ?_, ?_⟩
  · rintro limited ⟨id, isSuspend, lasts⟩
    cases isHold : history.holds id with
    | released =>
      rw [isHold] at lasts
      exact lasts.elim
    | forever => exact absurd isHold (limited id isSuspend)
    | timed deadline =>
      rw [isHold] at lasts
      have ahead : history.state.now < deadline := lasts
      cases isTimer : history.state.timer with
      | none =>
        rcases kept.timed.started id deadline isSuspend isHold ahead isTimer with
          ⟨other, otherSuspend, otherForever⟩
        exact absurd otherForever (limited other otherSuspend)
      | some expires =>
        rcases kept.timed.reaches expires isTimer with ⟨stop, isStop, small, covers⟩
        have := covers id deadline isSuspend isHold
        refine ⟨expires, rfl, ?_⟩
        intro other later otherSuspend isLater
        have := covers other later otherSuspend isLater
        rw [isStop, jiffies, ← ofSigned_mod, toSigned_sub (by omega) (by omega)]
        omega
  · intro noneHeld isNone notEntered
    rcases attending with attended | ⟨id, isSuspend, isForever⟩ | running | entered
    · exact attended
    · refine absurd ⟨isSuspend, ?_⟩ (noneHeld id)
      rw [isForever]
      trivial
    · exact absurd isNone running
    · rw [notEntered] at entered
      cases entered

end Kept

end Stepped

theorem kept_initial (now : ℕ) : (initial now).Kept := by
  refine ⟨⟨fun _ => nodup_nil, ?_, ?_, ?_, fun _ _ => rfl⟩, ⟨fun _ _ _ => rfl, ?_, ?_⟩⟩
  · intro _ _ mem
    cases mem
  · intro _ _ _ lasts
    exact lasts.elim
  · intro _ _ isTimed
    cases isTimed
  · intro _ _ _ isTimed
    cases isTimed
  · intro _ isSome
    cases isSome

/-- If the timer is punctual, the work is queued only when no suspend lock is held, and the system
is not left without lock, timer and work. -/
theorem correct_run (now : ℕ) (events : List Event)
    (punctual : Run.Admits step Punctual (initial now) events) :
    (Run.run step (initial now) events).Correct := by
  have kept : (Run.run step (initial now) events).Kept ∧
      (Run.run step (initial now) events).Attending := by
    refine Run.invariant_run (fun history => history.Kept ∧ history.Attending) ?_
      ⟨kept_initial now, .inl rfl⟩ punctual
    rintro history event ⟨kept, attending⟩ meets
    exact ⟨(kept.stepped event).kept, (kept.stepped event).attending meets attending⟩
  exact kept.1.correct kept.2

/-- A lock for ten ticks that expires while another lock is held. -/
theorem correct_run_two_locks : (Run.run step (initial 4294967290)
      [.wakeLockInit .suspend, .wakeLockInit .suspend, .wakeLockTimeout 0 ⟨10, by decide⟩,
        .wakeLock 1, .tick 20, .wakeLockTimeout 1 ⟨5, by decide⟩, .tick 5, .fireTimer,
        .expireWakeLocks]).Correct := by
  refine correct_run _ _ ⟨trivial, trivial, trivial, trivial, trivial, trivial, trivial, trivial,
    ?_, trivial⟩
  simp only [Punctual]
  decide +kernel

/-- A lock for one tick and one for the longest time. The function of the timer runs three ticks
late. -/
def lateTimer : List Event :=
  [.wakeLockInit .suspend, .wakeLockInit .suspend, .wakeLockTimeout 0 ⟨1, by decide⟩,
    .wakeLockTimeout 1 ⟨2147483647, by decide⟩, .tick 2147483650, .fireTimer, .expireWakeLocks]

/-- The first lock looks as if it had not expired, so the work is not queued, and nothing
will queue it later. -/
theorem not_correct_lateTimer : ¬ (Run.run step (initial 0) lateTimer).Correct := by
  intro correct
  have length : (Run.run step (initial 0) lateTimer).state.locks.length = 2 := by decide +kernel
  have attended := correct.left ?_ (by decide +kernel) (by decide +kernel)
  · revert attended
    decide +kernel
  rintro id ⟨isSuspend, lasts⟩
  have bound := lt_of_isSuspend isSuspend
  rw [length] at bound
  interval_cases id
  all_goals
    revert lasts
    decide +kernel

end Steps

end History

end StreakKernel.Wakelock
