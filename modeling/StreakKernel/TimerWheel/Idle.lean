import StreakKernel.TimerWheel.Expiry
import StreakKernel.TimerWheel.NextEvent

/-!
# How long an idle processor may sleep

`next_timer` is computed only when it has passed; otherwise arming a timer may lower it and
disarming the timer that determined it sets it back. All comparisons are those of counters that
wrap, so that they can be relied on only between times less than 2^31 ticks apart.
-/

namespace StreakKernel.TimerWheel

open Function Word TimingWheel Places Run Base

universe u

variable {Timer : Type u}

/-- A history with the tick before which `next_timer` was computed the last time. -/
structure Watch (Timer : Type u) where
  history : History Timer
  computed : ℕ

namespace Watch

def boot (jiffies : U32) (deferrable : Timer → Bool) : Watch Timer :=
  ⟨.boot jiffies deferrable, jiffies⟩

def Due (history : History Timer) (moment : ℕ) : Prop :=
  ∃ timer arming, history.base.pending timer = true ∧ history.base.deferrable timer = false ∧
    history.armed timer = some arming ∧ arming.deadline = moment

/-- `next_timer` is not after any expiry; if it lies ahead it is the least one, up to the bound
when it was computed. -/
structure Awake (watch : Watch Timer) : Prop where
  notAfter : ∀ timer, watch.history.base.pending timer = true →
    watch.history.base.deferrable timer = false →
      ¬timeBefore (watch.history.base.expires timer) watch.history.base.nextTimer
  exact : timeBefore watch.history.base.timerJiffies watch.history.base.nextTimer →
    ∃ next, watch.history.base.nextTimer = next % 4294967296 ∧ watch.history.ticks < next ∧
      Least (watch.computed + nextTimerMaxDelta) (Due watch.history) next
  expiry : ∀ timer arming, watch.history.armed timer = some arming →
    watch.history.base.deferrable timer = false →
      watch.history.base.expires timer = arming.deadline % 4294967296

/-- An expiry that does not lie in the past and is less than 2^31 ticks after `next_timer`. -/
def InReach (base : Base Timer) (expires : ℕ) : Prop :=
  0 ≤ toSigned (sub expires base.timerJiffies) ∧
    toSigned (sub expires base.timerJiffies) + toSigned (sub base.timerJiffies base.nextTimer) <
      2147483648
  deriving Decidable

variable [DecidableEq Timer]

def step (watch : Watch Timer) (request : Request Timer) : Watch Timer where
  history := watch.history.step request
  computed :=
    match request with
    | .getNextTimerInterrupt =>
      if timeAfterEq watch.history.base.timerJiffies watch.history.base.nextTimer then
        watch.history.ticks
      else watch.computed
    | _ => watch.computed

/-- Timers that are not deferrable are armed within reach, and the next timer is looked for
between two ticks. -/
def Regular (watch : Watch Timer) : Request Timer → Prop
  | .modTimer timer expires _ =>
    watch.history.base.deferrable timer = true ∨ InReach watch.history.base expires
  | .addTimerOn timer expires =>
    watch.history.base.deferrable timer = true ∨ InReach watch.history.base expires
  | .beginTick =>
    toSigned (sub watch.history.base.timerJiffies watch.history.base.nextTimer) < 2147483647
  | .getNextTimerInterrupt => watch.history.base.workList.isEmpty = true
  | _ => True

instance (watch : Watch Timer) (request : Request Timer) : Decidable (Regular watch request) :=
  match request with
  | .advance _ => isTrue trivial
  | .modTimer _ _ _ => inferInstanceAs (Decidable (_ ∨ _))
  | .addTimerOn _ _ => inferInstanceAs (Decidable (_ ∨ _))
  | .delTimer _ => isTrue trivial
  | .beginTick => inferInstanceAs (Decidable (_ < _))
  | .runTimer => isTrue trivial
  | .getNextTimerInterrupt => inferInstanceAs (Decidable (_ = true))

end Watch

/-! ## The cached time -/

theorem toSigned_sub_mod {left right : ℕ} (low : right ≤ left + 2147483648)
    (high : left < right + 2147483648) :
    toSigned (sub (left % 4294967296) (right % 4294967296)) = (left : ℤ) - right := by
  unfold toSigned sub
  split_ifs <;> omega

def DueOf (armed : Armed Timer) (deferrable : Timer → Bool) (moment : ℕ) : Prop :=
  ∃ timer arming, deferrable timer = false ∧ armed timer = some arming ∧ arming.deadline = moment

/-- The cached time is the least deadline if it lies ahead. -/
def Next (armed : Armed Timer) (deferrable : Timer → Bool) (ticks computed nextTimer : ℕ) : Prop :=
  ∃ next, nextTimer = next % 4294967296 ∧ ticks < next + 2147483648 ∧
    next ≤ ticks + nextTimerMaxDelta ∧
    (ticks < next → Least (computed + nextTimerMaxDelta) (DueOf armed deferrable) next)

section Next

variable {armed : Armed Timer} {deferrable : Timer → Bool} {ticks computed nextTimer : ℕ}
  {timer : Timer} {arming : Arming}

theorem next_now (armed : Armed Timer) (deferrable : Timer → Bool) (ticks computed : ℕ) :
    Next armed deferrable ticks computed (ticks % 4294967296) :=
  ⟨ticks, rfl, by omega, Nat.le_add_right _ _, fun never => absurd never (lt_irrefl _)⟩

variable [DecidableEq Timer]

section

variable (isNext : Next armed deferrable ticks computed nextTimer)
include isNext

theorem Next.disarm (other : ∀ arming, armed timer = some arming → deferrable timer = false →
      arming.deadline ≤ ticks ∨ arming.deadline % 4294967296 ≠ nextTimer) :
    Next (update armed timer none) deferrable ticks computed nextTimer := by
  rcases isNext with ⟨next, isNext, behind, ahead, exact⟩
  refine ⟨next, isNext, behind, ahead, fun isAhead => ?_⟩
  have isLeast := exact isAhead
  refine ⟨isLeast.le_bound, ?_, ?_⟩
  · rintro moment ⟨x, arming, isWaker, isArmed, isDue⟩
    by_cases same : x = timer
    · subst same
      rw [update_self] at isArmed
      cases isArmed
    · rw [update_of_ne same] at isArmed
      exact isLeast.le_due moment ⟨x, arming, isWaker, isArmed, isDue⟩
  rcases isLeast.attained with isBound | ⟨x, arming, isWaker, isArmed, isDue⟩
  · exact .inl isBound
  refine .inr ⟨x, arming, isWaker, ?_, isDue⟩
  rw [update_of_ne]
  · exact isArmed
  rintro rfl
  rcases other arming isArmed isWaker with isPast | isOther
  · omega
  · exact isOther (by rw [isDue, isNext])

theorem Next.arm (unarmed : armed timer = none) (isTick : arming.tick = ticks)
    (fits : arming.expires < 4294967296) (inReach : deferrable timer = true ∨ 0 ≤ arming.delay ∧
      arming.delay + toSigned (sub (ticks % 4294967296) nextTimer) < 2147483648) :
    Next (update armed timer (some arming)) deferrable ticks computed
      (if timeBefore arming.expires nextTimer ∧ deferrable timer = false then arming.expires
        else nextTimer) := by
  rcases isNext with ⟨next, isNext, behind, ahead, exact⟩
  have dueOf : ∀ moment, DueOf (update armed timer (some arming)) deferrable moment ↔
      DueOf armed deferrable moment ∨ deferrable timer = false ∧ arming.deadline = moment := by
    intro moment
    constructor
    · rintro ⟨x, other, isWaker, isArmed, isDue⟩
      by_cases same : x = timer
      · subst same
        rw [update_self] at isArmed
        obtain rfl := Option.some.inj isArmed
        exact .inr ⟨isWaker, isDue⟩
      · rw [update_of_ne same] at isArmed
        exact .inl ⟨x, other, isWaker, isArmed, isDue⟩
    rintro (⟨x, other, isWaker, isArmed, isDue⟩ | ⟨isWaker, isDue⟩)
    · refine ⟨x, other, isWaker, ?_, isDue⟩
      rw [update_of_ne]
      · exact isArmed
      · rintro rfl
        rw [unarmed] at isArmed
        cases isArmed
    · exact ⟨timer, arming, isWaker, update_self _ _ _, isDue⟩
  cases isDeferrable : deferrable timer with
  | true =>
    rw [if_neg (by simp)]
    refine ⟨next, isNext, behind, ahead, fun isAhead => (exact isAhead).congr fun moment => ?_⟩
    rw [dueOf moment]
    simp [isDeferrable]
  | false =>
    rcases inReach with never | ⟨future, reached⟩
    · rw [isDeferrable] at never
      cases never
    have isDeadline : arming.deadline = ticks + arming.delay.toNat := by
      rw [Arming.deadline, if_pos future, isTick]
    have isMod := Arming.deadline_mod fits future
    unfold nextTimerMaxDelta at ahead
    rw [isNext, toSigned_sub_mod (by omega) behind] at reached
    have isBefore : timeBefore arming.expires nextTimer ↔ arming.deadline < next := by
      rw [← isMod, isNext]
      exact timeBefore_mod (by omega) (by omega)
    by_cases before : arming.deadline < next
    · rw [if_pos ⟨isBefore.mpr before, rfl⟩]
      refine ⟨arming.deadline, isMod.symm, by omega, ?_, fun isAhead => ?_⟩
      · unfold nextTimerMaxDelta
        omega
      have isLeast := exact (isAhead.trans before)
      refine ⟨before.le.trans isLeast.le_bound, ?_, .inr ((dueOf _).mpr (.inr ⟨isDeferrable, rfl⟩))⟩
      intro moment isDue
      rcases (dueOf moment).mp isDue with isOld | ⟨_, isNew⟩
      · exact before.le.trans (isLeast.le_due moment isOld)
      · exact isNew.le
    rw [if_neg fun both => before (isBefore.mp both.1)]
    refine ⟨next, isNext, behind, ahead, fun isAhead => (exact isAhead).extend ?_ ?_⟩
    · exact fun moment isDue => (dueOf moment).mpr (.inl isDue)
    intro moment isDue
    rcases (dueOf moment).mp isDue with isOld | ⟨_, isNew⟩
    · exact .inl isOld
    · exact .inr (isNew ▸ not_lt.mp before)

end

end Next

/-! ## The steps -/

namespace Watch

structure Cached (watch : Watch Timer) : Prop where
  good : watch.history.Good
  computed : watch.computed ≤ watch.history.ticks
  isExpires : ∀ timer arming, watch.history.armed timer = some arming →
    watch.history.base.expires timer = arming.expires
  isTick : ∀ timer arming, watch.history.armed timer = some arming →
    arming.tick ≤ watch.history.ticks
  future : ∀ timer arming, watch.history.armed timer = some arming →
    watch.history.base.deferrable timer = false → 0 ≤ arming.delay
  isNext : Next watch.history.armed watch.history.base.deferrable watch.history.ticks
    watch.computed watch.history.base.nextTimer

section Steps

variable {watch : Watch Timer} {timer : Timer}

variable {arming : Arming} {base : Base Timer}

theorem Cached.isMod (cached : watch.Cached) (isArmed : watch.history.armed timer = some arming)
    (isWaker : watch.history.base.deferrable timer = false) :
    watch.history.base.expires timer = arming.deadline % 4294967296 := by
  rw [cached.isExpires timer arming isArmed, Arming.deadline_mod
    (cached.good.numbered timer arming isArmed).2 (cached.future timer arming isArmed isWaker)]

theorem Cached.dueOf (cached : watch.Cached) (moment : ℕ) :
    DueOf watch.history.armed watch.history.base.deferrable moment ↔ Due watch.history moment := by
  constructor
  · rintro ⟨x, arming, isWaker, isArmed, isDue⟩
    have isPending := (cached.good.loaded.pending x List.not_mem_nil).mpr (by simp [isArmed])
    exact ⟨x, arming, isPending, isWaker, isArmed, isDue⟩
  · rintro ⟨x, arming, _, isWaker, isArmed, isDue⟩
    exact ⟨x, arming, isWaker, isArmed, isDue⟩

theorem Cached.deadline_lt (cached : watch.Cached)
    (isArmed : watch.history.armed timer = some arming)
    (isWaker : watch.history.base.deferrable timer = false) :
    arming.deadline < watch.history.ticks + 2147483648 := by
  have isTick := cached.isTick timer arming isArmed
  have short := arming.delay_lt
  rw [Arming.deadline, if_pos (cached.future timer arming isArmed isWaker)]
  omega

/-! ## Looking for the next timer -/

def deadlineOf (armed : Armed Timer) (timer : Timer) : ℕ :=
  match armed timer with
  | none => 0
  | some arming => arming.deadline

theorem deadlineOf_eq {armed : Armed Timer} (isArmed : armed timer = some arming) :
    deadlineOf armed timer = arming.deadline := by
  rw [deadlineOf, isArmed]

theorem mem_wakers {lev slot : ℕ} : timer ∈ base.wakers lev slot ↔
      timer ∈ base.listAt (some (lev, slot)) ∧ base.deferrable timer = false := by
  simp [wakers, listAt]

theorem Cached.timely (cached : watch.Cached) :
    Timely watch.history.base watch.history.ticks (deadlineOf watch.history.armed) := by
  have placed : ∀ lev slot, ∀ x ∈ watch.history.base.wakers lev slot, ∃ arming,
      watch.history.armed x = some arming ∧ lev ≤ 4 ∧ slot = wheel.slotOf lev arming.deadline ∧
      wheel.Within lev (wheel.upcoming watch.history.ticks lev) arming.deadline ∧
      watch.history.base.deferrable x = false := by
    intro lev slot x mem
    rw [mem_wakers] at mem
    rcases cached.good.loaded.placed _ x mem.1 with
      ⟨arming, isArmed, level, isSlot, within, _⟩
    exact ⟨arming, isArmed, level, isSlot, within, mem.2⟩
  refine ⟨cached.good.loaded.clock, ?_, ?_, ?_, ?_, ?_⟩
  · intro lev slot x mem
    rcases placed lev slot x mem with ⟨arming, _, level, _, _, _⟩
    exact level
  · intro lev slot x mem
    rcases placed lev slot x mem with ⟨arming, isArmed, _, isSlot, _, _⟩
    rw [deadlineOf_eq isArmed]
    exact isSlot
  · intro lev slot x mem
    rcases placed lev slot x mem with ⟨arming, isArmed, _, _, within, _⟩
    rw [deadlineOf_eq isArmed]
    exact within
  · intro lev slot x mem
    rcases placed lev slot x mem with ⟨arming, isArmed, _, _, _, isWaker⟩
    rw [deadlineOf_eq isArmed]
    exact cached.isMod isArmed isWaker
  · intro lev slot x mem
    rcases placed lev slot x mem with ⟨arming, isArmed, _, _, _, isWaker⟩
    rw [deadlineOf_eq isArmed]
    exact cached.deadline_lt isArmed isWaker

theorem Cached.seen_iff (cached : watch.Cached) (idle : watch.history.base.workList = [])
    (moment : ℕ) :
    Seen watch.history.base (deadlineOf watch.history.armed) 5 moment ↔
      DueOf watch.history.armed watch.history.base.deferrable moment := by
  constructor
  · rintro ⟨lev, _, slot, x, mem, isDue⟩
    rw [mem_wakers] at mem
    rcases cached.good.loaded.placed _ x mem.1 with ⟨arming, isArmed, _⟩
    rw [deadlineOf_eq isArmed] at isDue
    exact ⟨x, arming, mem.2, isArmed, isDue⟩
  rintro ⟨x, arming, isWaker, isArmed, isDue⟩
  rcases cached.good.loaded.present x (by simp [isArmed]) List.not_mem_nil with ⟨place, mem⟩
  cases place with
  | none =>
    have inWork : x ∈ watch.history.base.workList := mem
    rw [idle] at inWork
    cases inWork
  | some bucket =>
    rcases cached.good.loaded.placed _ x mem with ⟨_, _, level, _⟩
    refine ⟨bucket.1, Nat.lt_succ_of_le level, bucket.2, x, mem_wakers.mpr ⟨mem, isWaker⟩, ?_⟩
    rw [deadlineOf_eq isArmed, isDue]

/-- The cached time after it has been asked for. -/
def Asked (watch : Watch Timer) : Prop :=
  ∃ next, watch.history.base.nextTimer = next % 4294967296 ∧ watch.history.ticks ≤ next ∧
    next ≤ watch.history.ticks + nextTimerMaxDelta ∧
    Least (watch.computed + nextTimerMaxDelta)
      (DueOf watch.history.armed watch.history.base.deferrable) next

theorem Cached.awake (cached : watch.Cached) (asked : watch.Asked) : watch.Awake := by
  rcases asked with ⟨next, isNext, notBehind, ahead, isLeast⟩
  unfold nextTimerMaxDelta at ahead
  refine ⟨?_, ?_, fun timer arming => cached.isMod⟩
  · intro timer isPending isWaker
    obtain ⟨arming, isArmed⟩ := Option.ne_none_iff_exists'.mp
      ((cached.good.loaded.pending timer List.not_mem_nil).mp isPending)
    have near := cached.deadline_lt isArmed isWaker
    have later := isLeast.le_due _ ⟨timer, arming, isWaker, isArmed, rfl⟩
    rw [cached.isMod isArmed isWaker, isNext, timeBefore_mod (by omega) (by omega)]
    omega
  · intro isAhead
    rw [cached.good.loaded.clock, isNext, timeBefore_mod (by omega) (by omega)] at isAhead
    exact ⟨next, isNext, isAhead, isLeast.congr cached.dueOf⟩

theorem cached_boot (jiffies : U32) (deferrable : Timer → Bool) :
    (boot jiffies deferrable).Cached := by
  refine ⟨History.good_boot jiffies deferrable, le_rfl, ?_, ?_, ?_, ?_⟩
  · intro timer arming never
    cases never
  · intro timer arming never
    cases never
  · intro timer arming never
    cases never
  · have isNow : (boot jiffies deferrable).history.base.nextTimer = jiffies.val % 4294967296 :=
      (Nat.mod_eq_of_lt jiffies.isLt).symm
    rw [isNow]
    exact next_now _ _ _ _

variable [DecidableEq Timer]

theorem Cached.getNextTimerInterrupt (cached : watch.Cached)
    (idle : watch.history.base.workList = []) :
    (watch.step .getNextTimerInterrupt).Cached ∧ (watch.step .getNextTimerInterrupt).Asked := by
  rcases cached.isNext with ⟨next, isNext, behind, ahead, exact⟩
  have isAfter : timeAfterEq watch.history.base.timerJiffies watch.history.base.nextTimer ↔
      next ≤ watch.history.ticks := by
    unfold timeAfterEq
    unfold nextTimerMaxDelta at ahead
    rw [cached.good.loaded.clock, isNext, toSigned_sub_mod (by omega) behind]
    omega
  have good := cached.good.step .getNextTimerInterrupt
  simp only [step, History.step, Base.getNextTimerInterrupt] at good ⊢
  by_cases isOld : next ≤ watch.history.ticks
  · simp only [if_pos (isAfter.mpr isOld)] at good ⊢
    rcases nextTimerInterrupt_spec cached.timely with ⟨time, isTime, late, isLeast⟩
    have isDue := isLeast.congr (cached.seen_iff idle)
    refine ⟨⟨good, le_rfl, cached.isExpires, cached.isTick, cached.future, time, isTime, ?_,
      isLeast.le_bound, fun _ => isDue⟩, time, isTime, late, isLeast.le_bound, isDue⟩
    simp only
    omega
  · simp only [if_neg (fun isLate => isOld (isAfter.mp isLate))] at good ⊢
    exact ⟨⟨good, cached.computed, cached.isExpires, cached.isTick, cached.future, next, isNext,
      behind, ahead, exact⟩, next, isNext, (not_le.mp isOld).le, ahead, exact (not_le.mp isOld)⟩

/-! ## Arming and disarming -/

theorem Cached.forgetNext (cached : watch.Cached) (timer : Timer) (clearPending : Bool) :
    Next (update watch.history.armed timer none) watch.history.base.deferrable
      watch.history.ticks watch.computed
      ((watch.history.base.detachTimer timer clearPending).forgetNext timer).nextTimer := by
  rw [forgetNext_eq]
  show Next _ _ _ _ (if watch.history.base.expires timer = watch.history.base.nextTimer ∧
    watch.history.base.deferrable timer = false then watch.history.base.timerJiffies
    else watch.history.base.nextTimer)
  split_ifs with determined
  · rw [cached.good.loaded.clock]
    exact next_now _ _ _ _
  refine cached.isNext.disarm ?_
  intro arming isArmed isWaker
  refine .inr fun isDue => determined ⟨?_, isWaker⟩
  exact (cached.isMod isArmed isWaker).trans isDue

theorem InReach.forgetNext {expires : ℕ} (inReach : InReach base expires) (timer : Timer)
    (clearPending : Bool) :
    InReach ((base.detachTimer timer clearPending).forgetNext timer) expires := by
  unfold Base.forgetNext
  split_ifs with determined
  · refine ⟨inReach.1, ?_⟩
    have short : toSigned (sub expires base.timerJiffies) < 2147483648 := toSigned_lt (sub_lt _ _)
    have isZero : toSigned (sub base.timerJiffies base.timerJiffies) = 0 := by
      unfold toSigned sub
      split_ifs <;> omega
    simp only [detachTimer]
    omega
  · exact inReach

section

variable (cached : watch.Cached)
include cached

namespace Cached

theorem arm {expires : U32}
    (good : (watch.history.arm (base.enqueue timer expires) timer expires).Good)
    (sameExpires : base.expires = watch.history.base.expires)
    (sameDeferrable : base.deferrable = watch.history.base.deferrable)
    (sameClock : base.timerJiffies = watch.history.base.timerJiffies)
    (isNext : Next (update watch.history.armed timer none) watch.history.base.deferrable
      watch.history.ticks watch.computed base.nextTimer)
    (inReach : watch.history.base.deferrable timer = true ∨ InReach base expires) :
    Cached ⟨watch.history.arm (base.enqueue timer expires) timer expires, watch.computed⟩ := by
  generalize isArming : (⟨watch.history.ticks, expires, watch.history.armings⟩ : Arming) = arming
  have isDelay : arming.delay = toSigned (sub expires base.timerJiffies) := by
    rw [← isArming, Arming.delay, sameClock, cached.good.loaded.clock]
  have isTick : arming.tick = watch.history.ticks := by rw [← isArming]
  have isExpiry : arming.expires = expires := by rw [← isArming]
  have reached : watch.history.base.deferrable timer = true ∨ 0 ≤ arming.delay ∧
      arming.delay + toSigned (sub (watch.history.ticks % 4294967296) base.nextTimer) <
        2147483648 := by
    rw [isDelay, ← cached.good.loaded.clock, ← sameClock]
    exact inReach
  have armedNext := isNext.arm (update_self _ _ _) isTick (isExpiry ▸ expires.isLt) reached
  rw [update_idem, isExpiry] at armedNext
  have cases : ∀ x other, update watch.history.armed timer (some arming) x = some other →
      x = timer ∧ other = arming ∨ x ≠ timer ∧ watch.history.armed x = some other := by
    intro x other isArmed
    by_cases same : x = timer
    · subst same
      rw [update_self] at isArmed
      exact .inl ⟨rfl, (Option.some.inj isArmed).symm⟩
    · rw [update_of_ne same] at isArmed
      exact .inr ⟨same, isArmed⟩
  refine ⟨good, cached.computed, ?_, ?_, ?_, ?_⟩
  · intro x other isArmed
    simp only [History.arm, isArming] at isArmed ⊢
    rw [enqueue_eq]
    simp only [Base.internalAddTimer, Base.addTail, Base.setBucket]
    rcases cases x other isArmed with ⟨rfl, rfl⟩ | ⟨ne, isOld⟩
    · rw [update_self, isExpiry]
    · rw [update_of_ne ne, sameExpires]
      exact cached.isExpires x other isOld
  · intro x other isArmed
    simp only [History.arm, isArming] at isArmed ⊢
    rcases cases x other isArmed with ⟨rfl, rfl⟩ | ⟨_, isOld⟩
    · exact isTick.le
    · exact cached.isTick x other isOld
  · intro x other isArmed isWaker
    simp only [History.arm, isArming] at isArmed isWaker
    rw [enqueue_eq] at isWaker
    simp only [Base.internalAddTimer, Base.addTail, Base.setBucket, sameDeferrable] at isWaker
    rcases cases x other isArmed with ⟨rfl, rfl⟩ | ⟨_, isOld⟩
    · rcases reached with isDeferrable | ⟨future, _⟩
      · rw [isWaker] at isDeferrable
        cases isDeferrable
      · exact future
    · exact cached.future x other isOld isWaker
  · simp only [History.arm, isArming]
    rw [enqueue_eq]
    simp only [Base.internalAddTimer, Base.addTail, Base.setBucket, sameDeferrable]
    exact armedNext

theorem disarm (good : (watch.history.disarm base timer).Good)
    (sameExpires : base.expires = watch.history.base.expires)
    (sameDeferrable : base.deferrable = watch.history.base.deferrable)
    (isNext : Next (update watch.history.armed timer none) watch.history.base.deferrable
      watch.history.ticks watch.computed base.nextTimer) :
    Cached ⟨watch.history.disarm base timer, watch.computed⟩ := by
  have isOld : ∀ x arming, update watch.history.armed timer none x = some arming →
      watch.history.armed x = some arming := by
    intro x arming isArmed
    by_cases same : x = timer
    · subst same
      rw [update_self] at isArmed
      cases isArmed
    · rwa [update_of_ne same] at isArmed
  refine ⟨good, cached.computed, ?_, ?_, ?_, ?_⟩
  · intro x arming isArmed
    simp only [History.disarm, sameExpires]
    exact cached.isExpires x arming (isOld x arming isArmed)
  · exact fun x arming isArmed => cached.isTick x arming (isOld x arming isArmed)
  · intro x arming isArmed isWaker
    simp only [History.disarm, sameDeferrable] at isWaker
    exact cached.future x arming (isOld x arming isArmed) isWaker
  · simp only [History.disarm, sameDeferrable]
    exact isNext

theorem unarmed (notPending : watch.history.base.pending timer = false) :
    update watch.history.armed timer none = watch.history.armed := by
  rw [← cached.good.unarmed notPending, update_eq_self]

theorem modTimer (timer : Timer) (expires : U32) (pendingOnly : Bool)
    (inReach : watch.history.base.deferrable timer = true ∨ InReach watch.history.base expires) :
    (watch.step (.modTimer timer expires pendingOnly)).Cached := by
  have good := cached.good.modTimer timer expires pendingOnly
  simp only [step, History.step, Base.modTimer] at good ⊢
  by_cases isPending : watch.history.base.pending timer = true
  · simp only [isPending, if_true, Bool.true_eq_false, false_and, if_false] at good ⊢
    refine cached.arm good ?_ ?_ ?_ (cached.forgetNext timer false)
      (inReach.imp_right fun reach => reach.forgetNext timer false)
    all_goals
      rw [forgetNext_eq]
      rfl
  rw [Bool.not_eq_true] at isPending
  simp only [isPending, true_and, Bool.false_eq_true, if_false] at good ⊢
  split_ifs at good ⊢ with isOnly
  · exact cached
  · refine cached.arm good rfl rfl rfl ?_ inReach
    rw [cached.unarmed isPending]
    exact cached.isNext

theorem addTimerOn (timer : Timer) (expires : U32)
    (inReach : watch.history.base.deferrable timer = true ∨ InReach watch.history.base expires) :
    (watch.step (.addTimerOn timer expires)).Cached := by
  have good := cached.good.addTimerOn timer expires
  simp only [step, History.step, Base.addTimerOn] at good ⊢
  split_ifs at good ⊢ with isPending
  · exact cached
  rw [Bool.not_eq_true] at isPending
  refine cached.arm good rfl rfl rfl ?_ inReach
  rw [cached.unarmed isPending]
  exact cached.isNext

theorem delTimer (timer : Timer) : (watch.step (.delTimer timer)).Cached := by
  have good := cached.good.delTimer timer
  simp only [step, History.step, Base.delTimer] at good ⊢
  split_ifs at good ⊢ with isPending
  · refine cached.disarm good ?_ ?_ (cached.forgetNext timer true)
    all_goals
      rw [forgetNext_eq]
      rfl
  rw [Bool.not_eq_true] at isPending
  refine cached.disarm good rfl rfl ?_
  rw [cached.unarmed isPending]
  exact cached.isNext

end Cached

end

/-! ## Running timers -/

theorem kept_beginTick {α : Type*} (field : Base Timer → α)
    (keptAdd : ∀ base timer, field (base.internalAddTimer timer) = field base)
    (keptClear : ∀ base lev slot, field (base.setBucket lev slot []) = field base)
    (keptWork : ∀ (base : Base Timer) jiffies timers,
      field { base with timerJiffies := jiffies, workList := timers } = field base)
    (base : Base Timer) : field base.beginTick = field base := by
  unfold Base.beginTick
  rw [keptWork, keptClear]
  split_ifs with isZero
  · exact kept_cascades field keptAdd keptClear 4 1 256 base
  · rfl

theorem Cached.beginTick (cached : watch.Cached)
    (near : toSigned (sub watch.history.base.timerJiffies watch.history.base.nextTimer) <
      2147483647) : (watch.step .beginTick).Cached := by
  have good := cached.good.beginTick
  simp only [step, History.step] at good ⊢
  split_ifs at good ⊢ with begins
  · have isNextTimer : watch.history.base.beginTick.nextTimer = watch.history.base.nextTimer :=
      kept_beginTick Base.nextTimer (fun _ _ => rfl) (fun _ _ _ => rfl) (fun _ _ _ => rfl) _
    have isExpires : watch.history.base.beginTick.expires = watch.history.base.expires :=
      kept_beginTick Base.expires (fun _ _ => rfl) (fun _ _ _ => rfl) (fun _ _ _ => rfl) _
    have isDeferrable : watch.history.base.beginTick.deferrable = watch.history.base.deferrable :=
      kept_beginTick Base.deferrable (fun _ _ => rfl) (fun _ _ _ => rfl) (fun _ _ _ => rfl) _
    refine ⟨good, cached.computed.trans (Nat.le_succ _), ?_, ?_, ?_, ?_⟩
    · intro x arming isArmed
      simp only [isExpires]
      exact cached.isExpires x arming isArmed
    · exact fun x arming isArmed => (cached.isTick x arming isArmed).trans (Nat.le_succ _)
    · intro x arming isArmed isWaker
      simp only [isDeferrable] at isWaker
      exact cached.future x arming isArmed isWaker
    · simp only [isDeferrable, isNextTimer]
      rcases cached.isNext with ⟨next, isNext, behind, ahead, exact⟩
      have ahead' := ahead
      unfold nextTimerMaxDelta at ahead'
      rw [cached.good.loaded.clock, isNext, toSigned_sub_mod (by omega) behind] at near
      exact ⟨next, isNext, by omega, by omega, fun isAhead => exact (by omega)⟩
  · exact cached

theorem Cached.runTimer (cached : watch.Cached) : (watch.step .runTimer).Cached := by
  have good := cached.good.runTimer
  simp only [step, History.step] at good ⊢
  cases isWork : watch.history.base.workList with
  | nil => exact cached
  | cons timer rest =>
    simp only [isWork] at good
    have mem : timer ∈ watch.history.base.listAt none := by simp [listAt, isWork]
    rcases cached.good.loaded.placed none timer mem with ⟨arming, isArmed, isDue⟩
    have disarmed : Cached ⟨watch.history.disarm
        (watch.history.base.detachTimer timer true) timer, watch.computed⟩ := by
      refine cached.disarm (cached.good.detachTimer timer) rfl rfl (cached.isNext.disarm ?_)
      intro same isSame _
      obtain rfl := Option.some.inj (isArmed.symm.trans isSame)
      exact .inl (by omega)
    exact ⟨good, disarmed.computed, disarmed.isExpires, disarmed.isTick, disarmed.future,
      disarmed.isNext⟩

theorem Cached.step (cached : watch.Cached) {request : Request Timer}
    (regular : Regular watch request) : (watch.step request).Cached := by
  cases request with
  | advance ticks =>
    exact ⟨cached.good.step (.advance ticks), cached.computed, cached.isExpires, cached.isTick,
      cached.future, cached.isNext⟩
  | modTimer timer expires pendingOnly => exact cached.modTimer timer expires pendingOnly regular
  | addTimerOn timer expires => exact cached.addTimerOn timer expires regular
  | delTimer timer => exact cached.delTimer timer
  | beginTick => exact cached.beginTick regular
  | runTimer => exact cached.runTimer
  | getNextTimerInterrupt => exact (cached.getNextTimerInterrupt (List.isEmpty_iff.mp regular)).1

/-- After any regular history an idle processor does not oversleep. -/
theorem awake_run (jiffies : U32) (deferrable : Timer → Bool) {requests : List (Request Timer)}
    (regular : Admits step Regular (boot jiffies deferrable)
      (requests ++ [.getNextTimerInterrupt])) :
    (run step (boot jiffies deferrable) (requests ++ [.getNextTimerInterrupt])).Awake := by
  rcases admits_append.mp regular with ⟨before, isIdle, _⟩
  have cached := invariant_run Cached (fun _ _ cached isRegular => cached.step isRegular)
      (cached_boot jiffies deferrable) before
  rcases cached.getNextTimerInterrupt (List.isEmpty_iff.mp isIdle) with ⟨after, asked⟩
  rw [run_append]
  exact after.awake asked

end Steps

/-- Timers 0 and 1 are armed for the ticks 20 and 400, and the next timer is looked for after
tick 10. -/
def twoTimers : List (Request ℕ) :=
  [.modTimer 0 20 false, .addTimerOn 1 400, .advance 1, .beginTick, .getNextTimerInterrupt]

theorem awake_run_twoTimers : (run step (boot 10 fun _ => false) twoTimers).Awake ∧
      (run step (boot 10 fun _ : ℕ => false) twoTimers).history.base.nextTimer = 20 :=
  ⟨awake_run 10 (fun _ => false)
    (show Admits step Regular _
      ([.modTimer 0 20 false, .addTimerOn 1 400, .advance 1, .beginTick] ++
        [.getNextTimerInterrupt]) by decide +kernel), by decide +kernel⟩

/-- Timer 1 is armed 2^31 ticks after `next_timer`, which is one tick behind. -/
def farTimer : List (Request ℕ) :=
  [.beginTick, .modTimer 0 20 false, .modTimer 1 2147483658 false, .getNextTimerInterrupt]

theorem not_awake_farTimer : ¬(run step (boot 10 fun _ => false) farTimer).Awake := by
  intro awake
  refine awake.notAfter 0 ?_ ?_ ?_
  all_goals decide +kernel

end Watch

end StreakKernel.TimerWheel
