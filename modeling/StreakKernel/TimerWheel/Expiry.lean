import StreakKernel.Lib.Run
import StreakKernel.TimerWheel.Placement

/-!
# Every timer runs in its tick

Histories record how the timers were armed and in which ticks they ran. Timers may be
armed, modified and deleted between any two callbacks of a tick, and a tick begins only
when the timers of the one before have all been run.
-/

namespace StreakKernel.TimerWheel

open List Function Word TimingWheel Places Run

universe u

variable {Timer : Type u}

structure Event (Timer : Type u) where
  timer : Timer
  tick : ℕ
  arming : Option Arming

/-- The number of the next tick counts the turns of the outer loop of `__run_timers` without
wrapping. -/
structure History (Timer : Type u) where
  base : Base Timer
  jiffies : ℕ
  ticks : ℕ
  armings : ℕ
  armed : Armed Timer
  ran : List (Event Timer)

inductive Request (Timer : Type u)
  | advance (ticks : ℕ)
  | modTimer (timer : Timer) (expires : U32) (pendingOnly : Bool)
  | addTimerOn (timer : Timer) (expires : U32)
  | delTimer (timer : Timer)
  | beginTick
  | runTimer
  | getNextTimerInterrupt

namespace History

/-- The base as `init_timers_cpu` leaves it. -/
def boot (jiffies : U32) (deferrable : Timer → Bool) : History Timer where
  base := .initTimersCpu jiffies deferrable
  jiffies := jiffies
  ticks := jiffies
  armings := 0
  armed _ := none
  ran := []

/-- Every timer runs in the tick of its deadline. -/
structure Punctual (history : History Timer) : Prop where
  clock : history.base.timerJiffies = history.ticks % 4294967296
  -- a timer that was armed stays pending until it runs or is deleted
  pending : ∀ timer, history.base.pending timer = true ↔ history.armed timer ≠ none
  somewhere : ∀ timer, history.base.pending timer = true →
    ∃! place, timer ∈ history.base.listAt place
  once : ∀ place, (history.base.listAt place).Nodup
  nowhere : ∀ timer, history.base.pending timer = false → ∀ place, timer ∉ history.base.listAt place
  due : ∀ timer, history.base.pending timer = true → ∃ arming,
    history.armed timer = some arming ∧ (0 ≤ arming.delay →
      arming.deadline % 4294967296 = arming.expires) ∧
    (timer ∉ history.base.workList → history.ticks ≤ arming.deadline) ∧
    (timer ∈ history.base.workList → arming.deadline + 1 = history.ticks)
  onTime : ∀ event ∈ history.ran, ∃ arming, event.arming = some arming ∧
    (0 ≤ arming.delay → event.tick % 4294967296 = arming.expires) ∧
    event.tick = arming.deadline
  fifo : history.ran.Pairwise fun first second => first.tick = second.tick →
    ∀ earlier later, first.arming = some earlier → second.arming = some later →
      earlier.Direct → later.Direct → earlier.number < later.number

structure Good (history : History Timer) : Prop where
  loaded : Loaded history.base history.armed history.ticks (wheel.upcoming history.ticks) []
  numbered : ∀ timer arming, history.armed timer = some arming →
    arming.number < history.armings ∧ arming.expires < 4294967296
  onTime : ∀ event ∈ history.ran, ∃ arming, event.arming = some arming ∧
    arming.expires < 4294967296 ∧ event.tick = arming.deadline
  fifo : history.ran.Pairwise fun first second => first.tick = second.tick →
    ∀ earlier later, first.arming = some earlier → second.arming = some later →
      earlier.Direct → later.Direct → earlier.number < later.number
  passed : ∀ event ∈ history.ran, event.tick < history.ticks
  current : ∀ event ∈ history.ran, event.tick + 1 = history.ticks →
    ∀ timer ∈ history.base.workList, ∀ earlier later, event.arming = some earlier →
      history.armed timer = some later → earlier.Direct → later.Direct →
        earlier.number < later.number

theorem Good.punctual {history : History Timer} (good : history.Good) : history.Punctual := by
  have armedOf : ∀ timer, history.base.pending timer = true → history.armed timer ≠ none :=
    fun timer => (good.loaded.pending timer not_mem_nil).mp
  refine ⟨good.loaded.clock, fun timer => good.loaded.pending timer not_mem_nil, ?_,
    good.loaded.exclusive.nodup, ?_, ?_, ?_, good.fifo⟩
  · intro timer isPending
    rcases good.loaded.present timer (armedOf timer isPending) not_mem_nil with
      ⟨place, mem⟩
    exact ⟨place, mem, fun other otherMember =>
      good.loaded.exclusive.unique other place timer otherMember mem⟩
  · intro timer notPending place mem
    have isPending := (good.loaded.pending timer not_mem_nil).mpr
      (good.loaded.placed place timer mem).isArmed
    rw [notPending] at isPending
    cases isPending
  · intro timer isPending
    obtain ⟨arming, isArmed⟩ := Option.ne_none_iff_exists'.mp (armedOf timer isPending)
    refine ⟨arming, isArmed, arming.deadline_mod (good.numbered timer arming isArmed).2, ?_, ?_⟩
    · intro notWork
      rcases good.loaded.present timer (armedOf timer isPending) not_mem_nil with
        ⟨place, mem⟩
      cases place with
      | none => exact absurd mem notWork
      | some bucket =>
        rcases good.loaded.placed _ timer mem with ⟨same, isSame, _, _, within, _⟩
        obtain rfl := Option.some.inj (isArmed.symm.trans isSame)
        have low := Nat.mul_le_mul_right (wheel.unit bucket.1) within.low
        exact ((wheel.edge_upcoming history.ticks bucket.1).le_mul.trans low).trans
          (Nat.div_mul_le_self _ _)
    · intro isWork
      rcases good.loaded.placed none timer isWork with ⟨same, isSame, isDue⟩
      obtain rfl := Option.some.inj (isArmed.symm.trans isSame)
      exact isDue
  · intro event ran
    rcases good.onTime event ran with ⟨arming, isArming, fits, isTick⟩
    exact ⟨arming, isArming, fun future => isTick ▸ arming.deadline_mod fits future, isTick⟩

theorem good_boot (jiffies : U32) (deferrable : Timer → Bool) : (boot jiffies deferrable).Good := by
  have listed : (boot jiffies deferrable).base.listAt = fun _ => [] := by
    funext place
    cases place with
    | none => rfl
    | some bucket => rfl
  have notListed : ∀ place timer, timer ∉ (boot jiffies deferrable).base.listAt place := by
    intro place timer mem
    rw [listed] at mem
    exact absurd mem not_mem_nil
  refine ⟨⟨(Nat.mod_eq_of_lt jiffies.isLt).symm, edges_upcoming _, listed ▸ exclusive_nil, ?_, ?_,
    ?_, ?_, ?_⟩, ?_, ?_, List.Pairwise.nil, ?_, ?_⟩
  · exact fun place timer mem => absurd mem (notListed place timer)
  · exact fun timer never => absurd never not_mem_nil
  · exact fun timer never => absurd rfl never
  · exact fun timer _ => by simp [boot, Base.initTimersCpu]
  · intro place
    rw [listed]
    exact List.Pairwise.nil
  · intro timer arming never
    cases never
  all_goals exact fun event never => absurd never not_mem_nil

/-! ## The steps -/

variable {history : History Timer} {base : Base Timer} {timer : Timer}

theorem Good.unarmed (good : history.Good) (notPending : history.base.pending timer = false) :
    history.armed timer = none := by
  by_contra isArmed
  have isPending := (good.loaded.pending timer not_mem_nil).mpr isArmed
  rw [notPending] at isPending
  cases isPending

theorem Good.setNextTimer (good : history.Good) (next : ℕ) :
    { history with base := { history.base with nextTimer := next } }.Good :=
  ⟨good.loaded.setNextTimer next, good.numbered, good.onTime, good.fifo, good.passed, good.current⟩

variable [DecidableEq Timer]

def arm (history : History Timer) (base : Base Timer) (timer : Timer) (expires : ℕ) :
    History Timer :=
  { history with
    base := base
    armings := history.armings + 1
    armed := Function.update history.armed timer (some ⟨history.ticks, expires, history.armings⟩) }

def disarm (history : History Timer) (base : Base Timer) (timer : Timer) : History Timer :=
  { history with base := base, armed := Function.update history.armed timer none }

def step (history : History Timer) : Request Timer → History Timer
  | .advance ticks => { history with jiffies := add history.jiffies ticks }
  | .modTimer timer expires pendingOnly =>
    if history.base.pending timer = false ∧ pendingOnly = true then
      { history with base := history.base.modTimer timer expires pendingOnly }
    else history.arm (history.base.modTimer timer expires pendingOnly) timer expires
  | .addTimerOn timer expires =>
    if history.base.pending timer then history
    else history.arm (history.base.addTimerOn timer expires) timer expires
  | .delTimer timer => history.disarm (history.base.delTimer timer) timer
  | .beginTick =>
    if history.base.workList = [] ∧ timeAfterEq history.jiffies history.base.timerJiffies then
      { history with base := history.base.beginTick, ticks := history.ticks + 1 }
    else history
  | .runTimer =>
    match history.base.workList with
    | [] => history
    | timer :: _ =>
      { history.disarm (history.base.detachTimer timer true) timer with
        ran := history.ran ++ [⟨timer, history.ticks - 1, history.armed timer⟩] }
  | .getNextTimerInterrupt => { history with base := history.base.getNextTimerInterrupt }

section Goods

variable (good : history.Good)
include good

namespace Good

theorem arm {expires : ℕ} (fits : expires < 4294967296)
    (loaded : Loaded base history.armed history.ticks (wheel.upcoming history.ticks) [timer])
    (work : ∀ x ∈ base.workList, x ∈ history.base.workList) :
    (history.arm (base.enqueue timer expires) timer expires).Good := by
  refine ⟨?_, ?_, good.onTime, good.fifo, good.passed, ?_⟩
  · exact @Loaded.enqueue _ base history.armed _ timer _ ⟨history.ticks, expires, history.armings⟩
      loaded fits fun x earlier isEarlier => (good.numbered x earlier isEarlier).1
  · intro x arming isArmed
    simp only [History.arm] at isArmed ⊢
    by_cases same : x = timer
    · subst same
      rw [update_self] at isArmed
      obtain rfl := Option.some.inj isArmed
      exact ⟨Nat.lt_succ_self _, fits⟩
    · rw [update_of_ne same] at isArmed
      exact ⟨(good.numbered x arming isArmed).1.trans (Nat.lt_succ_self _),
        (good.numbered x arming isArmed).2⟩
  intro event ran isCurrent x mem
  rw [History.arm, Base.enqueue_eq] at mem
  simp only [History.arm]
  have other : x ≠ timer := by
    rintro rfl
    exact loaded.absent x (mem_singleton_self x) none mem
  rw [update_of_ne other]
  exact good.current event ran isCurrent x (work x mem)

theorem disarm (loaded : Loaded base (update history.armed timer none) history.ticks
      (wheel.upcoming history.ticks) []) (work : ∀ x ∈ base.workList, x ∈ history.base.workList) :
    (history.disarm base timer).Good := by
  have numbered : ∀ x arming, update history.armed timer none x = some arming →
      history.armed x = some arming := by
    intro x arming isArmed
    by_cases same : x = timer
    · subst same
      rw [update_self] at isArmed
      cases isArmed
    · rwa [update_of_ne same] at isArmed
  refine ⟨loaded, ?_, good.onTime, good.fifo, good.passed, ?_⟩
  · exact fun x arming isArmed => good.numbered x arming (numbered x arming isArmed)
  · intro event ran isCurrent x mem earlier later isEarlier isLater
    exact good.current event ran isCurrent x (work x mem) earlier later isEarlier
      (numbered x later isLater)

theorem detachTimer (timer : Timer) :
    (history.disarm (history.base.detachTimer timer true) timer).Good :=
  good.disarm (good.loaded.disarm timer) fun _ mem => mem_of_mem_erase mem

theorem modTimer (timer : Timer) (expires : U32) (pendingOnly : Bool) :
    (history.step (.modTimer timer expires pendingOnly)).Good := by
  simp only [step, Base.modTimer]
  by_cases isPending : history.base.pending timer = true
  · simp only [isPending, if_true, Bool.true_eq_false, false_and, if_false]
    refine good.arm expires.isLt ((good.loaded.detachTimer timer false).forgetNext timer) ?_
    intro x mem
    rw [Base.forgetNext_eq] at mem
    exact mem_of_mem_erase mem
  rw [Bool.not_eq_true] at isPending
  simp only [isPending, true_and, Bool.false_eq_true, if_false]
  split_ifs with isOnly
  · exact good
  · exact good.arm expires.isLt (good.loaded.loosen (good.unarmed isPending)) fun _ mem => mem

theorem addTimerOn (timer : Timer) (expires : U32) :
    (history.step (.addTimerOn timer expires)).Good := by
  simp only [step, Base.addTimerOn]
  split_ifs with isPending
  · exact good
  · rw [Bool.not_eq_true] at isPending
    exact good.arm expires.isLt (good.loaded.loosen (good.unarmed isPending)) fun _ mem => mem

theorem delTimer (timer : Timer) : (history.step (.delTimer timer)).Good := by
  simp only [step, Base.delTimer]
  split_ifs with isPending
  · refine good.disarm ((good.loaded.disarm timer).forgetNext timer) ?_
    intro x mem
    rw [Base.forgetNext_eq] at mem
    exact mem_of_mem_erase mem
  rw [Bool.not_eq_true] at isPending
  refine good.disarm ?_ fun _ mem => mem
  rw [← good.unarmed isPending, update_eq_self]
  exact good.loaded

theorem beginTick : (history.step .beginTick).Good := by
  simp only [step]
  split_ifs with begins
  · refine ⟨good.loaded.beginTick begins.1, good.numbered, good.onTime, good.fifo, ?_, ?_⟩
    · exact fun event ran => (good.passed event ran).trans (Nat.lt_succ_self _)
    intro event ran isCurrent
    have := good.passed event ran
    simp only at isCurrent
    omega
  · exact good

theorem runTimer : (history.step .runTimer).Good := by
  simp only [step]
  cases isWork : history.base.workList with
  | nil => exact good
  | cons timer rest =>
    have mem : timer ∈ history.base.listAt none := by simp [Base.listAt, isWork]
    rcases good.loaded.placed none timer mem with ⟨arming, isArmed, isDue⟩
    have isRest : (history.base.detachTimer timer true).workList = rest := by
      simp [Base.detachTimer, isWork]
    have inTurn := good.loaded.inTurn none
    simp only [Base.listAt, isWork, pairwise_cons] at inTurn
    have nodup := good.loaded.exclusive.nodup none
    simp only [Base.listAt, isWork, nodup_cons] at nodup
    have disarmed := good.detachTimer timer
    have isTick : history.ticks - 1 = arming.deadline := by omega
    refine ⟨disarmed.loaded, disarmed.numbered, ?_, ?_, ?_, ?_⟩
    · intro event ran
      rcases mem_append.mp ran with old | isNew
      · exact good.onTime event old
      · rw [mem_singleton.mp isNew]
        exact ⟨arming, isArmed, (good.numbered timer arming isArmed).2, isTick⟩
    · rw [pairwise_append]
      refine ⟨good.fifo, pairwise_singleton _ _, ?_⟩
      intro event old second isNew sameTick earlier later isEarlier isLater
      rw [mem_singleton.mp isNew] at sameTick isLater
      exact good.current event old (by simp only at sameTick; omega) timer mem earlier later
        isEarlier isLater
    · intro event ran
      rcases mem_append.mp ran with old | isNew
      · exact good.passed event old
      · rw [mem_singleton.mp isNew]
        simp only [History.disarm]
        omega
    · intro event ran isCurrent x isMem
      rcases mem_append.mp ran with old | isNew
      · exact disarmed.current event old isCurrent x isMem
      rw [mem_singleton.mp isNew]
      intro earlier later isEarlier isLater
      simp only [History.disarm, isRest] at isMem isLater
      have other : x ≠ timer := by
        rintro rfl
        exact nodup.1 isMem
      rw [update_of_ne other] at isLater
      exact inTurn.1 x isMem earlier later isEarlier isLater

theorem step (request : Request Timer) : (history.step request).Good := by
  cases request with
  | advance ticks =>
    exact ⟨good.loaded, good.numbered, good.onTime, good.fifo, good.passed, good.current⟩
  | modTimer timer expires pendingOnly => exact good.modTimer timer expires pendingOnly
  | addTimerOn timer expires => exact good.addTimerOn timer expires
  | delTimer timer => exact good.delTimer timer
  | beginTick => exact good.beginTick
  | runTimer => exact good.runTimer
  | getNextTimerInterrupt =>
    simp only [History.step, Base.getNextTimerInterrupt]
    split_ifs with isOld
    · exact good.setNextTimer _
    · exact good

end Good

end Goods

/-- In every history every timer runs in the tick of its deadline, and in no other. -/
theorem punctual_run (jiffies : U32) (deferrable : Timer → Bool) (requests : List (Request Timer)) :
    (run History.step (boot jiffies deferrable) requests).Punctual :=
  (invariant_always Good (fun _ request good => good.step request)
    (good_boot jiffies deferrable) requests).punctual

end History

end StreakKernel.TimerWheel
