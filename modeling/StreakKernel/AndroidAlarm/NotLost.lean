import Mathlib.Data.List.Nodup
import StreakKernel.AndroidAlarm.Basic

/-!
# No alarm is lost

A queue whose first alarm has changed to a later one may keep its timer. Every other change arms
the timer, unless the queue is stopped or suspended, and leaving these states arms it again.
-/

namespace StreakKernel.AndroidAlarm

open List Run

/-- The window of the alarm is not empty, and does not begin before time zero. -/
def Alarm.Timely (alarm : Alarm) (delta : ℤ) : Prop :=
  alarm.softexpires ≤ alarm.expires ∧ 0 ≤ delta + alarm.softexpires
  deriving Decidable

theorem ktimeSub_mod (delta left right : ℤ) :
    ktimeSub (ktimeAdd delta left) (ktimeAdd delta right) % 4294967296 =
      (left - right) % 4294967296 := by
  unfold ktimeSub ktimeAdd
  omega

theorem ktimeAddSafe_le {left right sum : ℤ} (isSum : 0 ≤ sum) (range : 0 ≤ right)
    (isLeft : left = ktimeAdd sum 0) : ktimeAddSafe left right ≤ sum + right := by
  unfold ktimeAddSafe ktimeAdd at *
  dsimp only
  split_ifs <;> omega

theorem Alarm.Timely.start_le {alarm : Alarm} {delta : ℤ} (timely : alarm.Timely delta) :
    hrtimerStartExpires (ktimeAdd delta alarm.softexpires) (ktimeAdd delta alarm.expires) ≤
      alarm.expires + delta := by
  rcases timely with ⟨ordered, positive⟩
  have range : (alarm.expires - alarm.softexpires) % 4294967296 ≤
      alarm.expires - alarm.softexpires := by omega
  have le := ktimeAddSafe_le positive
    (Int.emod_nonneg (alarm.expires - alarm.softexpires) (by decide : (4294967296 : ℤ) ≠ 0))
    (show ktimeAdd delta alarm.softexpires = _ by simp [ktimeAdd])
  rw [hrtimerStartExpires, ktimeSub_mod]
  omega

theorem place_perm (alarm : Alarm) (alarms : List Alarm) :
    (place alarm alarms).Perm (alarm :: alarms) := by
  induction alarms with
  | nil => exact List.Perm.refl _
  | cons head rest ih =>
    unfold place
    split
    · exact List.Perm.refl _
    · exact (ih.cons head).trans (List.Perm.swap alarm head rest)

theorem head?_place (alarm : Alarm) (alarms : List Alarm) : (place alarm alarms).head? =
      if alarms.head?.all (alarm.expires < ·.expires) then some alarm else alarms.head? := by
  cases alarms with
  | nil => simp [place]
  | cons head rest =>
    unfold place
    split
    · next earlier => simp [earlier]
    · next later => simp [later]

theorem sorted_place {alarm : Alarm} {alarms : List Alarm}
    (sorted : alarms.Pairwise (·.expires ≤ ·.expires)) :
    (place alarm alarms).Pairwise (·.expires ≤ ·.expires) := by
  induction alarms with
  | nil => simp [place]
  | cons head rest ih =>
    rw [pairwise_cons] at sorted
    unfold place
    split
    · next earlier =>
        refine pairwise_cons.mpr ⟨?_, pairwise_cons.mpr sorted⟩
        intro entry listed
        rcases mem_cons.mp listed with rfl | listed
        · exact Int.le_of_lt earlier
        · exact Int.le_trans (Int.le_of_lt earlier) (sorted.1 entry listed)
    next later =>
      refine pairwise_cons.mpr ⟨?_, ih sorted.2⟩
      intro entry listed
      rcases mem_cons.mp ((place_perm alarm rest).mem_iff.mp listed) with rfl | listed
      · exact Int.not_lt.mp later
      · exact sorted.1 entry listed

namespace AlarmQueue

variable {queue : AlarmQueue} {alarm : Alarm} {addr : ℕ} {blocked : Bool}

structure Core (queue : AlarmQueue) : Prop where
  sorted : queue.alarms.Pairwise (·.expires ≤ ·.expires)
  nodup : (queue.alarms.map Alarm.addr).Nodup
  first : queue.first = queue.alarms.head?
  timely : ∀ alarm ∈ queue.alarms, alarm.Timely queue.delta

/-- The timer is armed for the first alarm, or its callback is running. -/
def Served (queue : AlarmQueue) : Prop :=
  ∀ alarm, queue.first = some alarm →
    queue.running = true ∨ queue.armed = true ∧ queue.expires ≤ alarm.expires + queue.delta

structure Sound (queue : AlarmQueue) (blocked : Bool) : Prop where
  core : queue.Core
  served : queue.stopped = false → blocked = false → queue.Served

theorem Core.mem_first (core : queue.Core) (isFirst : queue.first = some alarm) :
    alarm ∈ queue.alarms :=
  mem_of_mem_head? (core.first ▸ isFirst)

theorem Core.updateTimer (core : queue.Core) (running : Bool) :
    Sound { queue.updateTimerLocked blocked with running := running } blocked := by
  unfold updateTimerLocked
  split
  · next none =>
      exact ⟨⟨core.sorted, core.nodup, core.first, core.timely⟩,
        fun _ _ alarm isFirst => by simp_all⟩
  next first isFirst =>
    split
    · next stopped =>
        refine ⟨⟨core.sorted, core.nodup, core.first, core.timely⟩, ?_⟩
        intro goesOn unblocked
        simp_all
    refine ⟨⟨core.sorted, core.nodup, core.first, core.timely⟩, fun _ _ alarm isAlarm => ?_⟩
    cases isFirst.symm.trans isAlarm
    exact .inr ⟨rfl, (core.timely _ (core.mem_first isFirst)).start_le⟩

theorem Core.updateTimerLocked (core : queue.Core) :
    Sound (queue.updateTimerLocked blocked) blocked := by
  have same : (queue.updateTimerLocked blocked).running = queue.running := by
    unfold AlarmQueue.updateTimerLocked
    split
    · rfl
    · split <;> rfl
  have sound := @Core.updateTimer queue blocked core queue.running
  rwa [← same] at sound

theorem Core.erase (core : queue.Core) (addr : ℕ) : (queue.erase addr).Core := by
  have kept : (queue.erase addr).alarms.Sublist queue.alarms := filter_sublist
  refine ⟨core.sorted.sublist kept, core.nodup.sublist (kept.map _), ?_, ?_⟩
  · have isFirst := core.first
    have nodup := core.nodup
    simp only [AlarmQueue.erase]
    cases isAlarms : queue.alarms with
    | nil => simp_all
    | cons head rest =>
      simp only [isAlarms, head?_cons, map_cons, nodup_cons] at isFirst nodup
      rw [isFirst]
      by_cases same : head.addr = addr
      · have others : rest.filter (fun alarm => decide (alarm.addr ≠ addr)) = rest := by
          refine filter_eq_self.mpr fun entry listed => decide_eq_true fun isAddr => ?_
          exact nodup.1 (mem_map.mpr ⟨entry, listed, isAddr.trans same.symm⟩)
        rw [filter_cons_of_neg (by simpa using same), others]
        simp [same, rbNext]
      · simp [same]
  · intro alarm listed
    exact core.timely alarm (kept.subset listed)

section

variable (sound : queue.Sound blocked)
include sound

theorem Sound.erase (addr : ℕ) : (queue.erase addr).Sound blocked := by
  have core := sound.core.erase addr
  refine ⟨core, fun goesOn unblocked alarm isFirst => ?_⟩
  have listed : alarm ∈ queue.alarms := (mem_filter.mp (core.mem_first isFirst)).1
  have isHead := sound.core.first
  have sorted := sound.core.sorted
  cases isAlarms : queue.alarms with
  | nil => simp [isAlarms] at listed
  | cons head rest =>
    rw [isAlarms, head?_cons] at isHead
    rw [isAlarms, pairwise_cons] at sorted
    rw [isAlarms, mem_cons] at listed
    have notEarlier : head.expires ≤ alarm.expires := by
      rcases listed with rfl | listed
      · exact Int.le_refl _
      · exact sorted.1 alarm listed
    refine (sound.served goesOn unblocked head isHead).imp id fun served => ⟨served.1, ?_⟩
    exact Int.le_trans served.2 (Int.add_le_add_right notEarlier _)

theorem Sound.enqueueLocked (timely : alarm.Timely queue.delta) :
    (queue.enqueueLocked alarm blocked).Sound blocked := by
  have erased := sound.erase alarm.addr
  have fresh : ∀ entry ∈ (queue.erase alarm.addr).alarms, entry.addr ≠ alarm.addr := by
    intro entry listed
    simpa using (mem_filter.mp listed).2
  have sameDelta : (queue.erase alarm.addr).delta = queue.delta := rfl
  unfold AlarmQueue.enqueueLocked
  generalize queue.erase alarm.addr = base at erased fresh sameDelta ⊢
  have perm := place_perm alarm base.alarms
  have nodup : ((place alarm base.alarms).map Alarm.addr).Nodup := by
    rw [(perm.map _).nodup_iff, map_cons, nodup_cons, mem_map]
    refine ⟨?_, erased.core.nodup⟩
    rintro ⟨entry, listed, same⟩
    exact fresh entry listed same
  have allTimely : ∀ entry ∈ place alarm base.alarms, entry.Timely base.delta := by
    intro entry listed
    rcases mem_cons.mp (perm.mem_iff.mp listed) with rfl | listed
    · rwa [sameDelta]
    · exact erased.core.timely entry listed
  have sorted := @sorted_place alarm _ erased.core.sorted
  dsimp only
  split
  · next leftmost =>
      refine Core.updateTimerLocked ⟨sorted, nodup, ?_, allTimely⟩
      exact ((head?_place alarm base.alarms).trans (if_pos leftmost)).symm
  next notLeftmost =>
    refine ⟨⟨sorted, nodup, ?_, allTimely⟩, erased.served⟩
    have isHead := (head?_place alarm base.alarms).trans (if_neg notLeftmost)
    exact erased.core.first.trans isHead.symm

theorem Sound.tryToCancel : (queue.tryToCancel addr blocked).Sound blocked := by
  unfold AlarmQueue.tryToCancel
  split
  · exact (sound.core.erase addr).updateTimerLocked
  · exact sound.erase addr

theorem Sound.expire : queue.expire.Sound blocked := by
  unfold AlarmQueue.expire
  split
  · exact ⟨⟨sound.core.sorted, sound.core.nodup, sound.core.first, sound.core.timely⟩,
      fun _ _ _ _ => .inl rfl⟩
  · exact sound

theorem Sound.timerTriggered {now : ℤ} : (queue.timerTriggered now blocked).Sound blocked := by
  unfold AlarmQueue.timerTriggered
  split
  · exact sound.core.updateTimer false
  · split
    · exact sound.core.updateTimer false
    · exact sound.erase _

end

theorem Core.stop (core : queue.Core) {delta : ℤ}
    (timely : ∀ alarm ∈ queue.alarms, alarm.Timely delta) : (queue.stop delta).Sound blocked :=
  ⟨⟨core.sorted, core.nodup, core.first, timely⟩, by simp [AlarmQueue.stop]⟩

theorem Core.goOn (core : queue.Core) : (queue.goOn blocked).Sound blocked :=
  Core.updateTimerLocked ⟨core.sorted, core.nodup, core.first, core.timely⟩

theorem Core.tryToCancelTimer (core : queue.Core) : queue.tryToCancelTimer.Core :=
  ⟨core.sorted, core.nodup, core.first, core.timely⟩

end AlarmQueue

namespace State

variable {state : State}

def Sound (state : State) : Prop := ∀ type, (state.queues type).Sound (state.blocked type)

/-- A change of the wall time leaves the windows of the elapsed alarms behind time zero. -/
def TimelyAfter (state : State) (change : ℤ) : Prop :=
  ∀ type ∈ [AlarmType.elapsedRealtimeWakeup, .elapsedRealtime],
    ∀ alarm ∈ (state.queues type).alarms, alarm.Timely (state.newDelta change type)
  deriving Decidable

/-- The windows of the alarms are proper, and `alarm_suspend` cancels its second timer only while no
alarm of the system time is pending. -/
def Regular (state : State) : Request → Prop
  | .startRange type alarm => alarm.Timely (state.queues type).delta
  | .setRtcBegin change => state.TimelyAfter change
  | .updateTimedelta change => state.TimelyAfter change
  | .suspendCancelSecond => (state.queues .systemtime).alarms = []
  | _ => True

instance Regular.decidable (state : State) (request : Request) :
    Decidable (Regular state request) := by
  unfold Regular
  split <;> infer_instance

section

variable (sound : state.Sound)
include sound

theorem Sound.modify {type : AlarmType} (change : AlarmQueue → AlarmQueue)
    (keeps : (change (state.queues type)).Sound (state.blocked type)) :
    (state.modify type change).Sound := by
  intro other
  by_cases same : other = type
  · subst same
    simpa [State.modify, State.blocked] using keeps
  · simpa [State.modify, State.blocked, same] using sound other

theorem Sound.modifyWallTime {change : AlarmType → AlarmQueue → AlarmQueue}
    (keeps : ∀ type, (change type (state.queues type)).Sound (state.blocked type)) :
    (state.modifyWallTime change).Sound := by
  intro type
  simp only [State.modifyWallTime]
  split
  · exact keeps type
  · exact sound type

theorem Sound.stopAll {change : ℤ} (timely : state.TimelyAfter change) :
    (state.stopAll change).Sound := by
  refine sound.modifyWallTime fun type => (sound type).core.stop fun alarm listed => ?_
  cases type with
  | elapsedRealtimeWakeup | elapsedRealtime => exact timely _ (by simp) alarm listed
  | rtcWakeup => exact (sound .rtcWakeup).core.timely alarm listed
  | rtc => exact (sound .rtc).core.timely alarm listed
  | systemtime => exact (sound .systemtime).core.timely alarm listed

theorem Sound.goOnAll : state.goOnAll.Sound :=
  sound.modifyWallTime fun type => (sound type).core.goOn

end

theorem wakeUp_sound (core : ∀ type, (state.queues type).Core)
    (awake : ∀ type, type.isWakeup = false → (state.queues type).Sound false) :
    state.wakeUp.Sound := by
  intro type
  have unblocked : state.wakeUp.blocked type = false := Bool.and_false _
  rw [unblocked]
  cases type with
  | rtcWakeup => exact (core .rtcWakeup).updateTimerLocked
  | elapsedRealtimeWakeup => exact (core .elapsedRealtimeWakeup).updateTimerLocked
  | rtc => exact awake .rtc rfl
  | elapsedRealtime => exact awake .elapsedRealtime rfl
  | systemtime => exact awake .systemtime rfl

theorem Sound.awake (sound : state.Sound) (type : AlarmType) (notWakeup : type.isWakeup = false) :
    (state.queues type).Sound false := by
  have isSound := sound type
  rwa [State.blocked, notWakeup, Bool.false_and] at isSound

theorem Sound.alarmResume (sound : state.Sound) : state.alarmResume.Sound :=
  wakeUp_sound (fun type => (sound type).core) sound.awake

theorem Sound.suspendBegin (sound : state.Sound) : state.suspendBegin.Sound := by
  intro type
  refine ⟨(sound type).core, fun goesOn unblocked => ?_⟩
  cases isWakeup : type.isWakeup with
  | false => exact (sound.awake type isWakeup).served goesOn rfl
  | true => simp [State.suspendBegin, blocked, isWakeup] at unblocked

theorem Sound.suspendCancel (sound : state.Sound) (type : AlarmType)
    (unused : type.isWakeup = true ∨ (state.queues type).alarms = []) :
    (state.suspendCancel type).Sound := by
  unfold State.suspendCancel
  split_ifs with waited
  · refine sound.modify _ ⟨(sound type).core.tryToCancelTimer, fun _ unblocked alarm isFirst => ?_⟩
    rcases unused with isWakeup | isEmpty
    · simp_all [blocked]
    · have listed := (sound type).core.mem_first isFirst
      simp [isEmpty] at listed
  · exact sound

theorem Sound.suspendEnd (sound : state.Sound) (clocks : Clocks) :
    (state.suspendEnd clocks).Sound := by
  unfold State.suspendEnd
  split
  · exact sound
  · dsimp only
    split_ifs
    · exact wakeUp_sound (fun type => (sound type).core) sound.awake
    · exact sound

theorem Sound.step (sound : state.Sound) {request : Request} (regular : Regular state request) :
    (state.step request).Sound := by
  cases request with
  | startRange type alarm =>
    refine sound.modify (·.enqueueLocked alarm (state.blocked type)) ?_
    exact (sound type).enqueueLocked regular
  | tryToCancel type addr =>
    refine sound.modify (·.tryToCancel addr (state.blocked type)) ?_
    exact (sound type).tryToCancel
  | expire type => exact sound.modify _ (sound type).expire
  | timerTriggered type now =>
    unfold State.step
    dsimp only
    split
    · exact sound.modify _ (sound type).timerTriggered
    · exact sound
  | setRtcBegin change => exact sound.stopAll regular
  | setRtcEnd => exact sound.goOnAll
  | updateTimedelta change => exact (sound.stopAll regular).goOnAll
  | suspendBegin => exact sound.suspendBegin
  | suspendCancelFirst => exact sound.suspendCancel .rtcWakeup (.inl rfl)
  | suspendCancelSecond => exact sound.suspendCancel .systemtime (.inr regular)
  | suspendEnd clocks =>
    unfold State.step
    dsimp only
    split
    · exact sound.suspendEnd clocks
    · exact sound
  | resume => exact sound.alarmResume

theorem sound_initial : initial.Sound :=
  fun _ => ⟨⟨.nil, .nil, rfl, fun _ listed => (nomatch listed)⟩,
    fun _ _ _ isFirst => (nomatch isFirst)⟩

/-- A queue with an alarm has its timer armed for the first one, unless the system is suspended or
the wall time is being changed. -/
def NotLost (state : State) : Prop :=
  ∀ type, (state.queues type).first = (state.queues type).alarms.head? ∧
    (state.suspended = false → (state.queues type).stopped = false → (state.queues type).Served)

theorem Sound.notLost (sound : state.Sound) : state.NotLost := by
  refine fun type => ⟨(sound type).core.first, fun isAwake goesOn => (sound type).served goesOn ?_⟩
  rw [blocked, isAwake, Bool.and_false]

theorem notLost_of_regular (requests : List Request)
    (regular : Admits step Regular initial requests) : (run step initial requests).NotLost :=
  (invariant_run Sound (fun _ _ holds allowed => Sound.step holds allowed) sound_initial
    regular).notLost

/-- Alarms of three types over a change of the wall time, a suspend with an alarm started between
its sections, and a resume. -/
theorem notLost_suspended :
    let requests := [.startRange .rtcWakeup ⟨1, 5, 9⟩, .startRange .elapsedRealtime ⟨2, 7, 7⟩,
      .setRtcBegin 3, .setRtcEnd, .suspendBegin, .suspendCancelFirst,
      .startRange .rtcWakeup ⟨4, 1, 2⟩, .suspendCancelSecond, .suspendEnd ⟨0, 0, 0, 0⟩, .resume,
      .startRange .systemtime ⟨3, 1, 2⟩]
    (run step initial requests).NotLost :=
  notLost_of_regular _ (by decide +kernel)

/-- `alarm_suspend` cancels the timer of the system time, and nothing arms it again. -/
theorem lost_systemtime :
    let requests := [Request.startRange .systemtime ⟨1, 5, 5⟩, .suspendBegin, .suspendCancelFirst,
      .suspendCancelSecond, .suspendEnd ⟨0, 0, 0, 0⟩, .resume]
    ¬(run step initial requests).NotLost := by
  intro requests notLost
  have served := (notLost .systemtime).2 (by decide +kernel) (by decide +kernel) ⟨1, 5, 5⟩
    (by decide +kernel)
  revert served
  decide +kernel

/-! ## The alarm of the RTC -/

/-- A wall time on the clock of the RTC, in nanoseconds. -/
def onRtc (clocks : Clocks) (time : ℤ) : ℤ :=
  time - ((clocks.wallSec - clocks.rtcBefore) * 1000000000 + clocks.wallNsec)

/-- No callback is running, and `alarm_set_rtc` is not between its sections. -/
def Idle (state : State) : Prop := state.suspended = false ∧
  ∀ type, (state.queues type).running = false ∧ (state.queues type).stopped = false

def Pending (state : State) (type : AlarmType) : Prop :=
  type.isWakeup = true ∧ (state.queues type).first.isSome = true
  deriving Decidable

def Earliest (state : State) (type : AlarmType) : Prop := state.Pending type ∧
  ∀ other, state.Pending other → (state.queues type).expires ≤ (state.queues other).expires

/-- `alarm_suspend` refuses with the alarm of the RTC disabled, or sets it in time for every alarm
that has to wake the system up. -/
def InTime (state : State) (clocks : Clocks) : Prop :=
  let after := state.alarmSuspend clocks
  after.suspended = false ∧ after.rtcAlarm = none ∨
    after.suspended = true ∧ ∃ second, after.rtcAlarm = some second ∧
      clocks.rtcAfter + 1 < second ∧ ∀ type, type.isWakeup = true →
        ∀ alarm ∈ (state.queues type).alarms,
          second * 1000000000 ≤ onRtc clocks (alarm.expires + (state.queues type).delta)

theorem exists_wakeupQueue {type : AlarmType} (pending : state.Pending type) :
    ∃ chosen, state.wakeupQueue = some (state.queues chosen) ∧ state.Earliest chosen := by
  unfold wakeupQueue
  dsimp only
  split_ifs with early isRtc
  · refine ⟨.elapsedRealtimeWakeup, rfl, ⟨rfl, by simp_all⟩, fun type _ => ?_⟩
    cases type <;> grind [Pending, AlarmType.isWakeup, Option.not_isSome]
  · refine ⟨.rtcWakeup, rfl, ⟨rfl, isRtc⟩, fun type _ => ?_⟩
    cases type <;> grind [Pending, AlarmType.isWakeup, Option.not_isSome]
  · cases type <;> grind [Pending, AlarmType.isWakeup, Option.not_isSome]

section

variable (idle : state.Idle) {type : AlarmType}
include idle

theorem Idle.expires_le (sound : state.Sound) {alarm : Alarm}
    (listed : alarm ∈ (state.queues type).alarms) : (state.queues type).first.isSome = true ∧
      (state.queues type).expires ≤ alarm.expires + (state.queues type).delta := by
  have sorted := (sound type).core.sorted
  have isFirst := (sound type).core.first
  cases isAlarms : (state.queues type).alarms with
  | nil => simp [isAlarms] at listed
  | cons head rest =>
    rw [isAlarms] at listed sorted isFirst
    have served := (sound type).served (idle.2 type).2 (by simp [blocked, idle.1]) head isFirst
    have inTime := served.resolve_left (by simp [(idle.2 type).1])
    refine ⟨by simp [isFirst], ?_⟩
    rcases mem_cons.mp listed with rfl | later
    · exact inTime.2
    · have le := (pairwise_cons.mp sorted).1 alarm later
      omega

theorem Idle.alarmSuspend_eq (pending : state.Pending type) (clocks : Clocks) :
    ∃ chosen, state.Earliest chosen ∧
      let second := clocks.rtcAlarmTime (state.queues chosen).expires
      let after := state.alarmSuspend clocks
      (after.suspended, after.rtcAlarm) =
        if Word.add clocks.rtcAfter 1 ≥ second then (false, none) else (true, some second) := by
  have notRunning := fun type => (idle.2 type).1
  let cancelled := ({ state with suspended := true }.modify .rtcWakeup (·.tryToCancelTimer)).modify
    AlarmType.elapsedRealtimeWakeupMask (·.tryToCancelTimer)
  have same : ∀ type, (cancelled.queues type).first = (state.queues type).first ∧
      (cancelled.queues type).expires = (state.queues type).expires := by
    intro type
    cases type <;> exact ⟨rfl, rfl⟩
  obtain ⟨chosen, isQueue, earliest⟩ :=
    @exists_wakeupQueue cancelled type (by simpa [Pending, same] using pending)
  simp only [Earliest, Pending, same] at earliest
  refine ⟨chosen, earliest, ?_⟩
  have isCancelled : (state.suspendBegin.suspendCancel .rtcWakeup).suspendCancel
      AlarmType.elapsedRealtimeWakeupMask = cancelled := by
    simp [suspendBegin, suspendCancel, modify, notRunning, AlarmType.elapsedRealtimeWakeupMask,
      cancelled]
  simp only [alarmSuspend, isCancelled, suspendEnd, isQueue, same]
  split_ifs <;> rfl

end

end State

end StreakKernel.AndroidAlarm
