import StreakKernel.Lib.Run
import StreakKernel.Lib.Word

/-!
# Android alarms

Shallow embedding of `drivers/rtc/alarm.c`. The tree of a queue is the list of its alarms in their
order. What is done under `alarm_slock` is one step, so that other calls can come between the two
sections of `alarm_set_rtc`, between those of `alarm_suspend`, and between the alarms that
`alarm_timer_triggered` calls. Times are in nanoseconds.
-/

namespace StreakKernel.AndroidAlarm

inductive AlarmType where
  | rtcWakeup
  | rtc
  | elapsedRealtimeWakeup
  | elapsedRealtime
  | systemtime
  deriving DecidableEq, Repr

namespace AlarmType

def isWakeup : AlarmType → Bool
  | rtcWakeup => true
  | elapsedRealtimeWakeup => true
  | _ => false

/-- The types below `ANDROID_ALARM_SYSTEMTIME`. -/
def onWallTime : AlarmType → Bool
  | systemtime => false
  | _ => true

def isElapsed : AlarmType → Bool
  | elapsedRealtimeWakeup => true
  | elapsedRealtime => true
  | _ => false

/-- The second timer that `alarm_suspend` cancels, at the index
`ANDROID_ALARM_ELAPSED_REALTIME_WAKEUP_MASK`, which is `1 << 2`. -/
def elapsedRealtimeWakeupMask : AlarmType := systemtime

end AlarmType

/-- `ktime_add`: the seconds have 32 bits. -/
def ktimeAdd (left right : ℤ) : ℤ :=
  (left + right + 2147483648000000000) % 4294967296000000000 - 2147483648000000000

def ktimeSub (left right : ℤ) : ℤ := ktimeAdd left (-right)

/-- `ktime_add_safe`: a sum that is negative, or less than what was added, is `KTIME_SEC_MAX`. -/
def ktimeAddSafe (left right : ℤ) : ℤ :=
  let res := ktimeAdd left right
  if res < 0 ∨ res < left ∨ res < right then 2147483647000000000 else res

/-- When a timer expires that `hrtimer_start_expires` starts: the range is an `unsigned long`. -/
def hrtimerStartExpires (soft hard : ℤ) : ℤ :=
  ktimeAddSafe soft (ktimeSub hard soft % 4294967296)

structure Alarm where
  addr : ℕ
  softexpires : ℤ
  expires : ℤ
  deriving DecidableEq, Repr

structure AlarmQueue where
  alarms : List Alarm
  first : Option Alarm
  expires : ℤ
  armed : Bool
  running : Bool
  delta : ℤ
  stopped : Bool
  deriving DecidableEq, Repr

def rbNext (addr : ℕ) : List Alarm → Option Alarm
  | [] => none
  | alarm :: rest => if alarm.addr = addr then rest.head? else rbNext addr rest

/-- The place of a new alarm in the tree: after those that do not expire later. -/
def place (alarm : Alarm) : List Alarm → List Alarm
  | [] => [alarm]
  | entry :: rest =>
    if alarm.expires < entry.expires then alarm :: entry :: rest else entry :: place alarm rest

namespace AlarmQueue

/-- `update_timer_locked`, where `blocked` is `is_wakeup && suspended`. -/
def updateTimerLocked (queue : AlarmQueue) (blocked : Bool) : AlarmQueue :=
  match queue.first with
  | none => queue
  | some alarm =>
    if queue.stopped || blocked then queue
    else
      { queue with
        expires := hrtimerStartExpires (ktimeAdd queue.delta alarm.softexpires)
          (ktimeAdd queue.delta alarm.expires)
        armed := true }

/-- `base->first` moves on if it is the alarm, and the alarm is erased. -/
def erase (queue : AlarmQueue) (addr : ℕ) : AlarmQueue :=
  { queue with
    first := if queue.first.any (·.addr = addr) then rbNext addr queue.alarms else queue.first
    alarms := queue.alarms.filter (·.addr ≠ addr) }

/-- The descent of `alarm_enqueue_locked` never goes to the right. -/
def leftmost (queue : AlarmQueue) (alarm : Alarm) : Bool :=
  queue.alarms.head?.all (alarm.expires < ·.expires)

def enqueueLocked (queue : AlarmQueue) (alarm : Alarm) (blocked : Bool) : AlarmQueue :=
  let queue := queue.erase alarm.addr
  let placed := { queue with alarms := place alarm queue.alarms }
  if queue.leftmost alarm then { placed with first := some alarm }.updateTimerLocked blocked
  else placed

def tryToCancel (queue : AlarmQueue) (addr : ℕ) (blocked : Bool) : AlarmQueue :=
  if queue.first.any (·.addr = addr) then (queue.erase addr).updateTimerLocked blocked
  else queue.erase addr

def expire (queue : AlarmQueue) : AlarmQueue :=
  if queue.armed && !queue.running then { queue with armed := false, running := true } else queue

/-- One section of `alarm_timer_triggered`: an alarm is taken off to be called, or the timer is
armed again. -/
def timerTriggered (queue : AlarmQueue) (now : ℤ) (blocked : Bool) : AlarmQueue :=
  match queue.first with
  | none => { queue.updateTimerLocked blocked with running := false }
  | some alarm =>
    if alarm.softexpires > now then { queue.updateTimerLocked blocked with running := false }
    else queue.erase alarm.addr

def tryToCancelTimer (queue : AlarmQueue) : AlarmQueue :=
  { queue with armed := queue.armed && queue.running }

/-- The first section of `alarm_set_rtc` for a queue. -/
def stop (queue : AlarmQueue) (delta : ℤ) : AlarmQueue :=
  { queue.tryToCancelTimer with stopped := true, delta := delta }

/-- The second section of `alarm_set_rtc` for a queue. -/
def goOn (queue : AlarmQueue) (blocked : Bool) : AlarmQueue :=
  { queue with stopped := false }.updateTimerLocked blocked

end AlarmQueue

structure State where
  queues : AlarmType → AlarmQueue
  suspended : Bool
  /-- The alarm of the RTC, in seconds, if it is enabled. -/
  rtcAlarm : Option ℕ

def initial : State := ⟨fun _ => ⟨[], none, 0, false, false, 0, false⟩, false, none⟩

/-- The times that `alarm_suspend` reads: the RTC, the wall time, and the RTC again. -/
structure Clocks where
  rtcBefore : ℕ
  wallSec : ℤ
  wallNsec : ℤ
  rtcAfter : ℕ
  deriving DecidableEq, Repr

def Clocks.rtcAlarmTime (clocks : Clocks) (expires : ℤ) : ℕ :=
  let rtcDelta := (clocks.wallSec - clocks.rtcBefore) * 1000000000 + clocks.wallNsec
  Word.ofSigned ((expires - rtcDelta) / 1000000000)

namespace State

def blocked (state : State) (type : AlarmType) : Bool := type.isWakeup && state.suspended

def modify (state : State) (type : AlarmType) (change : AlarmQueue → AlarmQueue) : State :=
  { state with queues := Function.update state.queues type (change (state.queues type)) }

/-- A change of the queues of the types below `ANDROID_ALARM_SYSTEMTIME`. -/
def modifyWallTime (state : State) (change : AlarmType → AlarmQueue → AlarmQueue) : State :=
  { state with
    queues := fun type =>
      if type.onWallTime then change type (state.queues type) else state.queues type }

/-- The field `delta` after a change of the wall time by `change`. -/
def newDelta (state : State) (change : ℤ) (type : AlarmType) : ℤ :=
  if type.isElapsed then ktimeAdd (state.queues .elapsedRealtime).delta change
  else (state.queues type).delta

def stopAll (state : State) (change : ℤ) : State :=
  state.modifyWallTime fun type queue => queue.stop (state.newDelta change type)

def goOnAll (state : State) : State :=
  state.modifyWallTime fun type queue => queue.goOn (state.blocked type)

/-- The end of `alarm_resume`, and of `alarm_suspend` when an alarm is about to go off. -/
def wakeUp (state : State) : State :=
  (({ state with suspended := false }.modify .rtcWakeup (·.updateTimerLocked false)).modify
    .elapsedRealtimeWakeup (·.updateTimerLocked false))

/-- The queue that `alarm_suspend` sets the RTC for. -/
def wakeupQueue (state : State) : Option AlarmQueue :=
  let rtc := state.queues .rtcWakeup
  let elapsed := state.queues .elapsedRealtimeWakeup
  if elapsed.first.isSome && (rtc.first.isNone || decide (elapsed.expires < rtc.expires)) then
    some elapsed
  else if rtc.first.isSome then some rtc
  else none

def suspendBegin (state : State) : State := { state with suspended := true }

/-- One call of `hrtimer_cancel` in `alarm_suspend`, which waits until the callback has returned. -/
def suspendCancel (state : State) (type : AlarmType) : State :=
  if state.suspended && !(state.queues type).running then state.modify type (·.tryToCancelTimer)
  else state

/-- The end of `alarm_suspend`, from the choice of the queue on. -/
def suspendEnd (state : State) (clocks : Clocks) : State :=
  match state.wakeupQueue with
  | none => state
  | some queue =>
    let alarmTime := clocks.rtcAlarmTime queue.expires
    if Word.add clocks.rtcAfter 1 ≥ alarmTime then { state with rtcAlarm := none }.wakeUp
    else { state with rtcAlarm := some alarmTime }

/-- `alarm_suspend` with nothing between its sections. -/
def alarmSuspend (state : State) (clocks : Clocks) : State :=
  ((state.suspendBegin.suspendCancel .rtcWakeup).suspendCancel
    AlarmType.elapsedRealtimeWakeupMask).suspendEnd clocks

def alarmResume (state : State) : State := { state with rtcAlarm := none }.wakeUp

end State

inductive Request where
  | startRange (type : AlarmType) (alarm : Alarm)
  | tryToCancel (type : AlarmType) (addr : ℕ)
  | expire (type : AlarmType)
  | timerTriggered (type : AlarmType) (now : ℤ)
  | setRtcBegin (change : ℤ)
  | setRtcEnd
  | updateTimedelta (change : ℤ)
  | suspendBegin
  | suspendCancelFirst
  | suspendCancelSecond
  | suspendEnd (clocks : Clocks)
  | resume

def State.step (state : State) : Request → State
  | .startRange type alarm => state.modify type (·.enqueueLocked alarm (state.blocked type))
  | .tryToCancel type addr => state.modify type (·.tryToCancel addr (state.blocked type))
  | .expire type => state.modify type (·.expire)
  | .timerTriggered type now =>
    if (state.queues type).running then
      state.modify type (·.timerTriggered now (state.blocked type))
    else state
  | .setRtcBegin change => state.stopAll change
  | .setRtcEnd => state.goOnAll
  | .updateTimedelta change => (state.stopAll change).goOnAll
  | .suspendBegin => state.suspendBegin
  | .suspendCancelFirst => state.suspendCancel .rtcWakeup
  | .suspendCancelSecond => state.suspendCancel .elapsedRealtimeWakeupMask
  | .suspendEnd clocks => if state.suspended then state.suspendEnd clocks else state
  | .resume => state.alarmResume

end StreakKernel.AndroidAlarm
