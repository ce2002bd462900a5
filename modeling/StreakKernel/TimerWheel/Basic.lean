import StreakKernel.Lib.Word

/-!
# The timer wheel

The model follows `kernel/timer.c` with `TVR_BITS` 8 and `TVN_BITS` 6: one `tvec_base` with the
fields of the timers that the code of the base reads. A step is one section of code under the
lock of the base, so that callbacks and interrupts may change the base between any two timers of a
tick. A timer that moves to the base of another processor leaves this one as with `del_timer`, and
a timer that comes from another base is armed here as one that was not pending.
-/

namespace StreakKernel.TimerWheel

open Word

universe u

variable {Timer : Type u} [DecidableEq Timer]

/-- `struct tvec_base`. `tv1` to `tv5` are the levels 0 to 4, and `workList` holds the timers of
the tick being run. -/
structure Base (Timer : Type u) where
  timerJiffies : ℕ
  nextTimer : ℕ
  vec : ℕ → ℕ → List Timer
  workList : List Timer
  expires : Timer → ℕ
  pending : Timer → Bool
  deferrable : Timer → Bool

def timeBefore (left right : ℕ) : Prop := toSigned (sub left right) < 0
  deriving Decidable

def timeAfterEq (left right : ℕ) : Prop := 0 ≤ toSigned (sub left right)
  deriving Decidable

namespace Base

/-! ## Arming and disarming -/

def setBucket (base : Base Timer) (lev slot : ℕ) (timers : List Timer) : Base Timer :=
  { base with vec := Function.update base.vec lev (Function.update (base.vec lev) slot timers) }

/-- The level and the slot that `internal_add_timer` chooses. A difference above 0xffffffff does
not exist here. -/
def bucketFor (timerJiffies expires : ℕ) : ℕ × ℕ :=
  let idx := sub expires timerJiffies
  if idx < 256 then (0, expires % 256)
  else if idx < 16384 then (1, expires / 256 % 64)
  else if idx < 1048576 then (2, expires / 16384 % 64)
  else if idx < 67108864 then (3, expires / 1048576 % 64)
  else if toSigned idx < 0 then (0, timerJiffies % 256)
  else (4, expires / 67108864 % 64)

def addTail (base : Base Timer) (bucket : ℕ × ℕ) (timer : Timer) : Base Timer :=
  let added := base.setBucket bucket.1 bucket.2 (base.vec bucket.1 bucket.2 ++ [timer])
  { added with pending := Function.update base.pending timer true }

def internalAddTimer (base : Base Timer) (timer : Timer) : Base Timer :=
  base.addTail (bucketFor base.timerJiffies (base.expires timer)) timer

/-- `detach_timer`: the timer is taken off the list it stands in. -/
def detachTimer (base : Base Timer) (timer : Timer) (clearPending : Bool) : Base Timer :=
  { base with
    vec := fun lev slot => (base.vec lev slot).erase timer
    workList := base.workList.erase timer
    pending := if clearPending then Function.update base.pending timer false else base.pending }

/-- A timer that may have determined `next_timer` has been detached. -/
def forgetNext (base : Base Timer) (timer : Timer) : Base Timer :=
  if base.expires timer = base.nextTimer ∧ base.deferrable timer = false then
    { base with nextTimer := base.timerJiffies }
  else base

/-- The end of `__mod_timer` and of `add_timer_on`. -/
def enqueue (base : Base Timer) (timer : Timer) (expires : ℕ) : Base Timer :=
  let armed := { base with expires := Function.update base.expires timer expires }
  if timeBefore expires armed.nextTimer ∧ armed.deferrable timer = false then
    { armed with nextTimer := expires }.internalAddTimer timer
  else armed.internalAddTimer timer

omit [DecidableEq Timer] in
theorem forgetNext_eq (base : Base Timer) (timer : Timer) : base.forgetNext timer = { base with
      nextTimer :=
        if base.expires timer = base.nextTimer ∧ base.deferrable timer = false then
          base.timerJiffies
        else base.nextTimer } := by
  unfold forgetNext
  split_ifs with determined
  · rfl
  · rfl

theorem enqueue_eq (base : Base Timer) (timer : Timer) (expires : ℕ) :
    base.enqueue timer expires = { base with
      expires := Function.update base.expires timer expires
      nextTimer :=
        if timeBefore expires base.nextTimer ∧ base.deferrable timer = false then expires
        else base.nextTimer }.internalAddTimer timer := by
  unfold enqueue
  simp only
  split_ifs with isSooner
  · rfl
  · rfl

def modTimer (base : Base Timer) (timer : Timer) (expires : ℕ) (pendingOnly : Bool) : Base Timer :=
  if base.pending timer then
    ((base.detachTimer timer false).forgetNext timer).enqueue timer expires
  else if pendingOnly then base
  else base.enqueue timer expires

/-- `add_timer_on`; it does not return for a pending timer. -/
def addTimerOn (base : Base Timer) (timer : Timer) (expires : ℕ) : Base Timer :=
  if base.pending timer then base else base.enqueue timer expires

def delTimer (base : Base Timer) (timer : Timer) : Base Timer :=
  if base.pending timer then (base.detachTimer timer true).forgetNext timer else base

/-! ## Running the timers of a tick -/

def cascade (base : Base Timer) (lev index : ℕ) : Base Timer :=
  (base.vec lev index).foldl internalAddTimer (base.setBucket lev index [])

/-- The chain of calls of `cascade` from a level on, `rest` levels in all; it goes on as long as
the index is 0. -/
def cascades : ℕ → ℕ → ℕ → Base Timer → Base Timer
  | 0, _, _, base => base
  | rest + 1, lev, unit, base =>
    let index := base.timerJiffies / unit % 64
    if index = 0 then cascades rest (lev + 1) (unit * 64) (base.cascade lev index)
    else base.cascade lev index

/-- One turn of the outer loop of `__run_timers` up to its inner loop. -/
def beginTick (base : Base Timer) : Base Timer :=
  let index := base.timerJiffies % 256
  let cascaded := if index = 0 then cascades 4 1 256 base else base
  { cascaded.setBucket 0 index [] with
    timerJiffies := add cascaded.timerJiffies 1
    workList := cascaded.vec 0 index }

/-! ## The next timer -/

def nextTimerMaxDelta : ℕ := 1073741823

/-- The timers of a bucket that keep a processor from sleeping. -/
def wakers (base : Base Timer) (lev slot : ℕ) : List Timer :=
  (base.vec lev slot).filter fun timer => !base.deferrable timer

/-- The search through `tv1`: the expiry of the first timer and its slot. -/
def scanRoot (base : Base Timer) : ℕ → ℕ → Option (ℕ × ℕ)
  | 0, _ => none
  | rest + 1, slot =>
    match base.wakers 0 slot with
    | timer :: _ => some (base.expires timer, slot)
    | [] => scanRoot base rest ((slot + 1) % 256)

def earliest (base : Base Timer) (expires : ℕ) (timers : List Timer) : ℕ :=
  timers.foldl (fun least timer =>
    if timeBefore (base.expires timer) least then base.expires timer else least) expires

/-- The search through one of `tv2` to `tv5`: the expiry, whether a timer has been found, and
whether the search ends here. -/
def scanVector (base : Base Timer) (lev index : ℕ) : ℕ → ℕ → ℕ → Bool → ℕ × Bool × Bool
  | 0, _, expires, found => (expires, found, false)
  | rest + 1, slot, expires, found =>
    let timers := base.wakers lev slot
    let least := base.earliest expires timers
    if found || !timers.isEmpty then (least, true, !(index == 0 || decide (slot < index)))
    else scanVector base lev index rest ((slot + 1) % 64) least false

/-- The loop over the vectors `tv2` to `tv5`, `rest` of them from `lev` on. -/
def scanVectors (base : Base Timer) : ℕ → ℕ → ℕ → ℕ → Bool → ℕ
  | 0, _, _, expires, _ => expires
  | rest + 1, lev, timerJiffies, expires, found =>
    let index := timerJiffies % 64
    let result := base.scanVector lev index 64 index expires found
    if result.2.2 then result.1
    else
      let later := if index = 0 then timerJiffies else timerJiffies + (64 - index)
      scanVectors base rest (lev + 1) (later / 64) result.1 result.2.1

def nextTimerInterrupt (base : Base Timer) : ℕ :=
  let index := base.timerJiffies % 256
  let later := if index = 0 then base.timerJiffies else add base.timerJiffies (256 - index)
  match base.scanRoot 256 index with
  | some (expires, slot) =>
    if index = 0 ∨ slot < index then base.scanVectors 4 1 (later / 256) expires true else expires
  | none => base.scanVectors 4 1 (later / 256) (add base.timerJiffies nextTimerMaxDelta) false

def getNextTimerInterrupt (base : Base Timer) : Base Timer :=
  if timeAfterEq base.timerJiffies base.nextTimer then
    { base with nextTimer := base.nextTimerInterrupt }
  else base

def initTimersCpu (jiffies : ℕ) (deferrable : Timer → Bool) : Base Timer where
  timerJiffies := jiffies
  nextTimer := jiffies
  vec _ _ := []
  workList := []
  expires _ := 0
  pending _ := false
  deferrable := deferrable

end Base

end StreakKernel.TimerWheel
