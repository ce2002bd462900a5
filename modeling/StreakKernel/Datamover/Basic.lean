import Mathlib.Data.Fintype.Basic
import StreakKernel.Lib.Run

/-!
# The data mover

Shallow embedding of `msm_dmov_enqueue_cmd_ext`, `msm_datamover_irq_handler` and `timer_func` of
`arch/arm/mach-msm/dma.c` without `CONFIG_MSM_ADM3`. Each holds the lock of the data mover and is
one step. What the hardware registers show is part of the step.
-/

namespace StreakKernel.Datamover

/-- The flags of a result, and whether the status that is read after it shows `CMD_PTR_RDY`. -/
structure Round where
  done : Bool
  flush : Bool
  error : Bool
  ready : Bool
  deriving DecidableEq, Repr

/-- A channel. A command is named by the number of commands enqueued on the channel before it. -/
structure Chan where
  ready : List ℕ
  active : List ℕ
  isActive : Bool
  count : ℕ
  written : List ℕ
  completed : List ℕ
  results : ℕ
  /-- A command was taken off a list that it was not on. -/
  fault : Bool
  deriving DecidableEq, Repr

namespace Chan

/-- One of the three branches on the flags of a result: `list_del`, then `complete_func`. -/
def complete (chan : Chan) (cmd : Option ℕ) (flag : Bool) : Chan :=
  match flag, cmd with
  | true, some cmd =>
    if cmd ∈ chan.active then
      { chan with active := chan.active.erase cmd, completed := chan.completed ++ [cmd] }
    else { chan with fault := true }
  | _, _ => chan

/-- The branches on the flags, with the command in front of the active ones. -/
def answer (chan : Chan) (round : Round) : Chan :=
  let cmd := chan.active.head?
  ((chan.complete cmd round.done).complete cmd round.flush).complete cmd round.error

def start (chan : Chan) : Chan :=
  match chan.ready with
  | [] => chan
  | cmd :: rest =>
    { chan with
      ready := rest
      active := chan.active ++ [cmd]
      written := chan.written ++ [cmd] }

/-- One round of the loop of the handler that reads the results of a channel. -/
def round (chan : Chan) (round : Round) : Chan :=
  let chan := { chan with results := chan.results + 1 }.answer round
  if round.ready then chan.start else chan

/-- What the handler does for a channel. `RSLT_VALID` is read as set before each of the rounds. -/
def visit (chan : Chan) (rounds : List Round) : Chan :=
  if rounds = [] then chan
  else
    let chan := rounds.foldl Chan.round chan
    if chan.active = [] ∧ chan.ready = [] then { chan with isActive := false } else chan

/-- What `msm_dmov_enqueue_cmd_ext` does for the channel, `CMD_PTR_RDY` being read as given. -/
def enqueue (chan : Chan) (cmdPtrRdy : Bool) : Chan :=
  if cmdPtrRdy then
    { chan with
      count := chan.count + 1
      active := chan.active ++ [chan.count]
      isActive := true
      written := chan.written ++ [chan.count] }
  else { chan with count := chan.count + 1, ready := chan.ready ++ [chan.count] }

end Chan

inductive ClkCtl where
  | dis
  | toBeDis
  | en
  deriving DecidableEq, Repr

abbrev Channel := Fin 16

structure Device where
  chans : Channel → Chan
  clkCtl : ClkCtl
  clockOn : Bool
  irqEnabled : Bool
  bug : Bool

def initial : Device where
  chans _ := ⟨[], [], false, 0, [], [], 0, false⟩
  clkCtl := .dis
  clockOn := false
  irqEnabled := false
  bug := false

namespace Device

def Active (device : Device) : Prop := ∃ ch, (device.chans ch).isActive = true
  deriving Decidable

/-- `msm_dmov_enqueue_cmd_ext`; `clkOk` tells whether `clk_enable` succeeds, if it is called. -/
def enqueue (device : Device) (ch : Channel) (cmdPtrRdy clkOk : Bool) : Device :=
  { device with
    chans := Function.update device.chans ch ((device.chans ch).enqueue cmdPtrRdy)
    clkCtl := if cmdPtrRdy = false ∧ ¬device.Active then .toBeDis else .en
    clockOn := if device.clkCtl = .dis then clkOk else device.clockOn
    irqEnabled := device.irqEnabled || cmdPtrRdy && !decide device.Active }

/-- `msm_datamover_irq_handler`. The channels do not depend on each other. -/
def irqHandler (device : Device) (rounds : Channel → List Round) : Device :=
  let device := { device with chans := fun ch => (device.chans ch).visit (rounds ch) }
  if device.Active then device else { device with clkCtl := .toBeDis, irqEnabled := false }

def timerFunc (device : Device) : Device :=
  if device.clkCtl = .toBeDis then
    if device.Active then { device with bug := true }
    else { device with clkCtl := .dis, clockOn := false }
  else device

end Device

inductive Request where
  | enqueue (ch : Channel) (cmdPtrRdy clkOk : Bool)
  /-- An interrupt, which is delivered if it is enabled. -/
  | irq (rounds : Channel → List Round)
  | timer

def Device.step (device : Device) : Request → Device
  | .enqueue ch cmdPtrRdy clkOk => device.enqueue ch cmdPtrRdy clkOk
  | .irq rounds => if device.irqEnabled then device.irqHandler rounds else device
  | .timer => device.timerFunc

end StreakKernel.Datamover
