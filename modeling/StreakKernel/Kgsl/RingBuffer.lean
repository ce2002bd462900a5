import StreakKernel.Lib.Run
import StreakKernel.Lib.Word

/-!
# The ring buffer of the GPU

Shallow embedding of `kgsl_ringbuffer_allocspace`, `kgsl_ringbuffer_waitspace` and
`kgsl_ringbuffer_submit` of `drivers/gpu/msm/kgsl_ringbuffer.c`, next to the GPU that reads the
ring. Each read of the read pointer is a step of the driver, so that the GPU moves between any two
of them. Positions are in dwords, and `unsigned int` has 32 bits.
-/

namespace StreakKernel.Kgsl

/-- A ring of `sizedwords` dwords in a 32-bit address space. `kgsl_ringbuffer_init` makes it `2 <<
n` long. -/
structure Ring where
  sizedwords : ℕ
  two_le : 2 ≤ sizedwords
  fits : sizedwords ≤ 1073741824

instance : Inhabited Ring := ⟨⟨2 <<< 12, by decide, by decide⟩⟩

inductive Dword where
  | command
  /-- `pm4_nop_packet`: the header of a packet with `count` more dwords. -/
  | nop (count : ℕ)
  deriving DecidableEq, Repr

inductive Phase where
  | idle
  /-- The loop of `kgsl_ringbuffer_waitspace` that waits until the read pointer is not 0. -/
  | waitNonzero (numcmds : ℕ)
  /-- The packet to the end of the ring has been submitted. -/
  | nopSubmitted (numcmds : ℕ)
  /-- The loop that waits for space; `checks` tells that `kgsl_ringbuffer_allocspace` checks it
  afterwards. -/
  | waitFree (numcmds : ℕ) (checks : Bool)
  /-- The dwords from `start` on have been handed out and are not yet submitted. -/
  | handedOut (start numcmds : ℕ)
  | bug
  deriving DecidableEq, Repr

structure State where
  wptr : ℕ
  rptr : ℕ
  memory : ℕ → Dword
  submitted : ℕ
  /-- The dwords that have been submitted and not been consumed, in this order. -/
  pending : List ℕ
  phase : Phase

def initial : State := ⟨0, 0, fun _ => .command, 0, [], .idle⟩

variable (ring : Ring)

namespace State

def submit (state : State) (next : Phase) : State :=
  if state.wptr = 0 then { state with phase := .bug }
  else
    { state with
      submitted := state.wptr
      pending := state.pending ++ List.range' state.submitted (state.wptr - state.submitted)
      phase := next }

/-- The end of `kgsl_ringbuffer_allocspace`; the caller then writes its commands. -/
def handOut (state : State) (numcmds : ℕ) : State :=
  { state with
    wptr := Word.add state.wptr numcmds
    memory := fun offset =>
      if state.wptr ≤ offset ∧ offset < state.wptr + numcmds then .command else state.memory offset
    phase := .handedOut state.wptr numcmds }

/-- The beginning of `kgsl_ringbuffer_waitspace` with `wptr_ahead`. -/
def fillWithNop (state : State) (numcmds : ℕ) : State :=
  { state with
    memory := fun offset =>
      if offset = state.wptr then .nop (ring.sizedwords - state.wptr - 1) else state.memory offset
    phase := .waitNonzero numcmds }

/-- The commands and the dwords of a NOP packet do not fit between the write pointer and the end. -/
def tooLong (state : State) (numcmds : ℕ) : Prop :=
  Word.add state.wptr numcmds > Word.sub ring.sizedwords 2
  deriving Decidable

def checkRemaining (state : State) (numcmds : ℕ) : State :=
  if state.tooLong ring numcmds then state.fillWithNop ring numcmds else state.handOut numcmds

/-- `kgsl_ringbuffer_allocspace` up to the first loop. -/
def allocspace (state : State) (numcmds : ℕ) : State :=
  if numcmds ≥ ring.sizedwords then { state with phase := .bug }
  else if state.wptr ≥ state.rptr then state.checkRemaining ring numcmds
  else if Word.add state.wptr numcmds ≥ state.rptr then
    { state with phase := .waitFree numcmds true }
  else state.checkRemaining ring numcmds

def advance (state : State) : State :=
  match state.phase with
  | .idle => state
  | .waitNonzero numcmds =>
    if state.rptr = 0 then state
    else { state with wptr := Word.add state.wptr 1 }.submit (.nopSubmitted numcmds)
  | .nopSubmitted numcmds =>
    { state with wptr := 0, submitted := 0, phase := .waitFree numcmds false }
  | .waitFree numcmds checks =>
    let freecmds := Word.sub state.rptr state.wptr
    if freecmds ≠ 0 ∧ freecmds ≤ numcmds then state
    else if checks then state.checkRemaining ring numcmds
    else state.handOut numcmds
  | .handedOut _ _ => state.submit .idle
  | .bug => state

/-- The GPU consumes the dword at its read pointer, if it has been submitted, and skips the rest
of a NOP packet. -/
def consume (state : State) : State :=
  match state.pending with
  | [] => state
  | dword :: rest =>
    if dword = state.rptr then
      let next :=
        match state.memory state.rptr with
        | .command => state.rptr + 1
        | .nop count => state.rptr + 1 + count
      { state with rptr := if next = ring.sizedwords then 0 else next, pending := rest }
    else state

end State

/-- A call of `kgsl_ringbuffer_allocspace`, or a step of the driver or of the GPU. -/
inductive Request where
  | allocspace (numcmds : ℕ) (bound : numcmds + 2 ≤ ring.sizedwords)
  | advance
  | consume

def State.step (state : State) : Request ring → State
  | .allocspace numcmds _ => if state.phase = .idle then state.allocspace ring numcmds else state
  | .advance => state.advance ring
  | .consume => state.consume ring

end StreakKernel.Kgsl
