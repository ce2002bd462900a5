import StreakKernel.Lib.Ring
import StreakKernel.Lib.Word

/-!
# Shared memory channels

One direction of a channel of `arch/arm/mach-msm/smd.c`: a ring of bytes whose head
belongs to the writer on one processor and whose tail to the reader on the other.
Neither takes a lock that the other knows. A transfer takes three atomic steps:
the room is looked up, bytes are copied, and the own index is moved. The paths of
`ch_read` and `smd_stream_write` with `user_buf` set are left out: they count the bytes
of a copy that faults as moved.
-/

namespace StreakKernel.Smd

abbrev Byte := UInt8

structure FifoSize where
  size : ℕ
  isPow : ∃ order ≤ 31, size = 2 ^ order

instance : Inhabited FifoSize := ⟨⟨8192, 13, by decide, by decide⟩⟩

structure Fifo where
  buffer : ℕ → Byte
  head : ℕ
  tail : ℕ

namespace Fifo

variable (fifo : Fifo) (size : ℕ)

def streamReadAvail : ℕ :=
  Word.sub fifo.head fifo.tail &&& (size - 1)

def streamWriteAvail : ℕ :=
  size - 1 - (Word.sub fifo.head fifo.tail &&& (size - 1))

/-- The bytes that can be read in one piece, from the tail on. -/
def chReadBuffer : ℕ :=
  if fifo.tail ≤ fifo.head then fifo.head - fifo.tail else size - fifo.tail

def chReadDone (count : ℕ) : Fifo :=
  { fifo with tail := Word.add fifo.tail count &&& (size - 1) }

/-- The bytes that can be written in one piece, from the head on. One byte of the
ring is always left free. -/
def chWriteBuffer : ℕ :=
  if fifo.head < fifo.tail then fifo.tail - fifo.head - 1
  else if fifo.tail = 0 then size - fifo.head - 1
  else size - fifo.head

def chWriteDone (count : ℕ) : Fifo :=
  { fifo with head := Word.add fifo.head count &&& (size - 1) }

def copyIn (data : List Byte) : Fifo :=
  { fifo with buffer := Ring.put fifo.buffer fifo.head data }

def copyOut (count : ℕ) : List Byte :=
  (List.range count).map fun index => fifo.buffer (fifo.tail + index)

end Fifo

/-! ## Interleaved transfers -/

inductive WritePhase where
  | idle
  | granted (room : ℕ)
  | copied (data : List Byte)
  deriving DecidableEq, Repr

inductive ReadPhase where
  | idle
  | granted (room : ℕ)
  | copied (data : List Byte)
  deriving DecidableEq, Repr

/-- The fifo with its two users, all bytes completed on either side, and whether a `BUG_ON` has
been hit. -/
structure Link where
  fifo : Fifo
  writer : WritePhase
  reader : ReadPhase
  written : List Byte
  consumed : List Byte
  bug : Bool

/-- The atomic steps. A writer chooses what to copy and a reader how much, within
what was granted. -/
inductive Event where
  | writeBuffer
  | writeCopy (data : List Byte)
  | writeDone
  | readBuffer
  | readCopy (count : ℕ)
  | readDone
  deriving DecidableEq, Repr

namespace Link

/-- One step. An event for which its user is not ready does nothing. -/
def step (size : ℕ) (link : Link) : Event → Link
  | .writeBuffer =>
    match link.writer with
    | .copied _ => link
    | _ => { link with writer := .granted (link.fifo.chWriteBuffer size) }
  | .writeCopy data =>
    match link.writer with
    | .granted room =>
      let chosen := data.take room
      { link with fifo := link.fifo.copyIn chosen, writer := .copied chosen }
    | _ => link
  | .writeDone =>
    match link.writer with
    | .copied data =>
      { link with
        fifo := link.fifo.chWriteDone size data.length
        writer := .idle
        written := link.written ++ data
        bug := link.bug || decide (link.fifo.streamWriteAvail size < data.length) }
    | _ => link
  | .readBuffer =>
    match link.reader with
    | .copied _ => link
    | _ => { link with reader := .granted (link.fifo.chReadBuffer size) }
  | .readCopy count =>
    match link.reader with
    | .granted room => { link with reader := .copied (link.fifo.copyOut (min count room)) }
    | _ => link
  | .readDone =>
    match link.reader with
    | .copied data =>
      { link with
        fifo := link.fifo.chReadDone size data.length
        reader := .idle
        consumed := link.consumed ++ data
        bug := link.bug || decide (link.fifo.streamReadAvail size < data.length) }
    | _ => link

end Link

end StreakKernel.Smd
