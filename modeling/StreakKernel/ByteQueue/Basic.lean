import StreakKernel.Lib.Ring
import StreakKernel.Lib.Word

/-!
# Byte queues

Shallow embedding of `kernel/kfifo.c` and of the inline functions of `kfifo.h`. The indices `in` and
`out` run freely modulo 2^32; the place of a byte in the buffer is its index modulo the size.

The data that a caller passes is a list of bytes, and its length is the argument `len`. A copy from
or to user space comes with the numbers of bytes that its two parts could not copy.
-/

namespace StreakKernel.ByteQueue

structure Kfifo where
  buffer : ℕ → UInt8
  size : ℕ
  inIndex : ℕ
  outIndex : ℕ

namespace Kfifo

def kfifoResetOut (fifo : Kfifo) : Kfifo := { fifo with outIndex := fifo.inIndex }

def kfifoLen (fifo : Kfifo) : ℕ := Word.sub fifo.inIndex fifo.outIndex

def kfifoAvail (fifo : Kfifo) : ℕ := Word.sub fifo.size fifo.kfifoLen

def kfifoAddOut (fifo : Kfifo) (off : ℕ) : Kfifo :=
  { fifo with outIndex := Word.add fifo.outIndex off }

def kfifoAddIn (fifo : Kfifo) (off : ℕ) : Kfifo :=
  { fifo with inIndex := Word.add fifo.inIndex off }

def kfifoOff (fifo : Kfifo) (index : ℕ) : ℕ := index &&& (fifo.size - 1)

def kfifoSkip (fifo : Kfifo) (count : ℕ) : Kfifo :=
  if count < fifo.kfifoLen then fifo.kfifoAddOut count else fifo.kfifoResetOut

def bytes (buffer : ℕ → UInt8) (start count : ℕ) : List UInt8 :=
  (List.range count).map fun index => buffer (start + index)

def kfifoInData (fifo : Kfifo) (source : List UInt8) (offset : ℕ) : Kfifo :=
  let start := fifo.kfifoOff (Word.add fifo.inIndex offset)
  let l := min source.length (fifo.size - start)
  let buffer := Ring.put fifo.buffer start (source.take l)
  { fifo with buffer := Ring.put buffer 0 (source.drop l) }

def kfifoOutData (fifo : Kfifo) (count offset : ℕ) : List UInt8 :=
  let start := fifo.kfifoOff (Word.add fifo.outIndex offset)
  let l := min count (fifo.size - start)
  bytes fifo.buffer start l ++ bytes fifo.buffer 0 (count - l)

def kfifoIn (fifo : Kfifo) (source : List UInt8) : Kfifo × ℕ :=
  let count := min fifo.kfifoAvail source.length
  (((fifo.kfifoInData (source.take count) 0).kfifoAddIn count), count)

def kfifoOut (fifo : Kfifo) (count : ℕ) : Kfifo × List UInt8 :=
  let count := min fifo.kfifoLen count
  (fifo.kfifoAddOut count, fifo.kfifoOutData count 0)

/-- `kfifo_out_peek`; the result is the kfifo, the bytes written to `to` and their number. -/
def kfifoOutPeek (fifo : Kfifo) (count offset : ℕ) : Kfifo × List UInt8 × ℕ :=
  let count := min fifo.kfifoLen (Word.add count offset)
  (fifo, fifo.kfifoOutData count offset, count)

/-- What `copy_from_user` leaves in the kernel if some bytes at the end are not copied. -/
def copied (source : List UInt8) (left : ℕ) : List UInt8 :=
  source.take (source.length - left) ++ List.replicate (min left source.length) 0

/-- `__kfifo_from_user_data`; the result is the error and `*lenout`. -/
def kfifoFromUserData (fifo : Kfifo) (source : List UInt8) (offset : ℕ) (faults : ℕ × ℕ) :
    Kfifo × Bool × ℕ :=
  let start := fifo.kfifoOff (Word.add fifo.inIndex offset)
  let l := min source.length (fifo.size - start)
  let buffer := Ring.put fifo.buffer start (copied (source.take l) faults.1)
  if faults.1 ≠ 0 then ({ fifo with buffer := buffer }, true, faults.1)
  else
    let buffer := Ring.put buffer 0 (copied (source.drop l) faults.2)
    if faults.2 ≠ 0 then ({ fifo with buffer := buffer }, true, l + faults.2)
    else ({ fifo with buffer := buffer }, false, l + (source.length - l))

/-- `__kfifo_to_user_data`; the result is the data that arrive, the error and `*lenout`. -/
def kfifoToUserData (fifo : Kfifo) (count offset : ℕ) (faults : ℕ × ℕ) : List UInt8 × Bool × ℕ :=
  let start := fifo.kfifoOff (Word.add fifo.outIndex offset)
  let l := min count (fifo.size - start)
  if faults.1 ≠ 0 then (bytes fifo.buffer start (l - faults.1), true, l - faults.1)
  else
    let rest := count - l
    if faults.2 ≠ 0 then
      (bytes fifo.buffer start l ++ bytes fifo.buffer 0 (rest - faults.2), true,
        l + (rest - faults.2))
    else (bytes fifo.buffer start l ++ bytes fifo.buffer 0 rest, false, l + rest)

/-- `kfifo_from_user`; the result is the error and `*total`. -/
def kfifoFromUser (fifo : Kfifo) (source : List UInt8) (faults : ℕ × ℕ) : Kfifo × Bool × ℕ :=
  let count := min fifo.kfifoAvail source.length
  let (written, failed, total) := fifo.kfifoFromUserData (source.take count) 0 faults
  if failed then (written, true, total) else (written.kfifoAddIn count, false, total)

/-- `kfifo_to_user`; the result is the data that arrive, the error and `*lenout`. -/
def kfifoToUser (fifo : Kfifo) (count : ℕ) (faults : ℕ × ℕ) : Kfifo × List UInt8 × Bool × ℕ :=
  let count := min fifo.kfifoLen count
  let (data, failed, lenout) := fifo.kfifoToUserData count 0 faults
  (fifo.kfifoAddOut lenout, data, failed, lenout)

end Kfifo

end StreakKernel.ByteQueue
