import Mathlib.Algebra.GroupWithZero.Nat
import StreakKernel.Lib.Ring

/-!
# The Android logger

Shallow embedding of `drivers/staging/android/logger.c`. A log is a ring of bytes
with a write offset, the offset `head` where new readers start, and one read offset
for each open reader.

The mutex is held over each function below, so each is one step, except that
`logger_aio_write` reads the write offset before it takes the mutex;
`loggerAioWriteLocked` is the rest of it. `logger_read` is modelled from where it
holds the mutex for good: before that it only waits.

`iocb->ki_left` is the total length of the segments, which is what the callers in
`fs/read_write.c` and `fs/aio.c` set it to. A copy from user space that faults
leaves arbitrary bytes in the part of the ring it was going to fill.
-/

namespace StreakKernel.Logger

/-- `sizeof(struct logger_entry)`. -/
def headerSize : ℕ := 20

def entryMaxLen : ℕ := 4 * 1024

def entryMaxPayload : ℕ := entryMaxLen - headerSize

/-- The ring and the two offsets of `struct logger_log`. -/
structure Log where
  buffer : ℕ → UInt8
  wOff : ℕ
  head : ℕ
  size : ℕ

structure System where
  log : Log
  readers : List ℕ

/-- `DEFINE_LOGGER_DEVICE`. -/
def System.initial (size : ℕ) : System := ⟨⟨fun _ => 0, 0, 0, size⟩, []⟩

def Log.offset (log : Log) (position : ℕ) : ℕ := position &&& (log.size - 1)

/-! ## Reading -/

/-- The length field of the entry at `off`, low byte first. -/
def getEntryLen (log : Log) (off : ℕ) : ℕ :=
  let low := log.buffer off
  let high := if log.size - off = 1 then log.buffer 0 else log.buffer (off + 1)
  headerSize + (low.toNat + 256 * high.toNat)

def doReadLogToUser (log : Log) (off count : ℕ) : List UInt8 :=
  let len := min count (log.size - off)
  (List.range len).map (fun index => log.buffer (off + index)) ++
    (List.range (count - len)).map log.buffer

/-- What `logger_read` returns: it waits or gives up if there is nothing to read. -/
inductive ReadResult where
  | entry (bytes : List UInt8)
  | nothing
  | invalid
  | fault
  deriving DecidableEq

/-- `logger_read` into a buffer of `count` bytes; `fault` says that a copy to user space fails. -/
def loggerRead (system : System) (reader count : ℕ) (fault : Bool) : System × ReadResult :=
  match system.readers[reader]? with
  | none => (system, .nothing)
  | some off =>
    let log := system.log
    if log.wOff = off then (system, .nothing)
    else
      let len := getEntryLen log off
      if count < len then (system, .invalid)
      else if fault then (system, .fault)
      else ({ system with readers := system.readers.set reader (log.offset (off + len)) },
        .entry (doReadLogToUser log off len))

/-! ## Writing -/

def getNextEntry (log : Log) (off len count : ℕ) : ℕ :=
  let nr := getEntryLen log off
  let next := log.offset (off + nr)
  if count + nr < len then getNextEntry log next len (count + nr) else next
termination_by len - count
decreasing_by
  simp only [getEntryLen, headerSize] at *
  omega

def clockInterval (a b c : ℕ) : Bool :=
  if b < a then a < c ∨ b ≥ c else a < c ∧ b ≥ c

/-- Pull one offset forward if the next `len` bytes reach it. -/
def fixUp (log : Log) (len off : ℕ) : ℕ :=
  if clockInterval log.wOff (log.offset (log.wOff + len)) off then getNextEntry log off len 0
  else off

def fixUpReaders (system : System) (len : ℕ) : System where
  log := { system.log with head := fixUp system.log len system.log.head }
  readers := system.readers.map (fixUp system.log len)

def doWriteLog (log : Log) (bytes : List UInt8) : Log :=
  { log with
    buffer := Ring.write log.size log.buffer log.wOff bytes
    wOff := log.offset (log.wOff + bytes.length) }

/-- A segment: its bytes, and for both copies whether it faults and what it leaves behind then. -/
structure Segment where
  bytes : List UInt8
  firstFault : Option (List UInt8)
  secondFault : Option (List UInt8)

/-- `do_write_log_from_user` for the first `count` bytes of a segment, and whether it
succeeds. -/
def doWriteLogFromUser (log : Log) (segment : Segment) (count : ℕ) : Log × Bool :=
  let bytes := segment.bytes.take count
  let len := min bytes.length (log.size - log.wOff)
  if len ≠ 0 ∧ segment.firstFault ≠ none then
    let left := (segment.firstFault.getD []).take len
    ({ log with buffer := Ring.put log.buffer log.wOff left }, false)
  else if bytes.length ≠ len ∧ segment.secondFault ≠ none then
    let left := (segment.secondFault.getD []).take (bytes.length - len)
    let buffer := Ring.put log.buffer log.wOff (bytes.take len)
    ({ log with buffer := Ring.put buffer 0 left }, false)
  else (doWriteLog log bytes, true)

/-- The header after its length field: padding, ids and time. -/
structure Stamp where
  bytes : List UInt8
  length_eq : bytes.length = 18

structure WriteRequest where
  stamp : Stamp
  segments : List Segment

/-- A write of one byte, which the copy from user space may fail to read. -/
def WriteRequest.short (fault : Option (List UInt8)) : WriteRequest :=
  ⟨⟨List.replicate 18 0, rfl⟩, [⟨[1], fault, none⟩]⟩

def WriteRequest.payloadLen (request : WriteRequest) : ℕ :=
  min (request.segments.map fun segment => segment.bytes.length).sum entryMaxPayload

def lenBytes (len : ℕ) : List UInt8 := [UInt8.ofNat (len % 256), UInt8.ofNat (len / 256)]

def WriteRequest.header (request : WriteRequest) : List UInt8 :=
  lenBytes request.payloadLen ++ request.stamp.bytes

def WriteRequest.entry (request : WriteRequest) : List UInt8 :=
  request.header ++ (request.segments.flatMap Segment.bytes).take request.payloadLen

/-- The loop over the segments, `ret` bytes of `len` having been written. -/
def writeSegments (len : ℕ) : List Segment → ℕ → Log → Log × Option ℕ
  | [], ret, log => (log, some ret)
  | segment :: rest, ret, log =>
    let count := min segment.bytes.length (len - ret)
    match doWriteLogFromUser log segment count with
    | (log, true) => writeSegments len rest (ret + count) log
    | (log, false) => (log, none)

/-- `logger_aio_write` under the mutex, for an entry that is not empty, with the write offset
`orig` read before. None is `-EFAULT`. -/
def loggerAioWriteLocked (system : System) (orig : ℕ) (request : WriteRequest) :
    System × Option ℕ :=
  let system := fixUpReaders system (headerSize + request.payloadLen)
  let log := doWriteLog system.log request.header
  match writeSegments request.payloadLen request.segments 0 log with
  | (log, some ret) => ({ system with log := log }, some ret)
  | (log, none) => ({ system with log := { log with wOff := orig } }, none)

/-- `logger_aio_write` without interruption. -/
def loggerAioWrite (system : System) (request : WriteRequest) : System × Option ℕ :=
  if request.payloadLen = 0 then (system, some 0)
  else loggerAioWriteLocked system system.log.wOff request

/-! ## Other operations -/

def loggerOpen (system : System) : System :=
  { system with readers := system.readers ++ [system.log.head] }

def loggerFlushLog (system : System) : System where
  log := { system.log with head := system.log.wOff }
  readers := system.readers.map fun _ => system.log.wOff

end StreakKernel.Logger
