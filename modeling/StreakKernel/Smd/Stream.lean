import Mathlib.Data.Nat.Bitwise
import StreakKernel.Lib.Run
import StreakKernel.Smd.Basic

/-!
# A shared fifo is a stream

The bytes between tail and head are those that have been written and not consumed.
The reader can only make room and the writer can only add bytes, so that what was
granted to one stays good while the other moves its index.
-/

namespace StreakKernel.Smd

open List StreakKernel.Ring Nat
open Nat (mod_eq_of_lt)

namespace FifoSize

variable (geometry : FifoSize)

theorem positive : 0 < geometry.size := by
  rcases geometry.isPow with ⟨order, _, isSize⟩
  rw [isSize]
  exact Nat.two_pow_pos order

theorem dvd : geometry.size ∣ 4294967296 := by
  rcases geometry.isPow with ⟨order, le, isSize⟩
  rw [isSize]
  exact pow_dvd_pow 2 (by omega : order ≤ 32)

theorem size_le : geometry.size ≤ 2147483648 := by
  rcases geometry.isPow with ⟨order, le, isSize⟩
  rw [isSize]
  calc 2 ^ order ≤ 2 ^ 31 := Nat.pow_le_pow_right Nat.two_pos le
    _ = 2147483648 := by decide

theorem and_mask (index : ℕ) : index &&& (geometry.size - 1) = index % geometry.size := by
  rcases geometry.isPow with ⟨order, _, isSize⟩
  rw [isSize, and_two_pow_sub_one_eq_mod]

end FifoSize

namespace Fifo

structure InRing (geometry : FifoSize) (fifo : Fifo) : Prop where
  headLt : fifo.head < geometry.size
  tailLt : fifo.tail < geometry.size

def used (size : ℕ) (fifo : Fifo) : ℕ :=
  if fifo.tail ≤ fifo.head then fifo.head - fifo.tail else fifo.head + size - fifo.tail

def content (size : ℕ) (fifo : Fifo) : List Byte :=
  window size fifo.buffer fifo.tail (fifo.used size)

variable {geometry : FifoSize} {fifo : Fifo}

@[simp]
theorem length_content (size : ℕ) : (fifo.content size).length = fifo.used size :=
  length_window

theorem used_eq_of {size count : ℕ} (isSum : fifo.tail + count = fifo.head ∨
    fifo.head < fifo.tail ∧ fifo.tail + count = fifo.head + size) : fifo.used size = count := by
  unfold used
  split <;> omega

theorem InRing.used_cases (inRing : fifo.InRing geometry) :
    fifo.tail + fifo.used geometry.size = fifo.head ∨ fifo.head < fifo.tail ∧
        fifo.tail + fifo.used geometry.size = fifo.head + geometry.size := by
  have := inRing.tailLt
  unfold used
  split <;> omega

theorem InRing.streamReadAvail_eq (inRing : fifo.InRing geometry) :
    fifo.streamReadAvail geometry.size = fifo.used geometry.size := by
  have headLt := inRing.headLt
  have tailLt := inRing.tailLt
  have size_le := geometry.size_le
  rw [streamReadAvail, geometry.and_mask]
  unfold used Word.sub
  rw [mod_mod_of_dvd _ geometry.dvd, mod_eq_of_lt (by omega : fifo.tail < 4294967296)]
  obtain ⟨quotient, isQuotient⟩ := geometry.dvd
  split
  · have sum_eq : fifo.head + (4294967296 - fifo.tail) =
        fifo.head - fifo.tail + geometry.size * quotient := by omega
    rw [sum_eq, add_mul_mod_self_left, mod_eq_of_lt (by omega)]
  obtain ⟨less, rfl⟩ : ∃ less, quotient = less + 1 := by
    refine ⟨quotient - 1, ?_⟩
    rcases quotient with _ | quotient
    · omega
    · omega
  have sum_eq : fifo.head + (4294967296 - fifo.tail) =
      fifo.head + geometry.size - fifo.tail + geometry.size * less := by
    rw [mul_succ] at isQuotient
    omega
  rw [sum_eq, add_mul_mod_self_left, mod_eq_of_lt (by omega)]

theorem InRing.streamWriteAvail_eq (inRing : fifo.InRing geometry) :
    fifo.streamWriteAvail geometry.size = geometry.size - 1 - fifo.used geometry.size := by
  have readAvail := inRing.streamReadAvail_eq
  unfold streamReadAvail at readAvail
  rw [streamWriteAvail, readAvail]

theorem add_mask (geometry : FifoSize) (index count : ℕ) :
    Word.add index count &&& (geometry.size - 1) = (index + count) % geometry.size := by
  rw [geometry.and_mask]
  unfold Word.add
  exact mod_mod_of_dvd _ geometry.dvd

/-! ## Reading -/

theorem InRing.chReadBuffer_le (inRing : fifo.InRing geometry) :
    fifo.chReadBuffer geometry.size ≤ fifo.used geometry.size ∧
      fifo.tail + fifo.chReadBuffer geometry.size ≤ geometry.size := by
  have := inRing.headLt
  have := inRing.tailLt
  unfold chReadBuffer used
  split <;> omega

theorem InRing.chReadBuffer_pos (inRing : fifo.InRing geometry)
    (nonempty : 0 < fifo.used geometry.size) : 0 < fifo.chReadBuffer geometry.size := by
  have := inRing.tailLt
  unfold used at nonempty
  unfold chReadBuffer
  split
  · rename_i ordered
    rwa [if_pos ordered] at nonempty
  · omega

theorem copyOut_eq (size count : ℕ) (le : count ≤ fifo.used size)
    (contiguous : fifo.tail + count ≤ size) :
    fifo.copyOut count = (fifo.content size).take count := by
  have split : fifo.used size = count + (fifo.used size - count) := by omega
  rw [content, split, window_append]
  rw [take_left' length_window]
  apply map_congr_left
  intro index mem
  have indexLt := mem_range.mp mem
  rw [mod_eq_of_lt (by omega)]

section Inside

variable (inRing : fifo.InRing geometry)
include inRing

theorem InRing.chReadDone {count : ℕ} (le : count ≤ fifo.used geometry.size) :
    (fifo.chReadDone geometry.size count).InRing geometry ∧
      (fifo.chReadDone geometry.size count).used geometry.size = fifo.used geometry.size - count ∧
      (fifo.chReadDone geometry.size count).content geometry.size =
        (fifo.content geometry.size).drop count := by
  have headLt := inRing.headLt
  have tail_eq : (fifo.chReadDone geometry.size count).tail =
      (fifo.tail + count) % geometry.size := add_mask geometry fifo.tail count
  have used_eq : (fifo.chReadDone geometry.size count).used geometry.size =
      fifo.used geometry.size - count := by
    have cases := inRing.used_cases
    apply used_eq_of
    rw [tail_eq]
    simp only [Fifo.chReadDone]
    rcases lt_or_ge (fifo.tail + count) geometry.size with inside | past
    · rw [mod_eq_of_lt inside]
      omega
    · rw [Nat.mod_eq_sub_mod past, mod_eq_of_lt (by omega)]
      omega
  refine ⟨⟨headLt, ?_⟩, used_eq, ?_⟩
  · rw [tail_eq]
    exact mod_lt _ geometry.positive
  have split : fifo.used geometry.size = count + (fifo.used geometry.size - count) := by omega
  rw [content, used_eq, tail_eq, content]
  rw [split, window_append, drop_left' length_window, Nat.add_sub_cancel_left]
  rfl

/-! ## Writing -/

theorem InRing.chWriteBuffer_le :
    fifo.chWriteBuffer geometry.size + fifo.used geometry.size < geometry.size ∧
      fifo.head + fifo.chWriteBuffer geometry.size ≤ geometry.size := by
  have := inRing.headLt
  have := inRing.tailLt
  unfold chWriteBuffer used
  split_ifs <;> omega

theorem InRing.chWriteBuffer_pos (free : fifo.used geometry.size + 1 < geometry.size) :
    0 < fifo.chWriteBuffer geometry.size := by
  have := inRing.headLt
  unfold used at free
  unfold chWriteBuffer
  split_ifs at free ⊢ <;> omega

theorem InRing.head_eq : (fifo.tail + fifo.used geometry.size) % geometry.size = fifo.head := by
  have headLt := inRing.headLt
  have tailLt := inRing.tailLt
  unfold used
  split
  · rw [mod_eq_of_lt (by omega)]
    omega
  · rw [Nat.mod_eq_sub_mod (by omega), mod_eq_of_lt (by omega)]
    omega

theorem InRing.copyIn (data : List Byte)
    (fits : data.length + fifo.used geometry.size < geometry.size)
    (contiguous : fifo.head + data.length ≤ geometry.size) :
    (fifo.copyIn data).content geometry.size = fifo.content geometry.size ∧
      window geometry.size (fifo.copyIn data).buffer fifo.head data.length = data := by
  have headLt := inRing.headLt
  have tailLt := inRing.tailLt
  have isWrite : (fifo.copyIn data).buffer =
      write geometry.size fifo.buffer fifo.head data :=
    (write_of_le (by omega)).symm
  have tail_eq : (fifo.head + (geometry.size - fifo.used geometry.size)) % geometry.size =
      fifo.tail := by
    unfold used
    split
    · rename_i ordered
      rcases Nat.eq_or_lt_of_le ordered with same | less
      · rw [same, Nat.sub_self, Nat.sub_zero, Nat.add_mod_right, mod_eq_of_lt headLt]
      · rw [Nat.mod_eq_sub_mod (by omega), mod_eq_of_lt (by omega)]
        omega
    · rw [mod_eq_of_lt (by omega)]
      omega
  constructor
  · have far : data.length ≤ geometry.size - fifo.used geometry.size := by omega
    have kept : ∀ cells : ℕ → Byte,
        window geometry.size (write geometry.size cells fifo.head data)
            ((fifo.head + (geometry.size - fifo.used geometry.size)) % geometry.size)
            (fifo.used geometry.size) =
          window geometry.size cells
            ((fifo.head + (geometry.size - fifo.used geometry.size)) % geometry.size)
            (fifo.used geometry.size) :=
      fun cells => window_write_of_le headLt (by omega) far (by omega)
    rw [tail_eq] at kept
    rw [content, isWrite]
    exact kept fifo.buffer
  · rw [isWrite]
    exact window_write_self headLt (by omega)

theorem InRing.chWriteDone {count : ℕ} (fits : count + fifo.used geometry.size < geometry.size) :
    (fifo.chWriteDone geometry.size count).InRing geometry ∧
      (fifo.chWriteDone geometry.size count).used geometry.size = fifo.used geometry.size + count ∧
      (fifo.chWriteDone geometry.size count).content geometry.size = fifo.content geometry.size ++
          window geometry.size fifo.buffer fifo.head count := by
  have tailLt := inRing.tailLt
  have head_eq : (fifo.chWriteDone geometry.size count).head =
      (fifo.head + count) % geometry.size := add_mask geometry fifo.head count
  have used_eq : (fifo.chWriteDone geometry.size count).used geometry.size =
      fifo.used geometry.size + count := by
    have cases := inRing.used_cases
    apply used_eq_of
    rw [head_eq]
    simp only [Fifo.chWriteDone]
    rcases lt_or_ge (fifo.head + count) geometry.size with inside | past
    · rw [mod_eq_of_lt inside]
      omega
    · rw [Nat.mod_eq_sub_mod past, mod_eq_of_lt (by omega)]
      omega
  refine ⟨⟨?_, tailLt⟩, used_eq, ?_⟩
  · rw [head_eq]
    exact mod_lt _ geometry.positive
  · rw [content, used_eq, content]
    simp only [Fifo.chWriteDone]
    rw [window_append, inRing.head_eq]

end Inside

end Fifo

/-! ## The invariant of the interleaving -/

/-- What was granted to the writer is still free, and what it has copied stands behind
the head. -/
def WritePhase.Good (geometry : FifoSize) (fifo : Fifo) : WritePhase → Prop
  | .idle => True
  | .granted room => room + fifo.used geometry.size < geometry.size ∧
      fifo.head + room ≤ geometry.size
  | .copied data => data.length + fifo.used geometry.size < geometry.size ∧
      fifo.head + data.length ≤ geometry.size ∧
      window geometry.size fifo.buffer fifo.head data.length = data

/-- What was granted to the reader is still there, and what it has copied is the
beginning of the content. -/
def ReadPhase.Good (geometry : FifoSize) (fifo : Fifo) : ReadPhase → Prop
  | .idle => True
  | .granted room => room ≤ fifo.used geometry.size ∧ fifo.tail + room ≤ geometry.size
  | .copied data => data.length ≤ fifo.used geometry.size ∧
      data = (fifo.content geometry.size).take data.length

namespace Link

structure Valid (geometry : FifoSize) (link : Link) : Prop where
  inRing : link.fifo.InRing geometry
  writer : link.writer.Good geometry link.fifo
  reader : link.reader.Good geometry link.fifo
  faithful : link.written = link.consumed ++ link.fifo.content geometry.size
  noBug : link.bug = false

variable {geometry : FifoSize} {link : Link}

section Steps

variable (valid : link.Valid geometry)
include valid

theorem Valid.writeBuffer : (link.step geometry.size .writeBuffer).Valid geometry := by
  have room := valid.inRing.chWriteBuffer_le
  unfold step
  dsimp only
  split
  · exact valid
  · exact ⟨valid.inRing, room, valid.reader, valid.faithful, valid.noBug⟩

theorem Valid.writeCopy (data : List Byte) :
    (link.step geometry.size (.writeCopy data)).Valid geometry := by
  unfold step
  dsimp only
  split
  · rename_i room isGranted
    have good := valid.writer
    rw [isGranted] at good
    have shorter := length_take_le room data
    obtain ⟨fits, contiguous⟩ := good
    obtain ⟨content_eq, copied⟩ := valid.inRing.copyIn (data.take room) (by omega) (by omega)
    refine ⟨⟨valid.inRing.headLt, valid.inRing.tailLt⟩, ⟨?_, ?_, copied⟩, ?_, ?_, valid.noBug⟩
    · exact lt_of_le_of_lt (Nat.add_le_add_right shorter _) fits
    · exact le_trans (Nat.add_le_add_left shorter _) contiguous
    · have reader := valid.reader
      cases isReader : link.reader with
      | idle => trivial
      | granted _ =>
        rw [isReader] at reader
        exact reader
      | copied taken =>
        rw [isReader] at reader
        refine ⟨reader.1, ?_⟩
        rw [content_eq]
        exact reader.2
    · dsimp only
      rw [content_eq]
      exact valid.faithful
  · exact valid

theorem Valid.writeDone : (link.step geometry.size .writeDone).Valid geometry := by
  unfold step
  dsimp only
  split
  · rename_i data isCopied
    have good := valid.writer
    rw [isCopied] at good
    obtain ⟨fits, _, copied⟩ := good
    obtain ⟨inRing, used_eq, content_eq⟩ := valid.inRing.chWriteDone fits
    rw [copied] at content_eq
    refine ⟨inRing, trivial, ?_, ?_, ?_⟩
    · have reader := valid.reader
      cases isReader : link.reader with
      | idle => trivial
      | granted room =>
        rw [isReader] at reader
        refine ⟨?_, reader.2⟩
        rw [used_eq]
        exact le_add_right_of_le reader.1
      | copied taken =>
        rw [isReader] at reader
        refine ⟨?_, ?_⟩
        · rw [used_eq]
          exact le_add_right_of_le reader.1
        · rw [content_eq, take_append_of_le_length (by simpa using reader.1)]
          exact reader.2
    · dsimp only
      rw [content_eq, ← append_assoc, ← valid.faithful]
    · have enough : ¬link.fifo.streamWriteAvail geometry.size < data.length := by
        rw [valid.inRing.streamWriteAvail_eq]
        omega
      simp [valid.noBug, enough]
  · exact valid

theorem Valid.readBuffer : (link.step geometry.size .readBuffer).Valid geometry := by
  have room := valid.inRing.chReadBuffer_le
  unfold step
  dsimp only
  split
  · exact valid
  · exact ⟨valid.inRing, valid.writer, room, valid.faithful, valid.noBug⟩

theorem Valid.readCopy (count : ℕ) :
    (link.step geometry.size (.readCopy count)).Valid geometry := by
  unfold step
  dsimp only
  split
  · rename_i room isGranted
    have good := valid.reader
    rw [isGranted] at good
    obtain ⟨le, contiguous⟩ := good
    have copied : link.fifo.copyOut (min count room) =
        (link.fifo.content geometry.size).take (min count room) :=
      Fifo.copyOut_eq geometry.size (min count room) (by omega) (by omega)
    refine ⟨valid.inRing, valid.writer, ⟨?_, ?_⟩, valid.faithful, valid.noBug⟩
    · simp only [Fifo.copyOut, length_map, length_range]
      omega
    · rw [copied, length_take, Fifo.length_content, take_eq_take_min]
      simp
  · exact valid

theorem Valid.readDone : (link.step geometry.size .readDone).Valid geometry := by
  unfold step
  dsimp only
  split
  · rename_i data isCopied
    have good := valid.reader
    rw [isCopied] at good
    obtain ⟨le, isTake⟩ := good
    obtain ⟨inRing, used_eq, content_eq⟩ := valid.inRing.chReadDone le
    refine ⟨inRing, ?_, trivial, ?_, ?_⟩
    · have writer := valid.writer
      cases isWriter : link.writer with
      | idle => trivial
      | granted room | copied copied =>
        rw [isWriter] at writer
        refine ⟨?_, writer.2⟩
        rw [used_eq]
        have := writer.1
        omega
    · dsimp only
      rw [content_eq, append_assoc]
      nth_rewrite 1 [isTake]
      rw [take_append_drop]
      exact valid.faithful
    · have enough : ¬link.fifo.streamReadAvail geometry.size < data.length := by
        rw [valid.inRing.streamReadAvail_eq]
        omega
      simp [valid.noBug, enough]
  · exact valid

theorem Valid.step (event : Event) : (link.step geometry.size event).Valid geometry := by
  cases event with
  | writeBuffer => exact valid.writeBuffer
  | writeCopy data => exact valid.writeCopy data
  | writeDone => exact valid.writeDone
  | readBuffer => exact valid.readBuffer
  | readCopy count => exact valid.readCopy count
  | readDone => exact valid.readDone

end Steps

/-- A channel on which no byte has been transferred, at any place of the ring. -/
def opened (buffer : ℕ → Byte) (index : ℕ) : Link :=
  ⟨⟨buffer, index, index⟩, .idle, .idle, [], [], false⟩

theorem opened_valid (buffer : ℕ → Byte) {index : ℕ} (inRing : index < geometry.size) :
    (opened buffer index).Valid geometry :=
  ⟨⟨inRing, inRing⟩, trivial, trivial, by simp [opened, Fifo.content, Fifo.used], rfl⟩

end Link

end StreakKernel.Smd
