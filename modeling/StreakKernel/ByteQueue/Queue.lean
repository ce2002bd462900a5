import Mathlib.Data.Nat.Bitwise
import StreakKernel.ByteQueue.Basic
import StreakKernel.Lib.Run

/-!
# A kfifo is a queue

The content of a kfifo is the window of its buffer from `out` to `in`. As the size divides 2^32, the
place of a byte does not change when the indices wrap.
-/

namespace StreakKernel.ByteQueue

open List Word StreakKernel.Ring

namespace Kfifo

/-- The size is a power of two, and not more bytes are used than there are. -/
structure Valid (fifo : Kfifo) : Prop where
  isPow : ∃ order ≤ 31, fifo.size = 2 ^ order
  inBound : fifo.inIndex < 4294967296
  outBound : fifo.outIndex < 4294967296
  bounded : fifo.kfifoLen ≤ fifo.size

def content (fifo : Kfifo) : List UInt8 :=
  window fifo.size fifo.buffer (fifo.outIndex % fifo.size) fifo.kfifoLen

section Reading

variable {fifo : Kfifo}

@[simp]
theorem length_content : fifo.content.length = fifo.kfifoLen := length_window

section

variable (valid : fifo.Valid)
include valid

theorem Valid.positive : 0 < fifo.size := by
  rcases valid.isPow with ⟨order, _, isSize⟩
  rw [isSize]
  exact Nat.two_pow_pos order

theorem Valid.dvd : fifo.size ∣ 4294967296 := by
  rcases valid.isPow with ⟨order, le, isSize⟩
  rw [isSize]
  exact pow_dvd_pow 2 (by omega : order ≤ 32)

theorem Valid.size_lt : fifo.size < 4294967296 := by
  rcases valid.isPow with ⟨order, le, isSize⟩
  rw [isSize]
  calc 2 ^ order ≤ 2 ^ 31 := Nat.pow_le_pow_right Nat.two_pos le
    _ < 4294967296 := by decide

theorem Valid.kfifoOff_eq (index : ℕ) : fifo.kfifoOff index = index % fifo.size := by
  rcases valid.isPow with ⟨order, _, isSize⟩
  rw [kfifoOff, isSize, Nat.and_two_pow_sub_one_eq_mod]

theorem Valid.add_mod (index offset : ℕ) :
    add index offset % fifo.size = (index + offset) % fifo.size := by
  unfold add
  exact Nat.mod_mod_of_dvd _ valid.dvd

end

theorem add_kfifoLen (inBound : fifo.inIndex < 4294967296) :
    add fifo.outIndex fifo.kfifoLen = fifo.inIndex := by
  unfold kfifoLen add sub
  omega

theorem Valid.in_mod (valid : fifo.Valid) :
    fifo.inIndex % fifo.size = (fifo.outIndex % fifo.size + fifo.kfifoLen) % fifo.size := by
  have isIn := add_kfifoLen valid.inBound
  calc fifo.inIndex % fifo.size
      = add fifo.outIndex fifo.kfifoLen % fifo.size := by rw [isIn]
    _ = (fifo.outIndex + fifo.kfifoLen) % fifo.size := valid.add_mod _ _
    _ = (fifo.outIndex % fifo.size + fifo.kfifoLen) % fifo.size := (Nat.mod_add_mod _ _ _).symm

theorem Valid.kfifoAvail_eq (valid : fifo.Valid) : fifo.kfifoAvail = fifo.size - fifo.kfifoLen :=
  sub_eq valid.bounded valid.size_lt

theorem bytes_append_bytes {size start count : ℕ} (buffer : ℕ → UInt8) (inside : start < size)
    (fits : count ≤ size) :
    bytes buffer start (min count (size - start)) ++
        bytes buffer 0 (count - min count (size - start)) =
      window size buffer start count := by
  have first : bytes buffer start (min count (size - start)) =
      window size buffer start (min count (size - start)) := by
    apply map_congr_left
    intro index mem
    have bound := mem_range.mp mem
    rw [Nat.mod_eq_of_lt (by omega)]
  have second : bytes buffer 0 (count - min count (size - start)) =
      window size buffer ((start + min count (size - start)) % size)
        (count - min count (size - start)) := by
    apply map_congr_left
    intro index mem
    have bound := mem_range.mp mem
    have reaches : start + min count (size - start) = size := by omega
    rw [reaches, Nat.mod_self, zero_add, Nat.mod_eq_of_lt (by omega)]
  rw [first, second, ← window_append, Nat.add_sub_cancel' (min_le_left _ _)]

theorem Valid.kfifoOutData_eq (valid : fifo.Valid) {count : ℕ} (fits : count ≤ fifo.size) :
    fifo.kfifoOutData count 0 =
      window fifo.size fifo.buffer (fifo.outIndex % fifo.size) count := by
  unfold kfifoOutData
  simp only [valid.kfifoOff_eq, valid.add_mod, add_zero]
  exact bytes_append_bytes fifo.buffer (Nat.mod_lt _ valid.positive) fits

theorem put_put_eq_write {size start : ℕ} (buffer : ℕ → UInt8) (source : List UInt8) :
    put (put buffer start (source.take (min source.length (size - start)))) 0
        (source.drop (min source.length (size - start))) =
      write size buffer start source := by
  rcases le_total source.length (size - start) with short | long
  · rw [min_eq_left short, write_of_le short, take_length, drop_length, put_nil]
  · rw [min_eq_right long]
    rfl

theorem Valid.kfifoInData_eq (valid : fifo.Valid) (source : List UInt8) :
    fifo.kfifoInData source 0 = { fifo with
      buffer := write fifo.size fifo.buffer (fifo.inIndex % fifo.size) source } := by
  unfold kfifoInData
  simp only [valid.kfifoOff_eq, valid.add_mod, add_zero, put_put_eq_write]

end Reading

/-! ## Writing and reading -/

section Operations

variable {fifo : Kfifo}

theorem Valid.append (valid : fifo.Valid) {source : List UInt8}
    (fits : fifo.kfifoLen + source.length ≤ fifo.size) :
    ((fifo.kfifoInData source 0).kfifoAddIn source.length).Valid ∧
      ((fifo.kfifoInData source 0).kfifoAddIn source.length).content = fifo.content ++ source := by
  have sizeLt := valid.size_lt
  have positive := valid.positive
  rw [valid.kfifoInData_eq]
  have isLen : sub (add fifo.inIndex source.length) fifo.outIndex =
      fifo.kfifoLen + source.length := by
    have isIn := add_kfifoLen valid.inBound
    rw [← isIn]
    generalize fifo.kfifoLen = used at *
    unfold sub add
    omega
  constructor
  · refine ⟨valid.isPow, add_lt _ _, valid.outBound, ?_⟩
    rw [kfifoLen, kfifoAddIn]
    rw [isLen]
    exact fits
  simp only [content, kfifoLen, kfifoAddIn]
  rw [isLen, window_append, ← valid.in_mod,
    window_write_self (Nat.mod_lt _ positive) (by omega)]
  congr 1
  have isOut : fifo.outIndex % fifo.size =
      (fifo.inIndex % fifo.size + (fifo.size - fifo.kfifoLen)) % fifo.size := by
    rw [valid.in_mod, Nat.mod_add_mod, add_assoc, Nat.add_sub_cancel' valid.bounded,
      Nat.add_mod_right, Nat.mod_mod]
  rw [isOut]
  exact window_write_of_le (Nat.mod_lt _ positive) (by omega) (by omega)
    (by have := valid.bounded; omega)

theorem Valid.remove (valid : fifo.Valid) {count : ℕ} (le : count ≤ fifo.kfifoLen) :
    (fifo.kfifoAddOut count).Valid ∧
      fifo.content = fifo.kfifoOutData count 0 ++ (fifo.kfifoAddOut count).content := by
  have bounded := valid.bounded
  have isLen : sub fifo.inIndex (add fifo.outIndex count) = fifo.kfifoLen - count := by
    have isIn := add_kfifoLen valid.inBound
    have sizeLt := valid.size_lt
    rw [← isIn]
    generalize fifo.kfifoLen = used at *
    unfold sub add
    omega
  constructor
  · refine ⟨valid.isPow, valid.inBound, add_lt _ _, ?_⟩
    rw [kfifoLen, kfifoAddOut]
    simp only
    rw [isLen]
    omega
  rw [valid.kfifoOutData_eq (by omega)]
  simp only [content, kfifoLen, kfifoAddOut]
  rw [isLen, valid.add_mod, ← Nat.mod_add_mod, ← window_append, Nat.add_sub_cancel' le]
  rfl

theorem Valid.kfifoOutData_eq_take (valid : fifo.Valid) {count : ℕ} (le : count ≤ fifo.kfifoLen) :
    fifo.kfifoOutData count 0 = fifo.content.take count := by
  have isLength : (fifo.kfifoOutData count 0).length = count := by
    rw [valid.kfifoOutData_eq (le.trans valid.bounded), length_window]
  rw [(valid.remove le).2, take_append_of_le_length isLength.ge, take_of_length_le isLength.le]

theorem Valid.kfifoOutData_eq_take_drop (valid : fifo.Valid) {count offset : ℕ}
    (le : offset + count ≤ fifo.kfifoLen) :
    fifo.kfifoOutData count offset = (fifo.content.drop offset).take count := by
  have ⟨removed, isContent⟩ := valid.remove (Nat.le_of_add_right_le le)
  have isLength := congrArg length (valid.kfifoOutData_eq_take (Nat.le_of_add_right_le le))
  have lengths := congrArg length isContent
  simp only [length_take, length_append, length_content] at isLength lengths
  have moved : fifo.kfifoOutData count offset = (fifo.kfifoAddOut offset).kfifoOutData count 0 := by
    simp [kfifoOutData, kfifoAddOut, kfifoOff, add]
  rw [moved, removed.kfifoOutData_eq_take (by omega), isContent, drop_left' (by omega)]

/-- A peek returns the bytes at the offset exactly if the offset is zero, or the kfifo is empty, or
`len + offset` wraps to a sum that hides the offset again. -/
theorem kfifoOutPeek_eq_iff (valid : fifo.Valid) {count offset : ℕ} (countLt : count < 4294967296)
    (offsetLt : offset < 4294967296) :
    let queued := (fifo.content.drop offset).take count
    fifo.kfifoOutPeek count offset = (fifo, queued, queued.length) ↔
      offset = 0 ∨ fifo.kfifoLen = 0 ∨ (4294967296 ≤ count + offset ∧
        min fifo.kfifoLen (count + offset - 4294967296) = fifo.kfifoLen - offset) := by
  intro queued
  have isLength : queued.length = min count (fifo.kfifoLen - offset) := by simp [queued]
  have bounded := valid.bounded
  have sizeLt := valid.size_lt
  -- The bytes are right as soon as their number is.
  have byLength : fifo.kfifoOutPeek count offset = (fifo, queued, queued.length) ↔
      min fifo.kfifoLen (add count offset) = queued.length := by
    refine ⟨fun eq => congrArg (fun result => result.2.2) eq, fun eq => ?_⟩
    have data : fifo.kfifoOutData queued.length offset = queued := by
      by_cases inside : offset ≤ fifo.kfifoLen
      · rw [valid.kfifoOutData_eq_take_drop (by omega), isLength]
        simp [queued]
      · have isNil : queued = [] := List.length_eq_zero_iff.mp (by omega)
        simp [isNil, kfifoOutData, bytes]
    simp only [kfifoOutPeek, eq, data]
  rw [byLength, isLength]
  unfold add
  omega

def sevenEight : Kfifo := ⟨fun index => if index = 0 then 7 else 8, 2, 2, 0⟩

theorem valid_sevenEight : sevenEight.Valid :=
  ⟨⟨1, by decide, rfl⟩, by decide, by decide, by decide +kernel⟩

theorem kfifoOutPeek_sevenEight :
    (sevenEight.kfifoOutPeek 1 0).2.1 = (sevenEight.content.drop 0).take 1 := by
  rw [(@kfifoOutPeek_eq_iff _ valid_sevenEight 1 0 (by decide) (by decide)).mpr (.inl rfl)]

/-- A peek at one byte at offset one writes two bytes, the second one from before the offset. -/
theorem kfifoOutPeek_passes_len : sevenEight.Valid ∧ sevenEight.content = [7, 8] ∧
    (sevenEight.kfifoOutPeek 1 1).2 = ([8, 7], 2) :=
  ⟨valid_sevenEight, by decide +kernel, by decide +kernel⟩

theorem Valid.kfifoIn (valid : fifo.Valid) (source : List UInt8) :
    (fifo.kfifoIn source).2 = min source.length (fifo.size - fifo.kfifoLen) ∧
      (fifo.kfifoIn source).1.Valid ∧
      (fifo.kfifoIn source).1.content = fifo.content ++ source.take (fifo.kfifoIn source).2 := by
  have bounded := valid.bounded
  have isLength : (source.take (min fifo.kfifoAvail source.length)).length =
      min fifo.kfifoAvail source.length := by simp
  have fits : fifo.kfifoLen + (source.take (min fifo.kfifoAvail source.length)).length ≤
      fifo.size := by
    rw [isLength, valid.kfifoAvail_eq]
    omega
  have appended := valid.append fits
  rw [isLength] at appended
  refine ⟨?_, appended⟩
  simp only [Kfifo.kfifoIn, valid.kfifoAvail_eq]
  exact Nat.min_comm _ _

theorem Valid.kfifoOut (valid : fifo.Valid) (count : ℕ) :
    (fifo.kfifoOut count).2 = fifo.content.take count ∧ (fifo.kfifoOut count).1.Valid ∧
      fifo.content = (fifo.kfifoOut count).2 ++ (fifo.kfifoOut count).1.content := by
  have le : min fifo.kfifoLen count ≤ fifo.kfifoLen := min_le_left _ _
  refine ⟨?_, valid.remove le⟩
  simp only [Kfifo.kfifoOut]
  rw [valid.kfifoOutData_eq_take le, Nat.min_comm, ← length_content, ← take_eq_take_min]

theorem Valid.kfifoResetOut (valid : fifo.Valid) :
    fifo.kfifoResetOut.Valid ∧ fifo.kfifoResetOut.content = [] := by
  have isLen : fifo.kfifoResetOut.kfifoLen = 0 := by
    unfold Kfifo.kfifoResetOut kfifoLen sub
    simp only
    omega
  refine ⟨⟨valid.isPow, valid.inBound, valid.inBound, by omega⟩, ?_⟩
  rw [content, isLen, window_zero]

theorem Valid.kfifoSkip (valid : fifo.Valid) (count : ℕ) : (fifo.kfifoSkip count).Valid ∧
      fifo.content = fifo.content.take count ++ (fifo.kfifoSkip count).content := by
  unfold Kfifo.kfifoSkip
  split_ifs with short
  · rw [← valid.kfifoOutData_eq_take short.le]
    exact valid.remove short.le
  rcases valid.kfifoResetOut with ⟨validReset, isEmpty⟩
  refine ⟨validReset, ?_⟩
  rw [isEmpty, append_nil, take_of_length_le]
  rw [length_content]
  exact Nat.le_of_not_lt short

theorem kfifoFromUser_eq (fifo : Kfifo) (source : List UInt8) : fifo.kfifoFromUser source (0, 0) =
      ((fifo.kfifoIn source).1, false, (fifo.kfifoIn source).2) := by
  have whole : ∀ part : List UInt8, copied part 0 = part := by
    intro part
    simp [copied]
  simp only [kfifoFromUser, kfifoFromUserData, whole, ne_eq, not_true, if_false, Kfifo.kfifoIn,
    kfifoInData, Bool.false_eq_true]
  rw [Nat.add_sub_cancel' (min_le_left _ _), length_take, min_eq_left (min_le_right _ _)]

theorem kfifoToUser_eq (fifo : Kfifo) (count : ℕ) : fifo.kfifoToUser count (0, 0) =
      ((fifo.kfifoOut count).1, (fifo.kfifoOut count).2, false, min fifo.kfifoLen count) := by
  simp only [kfifoToUser, kfifoToUserData, ne_eq, not_true, if_false, Kfifo.kfifoOut, kfifoOutData]
  rw [Nat.add_sub_cancel' (min_le_left _ _)]

end Operations

end Kfifo

/-! ## Histories -/

inductive Event where
  | kfifoIn (source : List UInt8)
  | kfifoOut (count : ℕ)
  | kfifoSkip (count : ℕ)
  | kfifoResetOut
  | kfifoFromUser (source : List UInt8)
  | kfifoToUser (count : ℕ)

/-- A kfifo with all bytes that it has accepted and all that were removed. -/
structure History where
  fifo : Kfifo
  accepted : List UInt8
  removed : List UInt8

namespace History

def start (fifo : Kfifo) : History := ⟨fifo, [], []⟩

/-- A call. What is skipped is recorded as if it had been read. -/
def step (history : History) : Event → History
  | .kfifoIn source =>
    let (fifo, count) := history.fifo.kfifoIn source
    { history with fifo := fifo, accepted := history.accepted ++ source.take count }
  | .kfifoOut count =>
    let (fifo, data) := history.fifo.kfifoOut count
    { history with fifo := fifo, removed := history.removed ++ data }
  | .kfifoSkip count =>
    { history with
      fifo := history.fifo.kfifoSkip count
      removed := history.removed ++ history.fifo.content.take count }
  | .kfifoResetOut =>
    { history with
      fifo := history.fifo.kfifoResetOut
      removed := history.removed ++ history.fifo.content }
  | .kfifoFromUser source =>
    let (fifo, _, total) := history.fifo.kfifoFromUser source (0, 0)
    { history with fifo := fifo, accepted := history.accepted ++ source.take total }
  | .kfifoToUser count =>
    let (fifo, data, _, _) := history.fifo.kfifoToUser count (0, 0)
    { history with fifo := fifo, removed := history.removed ++ data }

/-- Every byte that went in has come out, in this order, or is still in the queue. -/
structure Sound (start : Kfifo) (history : History) : Prop where
  valid : history.fifo.Valid
  sameSize : history.fifo.size = start.size
  queue : start.content ++ history.accepted = history.removed ++ history.fifo.content

variable {start : Kfifo} {history : History}

theorem Sound.kfifoIn (sound : history.Sound start) (source : List UInt8) :
    (history.step (.kfifoIn source)).Sound start := by
  rcases sound.valid.kfifoIn source with ⟨_, valid, isContent⟩
  refine ⟨valid, sound.sameSize, ?_⟩
  simp only [step]
  rw [isContent, ← append_assoc, ← append_assoc, sound.queue]

theorem Sound.kfifoOut (sound : history.Sound start) (count : ℕ) :
    (history.step (.kfifoOut count)).Sound start := by
  rcases sound.valid.kfifoOut count with ⟨_, valid, isContent⟩
  refine ⟨valid, sound.sameSize, ?_⟩
  simp only [step]
  rw [append_assoc, ← isContent, sound.queue]

theorem Sound.step (sound : history.Sound start) (event : Event) :
    (history.step event).Sound start := by
  cases event with
  | kfifoIn source => exact sound.kfifoIn source
  | kfifoOut count => exact sound.kfifoOut count
  | kfifoSkip count =>
    rcases sound.valid.kfifoSkip count with ⟨valid, isContent⟩
    refine ⟨valid, ?_, ?_⟩
    · rw [← sound.sameSize]
      simp only [History.step, Kfifo.kfifoSkip]
      split_ifs <;> rfl
    · simp only [History.step]
      rw [append_assoc, ← isContent, sound.queue]
  | kfifoResetOut =>
    rcases sound.valid.kfifoResetOut with ⟨valid, isEmpty⟩
    refine ⟨valid, sound.sameSize, ?_⟩
    simp only [History.step]
    rw [isEmpty, append_nil, sound.queue]
  | kfifoFromUser source =>
    have isStep : history.step (.kfifoFromUser source) = history.step (.kfifoIn source) := by
      simp only [History.step, Kfifo.kfifoFromUser_eq]
    rw [isStep]
    exact sound.kfifoIn source
  | kfifoToUser count =>
    have isStep : history.step (.kfifoToUser count) = history.step (.kfifoOut count) := by
      simp only [History.step, Kfifo.kfifoToUser_eq]
    rw [isStep]
    exact sound.kfifoOut count

/-- From every valid kfifo and after all calls, the bytes removed and those in the queue are those
that were in it and those it has accepted; a write accepts what there is room for, a read returns
what there is, and the indices are never farther apart than the size. -/
theorem queue_run (fifo : {fifo : Kfifo // fifo.Valid}) (events : List Event) :
    let history := Run.run History.step (History.start fifo.val) events
    let used := Word.sub history.fifo.inIndex history.fifo.outIndex
    fifo.val.content ++ history.accepted = history.removed ++ history.fifo.content ∧
    used ≤ fifo.val.size ∧ history.fifo.content.length = used ∧
    (∀ source, (history.fifo.kfifoIn source).2 = min source.length (fifo.val.size - used)) ∧
    (∀ source, (history.fifo.kfifoFromUser source (0, 0)).2 =
      (false, min source.length (fifo.val.size - used))) ∧
    (∀ count, (history.fifo.kfifoOut count).2 = history.fifo.content.take count) ∧
    ∀ count, (history.fifo.kfifoToUser count (0, 0)).2 =
      (history.fifo.content.take count, false, min used count) := by
  intro history used
  have sound : history.Sound fifo.val :=
    Run.invariant_always (Sound fifo.val) (fun _ event sound => sound.step event)
      ⟨fifo.property, rfl, append_nil _⟩ events
  have accepts := fun source => (sound.valid.kfifoIn source).1
  have returns := fun count => (sound.valid.kfifoOut count).1
  rw [sound.sameSize] at accepts
  refine ⟨sound.queue, ?_, Kfifo.length_content, accepts, ?_, returns, ?_⟩
  · rw [← sound.sameSize]
    exact sound.valid.bounded
  · intro source
    rw [Kfifo.kfifoFromUser_eq, accepts source]
    rfl
  · intro count
    rw [Kfifo.kfifoToUser_eq, returns count]
    rfl

end History

end StreakKernel.ByteQueue
