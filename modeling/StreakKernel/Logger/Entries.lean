import StreakKernel.Logger.Basic
import Mathlib.Data.List.Infix
import Mathlib.Algebra.Order.Ring.Nat

/-!
# Entries in the ring

`Holds log off entries` says that the bytes from an offset to the write offset are
the given entries. Pulling an offset forward drops entries from the front, and
writing appends one.
-/

namespace StreakKernel.Logger

open List StreakKernel.Ring Nat

/-- The sizes that `DEFINE_LOGGER_DEVICE` asks for. -/
structure ValidSize (size : ℕ) : Prop where
  power : ∃ exponent, size = 2 ^ exponent
  large : entryMaxLen < size

theorem ValidSize.two_mul_le {size : ℕ} (valid : ValidSize size) : 2 * entryMaxLen ≤ size := by
  rcases valid.power with ⟨exponent, rfl⟩
  have large : 2 ^ 12 < 2 ^ exponent := valid.large
  have more : 12 < exponent := (Nat.pow_lt_pow_iff_right (by decide)).mp large
  calc 2 * entryMaxLen = 2 ^ 13 := by decide
    _ ≤ 2 ^ exponent := Nat.pow_le_pow_right (by decide) more

theorem Log.offset_eq {log : Log} (valid : ValidSize log.size) (position : ℕ) :
    log.offset position = position % log.size := by
  rcases valid.power with ⟨exponent, isPower⟩
  rw [offset, isPower, and_two_pow_sub_one_eq_mod]

/-- The bytes of one entry: the length field counts the payload. -/
structure IsEntry (entry : List UInt8) : Prop where
  least : headerSize ≤ entry.length
  most : entry.length ≤ entryMaxLen
  field : entry.take 2 = lenBytes (entry.length - headerSize)

/-- The bytes from `off` to the write offset are the given entries. -/
structure Holds (log : Log) (off : ℕ) (entries : List (List UInt8)) : Prop where
  inside : off < log.size
  isEntry : ∀ entry ∈ entries, IsEntry entry
  bytes : window log.size log.buffer off entries.flatten.length = entries.flatten
  ends : (off + entries.flatten.length) % log.size = log.wOff
  room : entries.flatten.length < log.size

theorem Holds.wOff_lt {log : Log} {off : ℕ} {entries : List (List UInt8)}
    (holds : Holds log off entries) : log.wOff < log.size := by
  rw [← holds.ends]
  exact mod_lt _ (zero_lt_of_lt holds.inside)

section Lookup

variable {log : Log} {off : ℕ} {entry : List UInt8} {rest : List (List UInt8)}

theorem toNat_lenBytes {len : ℕ} (small : len ≤ entryMaxPayload) :
    (UInt8.ofNat (len % 256)).toNat + 256 * (UInt8.ofNat (len / 256)).toNat = len := by
  simp only [entryMaxPayload, entryMaxLen, headerSize] at small
  simp only [UInt8.toNat_ofNat']
  omega

section

variable (holds : Holds log off (entry :: rest))
include holds

theorem Holds.window_entry : window log.size log.buffer off entry.length = entry := by
  have bytes := holds.bytes
  rw [flatten_cons, length_append, window_append] at bytes
  exact (append_inj bytes (by simp)).1

theorem Holds.next : Holds log ((off + entry.length) % log.size) rest := by
  have pos : 0 < log.size := zero_lt_of_lt holds.inside
  have bytes := holds.bytes
  have ends := holds.ends
  have room := holds.room
  rw [flatten_cons, length_append] at bytes ends room
  rw [window_append] at bytes
  constructor
  · exact mod_lt _ pos
  · exact fun other mem => holds.isEntry other (mem_cons_of_mem _ mem)
  · exact (append_inj bytes (by simp)).2
  · rw [mod_add_mod, add_assoc, ends]
  · omega

theorem Holds.wOff_ne : log.wOff ≠ off := by
  have least := (holds.isEntry entry mem_cons_self).least
  have room := holds.room
  have ends := holds.ends
  have inside := holds.inside
  rw [flatten_cons, length_append] at ends room
  intro same
  simp only [headerSize] at least
  rcases lt_or_ge (off + (entry.length + rest.flatten.length)) log.size with lower | upper
  · rw [mod_eq_of_lt lower] at ends
    omega
  · rw [mod_eq_sub_mod upper, mod_eq_of_lt (by omega)] at ends
    omega

end

theorem getEntryLen_eq_of_window {len : ℕ} (inside : off < log.size)
    (bytes : window log.size log.buffer off 2 = lenBytes len) (small : len ≤ entryMaxPayload) :
    getEntryLen log off = headerSize + len := by
  have cells : [log.buffer (off % log.size), log.buffer ((off + 1) % log.size)] = lenBytes len :=
    bytes
  simp only [lenBytes, cons.injEq, and_true, mod_eq_of_lt inside] at cells
  have second : (if log.size - off = 1 then log.buffer 0 else log.buffer (off + 1)) =
      log.buffer ((off + 1) % log.size) := by
    split_ifs with last
    · have wraps : off + 1 = log.size := by omega
      rw [wraps, mod_self]
    · rw [mod_eq_of_lt (by omega)]
  simp only [getEntryLen, second, cells.1, cells.2, toNat_lenBytes small]

theorem Holds.getEntryLen_eq (holds : Holds log off (entry :: rest)) :
    getEntryLen log off = entry.length := by
  have isEntry := holds.isEntry entry mem_cons_self
  have least := isEntry.least
  have most := isEntry.most
  simp only [headerSize, entryMaxLen] at least most
  have two : entry.length = 2 + (entry.length - 2) := by omega
  have bytes := holds.window_entry
  rw [two, window_append] at bytes
  have field : window log.size log.buffer off 2 = lenBytes (entry.length - headerSize) := by
    rw [← isEntry.field]
    conv_rhs => rw [← bytes]
    rw [take_append_of_le_length (by simp), take_of_length_le (by simp)]
  rw [getEntryLen_eq_of_window holds.inside field]
  · simp only [headerSize]
    omega
  · simp only [headerSize, entryMaxPayload, entryMaxLen]
    omega

end Lookup

/-! ## Pulling offsets forward -/

section FixUp

variable {log : Log} {off len : ℕ} {entries : List (List UInt8)}

/-- How far behind an offset the entries begin that begin within `len` bytes; the one at `off` is
`count` bytes behind it. -/
def entryDistances (log : Log) (off len count : ℕ) : List ℕ :=
  let nr := getEntryLen log off
  count :: if count + nr < len then entryDistances log (log.offset (off + nr)) len (count + nr)
    else []
termination_by len - count
decreasing_by
  simp only [getEntryLen, headerSize] at *
  omega

theorem Holds.exists_skipped {count : ℕ} (valid : ValidSize log.size)
    (holds : Holds log off entries) (less : count < len)
    (enough : len ≤ count + entries.flatten.length) :
    ∃ skipped last kept, entries = skipped ++ last :: kept ∧
      Holds log (getNextEntry log off len count) kept ∧
      count + skipped.flatten.length ∈ entryDistances log off len count ∧
      len ≤ count + skipped.flatten.length + last.length := by
  induction entries generalizing off count with
  | nil =>
    simp at enough
    omega
  | cons entry rest ih =>
    rw [flatten_cons, length_append] at enough
    unfold getNextEntry entryDistances
    simp only [holds.getEntryLen_eq, Log.offset_eq valid]
    split_ifs with more
    · rcases ih holds.next more (by omega) with
        ⟨skipped, last, kept, rfl, keptHolds, mem, upper⟩
      rw [Nat.add_assoc] at mem upper
      refine ⟨entry :: skipped, last, kept, rfl, keptHolds, mem_cons_of_mem _ ?_, ?_⟩
      · rwa [flatten_cons, length_append]
      · rw [flatten_cons, length_append]
        omega
    · refine ⟨[], entry, rest, rfl, holds.next, mem_cons_self, ?_⟩
      simpa using more

theorem clockInterval_iff {size from_ to_ dist : ℕ} (inside : from_ < size) (short : dist < size)
    (pos : 0 < len) (less : len < size) (ends : (from_ + dist) % size = to_) :
    clockInterval to_ ((to_ + len) % size) from_ = true ↔ size ≤ dist + len := by
  have split : ∀ position, position < 2 * size →
      position % size = if position < size then position else position - size := by
    intro position bound
    split_ifs with lower
    · exact mod_eq_of_lt lower
    · rw [mod_eq_sub_mod (by omega), mod_eq_of_lt (by omega)]
  rw [split (from_ + dist) (by omega)] at ends
  have bound : to_ < size := by split_ifs at ends <;> omega
  rw [split (to_ + len) (by omega)]
  unfold clockInterval
  split_ifs at ends ⊢ <;> simp only [decide_eq_true_eq] <;> omega

section Kept

variable (valid : ValidSize log.size) (holds : Holds log off entries) (pos : 0 < len)
  (most : len ≤ entryMaxLen)
include valid holds pos most

theorem Holds.crossed_iff : clockInterval log.wOff (log.offset (log.wOff + len)) off = true ↔
      log.size ≤ entries.flatten.length + len := by
  rw [Log.offset_eq valid]
  exact clockInterval_iff holds.inside holds.room pos (lt_of_le_of_lt most valid.large) holds.ends

theorem Holds.fixUp_of_lt (fits : entries.flatten.length + len < log.size) :
    fixUp log len off = off := by
  unfold fixUp
  rw [if_neg]
  rw [holds.crossed_iff valid pos most]
  omega

theorem Holds.fixUp_of_le (full : log.size ≤ entries.flatten.length + len) :
    ∃ skipped last kept, entries = skipped ++ last :: kept ∧ Holds log (fixUp log len off) kept ∧
      skipped.flatten.length ∈ entryDistances log off len 0 ∧
      len ≤ skipped.flatten.length + last.length := by
  have crossed := (holds.crossed_iff valid pos most).mpr full
  have twice := valid.two_mul_le
  unfold fixUp
  rw [if_pos crossed]
  have enough : len ≤ 0 + entries.flatten.length := by omega
  simpa using holds.exists_skipped valid pos enough

theorem Holds.exists_kept :
    ∃ dropped kept, entries = dropped ++ kept ∧ Holds log (fixUp log len off) kept ∧
      kept.flatten.length + len < log.size := by
  rcases lt_or_ge (entries.flatten.length + len) log.size with fits | full
  · refine ⟨[], entries, rfl, ?_, fits⟩
    rw [holds.fixUp_of_lt valid pos most fits]
    exact holds
  rcases holds.fixUp_of_le valid pos most full with
    ⟨skipped, last, kept, rfl, keptHolds, _, upper⟩
  refine ⟨skipped ++ [last], kept, by simp, keptHolds, ?_⟩
  have room := holds.room
  simp only [flatten_append, flatten_cons, length_append] at room
  omega

end Kept

end FixUp

/-! ## Writing bytes -/

/-- Nothing but the next `len` bytes after the write offset and the write offset itself
has changed. -/
structure Spares (before after : Log) (len : ℕ) : Prop where
  size : after.size = before.size
  head : after.head = before.head
  cells : ∀ index, len ≤ index → index < before.size →
    after.buffer ((before.wOff + index) % before.size) =
      before.buffer ((before.wOff + index) % before.size)

structure Wrote (before after : Log) (bytes : List UInt8) : Prop extends
    Spares before after bytes.length where
  wOff : after.wOff = (before.wOff + bytes.length) % before.size
  bytes : window before.size after.buffer before.wOff bytes.length = bytes

section Write

variable {before middle after log : Log} {first second bytes : List UInt8} {len : ℕ}

theorem Spares.mono {less : ℕ} (spares : Spares before after less) (more : less ≤ len) :
    Spares before after len :=
  { spares with cells := fun index past bound => spares.cells index (by omega) bound }

theorem Wrote.spares_append (wrote : Wrote before middle first)
    (spares : Spares middle after len) (fits : first.length + len ≤ before.size) :
    Spares before after (first.length + len) ∧
      window before.size after.buffer before.wOff first.length = first := by
  have size := wrote.size
  have shift : ∀ index, before.size ≤ first.length + index → (middle.wOff + index) % before.size =
        (before.wOff + (first.length + index - before.size)) % before.size := by
    intro index past
    rw [wrote.wOff, mod_add_mod, show before.wOff + first.length + index =
        before.wOff + (first.length + index - before.size) + before.size by omega,
      add_mod_right]
  have same : ∀ index, first.length + len ≤ index → index < before.size →
      (middle.wOff + (index - first.length)) % before.size =
        (before.wOff + index) % before.size := by
    intro index past _
    rw [wrote.wOff, mod_add_mod]
    congr 1
    omega
  constructor
  · refine ⟨by rw [spares.size, size], by rw [spares.head, wrote.head], ?_⟩
    intro index past bound
    have kept := spares.cells (index - first.length) (by omega) (by omega)
    rw [size, same index past bound] at kept
    rw [kept]
    exact wrote.cells index (by omega) bound
  conv_rhs => rw [← wrote.bytes]
  apply window_congr
  intro index bound
  have kept := spares.cells (before.size - first.length + index) (by omega) (by omega)
  rw [size, shift _ (by omega), show first.length + (before.size - first.length + index) -
    before.size = index by omega] at kept
  exact kept

theorem Wrote.append (left : Wrote before middle first) (right : Wrote middle after second)
    (fits : first.length + second.length ≤ before.size) : Wrote before after (first ++ second) := by
  rcases left.spares_append right.toSpares fits with ⟨spares, bytes⟩
  have size := left.size
  rw [← length_append] at spares
  refine { spares with wOff := ?_, bytes := ?_ }
  · rw [right.wOff, left.wOff, size, mod_add_mod, length_append, add_assoc]
  · have next := right.bytes
    rw [size, left.wOff] at next
    rw [length_append, window_append, bytes, next]

theorem doWriteLog_wrote (valid : ValidSize log.size) (inside : log.wOff < log.size)
    (fits : bytes.length ≤ log.size) : Wrote log (doWriteLog log bytes) bytes := by
  refine ⟨⟨rfl, rfl, ?_⟩, ?_, ?_⟩
  · intro index past bound
    exact write_apply_of_le inside fits past bound
  · exact Log.offset_eq valid _
  · exact window_write_self inside fits

theorem doWriteLogFromUser_cases (inside : log.wOff < log.size) (segment : Segment) (count : ℕ) :
    doWriteLogFromUser log segment count = (doWriteLog log (segment.bytes.take count), true) ∨
      ∃ junk : List UInt8, junk.length ≤ (segment.bytes.take count).length ∧
        doWriteLogFromUser log segment count =
          ({ log with buffer := write log.size log.buffer log.wOff junk }, false) := by
  unfold doWriteLogFromUser
  simp only
  split_ifs with firstFails secondFails
  · right
    have short : ((segment.firstFault.getD []).take
        (min (segment.bytes.take count).length (log.size - log.wOff))).length ≤
          min (segment.bytes.take count).length (log.size - log.wOff) := length_take_le _ _
    refine ⟨_, le_trans short (min_le_left _ _), ?_⟩
    rw [write_of_le (le_trans short (min_le_right _ _))]
  · right
    have reaches : min (segment.bytes.take count).length (log.size - log.wOff) =
        log.size - log.wOff := by omega
    have long : log.size - log.wOff ≤ (segment.bytes.take count).length := by omega
    rw [reaches]
    refine ⟨(segment.bytes.take count).take (log.size - log.wOff) ++
      (segment.secondFault.getD []).take
        ((segment.bytes.take count).length - (log.size - log.wOff)), ?_, ?_⟩
    · rw [length_append, length_take_of_le long, length_take]
      omega
    · rw [write_append (length_take_of_le long)]
  · exact .inl rfl

/-- The loop over the segments writes the payload, or fails and spoils at most the
bytes that the entry was to take. -/
theorem writeSegments_cases {size : ℕ} (valid : ValidSize size) {done : List UInt8} {ret : ℕ}
    (segments : List Segment) (isSize : before.size = size)
    (wrote : Wrote before log done) (fits : done.length + (len - ret) ≤ size) :
    (∃ final, writeSegments len segments ret log = (final, some (ret +
        ((segments.flatMap Segment.bytes).take (len - ret)).length)) ∧
      Wrote before final (done ++ (segments.flatMap Segment.bytes).take (len - ret))) ∨
    ∃ final, writeSegments len segments ret log = (final, none) ∧
      Spares before final (done.length + (len - ret)) := by
  subst isSize
  induction segments generalizing log done ret with
  | nil => exact .inl ⟨log, by simp [writeSegments], by simpa using wrote⟩
  | cons segment rest ih =>
    have sameSize := wrote.size
    have logValid : ValidSize log.size := by rwa [sameSize]
    have pos : 0 < log.size := zero_lt_of_lt logValid.large
    have inside : log.wOff < log.size := by
      rw [wrote.wOff, ← sameSize]
      exact mod_lt _ pos
    have count : (segment.bytes.take (min segment.bytes.length (len - ret))).length =
        min segment.bytes.length (len - ret) := length_take_of_le (min_le_left _ _)
    have payload : ((segment :: rest).flatMap Segment.bytes).take (len - ret) =
        segment.bytes.take (min segment.bytes.length (len - ret)) ++
          (rest.flatMap Segment.bytes).take
            (len - (ret + min segment.bytes.length (len - ret))) := by
      rw [flatMap_cons, take_append]
      congr 1
      · rw [take_eq_take_iff]
        omega
      · congr 1
        omega
    rw [payload]
    simp only [writeSegments]
    rcases doWriteLogFromUser_cases inside segment (min segment.bytes.length (len - ret)) with
      copied | ⟨junk, short, failed⟩
    · rw [copied]
      have chunk := doWriteLog_wrote logValid inside
        (show (segment.bytes.take (min segment.bytes.length (len - ret))).length ≤ log.size by
          omega)
      have soFar := wrote.append chunk (by omega)
      have room : (done ++ segment.bytes.take (min segment.bytes.length (len - ret))).length +
          (len - (ret + min segment.bytes.length (len - ret))) ≤ before.size := by
        rw [length_append]
        omega
      rcases ih soFar room with
        ⟨final, isFinal, allWrote⟩ | ⟨final, isFinal, spares⟩
      · refine .inl ⟨final, ?_, ?_⟩
        · apply isFinal.trans
          rw [length_append, count, add_assoc]
        · rwa [append_assoc] at allWrote
      · refine .inr ⟨final, isFinal, spares.mono ?_⟩
        rw [length_append]
        omega
    · rw [failed]
      have spares : Spares log { log with buffer := write log.size log.buffer log.wOff junk }
          junk.length :=
        ⟨rfl, rfl, fun index past bound =>
          write_apply_of_le inside (by omega) past bound⟩
      refine .inr ⟨_, rfl, (wrote.spares_append spares (by omega)).1.mono ?_⟩
      omega

end Write

/-! ## The write method -/

section AioWrite

variable {before after : Log} {system : System} {off len orig : ℕ} {entry : List UInt8}
  {kept : List (List UInt8)} {request : WriteRequest}

section

variable (holds : Holds before off kept) (spares : Spares before after len)
  (room : kept.flatten.length + len ≤ before.size)
include holds spares room

theorem Holds.window_spared :
    window after.size after.buffer off kept.flatten.length = kept.flatten := by
  conv_rhs => rw [← holds.bytes]
  rw [spares.size]
  apply window_congr
  intro index bound
  have position : (off + index) % before.size =
      (before.wOff + (before.size - kept.flatten.length + index)) % before.size := by
    rw [← holds.ends, mod_add_mod, show off + kept.flatten.length +
      (before.size - kept.flatten.length + index) = off + index + before.size by omega,
      add_mod_right]
  rw [position]
  apply spares.cells <;> omega

theorem Holds.spared (sameOff : after.wOff = before.wOff) : Holds after off kept := by
  constructor
  · rw [spares.size]
    exact holds.inside
  · exact holds.isEntry
  · exact holds.window_spared spares room
  · rw [spares.size, sameOff, holds.ends]
  · rw [spares.size]
    exact holds.room

end

theorem Holds.append (holds : Holds before off kept) (wrote : Wrote before after entry)
    (isEntry : IsEntry entry) (room : kept.flatten.length + entry.length < before.size) :
    Holds after off (kept ++ [entry]) := by
  have flat : (kept ++ [entry]).flatten = kept.flatten ++ entry := by simp
  constructor
  · rw [wrote.size]
    exact holds.inside
  · intro other mem
    rcases mem_append.mp mem with old | new
    · exact holds.isEntry other old
    · rw [mem_singleton.mp new]
      exact isEntry
  · rw [flat, length_append, window_append,
      holds.window_spared wrote.toSpares (by omega), wrote.size, holds.ends, wrote.bytes]
  · rw [flat, length_append, wrote.size, wrote.wOff, ← holds.ends, mod_add_mod, add_assoc]
  · rw [flat, length_append, wrote.size]
    exact room

theorem WriteRequest.payloadLen_le (request : WriteRequest) :
    request.payloadLen ≤ entryMaxPayload :=
  min_le_right _ _

theorem WriteRequest.length_header (request : WriteRequest) :
    request.header.length = headerSize := by
  simp [header, lenBytes, request.stamp.length_eq, headerSize]

theorem WriteRequest.length_payload (request : WriteRequest) :
    ((request.segments.flatMap Segment.bytes).take request.payloadLen).length =
      request.payloadLen := by
  apply length_take_of_le
  rw [length_flatMap]
  exact min_le_left _ _

theorem WriteRequest.length_entry (request : WriteRequest) :
    request.entry.length = headerSize + request.payloadLen := by
  rw [entry, length_append, request.length_header, request.length_payload]

theorem WriteRequest.isEntry (request : WriteRequest) : IsEntry request.entry := by
  have small := request.payloadLen_le
  have length := request.length_entry
  simp only [entryMaxPayload] at small
  constructor
  · omega
  · have large : headerSize ≤ entryMaxLen := by decide
    omega
  · rw [length, Nat.add_sub_cancel_left]
    simp [entry, header, lenBytes]

theorem loggerAioWriteLocked_cases (valid : ValidSize system.log.size)
    (inside : system.log.wOff < system.log.size) :
    (∃ log, loggerAioWriteLocked system orig request =
        (⟨log, system.readers.map (fixUp system.log request.entry.length)⟩,
          some request.payloadLen) ∧
      Wrote { system.log with head := fixUp system.log request.entry.length system.log.head } log
        request.entry) ∨
    ∃ log, loggerAioWriteLocked system orig request =
        (⟨{ log with wOff := orig }, system.readers.map (fixUp system.log request.entry.length)⟩,
          none) ∧
      Spares { system.log with head := fixUp system.log request.entry.length system.log.head } log
        request.entry.length := by
  have twice := valid.two_mul_le
  have small := request.payloadLen_le
  have header := request.length_header
  have bounds : headerSize ≤ entryMaxLen := by decide
  simp only [entryMaxPayload] at small
  rw [request.length_entry]
  unfold loggerAioWriteLocked fixUpReaders
  simp only
  have wrote := @doWriteLog_wrote
    { system.log with head := fixUp system.log (headerSize + request.payloadLen) system.log.head }
    request.header valid inside (show request.header.length ≤ system.log.size by omega)
  rcases writeSegments_cases valid request.segments (by rfl) wrote
    (show request.header.length + (request.payloadLen - 0) ≤ system.log.size by omega) with
    ⟨final, isFinal, allWrote⟩ | ⟨final, isFinal, spares⟩
  · refine Or.inl ⟨final, ?_, ?_⟩
    · rw [isFinal]
      simp only [Nat.sub_zero, request.length_payload, Nat.zero_add]
    · rw [Nat.sub_zero] at allWrote
      exact allWrote
  refine Or.inr ⟨final, ?_, ?_⟩
  · rw [isFinal]
  · rw [header, Nat.sub_zero] at spares
    exact spares

def WriteRequest.added (request : WriteRequest) : Option ℕ → List (List UInt8)
  | some _ => [request.entry]
  | none => []

theorem loggerAioWriteLocked_offsets (valid : ValidSize system.log.size)
    (inside : system.log.wOff < system.log.size) :
    (loggerAioWriteLocked system orig request).1.readers =
        system.readers.map (fixUp system.log request.entry.length) ∧
      (loggerAioWriteLocked system orig request).1.log.head =
        fixUp system.log request.entry.length system.log.head ∧
      (loggerAioWriteLocked system orig request).1.log.size = system.log.size := by
  rcases @loggerAioWriteLocked_cases system orig request valid inside with
    ⟨log, result, wrote⟩ | ⟨log, result, spares⟩
  · rw [result]
    exact ⟨rfl, wrote.head, wrote.size⟩
  · rw [result]
    exact ⟨rfl, spares.head, spares.size⟩

theorem Holds.write_kept (valid : ValidSize system.log.size)
    (inside : system.log.wOff < system.log.size)
    (restores : (loggerAioWriteLocked system orig request).2 = none → orig = system.log.wOff)
    (holds : Holds system.log off kept)
    (room : kept.flatten.length + request.entry.length < system.log.size) :
    Holds (loggerAioWriteLocked system orig request).1.log off
      (kept ++ request.added (loggerAioWriteLocked system orig request).2) := by
  have fixedHolds : Holds
      { system.log with head := fixUp system.log request.entry.length system.log.head } off kept :=
    ⟨holds.inside, holds.isEntry, holds.bytes, holds.ends, holds.room⟩
  rcases @loggerAioWriteLocked_cases system orig request valid inside with
    ⟨log, result, wrote⟩ | ⟨log, result, spares⟩
  · rw [result]
    exact fixedHolds.append wrote request.isEntry room
  rw [result] at restores ⊢
  obtain rfl := restores rfl
  have restored : Spares
      { system.log with head := fixUp system.log request.entry.length system.log.head }
      { log with wOff := system.log.wOff } request.entry.length :=
    ⟨spares.size, spares.head, spares.cells⟩
  simpa [WriteRequest.added] using fixedHolds.spared restored (le_of_lt room) rfl

theorem WriteRequest.length_entry_pos (request : WriteRequest) : 0 < request.entry.length := by
  rw [request.length_entry, headerSize]
  omega

theorem Holds.write {entries : List (List UInt8)} (valid : ValidSize system.log.size)
    (inside : system.log.wOff < system.log.size) (holds : Holds system.log off entries)
    (restores : (loggerAioWriteLocked system orig request).2 = none → orig = system.log.wOff) :
    ∃ dropped kept, entries = dropped ++ kept ∧
      kept.flatten.length + request.entry.length < system.log.size ∧
      Holds (loggerAioWriteLocked system orig request).1.log
        (fixUp system.log request.entry.length off)
        (kept ++ request.added (loggerAioWriteLocked system orig request).2) := by
  rcases holds.exists_kept valid request.length_entry_pos request.isEntry.most with
    ⟨dropped, kept, rfl, keptHolds, room⟩
  exact ⟨dropped, kept, rfl, room, keptHolds.write_kept valid inside restores room⟩

end AioWrite

/-! ## The read method -/

section Read

variable {log : Log} {off : ℕ}

theorem doReadLogToUser_eq {count : ℕ} (inside : off < log.size) (fits : count ≤ log.size) :
    doReadLogToUser log off count = window log.size log.buffer off count := by
  have parts : count = min count (log.size - off) + (count - min count (log.size - off)) := by omega
  conv_rhs => rw [parts, window_append]
  unfold doReadLogToUser
  simp only
  congr 1
  · apply map_congr_left
    intro index mem
    rw [mem_range] at mem
    rw [mod_eq_of_lt (by omega)]
  apply map_congr_left
  intro index mem
  rw [mem_range] at mem
  rw [show off + min count (log.size - off) = log.size by omega, mod_self, zero_add,
    mod_eq_of_lt (by omega)]

/-- A reader is given the oldest of its entries, whole, or nothing. -/
def ReadsOldest (system : System) (reader : ℕ) : List (List UInt8) → Prop
  | [] => ∀ count fault, loggerRead system reader count fault = (system, .nothing)
  | oldest :: rest => ∀ count fault,
      if count < oldest.length then
        loggerRead system reader count fault = (system, .invalid)
      else if fault then loggerRead system reader count fault = (system, .fault)
      else ∃ next, Holds system.log next rest ∧ loggerRead system reader count fault =
        ({ system with readers := system.readers.set reader next }, .entry oldest)

variable {system : System} {reader : ℕ} {entries : List (List UInt8)}

theorem Holds.readsOldest (valid : ValidSize system.log.size)
    (isReader : system.readers[reader]? = some off) (holds : Holds system.log off entries) :
    ReadsOldest system reader entries := by
  cases entries with
  | nil =>
    intro count fault
    have ends := holds.ends
    simp only [flatten_nil, length_nil, add_zero, mod_eq_of_lt holds.inside] at ends
    simp [loggerRead, isReader, ends]
  | cons oldest rest =>
    intro count fault
    have room := holds.room
    rw [flatten_cons, length_append] at room
    simp only [loggerRead, isReader, if_neg holds.wOff_ne, holds.getEntryLen_eq]
    split_ifs with short faults
    · rfl
    · rfl
    · refine ⟨_, holds.next, ?_⟩
      rw [Log.offset_eq valid, doReadLogToUser_eq holds.inside (by omega), holds.window_entry]

theorem ReadsOldest.cases (readsOldest : ReadsOldest system reader entries) (count : ℕ)
    (fault : Bool) :
    (∃ result, (∀ bytes, result ≠ .entry bytes) ∧
      loggerRead system reader count fault = (system, result)) ∨
    ∃ oldest rest next, entries = oldest :: rest ∧ Holds system.log next rest ∧
      loggerRead system reader count fault =
        ({ system with readers := system.readers.set reader next }, .entry oldest) := by
  cases entries with
  | nil => exact .inl ⟨.nothing, by simp, readsOldest count fault⟩
  | cons oldest rest =>
    have outcome := readsOldest count fault
    split_ifs at outcome with short faults
    · exact .inl ⟨.invalid, by simp, outcome⟩
    · exact .inl ⟨.fault, by simp, outcome⟩
    · rcases outcome with ⟨next, nextHolds, result⟩
      exact .inr ⟨oldest, rest, next, rfl, nextHolds, result⟩

end Read

end StreakKernel.Logger
