import StreakKernel.Smd.Packet

/-!
# Packets are delivered whole and in order

The reader's place in the bytes that it has not consumed is always known: in the header of
the next packet, or in a packet of which `current_packet` bytes are left.
-/

namespace StreakKernel.Smd

open List

/-! ## Headers -/

theorem length_header (len : ℕ) : (header len).length = headerSize := by
  simp [header, wordBytes, headerSize]

theorem wordOf_header {len : ℕ} (fits : len < 4294967296) (rest : List Byte) :
    wordOf (header len ++ rest) = len := by
  have word : wordOf (header len ++ rest) =
      len % 256 + 256 * (len / 256 % 256) + 65536 * (len / 65536 % 256) +
        16777216 * (len / 16777216 % 256) := by
    simp [wordOf, header, wordBytes]
  omega

@[simp]
theorem encodeAll_nil : encodeAll [] = [] := rfl

theorem encodeAll_cons (packet : List Byte) (rest : List (List Byte)) :
    encodeAll (packet :: rest) = header packet.length ++ (packet ++ encodeAll rest) := by
  simp [encodeAll, encode]

theorem encodeAll_append (first second : List (List Byte)) :
    encodeAll (first ++ second) = encodeAll first ++ encodeAll second := by
  simp [encodeAll]

/-! ## The place of the reader -/

/-- The bytes ahead begin in a packet of which `got` has been read and `left` bytes are
left. -/
def InPacket (ahead : List Byte) (left : ℕ) (got : List Byte) (later : List (List Byte)) :
    Prop :=
  ∃ todo rest, later = (got ++ todo) :: rest ∧ todo.length = left ∧ ahead = todo ++ encodeAll rest

variable {got delivered : List Byte} {left used currentPacket : ℕ} {later : List (List Byte)}
  {phase : ReadPhase} {reader : Reader}

theorem InPacket.advance {ahead : List Byte} {count : ℕ}
    (inPacket : InPacket ahead left got later) (le : count ≤ left) :
    InPacket (ahead.drop count) (left - count) (got ++ ahead.take count) later := by
  obtain ⟨todo, rest, isLater, rfl, rfl⟩ := inPacket
  refine ⟨todo.drop count, rest, ?_, length_drop, ?_⟩
  · rw [isLater, take_append_of_le_length le, append_assoc, take_append_drop]
  · rw [drop_append_of_le_length le]

theorem InPacket.append {ahead : List Byte} (inPacket : InPacket ahead left got later)
    (packet : List Byte) : InPacket (ahead ++ encode packet) left got (later ++ [packet]) := by
  obtain ⟨todo, rest, rfl, isLength, rfl⟩ := inPacket
  refine ⟨todo, rest ++ [packet], rfl, isLength, ?_⟩
  rw [encodeAll_append, append_assoc]
  simp [encodeAll]

def ReaderAt (used : ℕ) (phase : ReadPhase) (ahead : List Byte) (currentPacket : ℕ)
    (delivered : List Byte) (later : List (List Byte)) : Reader → Prop
  | .idle | .updating =>
    phase = .idle ∧ (currentPacket = 0 ∧ delivered = [] ∧ ahead = encodeAll later ∨
        0 < currentPacket ∧ InPacket ahead currentPacket delivered later)
  | .reading wanted got =>
    (∀ data, phase = .copied data → data.length ≤ wanted) ∧
      (currentPacket = 0 ∧ wanted = 0 ∧ got = [] ∧ delivered = [] ∧ ahead = encodeAll later ∨
        0 < currentPacket ∧ got.length + wanted ≤ currentPacket ∧
          InPacket ahead (currentPacket - got.length) (delivered ++ got) later)
  | .fetching wanted got =>
    currentPacket = 0 ∧ delivered = [] ∧ got ++ ahead = encodeAll later ∧
      got.length + wanted = headerSize ∧ wanted ≤ used ∧ phase ≠ .granted 0 ∧
      ∀ data, phase = .copied data → data.length ≤ wanted

/-- Where the writer is: there is room for all that it still has to send. -/
def WriterAt (size used : ℕ) (phase : WritePhase) : Writer → Prop
  | .idle => phase = .idle
  | .sending todo next =>
    todo ≠ [] ∧ (todo ++ next).length + used < size ∧ phase ≠ .granted 0 ∧
      ∀ data, phase = .copied data → data = todo.take data.length

namespace Channel

def pending (channel : Channel) : List Byte :=
  match channel.writer with
  | .idle => []
  | .sending todo next => todo ++ next

def ahead (size : ℕ) (channel : Channel) : List Byte :=
  channel.link.fifo.content size ++ channel.pending

structure Framed (geometry : FifoSize) (channel : Channel) : Prop where
  valid : channel.link.Valid geometry
  writer : WriterAt geometry.size (channel.link.fifo.used geometry.size) channel.link.writer
    channel.writer
  sizes : ∀ packet ∈ channel.accepted, packet ≠ [] ∧ packet.length < 2147483648
  reader : ∃ later, channel.accepted = channel.finished ++ later ∧
    ReaderAt (channel.link.fifo.used geometry.size) channel.link.reader
      (channel.ahead geometry.size) channel.currentPacket channel.delivered later channel.reader

end Channel

section

variable {ahead : List Byte}
  (place : ReaderAt used phase ahead currentPacket delivered later reader)
include place

theorem ReaderAt.mono {more : ℕ} (le : used ≤ more) :
    ReaderAt more phase ahead currentPacket delivered later reader := by
  cases reader with
  | idle => exact place
  | reading wanted got => exact place
  | updating => exact place
  | fetching wanted got =>
    obtain ⟨isZero, fresh, isSplit, isHeader, enough, phases⟩ := place
    exact ⟨isZero, fresh, isSplit, isHeader, enough.trans le, phases⟩

theorem ReaderAt.append (packet : List Byte) :
    ReaderAt used phase (ahead ++ encode packet) currentPacket delivered (later ++ [packet])
      reader := by
  have all : ∀ {bytes}, bytes = encodeAll later →
      bytes ++ encode packet = encodeAll (later ++ [packet]) := by
    intro bytes isAll
    rw [isAll, encodeAll_append]
    simp [encodeAll]
  cases reader with
  | reading wanted got =>
    obtain ⟨phases, place⟩ := place
    refine ⟨phases, place.imp ?_ ?_⟩
    · exact fun ⟨isZero, noWant, noGot, fresh, isAll⟩ =>
        ⟨isZero, noWant, noGot, fresh, all isAll⟩
    · exact fun ⟨positive, bound, inPacket⟩ => ⟨positive, bound, inPacket.append packet⟩
  | idle
  | updating =>
    obtain ⟨isIdle, place⟩ := place
    refine ⟨isIdle, place.imp ?_ ?_⟩
    · exact fun ⟨isZero, fresh, isAll⟩ => ⟨isZero, fresh, all isAll⟩
    · exact fun ⟨positive, inPacket⟩ => ⟨positive, inPacket.append packet⟩
  | fetching wanted got =>
    obtain ⟨isZero, fresh, isSplit, rest⟩ := place
    refine ⟨isZero, fresh, ?_, rest⟩
    rw [← append_assoc]
    exact all isSplit

end

theorem WriterAt.mono {size less : ℕ} {phase : WritePhase} {writer : Writer}
    (place : WriterAt size used phase writer) (le : less ≤ used) :
    WriterAt size less phase writer := by
  cases writer with
  | idle => exact place
  | sending todo next =>
    obtain ⟨nonempty, fits, phases⟩ := place
    exact ⟨nonempty, by omega, phases⟩

namespace Channel

variable {geometry : FifoSize} {channel next : Channel}

structure SameReader (before after : Channel) : Prop where
  phase : after.link.reader = before.link.reader
  reader : after.reader = before.reader
  currentPacket : after.currentPacket = before.currentPacket
  accepted : after.accepted = before.accepted
  finished : after.finished = before.finished
  delivered : after.delivered = before.delivered

section

variable (framed : channel.Framed geometry)
include framed

theorem Framed.of_writer (same : SameReader channel next) (valid : next.link.Valid geometry)
    (writer : WriterAt geometry.size (next.link.fifo.used geometry.size) next.link.writer
      next.writer) (more : channel.link.fifo.used geometry.size ≤ next.link.fifo.used geometry.size)
    (ahead_eq : next.ahead geometry.size = channel.ahead geometry.size) : next.Framed geometry := by
  obtain ⟨later, isLater, place⟩ := framed.reader
  refine ⟨valid, writer, ?_, later, ?_, ?_⟩
  · rw [same.accepted]
    exact framed.sizes
  · rw [same.accepted, same.finished]
    exact isLater
  · rw [same.phase, same.reader, same.currentPacket, same.delivered, ahead_eq]
    exact place.mono more

/-! ## The writer -/

theorem Framed.packetWrite (packet : List Byte) :
    (channel.packetWrite geometry.size packet).Framed geometry := by
  unfold Channel.packetWrite
  split
  · rename_i isIdle
    split
    · exact framed
    split
    · exact framed
    rename_i nonempty enough
    have phase := framed.writer
    rw [isIdle] at phase
    obtain ⟨later, isLater, place⟩ := framed.reader
    rw [framed.valid.inRing.streamWriteAvail_eq] at enough
    have size_le := geometry.size_le
    refine ⟨framed.valid, ⟨?_, ?_, ?_, ?_⟩, ?_, later ++ [packet], ?_, ?_⟩
    · rw [← length_pos_iff, length_header]
      decide
    · dsimp only
      rw [length_append, length_header]
      omega
    · dsimp only
      rw [phase]
      simp
    · intro data isCopied
      rw [phase] at isCopied
      simp at isCopied
    · intro other mem
      rcases mem_append.mp mem with earlier | latest
      · exact framed.sizes other earlier
      · obtain rfl := mem_singleton.mp latest
        refine ⟨by simpa using nonempty, ?_⟩
        omega
    · dsimp only
      rw [isLater, append_assoc]
    · have ahead_eq : channel.ahead geometry.size ++ encode packet =
          channel.link.fifo.content geometry.size ++ (header packet.length ++ packet) := by
        simp [ahead, pending, isIdle, encode]
      have further := place.append packet
      rw [ahead_eq] at further
      exact further
  · exact framed

theorem Framed.writerStep : (channel.writerStep geometry.size).Framed geometry := by
  unfold Channel.writerStep
  split
  · exact framed
  rename_i todo rest isSending
  have writer := framed.writer
  rw [isSending] at writer
  obtain ⟨nonempty, fits, notZero, copies⟩ := writer
  have inRing := framed.valid.inRing
  have todoPos := length_pos_iff.mpr nonempty
  have pending_eq : channel.pending = todo ++ rest := by simp [pending, isSending]
  rw [length_append] at fits
  split
  · -- the room is looked up
    rename_i isIdle
    have room := inRing.chWriteBuffer_pos (by omega)
    have valid := framed.valid.writeBuffer
    simp only [Link.step, isIdle] at valid ⊢
    refine framed.of_writer ⟨rfl, rfl, rfl, rfl, rfl, rfl⟩ valid ?_ (le_refl _) ?_
    · dsimp only
      rw [isSending]
      refine ⟨nonempty, by rw [length_append]; exact fits, ?_, by simp⟩
      intro isZero
      have := WritePhase.granted.inj isZero
      omega
    · simp [ahead, pending]
  · rename_i isGranted
    exact absurd isGranted notZero
  · -- bytes are copied behind the head
    rename_i room isGranted
    have good := framed.valid.writer
    rw [isGranted] at good
    have shorter : (todo.take (room + 1)).length ≤ room + 1 := length_take_le _ _
    obtain ⟨content_eq, _⟩ := inRing.copyIn (todo.take (room + 1))
      (lt_of_le_of_lt (Nat.add_le_add_right shorter _) good.1)
      (le_trans (Nat.add_le_add_left shorter _) good.2)
    have valid := framed.valid.writeCopy todo
    simp only [Link.step, isGranted] at valid ⊢
    refine framed.of_writer ⟨rfl, rfl, rfl, rfl, rfl, rfl⟩ valid ?_ (le_refl _) ?_
    · dsimp only
      rw [isSending]
      refine ⟨nonempty, by rw [length_append]; exact fits, by simp, ?_⟩
      intro data isCopied
      obtain rfl := WritePhase.copied.inj isCopied
      simp
    · simp only [ahead, pending]
      rw [content_eq]
  · -- the head is moved
    rename_i data isCopied
    have isTake := copies data isCopied
    have good := framed.valid.writer
    rw [isCopied] at good
    obtain ⟨_, used_eq, content_eq⟩ := inRing.chWriteDone good.1
    rw [good.2.2] at content_eq
    have valid := framed.valid.writeDone
    simp only [Link.step, isCopied] at valid ⊢
    have dataLe : data.length ≤ todo.length := by
      rw [isTake]
      exact length_take_le' _ _
    have ahead_eq : ∀ left : List Byte, left = todo.drop data.length ++ rest →
        channel.link.fifo.content geometry.size ++ data ++ left = channel.ahead geometry.size := by
      rintro left rfl
      rw [ahead, pending_eq, append_assoc, ← append_assoc data]
      congr 2
      nth_rewrite 1 [isTake]
      exact take_append_drop _ _
    refine framed.of_writer ⟨rfl, rfl, rfl, rfl, rfl, rfl⟩ valid ?_ ?_ ?_
    · dsimp only
      rw [used_eq]
      split_ifs with more follows
      · refine ⟨more, ?_, by simp, by simp⟩
        rw [length_append, length_drop]
        omega
      · refine ⟨follows, ?_, by simp, by simp⟩
        rw [append_nil]
        omega
      · rfl
    · dsimp only
      rw [used_eq]
      exact Nat.le_add_right _ _
    unfold ahead at ahead_eq ⊢
    dsimp only
    rw [content_eq]
    apply ahead_eq
    simp only [pending]
    split_ifs with more follows
    · rfl
    · simp [not_not.mp more]
    · simp [not_not.mp more, not_not.mp follows]

end

/-! ## The reader -/

structure SameWriter (before after : Channel) : Prop where
  phase : after.link.writer = before.link.writer
  writer : after.writer = before.writer
  accepted : after.accepted = before.accepted

variable {later : List (List Byte)} {got : List Byte}

section

variable (framed : channel.Framed geometry)
include framed

theorem Framed.of_reader (same : SameWriter channel next) (valid : next.link.Valid geometry)
    (less : next.link.fifo.used geometry.size ≤ channel.link.fifo.used geometry.size)
    (isLater : next.accepted = next.finished ++ later)
    (place : ReaderAt (next.link.fifo.used geometry.size) next.link.reader
      (next.ahead geometry.size) next.currentPacket next.delivered later next.reader) :
    next.Framed geometry := by
  refine ⟨valid, ?_, ?_, later, isLater, place⟩
  · rw [same.phase, same.writer]
    exact framed.writer.mono less
  · rw [same.accepted]
    exact framed.sizes

theorem Framed.packetRead (len : ℕ) : (channel.packetRead len).Framed geometry := by
  unfold Channel.packetRead
  split
  · rename_i isIdle
    obtain ⟨later, isLater, place⟩ := framed.reader
    rw [isIdle] at place
    obtain ⟨phase, place⟩ := place
    refine framed.of_reader ⟨rfl, rfl, rfl⟩ framed.valid (le_refl _) isLater ⟨?_, ?_⟩
    · intro data isCopied
      rw [phase] at isCopied
      simp at isCopied
    unfold wantedLen
    rcases place with ⟨isZero, fresh, isAll⟩ | ⟨positive, inPacket⟩
    · refine .inl ⟨isZero, ?_, rfl, fresh, isAll⟩
      rw [isZero]
      split_ifs <;> omega
    refine .inr ⟨positive, ?_, ?_⟩
    · simp only [length_nil]
      split_ifs <;> omega
    · rw [append_nil]
      exact inPacket
  · exact framed

theorem Framed.interrupt : channel.interrupt.Framed geometry := by
  unfold Channel.interrupt
  split
  · rename_i isIdle
    obtain ⟨later, isLater, place⟩ := framed.reader
    rw [isIdle] at place
    exact framed.of_reader ⟨rfl, rfl, rfl⟩ framed.valid (le_refl _) isLater place
  · exact framed

end

theorem Framed.update (framed : channel.Framed geometry) (isUpdating : channel.reader = .updating) :
    (channel.readerStep geometry.size).Framed geometry := by
  obtain ⟨later, isLater, place⟩ := framed.reader
  rw [isUpdating] at place
  unfold readerStep
  rw [isUpdating]
  dsimp only
  split
  · exact framed.of_reader ⟨rfl, rfl, rfl⟩ framed.valid (le_refl _) isLater place
  rename_i isZero
  split
  · exact framed.of_reader ⟨rfl, rfl, rfl⟩ framed.valid (le_refl _) isLater place
  rename_i enough
  obtain ⟨phase, ⟨_, fresh, isAll⟩ | ⟨positive, _⟩⟩ := place
  · rw [framed.valid.inRing.streamReadAvail_eq] at enough
    refine framed.of_reader ⟨rfl, rfl, rfl⟩ framed.valid (Nat.le_refl _) isLater
      ⟨not_not.mp isZero, fresh, isAll, rfl, Nat.le_of_not_lt enough, ?_, ?_⟩
    · dsimp only
      rw [phase]
      simp
    intro data isCopied
    rw [phase] at isCopied
    simp at isCopied
  · omega

theorem length_of_inPacket {ahead : List Byte} {left : ℕ}
    (inPacket : InPacket ahead left got later) :
    ∃ packet ∈ later, got.length + left = packet.length := by
  obtain ⟨todo, rest, rfl, rfl, _⟩ := inPacket
  exact ⟨got ++ todo, mem_cons_self, length_append.symm⟩

theorem Framed.readEnd (framed : channel.Framed geometry) {wanted : ℕ}
    (isReading : channel.reader = .reading wanted got) : (channel.readEnd got).Framed geometry := by
  obtain ⟨later, isLater, place⟩ := framed.reader
  rw [isReading] at place
  obtain ⟨_, place⟩ := place
  have valid : { channel.link with reader := .idle }.Valid geometry :=
    ⟨framed.valid.inRing, framed.valid.writer, trivial, framed.valid.faithful, framed.valid.noBug⟩
  unfold Channel.readEnd
  dsimp only
  rcases place with ⟨isZero, _, rfl, fresh, isAll⟩ | ⟨positive, bound, inPacket⟩
  · have left_eq : Word.sub channel.currentPacket ([] : List Byte).length = 0 := by
      rw [isZero]
      exact Word.sub_eq (le_refl _) (by decide)
    rw [if_neg (fun both => both.2 isZero)]
    refine framed.of_reader ⟨rfl, rfl, rfl⟩ valid (le_refl _) isLater ⟨rfl, .inl ?_⟩
    exact ⟨left_eq, by simp [fresh], isAll⟩
  obtain ⟨packet, mem, isLength⟩ := length_of_inPacket inPacket
  rw [length_append] at isLength
  have small := (framed.sizes packet (isLater ▸ mem_append_right _ mem)).2
  have left_eq : Word.sub channel.currentPacket got.length =
      channel.currentPacket - got.length :=
    Word.sub_eq (by omega) (by omega)
  rw [left_eq]
  split
  · rename_i isEnd
    obtain ⟨todo, rest, rfl, isLength, isAhead⟩ := inPacket
    obtain rfl : todo = [] := eq_nil_of_length_eq_zero (isLength.trans isEnd.1)
    refine framed.of_reader ⟨rfl, rfl, rfl⟩ valid (le_refl _) ?_ ⟨rfl, .inl ⟨isEnd.1, rfl, isAhead⟩⟩
    simpa using isLater
  rename_i isOpen
  refine framed.of_reader ⟨rfl, rfl, rfl⟩ valid (le_refl _) isLater ⟨rfl, .inr ?_⟩
  refine ⟨?_, inPacket⟩
  dsimp only
  omega

theorem Framed.fetchEnd (framed : channel.Framed geometry)
    (isFetching : channel.reader = .fetching 0 got) : (channel.fetchEnd got).Framed geometry := by
  obtain ⟨later, isLater, place⟩ := framed.reader
  rw [isFetching] at place
  obtain ⟨_, fresh, isSplit, isHeader, _, _, _⟩ := place
  rw [add_zero] at isHeader
  unfold Channel.fetchEnd
  have valid : { channel.link with
      reader := .idle
      bug := channel.link.bug || decide (got.length ≠ headerSize) }.Valid geometry :=
    ⟨framed.valid.inRing, framed.valid.writer, trivial, framed.valid.faithful,
      by simp [framed.valid.noBug, isHeader]⟩
  cases later with
  | nil =>
    have lengths := congrArg length isSplit
    simp only [length_append, isHeader, encodeAll_nil, length_nil] at lengths
    have : headerSize = 20 := rfl
    omega
  | cons packet rest =>
    rw [encodeAll_cons] at isSplit
    obtain ⟨rfl, isAhead⟩ := append_inj isSplit (isHeader.trans (length_header packet.length).symm)
    have sizes := framed.sizes packet (isLater ▸ mem_append_right _ mem_cons_self)
    have word : wordOf (header packet.length) = packet.length := by
      have := wordOf_header (by omega : packet.length < 4294967296) []
      rwa [append_nil] at this
    refine framed.of_reader ⟨rfl, rfl, rfl⟩ valid (le_refl _) isLater ⟨rfl, .inr ?_⟩
    dsimp only
    rw [word, fresh]
    exact ⟨length_pos_iff.mpr sizes.1, packet, rest, rfl, rfl, isAhead⟩

theorem length_take_ahead {size count : ℕ} (le : count ≤ channel.link.fifo.used size) :
    ((channel.ahead size).take count).length = count := by
  rw [length_take, ahead, length_append, Fifo.length_content]
  omega

section Frames

variable (framed : channel.Framed geometry)
include framed

variable {wanted : ℕ} {got : List Byte}

/-- A round of `ch_read` that is not its last: what the transfer does to the reader is
left to the caller. -/
theorem Framed.readRound {finish : Channel → List Byte → Channel}
    {continue_ : ℕ → List Byte → Reader} {later : List (List Byte)}
    (isLater : channel.accepted = channel.finished ++ later)
    (isNext : channel.reader = continue_ wanted got)
    (copies : ∀ data, channel.link.reader = .copied data → data.length ≤ wanted)
    (finished : (wanted = 0 ∨ channel.link.reader = .granted 0) → (finish channel got).Framed
      geometry)
    (granted : ∀ room, (0 < wanted → 0 < channel.link.fifo.used geometry.size → 0 < room) →
      0 < wanted → ReaderAt (channel.link.fifo.used geometry.size) (.granted room) (channel.ahead
        geometry.size) channel.currentPacket channel.delivered later (continue_ wanted got))
    (copied : ∀ data : List Byte, data.length ≤ wanted →
      ReaderAt (channel.link.fifo.used geometry.size) (.copied data) (channel.ahead geometry.size)
        channel.currentPacket channel.delivered later (continue_ wanted got))
    (moved : ∀ count ≤ wanted, count ≤ channel.link.fifo.used geometry.size →
      ReaderAt (channel.link.fifo.used geometry.size - count) .idle
        ((channel.ahead geometry.size).drop count) channel.currentPacket channel.delivered later
          (continue_ (wanted - count) (got ++ (channel.ahead geometry.size).take count))) :
    (channel.readRound geometry.size wanted got finish continue_).Framed geometry := by
  have inRing := framed.valid.inRing
  unfold Channel.readRound
  split
  · -- the bytes at the tail are looked up
    rename_i isIdle
    split
    · rename_i isZero
      exact finished (.inl isZero)
    rename_i isMore
    have valid := framed.valid.readBuffer
    simp only [Link.step, isIdle] at valid ⊢
    refine framed.of_reader ⟨rfl, rfl, rfl⟩ valid (le_refl _) isLater ?_
    dsimp only
    rw [isNext]
    exact granted _ (fun _ => inRing.chReadBuffer_pos) (Nat.pos_of_ne_zero isMore)
  · rename_i isGranted
    exact finished (.inr isGranted)
  · -- bytes are copied from the tail
    rename_i room isGranted
    have valid := framed.valid.readCopy wanted
    simp only [Link.step, isGranted] at valid ⊢
    refine framed.of_reader ⟨rfl, rfl, rfl⟩ valid (le_refl _) isLater ?_
    dsimp only
    rw [isNext]
    refine copied _ ?_
    simp only [Fifo.copyOut, length_map, length_range]
    exact min_le_left _ _
  · -- the tail is moved
    rename_i data isCopied
    have good := framed.valid.reader
    rw [isCopied] at good
    obtain ⟨_, used_eq, content_eq⟩ := inRing.chReadDone good.1
    have valid := framed.valid.readDone
    simp only [Link.step, isCopied] at valid ⊢
    have place := moved data.length (copies data isCopied) good.1
    have inContent : data.length ≤ (channel.link.fifo.content geometry.size).length := by
      rw [Fifo.length_content]
      exact good.1
    refine framed.of_reader ⟨rfl, rfl, rfl⟩ valid ?_ isLater ?_
    · dsimp only
      rw [used_eq]
      exact Nat.sub_le _ _
    unfold ahead at place ⊢
    rw [take_append_of_le_length inContent, drop_append_of_le_length inContent, ← good.2] at place
    dsimp only [pending]
    rw [used_eq, content_eq]
    exact place

theorem Framed.read (isReading : channel.reader = .reading wanted got) :
    (channel.readRound geometry.size wanted got Channel.readEnd .reading).Framed geometry := by
  obtain ⟨later, isLater, place⟩ := framed.reader
  rw [isReading] at place
  obtain ⟨copies, place⟩ := place
  refine framed.readRound isLater isReading copies (fun _ => framed.readEnd isReading)
    (fun room _ _ => ⟨by simp, place⟩) (fun data le => ⟨?_, place⟩)
    (fun count le inFifo => ⟨by simp, ?_⟩)
  · intro other isCopied
    obtain rfl := ReadPhase.copied.inj isCopied
    exact le
  rcases place with ⟨isZero, rfl, rfl, fresh, isAll⟩ | ⟨positive, bound, inPacket⟩
  · obtain rfl : count = 0 := by omega
    exact .inl ⟨isZero, rfl, rfl, fresh, isAll⟩
  have further := inPacket.advance (by omega : count ≤ channel.currentPacket - got.length)
  rw [Nat.sub_sub, append_assoc] at further
  refine .inr ⟨positive, ?_, ?_⟩
  · rw [length_append, length_take_ahead inFifo]
    omega
  · rw [length_append, length_take_ahead inFifo]
    exact further

theorem Framed.fetch (isFetching : channel.reader = .fetching wanted got) :
    (channel.readRound geometry.size wanted got Channel.fetchEnd .fetching).Framed geometry := by
  obtain ⟨later, isLater, place⟩ := framed.reader
  rw [isFetching] at place
  obtain ⟨isZero, fresh, isSplit, isHeader, enough, notZero, copies⟩ := place
  refine framed.readRound isLater isFetching copies ?_ ?_ ?_ ?_
  · rintro (rfl | isGranted)
    · exact framed.fetchEnd isFetching
    · exact absurd isGranted notZero
  · intro room roomPos wantedPos
    refine ⟨isZero, fresh, isSplit, isHeader, enough, ?_, by simp⟩
    intro noRoom
    have := ReadPhase.granted.inj noRoom
    omega
  · intro data le
    refine ⟨isZero, fresh, isSplit, isHeader, enough, by simp, ?_⟩
    intro other isCopied
    obtain rfl := ReadPhase.copied.inj isCopied
    exact le
  · intro count le inFifo
    refine ⟨isZero, fresh, ?_, ?_, by omega, by simp, by simp⟩
    · rw [append_assoc, take_append_drop]
      exact isSplit
    · rw [length_append, length_take_ahead inFifo]
      omega

theorem Framed.readerStep : (channel.readerStep geometry.size).Framed geometry := by
  cases isAt : channel.reader with
  | idle => simpa only [Channel.readerStep, isAt] using framed
  | reading wanted got => simpa only [Channel.readerStep, isAt] using framed.read isAt
  | updating => exact framed.update isAt
  | fetching wanted got => simpa only [Channel.readerStep, isAt] using framed.fetch isAt

theorem Framed.step (action : Action) : (channel.step geometry.size action).Framed geometry := by
  cases action with
  | packetWrite packet => exact framed.packetWrite packet
  | writerStep => exact framed.writerStep
  | packetRead len => exact framed.packetRead len
  | interrupt => exact framed.interrupt
  | readerStep => exact framed.readerStep

end Frames

theorem opened_framed (buffer : ℕ → Byte) {index : ℕ} (inRing : index < geometry.size) :
    (opened buffer index).Framed geometry := by
  have valid := Link.opened_valid buffer inRing
  have isEmpty : (Link.opened buffer index).fifo.content geometry.size = [] := by
    simpa [Link.opened] using valid.faithful
  refine ⟨valid, rfl, by simp [opened], [], rfl, rfl, .inl ⟨rfl, rfl, ?_⟩⟩
  simp [ahead, pending, opened, isEmpty, encodeAll]

/-- Outside of a read, `current_packet` is what is left of the packet at the head, or there
is no packet begun. -/
def Between (size : ℕ) (channel : Channel) (later : List (List Byte)) : Prop :=
  channel.currentPacket = 0 ∧ channel.delivered = [] ∧ channel.ahead size = encodeAll later ∨
    0 < channel.currentPacket ∧
      InPacket (channel.ahead size) channel.currentPacket channel.delivered later

/-- In a read, what was read belongs to the packet at the head, and no more is wanted than
is left of it. -/
def Within (size : ℕ) (channel : Channel) (wanted : ℕ) (got : List Byte)
    (later : List (List Byte)) : Prop :=
  got.length + wanted ≤ channel.currentPacket ∧ (0 < channel.currentPacket →
      InPacket (channel.ahead size) (channel.currentPacket - got.length)
        (channel.delivered ++ got) later)

theorem Framed.places (framed : channel.Framed geometry) :
    ∃ later, channel.accepted = channel.finished ++ later ∧
      (channel.reader = .idle → channel.Between geometry.size later) ∧
      ∀ wanted got, channel.reader = .reading wanted got →
        channel.Within geometry.size wanted got later := by
  obtain ⟨later, isLater, place⟩ := framed.reader
  refine ⟨later, isLater, ?_, ?_⟩
  · intro isIdle
    rw [isIdle] at place
    exact place.2
  intro wanted got isReading
  rw [isReading] at place
  rcases place.2 with ⟨isZero, rfl, rfl, _⟩ | ⟨_, bound, inPacket⟩
  · exact ⟨Nat.zero_le _, fun positive => absurd isZero (Nat.ne_of_gt positive)⟩
  · exact ⟨bound, fun _ => inPacket⟩

theorem Framed.drained (framed : channel.Framed geometry) (writerIdle : channel.writer = .idle)
    (readerIdle : channel.reader = .idle)
    (isEmpty : channel.link.fifo.used geometry.size = 0) : channel.finished = channel.accepted := by
  have noneAhead : channel.ahead geometry.size = [] := by
    rw [ahead, pending, writerIdle, append_nil]
    exact eq_nil_of_length_eq_zero ((Fifo.length_content _).trans isEmpty)
  obtain ⟨later, isLater, between, _⟩ := framed.places
  rcases between readerIdle with ⟨_, _, isAll⟩ | ⟨positive, todo, rest, _, isLength, isAhead⟩
  · cases later with
    | nil => rw [isLater, append_nil]
    | cons packet rest =>
      rw [noneAhead, encodeAll_cons] at isAll
      have := congrArg length isAll
      simp only [length_append, length_header, length_nil, headerSize] at this
      omega
  · have := congrArg length (noneAhead.symm.trans isAhead)
    simp only [length_append, length_nil] at this
    omega

/-- In every interleaving the bytes come out as they were written. On a packet channel the packets
come out whole and in order, a read stays within the packet at the head, and `current_packet` is
what is left of it. -/
theorem carries_packets (geometry : FifoSize) (buffer : ℕ → Byte) (index : Fin geometry.size) :
    (∀ events,
      let link := Run.run (Link.step geometry.size) (Link.opened buffer index) events
      link.bug = false ∧ link.written = link.consumed ++ link.fifo.content geometry.size) ∧
    ∀ actions,
      let channel := Run.run (Channel.step geometry.size) (Channel.opened buffer index) actions
      channel.link.bug = false ∧
      channel.link.written = channel.link.consumed ++ channel.link.fifo.content geometry.size ∧
      (∃ later, channel.accepted = channel.finished ++ later ∧
        (channel.reader = .idle → channel.Between geometry.size later) ∧
        ∀ wanted got, channel.reader = .reading wanted got →
          channel.Within geometry.size wanted got later) ∧
      (channel.writer = .idle → channel.reader = .idle →
        channel.link.fifo.used geometry.size = 0 → channel.finished = channel.accepted) := by
  refine ⟨fun events => ?_, fun actions => ?_⟩
  · have valid := Run.invariant_always (Link.Valid geometry)
      (fun _ event valid => Link.Valid.step valid event)
      (Link.opened_valid buffer index.isLt) events
    exact ⟨valid.noBug, valid.faithful⟩
  have framed := Run.invariant_always (Channel.Framed geometry)
    (fun _ action framed => Framed.step framed action)
    (opened_framed buffer index.isLt) actions
  exact ⟨framed.valid.noBug, framed.valid.faithful, framed.places, framed.drained⟩

end Channel

end StreakKernel.Smd
