import StreakKernel.Smd.Stream

/-!
# Packet channels

`smd_packet_write` puts a header and the data on the stream, once there is room for
both. `smd_packet_read` reads from the packet at the head, and `update_packet_state`
takes the next header when that packet is used up. Each of these functions is a
program whose transfers are the atomic steps of the stream, and the programs of the
two processors are interleaved.
-/

namespace StreakKernel.Smd

def headerSize : ℕ := 20

def wordBytes (word : ℕ) : List Byte :=
  [UInt8.ofNat word, UInt8.ofNat (word / 256), UInt8.ofNat (word / 65536),
    UInt8.ofNat (word / 16777216)]

def wordOf (bytes : List Byte) : ℕ :=
  (bytes.getD 0 0).toNat + 256 * (bytes.getD 1 0).toNat + 65536 * (bytes.getD 2 0).toNat +
    16777216 * (bytes.getD 3 0).toNat

/-- The header of a packet: its length, and four words of zeros. -/
def header (len : ℕ) : List Byte :=
  wordBytes len ++ List.replicate 16 0

def encode (packet : List Byte) : List Byte :=
  header packet.length ++ packet

def encodeAll (packets : List (List Byte)) : List Byte :=
  (packets.map encode).flatten

/-- Outside of a call, or in `smd_stream_write` with the bytes left of this call and those of the
next one. -/
inductive Writer where
  | idle
  | sending (todo next : List Byte)
  deriving DecidableEq, Repr

/-- Outside of a call, in `ch_read` for a packet or a header, or at the top of
`update_packet_state`. -/
inductive Reader where
  | idle
  | reading (wanted : ℕ) (got : List Byte)
  | updating
  | fetching (wanted : ℕ) (got : List Byte)
  deriving DecidableEq, Repr

/-- The channel with both programs. `finished` is what was delivered of each earlier packet, and
`delivered` that of the current one. -/
structure Channel where
  link : Link
  writer : Writer
  reader : Reader
  currentPacket : ℕ
  accepted : List (List Byte)
  finished : List (List Byte)
  delivered : List Byte

/-- The writer begins a call or goes on; the reader begins a call, is interrupted by an update, or
goes on. -/
inductive Action where
  | packetWrite (packet : List Byte)
  | writerStep
  | packetRead (len : ℕ)
  | interrupt
  | readerStep
  deriving DecidableEq, Repr

namespace Channel

variable (size : ℕ) (channel : Channel)

def packetWrite (packet : List Byte) : Channel :=
  match channel.writer with
  | .idle =>
    if packet.length = 0 then channel
    else if channel.link.fifo.streamWriteAvail size < packet.length + headerSize then channel
    else
      { channel with
        writer := .sending (header packet.length) packet
        accepted := channel.accepted ++ [packet] }
  | .sending .. => channel

/-- The loop of `smd_stream_write`. A call that finds no room ends early, and so does
`smd_packet_write` then. -/
def writerStep : Channel :=
  match channel.writer with
  | .idle => channel
  | .sending todo next =>
    match channel.link.writer with
    | .idle => { channel with link := channel.link.step size .writeBuffer }
    | .granted 0 =>
      { channel with link := { channel.link with writer := .idle }, writer := .idle }
    | .granted (_ + 1) => { channel with link := channel.link.step size (.writeCopy todo) }
    | .copied data =>
      let left := todo.drop data.length
      { channel with
        link := channel.link.step size .writeDone
        writer :=
          if left ≠ [] then .sending left next
          else if next ≠ [] then .sending next []
          else .idle }

/-- The length that `smd_packet_read` asks for, which is negative from 2^31 on. -/
def wantedLen (len : ℕ) : ℕ :=
  if channel.currentPacket < len then
    if channel.currentPacket < 2147483648 then channel.currentPacket else 0
  else len

def packetRead (len : ℕ) : Channel :=
  match channel.reader with
  | .idle => { channel with reader := .reading (channel.wantedLen len) [] }
  | _ => channel

/-- The update of the state in `handle_smd_irq`. -/
def interrupt : Channel :=
  match channel.reader with
  | .idle => { channel with reader := .updating }
  | _ => channel

/-- The end of `ch_read` in `smd_packet_read`: what was read counts as delivered, and a
packet is finished when nothing is left of it. -/
def readEnd (got : List Byte) : Channel :=
  let left := Word.sub channel.currentPacket got.length
  let delivered := channel.delivered ++ got
  if left = 0 ∧ channel.currentPacket ≠ 0 then
    { channel with
      link := { channel.link with reader := .idle }
      reader := .updating
      currentPacket := left
      finished := channel.finished ++ [delivered]
      delivered := [] }
  else
    { channel with
      link := { channel.link with reader := .idle }
      reader := .updating
      currentPacket := left
      delivered := delivered }

/-- The end of `ch_read` in `update_packet_state`. -/
def fetchEnd (got : List Byte) : Channel :=
  { channel with
    link := { channel.link with
      reader := .idle
      bug := channel.link.bug || decide (got.length ≠ headerSize) }
    reader := .updating
    currentPacket := wordOf got }

/-- A round of the loop of `ch_read`: what it ends with, or the step that it makes. -/
def readRound (wanted : ℕ) (got : List Byte) (finish : Channel → List Byte → Channel)
    (continue_ : ℕ → List Byte → Reader) : Channel :=
  match channel.link.reader with
  | .idle =>
    if wanted = 0 then finish channel got
    else { channel with link := channel.link.step size .readBuffer }
  | .granted 0 => finish channel got
  | .granted (_ + 1) => { channel with link := channel.link.step size (.readCopy wanted) }
  | .copied data =>
    { channel with
      link := channel.link.step size .readDone
      reader := continue_ (wanted - data.length) (got ++ data) }

def readerStep : Channel :=
  match channel.reader with
  | .idle => channel
  | .reading wanted got => channel.readRound size wanted got readEnd .reading
  | .updating =>
    if channel.currentPacket ≠ 0 then { channel with reader := .idle }
    else if channel.link.fifo.streamReadAvail size < headerSize then
      { channel with reader := .idle }
    else { channel with reader := .fetching headerSize [] }
  | .fetching wanted got => channel.readRound size wanted got fetchEnd .fetching

def step : Action → Channel
  | .packetWrite packet => channel.packetWrite size packet
  | .writerStep => channel.writerStep size
  | .packetRead len => channel.packetRead len
  | .interrupt => channel.interrupt
  | .readerStep => channel.readerStep size

def opened (buffer : ℕ → Byte) (index : ℕ) : Channel :=
  ⟨Link.opened buffer index, .idle, .idle, 0, [], [], []⟩

end Channel

end StreakKernel.Smd
