import Mathlib.Data.List.Forall2
import Mathlib.Tactic.IntervalCases
import StreakKernel.Lib.Run
import StreakKernel.RpcRouter.Basic

/-!
# Interleaved senders

`msm_rpc_write` cuts a message into pieces whose marks carry the message id and tell the last one.
The pieces of remote senders arrive interleaved at one endpoint. Each is joined to the first
partial packet with its message id, whoever sent that packet.
-/

namespace StreakKernel.RpcRouter

open List Endpoint

/-! ## The marks -/

theorem pacmarkMid_pacmark (len : Word) (mid : BitVec 8) (first last : Bool) :
    pacmarkMid (pacmark len (mid.setWidth 32) first last) = mid.setWidth 32 := by
  apply BitVec.eq_of_getLsbD_eq
  intro i lt
  simp only [pacmarkMid, pacmark, BitVec.getLsbD_and, BitVec.getLsbD_or,
    BitVec.getLsbD_shiftLeft, BitVec.getLsbD_ushiftRight, BitVec.getLsbD_setWidth]
  by_cases low : i < 8
  · interval_cases i <;> cases first <;> cases last <;> simp
  · have high : mid.getLsbD i = false := BitVec.getLsbD_of_ge mid i (by omega)
    have mask : BitVec.getLsbD (0xFF : Word) i = false := by interval_cases i <;> rfl
    rw [mask, high, Bool.and_false, Bool.and_false]

theorem pacmarkLast_pacmark (len mid : Word) (first last : Bool) :
    pacmarkLast (pacmark len mid first last) = last := by
  have topBit : (pacmark len mid first last).getLsbD 31 = last := by
    simp only [pacmark, BitVec.getLsbD_and, BitVec.getLsbD_or, BitVec.getLsbD_shiftLeft]
    cases first <;> cases last <;> simp
  have isTwoPow : (0x80000000 : Word) = BitVec.twoPow 32 31 := by decide
  rw [pacmarkLast, isTwoPow, BitVec.and_twoPow, topBit]
  cases last <;> decide

/-! ## The pieces of a message -/

theorem maxTx_eq : maxTx = 500 := rfl

theorem piecesFrom_flatten {fuel : ℕ} {first : Bool} {buffer : List Byte}
    (enough : buffer.length ≤ fuel) :
    ((piecesFrom fuel first buffer).map Piece.data).flatten = buffer := by
  induction fuel generalizing first buffer with
  | zero => simpa [piecesFrom] using enough
  | succ fuel ih =>
    rw [piecesFrom]
    split
    · rename_i empty
      simpa using empty
    split
    · rename_i long
      have shorter : (buffer.drop maxTx).length ≤ fuel := by
        rw [length_drop, maxTx_eq]
        omega
      simp only [map_cons, flatten_cons, ih shorter]
      exact take_append_drop maxTx buffer
    · simp

theorem piecesFrom_split {fuel : ℕ} {first : Bool} {buffer : List Byte}
    (enough : buffer.length ≤ fuel) {before after : List Piece} {piece : Piece}
    (split : piecesFrom fuel first buffer = before ++ piece :: after) :
    (piece.last = true ↔ after = []) ∧ piece.data.length ≤ maxTx := by
  induction fuel generalizing first buffer before with
  | zero => simp [piecesFrom] at split
  | succ fuel ih =>
    rw [piecesFrom] at split
    split_ifs at split with empty long
    · simp at split
    · have shorter : (buffer.drop maxTx).length ≤ fuel := by
        rw [length_drop, maxTx_eq]
        omega
      rcases before with _ | ⟨head, before⟩
      · obtain ⟨rfl, rest⟩ := cons.inj split
        have nonempty : after ≠ [] := by
          rintro rfl
          have flat := @piecesFrom_flatten fuel false _ shorter
          rw [rest] at flat
          have lengths := congrArg length flat
          simp only [map_nil, flatten_nil, length_nil, length_drop] at lengths
          omega
        simp [nonempty]
      · exact ih shorter (cons.inj split).2
    · rcases before with _ | ⟨head, before⟩
      · obtain ⟨rfl, rest⟩ := cons.inj split
        exact ⟨by simp [← rest], Nat.le_of_not_lt long⟩
      · simp at split

theorem pieces_split {message : List Byte} {before after : List Piece} {piece : Piece}
    (split : pieces message = before ++ piece :: after) :
    (piece.last = true ↔ after = []) ∧ piece.data.length ≤ maxTx :=
  piecesFrom_split (Nat.le_refl _) split

/-! ## One fragment -/

structure Sender where
  pid : Word
  cid : Word
  deriving DecidableEq, Repr

def Packet.From (packet : Packet) (sender : Sender) : Prop :=
  packet.hdr.srcPid = sender.pid ∧ packet.hdr.srcCid = sender.cid
  deriving Decidable

def Packet.payloads (packet : Packet) : List (List Byte) :=
  packet.fragments.map Fragment.data

def Endpoint.arrive (ept : Endpoint) (sender : Sender) (mid : BitVec 8) (piece : Piece)
    (confirmRx : Word) (stale : List Byte) : Endpoint :=
  (doReadData ept
    (piece.frame sender.pid sender.cid rpcrouterPidLocal ept.cid confirmRx (mid.setWidth 32))
    stale).2

section Arrival

variable {ept : Endpoint} {piece : Piece}

theorem splitAtMid_eq_none {word : Word} {packets : List Packet}
    (absent : ∀ packet ∈ packets, packet.mid ≠ word) : splitAtMid word packets = none := by
  induction packets with
  | nil => rfl
  | cons packet rest ih =>
    rw [splitAtMid, if_neg (absent packet mem_cons_self),
      ih fun other mem => absent other (mem_cons_of_mem _ mem)]
    rfl

theorem splitAtMid_append {word : Word} {before after : List Packet} {packet : Packet}
    (absent : ∀ other ∈ before, other.mid ≠ word) (same : packet.mid = word) :
    splitAtMid word (before ++ packet :: after) = some (before, packet, after) := by
  induction before with
  | nil => rw [nil_append, splitAtMid, if_pos same]
  | cons other rest ih =>
    rw [cons_append, splitAtMid, if_neg (absent other mem_cons_self),
      ih fun next mem => absent next (mem_cons_of_mem _ mem)]
    rfl

theorem Endpoint.arrive_eq (short : piece.data.length ≤ maxTx)
    (addressed : ept.cid ≠ rpcrouterRouterAddress) (sender : Sender) (mid : BitVec 8)
    (confirmRx : Word) (stale : List Byte) :
    ∃ hdr mark, hdr.srcPid = sender.pid ∧ hdr.srcCid = sender.cid ∧
      pacmarkMid mark = mid.setWidth 32 ∧ pacmarkLast mark = piece.last ∧
      ept.arrive sender mid piece confirmRx stale =
        ept.addFragment hdr mark ⟨piece.data, stale⟩ := by
  rw [maxTx_eq] at short
  have size : (BitVec.ofNat 32 (piece.data.length + 4)).toNat = piece.data.length + 4 := by
    rw [BitVec.toNat_ofNat, Nat.mod_eq_of_lt (by omega)]
  have rest : (BitVec.ofNat 32 (piece.data.length + 4) - 4).toNat = piece.data.length := by
    rw [BitVec.toNat_sub_of_le, size]
    · rfl
    · rw [BitVec.le_def, size]
      exact Nat.le_add_left 4 _
  refine ⟨⟨rpcrouterVersion, rpcrouterCtrlCmdData, sender.pid, sender.cid, confirmRx,
      BitVec.ofNat 32 (piece.data.length + 4) - 4, rpcrouterPidLocal, ept.cid⟩, _, rfl, rfl,
    pacmarkMid_pacmark (BitVec.ofNat 32 piece.data.length) mid piece.first piece.last,
    pacmarkLast_pacmark _ _ piece.first piece.last, ?_⟩
  unfold arrive doReadData Piece.frame
  have fits : ¬rpcrouterMsgsizeMax < piece.data.length + 4 := by
    rw [rpcrouterMsgsizeMax]
    omega
  have marked : ¬piece.data.length + 4 < 4 := by omega
  simp only [ne_eq, not_true, if_false, size, if_neg fits, if_neg addressed, if_neg marked, rest,
    take_length]

end Arrival

/-! ## Messages under way -/

structure Flight where
  sender : Sender
  mid : BitVec 8
  arrived : List Piece
  rest : List Piece
  deriving DecidableEq, Repr

/-- The endpoint with the messages under way and all messages that were begun. -/
structure System where
  ept : Endpoint
  flights : List Flight
  sent : List (Sender × List Byte)
  deriving DecidableEq, Repr

/-- The first message under way with the sender and the id, and what stands around it. -/
def splitFlight (sender : Sender) (mid : BitVec 8) :
    List Flight → Option (List Flight × Flight × List Flight)
  | [] => none
  | flight :: rest =>
    if flight.sender = sender ∧ flight.mid = mid then some ([], flight, rest)
    else (splitFlight sender mid rest).map fun (before, found, after) =>
      (flight :: before, found, after)

/-- The first piece of a message arrives, or the next piece of one under way, or a packet is read.
-/
inductive Request where
  | start (sender : Sender) (mid : BitVec 8) (message : List Byte) (confirmRx : Word)
      (stale : List Byte)
  | next (sender : Sender) (mid : BitVec 8) (confirmRx : Word) (stale : List Byte)
  | read (env : ReadEnv)
  deriving DecidableEq, Repr

namespace System

def beginMessage (system : System) (sender : Sender) (mid : BitVec 8) (message : List Byte)
    (confirmRx : Word) (stale : List Byte) : System :=
  match pieces message with
  | [] => system
  | piece :: rest =>
    { ept := system.ept.arrive sender mid piece confirmRx stale
      flights :=
        if rest = [] then system.flights
        else system.flights ++ [⟨sender, mid, [piece], rest⟩]
      sent := (sender, message) :: system.sent }

def nextPiece (system : System) (sender : Sender) (mid : BitVec 8) (confirmRx : Word)
    (stale : List Byte) : System :=
  match splitFlight sender mid system.flights with
  | none => system
  | some (before, flight, after) =>
    match flight.rest with
    | [] => system
    | piece :: rest =>
      { system with
        ept := system.ept.arrive sender mid piece confirmRx stale
        flights :=
          if rest = [] then before ++ after
          else before ++ ⟨sender, mid, flight.arrived ++ [piece], rest⟩ :: after }

def step (system : System) : Request → System
  | .start sender mid message confirmRx stale =>
    system.beginMessage sender mid message confirmRx stale
  | .next sender mid confirmRx stale => system.nextPiece sender mid confirmRx stale
  | .read env => { system with ept := (system.ept.msmRpcRead env).2.2 }

/-- A sender begins a message under an id that none of its unfinished messages has. -/
def OwnIds (system : System) : Request → Prop
  | .start sender mid _ _ _ =>
    ∀ flight ∈ system.flights, ¬(flight.sender = sender ∧ flight.mid = mid)
  | _ => True

/-- The partial packets with the id of the fragment that arrives are from its sender. -/
def Undisputed (system : System) : Request → Prop
  | .start sender mid _ _ _ | .next sender mid _ _ =>
    ∀ packet ∈ system.ept.incomplete, packet.mid = mid.setWidth 32 → packet.From sender
  | .read _ => True

instance (system : System) (request : Request) : Decidable (system.OwnIds request) :=
  match request with
  | .start .. => inferInstanceAs (Decidable (∀ flight ∈ system.flights, _))
  | .next .. | .read .. => inferInstanceAs (Decidable True)

instance (system : System) (request : Request) : Decidable (system.Undisputed request) :=
  match request with
  | .start .. | .next .. => inferInstanceAs (Decidable (∀ packet ∈ system.ept.incomplete, _))
  | .read .. => inferInstanceAs (Decidable True)

end System

/-! ## The partial packets are the messages under way -/

def Exact (sent : List (Sender × List Byte)) (packet : Packet) : Prop :=
  ∃ sender message, (sender, message) ∈ sent ∧ packet.From sender ∧
    packet.payloads = (pieces message).map Piece.data

/-- A packet that holds the pieces of a message that have arrived. -/
structure Tracks (sent : List (Sender × List Byte)) (flight : Flight) (packet : Packet) :
    Prop where
  mid : packet.mid = flight.mid.setWidth 32
  sender : packet.From flight.sender
  payloads : packet.payloads = flight.arrived.map Piece.data
  unfinished : flight.rest ≠ []
  message : ∃ message, (flight.sender, message) ∈ sent ∧
    pieces message = flight.arrived ++ flight.rest

structure Reassembles (system : System) : Prop where
  addressed : system.ept.cid ≠ rpcrouterRouterAddress
  tracked : List.Forall₂ (Tracks system.sent) system.flights system.ept.incomplete
  exact : ∀ packet ∈ system.ept.readQ, Exact system.sent packet

theorem splitFlight_some {sender : Sender} {mid : BitVec 8} {flights before after : List Flight}
    {flight : Flight} (found : splitFlight sender mid flights = some (before, flight, after)) :
    flights = before ++ flight :: after ∧ flight.sender = sender ∧ flight.mid = mid ∧
      ∀ other ∈ before, ¬(other.sender = sender ∧ other.mid = mid) := by
  induction flights generalizing before with
  | nil => simp [splitFlight] at found
  | cons first rest ih =>
    rw [splitFlight] at found
    split at found
    · rename_i same
      obtain ⟨rfl, rfl, rfl⟩ := found
      exact ⟨rfl, same.1, same.2, by simp⟩
    rename_i differs
    simp only [Option.map_eq_some_iff, Prod.mk.injEq, Prod.exists] at found
    obtain ⟨front, _, _, inRest, rfl, rfl, rfl⟩ := found
    obtain ⟨rfl, isSender, isMid, absent⟩ := ih inRest
    refine ⟨rfl, isSender, isMid, fun other mem => ?_⟩
    rcases mem_cons.mp mem with rfl | inFront
    · exact differs
    · exact absent other inFront

theorem forall₂_split {first second : Type*} {related : first → second → Prop}
    {before after : List first} {middle : first} {list : List second}
    (all : List.Forall₂ related (before ++ middle :: after) list) :
    ∃ front element back, list = front ++ element :: back ∧
      List.Forall₂ related before front ∧ related middle element ∧
      List.Forall₂ related after back := by
  induction before generalizing list with
  | nil =>
    obtain ⟨element, back, isRelated, isBack, rfl⟩ := forall₂_cons_left_iff.mp all
    exact ⟨[], element, back, rfl, .nil, isRelated, isBack⟩
  | cons head before ih =>
    obtain ⟨image, rest, isRelated, isRest, rfl⟩ := forall₂_cons_left_iff.mp all
    obtain ⟨front, element, back, rfl, isFront, isMiddle, isBack⟩ := ih isRest
    exact ⟨image :: front, element, back, rfl, .cons isRelated isFront, isMiddle, isBack⟩

section Steps

variable {sent : List (Sender × List Byte)} {sender : Sender} {mid : BitVec 8}

variable {packet : Packet} {ept : Endpoint} {piece : Piece}

theorem Tracks.mono {flight : Flight} (tracks : Tracks sent flight packet)
    (begun : Sender × List Byte) : Tracks (begun :: sent) flight packet := by
  obtain ⟨message, isSent, isSplit⟩ := tracks.message
  exact ⟨tracks.mid, tracks.sender, tracks.payloads, tracks.unfinished, message,
    mem_cons_of_mem _ isSent, isSplit⟩

theorem Exact.mono (exact : Exact sent packet) (begun : Sender × List Byte) :
    Exact (begun :: sent) packet := by
  obtain ⟨sender, message, isSent, rest⟩ := exact
  exact ⟨sender, message, mem_cons_of_mem _ isSent, rest⟩

theorem Packet.From.unique {first second : Sender} (left : packet.From first)
    (right : packet.From second) : first = second := by
  rcases first with ⟨firstPid, firstCid⟩
  rcases second with ⟨secondPid, secondCid⟩
  obtain ⟨rfl, rfl⟩ := left
  obtain ⟨rfl, rfl⟩ := right
  rfl

theorem setWidth_injective {first second : BitVec 8}
    (same : first.setWidth 32 = second.setWidth 32) : first = second := by
  have values := congrArg BitVec.toNat same
  simp only [BitVec.toNat_setWidth] at values
  apply BitVec.eq_of_toNat_eq
  omega

/-- Where the ids are undisputed, a packet with the id of a fragment belongs to a message
of its sender with that id. -/
theorem no_packet_of_no_flight {flights : List Flight} {packets : List Packet}
    (tracked : List.Forall₂ (Tracks sent) flights packets)
    (undisputed : ∀ packet ∈ packets, packet.mid = mid.setWidth 32 → packet.From sender)
    (absent : ∀ flight ∈ flights, ¬(flight.sender = sender ∧ flight.mid = mid)) :
    ∀ packet ∈ packets, packet.mid ≠ mid.setWidth 32 := by
  induction tracked with
  | nil => simp
  | @cons flight packet flights packets tracks _ ih =>
    intro other mem same
    rcases mem_cons.mp mem with rfl | inRest
    · refine absent flight mem_cons_self ⟨?_, ?_⟩
      · exact tracks.sender.unique (undisputed other mem_cons_self same)
      · exact setWidth_injective (tracks.mid.symm.trans same)
    · exact ih (fun next inside => undisputed next (mem_cons_of_mem _ inside))
        (fun next inside => absent next (mem_cons_of_mem _ inside)) other inRest same

section

variable (short : piece.data.length ≤ maxTx) (addressed : ept.cid ≠ rpcrouterRouterAddress)
include short addressed

theorem arrive_new (absent : ∀ packet ∈ ept.incomplete, packet.mid ≠ mid.setWidth 32)
    (sender : Sender) (confirmRx : Word) (stale : List Byte) :
    ∃ packet : Packet, packet.mid = mid.setWidth 32 ∧ packet.From sender ∧
      packet.payloads = [piece.data] ∧
      (ept.arrive sender mid piece confirmRx stale).cid = ept.cid ∧
      (ept.arrive sender mid piece confirmRx stale).incomplete =
        (if piece.last then ept.incomplete else ept.incomplete ++ [packet]) ∧
      (ept.arrive sender mid piece confirmRx stale).readQ =
        (if piece.last then ept.readQ ++ [packet] else ept.readQ) := by
  obtain ⟨hdr, mark, srcPid, srcCid, isMid, isLast, isArrived⟩ :=
    arrive_eq short addressed sender mid confirmRx stale
  refine ⟨⟨⟨piece.data, stale⟩, [], hdr, mid.setWidth 32, Fragment.length ⟨piece.data, stale⟩⟩,
    rfl, ⟨srcPid, srcCid⟩, rfl, ?_⟩
  rw [isArrived]
  unfold addFragment
  simp only [isMid, splitAtMid_eq_none absent, isLast]
  cases piece.last with
  | false | true => exact ⟨rfl, rfl, rfl⟩

theorem arrive_append {before after : List Packet}
    (isList : ept.incomplete = before ++ packet :: after)
    (absent : ∀ other ∈ before, other.mid ≠ mid.setWidth 32) (same : packet.mid = mid.setWidth 32)
    (sender : Sender) (confirmRx : Word) (stale : List Byte) :
    ∃ grown : Packet, grown.mid = packet.mid ∧ grown.hdr = packet.hdr ∧
      grown.payloads = packet.payloads ++ [piece.data] ∧
      (ept.arrive sender mid piece confirmRx stale).cid = ept.cid ∧
      (ept.arrive sender mid piece confirmRx stale).incomplete =
        (if piece.last then before ++ after else before ++ grown :: after) ∧
      (ept.arrive sender mid piece confirmRx stale).readQ =
        (if piece.last then ept.readQ ++ [grown] else ept.readQ) := by
  obtain ⟨hdr, mark, _, _, isMid, isLast, isArrived⟩ :=
    arrive_eq short addressed sender mid confirmRx stale
  refine ⟨packet.append ⟨piece.data, stale⟩, rfl, rfl, ?_, ?_⟩
  · simp [Packet.payloads, Packet.fragments, Packet.append]
  rw [isArrived]
  unfold addFragment
  simp only [isMid, isList, splitAtMid_append absent same, isLast]
  cases piece.last with
  | false | true => exact ⟨rfl, rfl, rfl⟩

end

end Steps

structure ReadKeeps (before after : Endpoint) : Prop where
  incomplete : after.incomplete = before.incomplete
  cid : after.cid = before.cid
  readQ : ∀ packet ∈ after.readQ, packet ∈ before.readQ

theorem Endpoint.recordCall_keeps {ept after : Endpoint} {packet : Packet} {kmalloc : Bool}
    (recorded : ept.recordCall packet kmalloc = some after) : ReadKeeps ept after := by
  unfold recordCall getAvailReply at recorded
  dsimp only at recorded
  split at recorded
  · split at recorded
    · simp at recorded
    rename_i found
    obtain rfl := Option.some.inj recorded
    split at found
    · split_ifs at found
      · simp at found
      · obtain ⟨-, rfl⟩ := Prod.mk.inj found
        exact ⟨rfl, rfl, fun _ mem => mem⟩
      · simp at found
    · obtain ⟨-, rfl⟩ := Prod.mk.inj found
      exact ⟨rfl, rfl, fun _ mem => mem⟩
  · obtain rfl := Option.some.inj recorded
    exact ⟨rfl, rfl, fun _ mem => mem⟩

theorem Endpoint.readReleaseLock_keeps (ept : Endpoint) : ReadKeeps ept ept.readReleaseLock := by
  unfold readReleaseLock
  split <;> exact ⟨rfl, rfl, fun _ mem => mem⟩

theorem ReadKeeps.trans {first second third : Endpoint} (left : ReadKeeps first second)
    (right : ReadKeeps second third) : ReadKeeps first third :=
  ⟨right.incomplete.trans left.incomplete, right.cid.trans left.cid,
    fun packet mem => left.readQ packet (right.readQ packet mem)⟩

theorem Endpoint.msmRpcRead_keeps (ept : Endpoint) (env : ReadEnv) :
    ReadKeeps ept (ept.msmRpcRead env).2.2 := by
  have unchanged : ReadKeeps ept ept := ⟨rfl, rfl, fun _ mem => mem⟩
  unfold msmRpcRead msmRpcClearNetreset
  split
  · rename_i isReset
    split_ifs at isReset
    · obtain ⟨-, rfl⟩ := Prod.mk.inj isReset
      exact ⟨rfl, rfl, fun _ mem => mem⟩
    · simp at isReset
  split
  · exact unchanged
  split
  · exact ⟨rfl, rfl, fun _ mem => mem⟩
  unfold readPacket
  split
  · exact unchanged
  rename_i packet rest isQueue
  have taken : ReadKeeps ept { ept with readQ := rest } :=
    ⟨rfl, rfl, fun other mem => by simp [isQueue, mem]⟩
  dsimp only
  split
  · exact unchanged
  split
  · exact taken.trans (readReleaseLock_keeps _)
  · rename_i after recorded
    exact (taken.trans (recordCall_keeps recorded)).trans (readReleaseLock_keeps _)

namespace Reassembles

variable {system : System}

variable {sender : Sender} {mid : BitVec 8} {confirmRx : Word} {stale : List Byte}

section

variable (reassembles : Reassembles system)
include reassembles

theorem first {message : List Byte}
    (ownIds : system.OwnIds (.start sender mid message confirmRx stale))
    (undisputed : system.Undisputed (.start sender mid message confirmRx stale)) :
    Reassembles (system.beginMessage sender mid message confirmRx stale) := by
  have absent := no_packet_of_no_flight reassembles.tracked undisputed ownIds
  unfold System.beginMessage
  cases split : pieces message with
  | nil => exact reassembles
  | cons piece rest =>
    obtain ⟨isLast, short⟩ := @pieces_split message [] rest piece split
    obtain ⟨packet, isMid, isFrom, payloads, cid, incomplete, readQ⟩ :=
      arrive_new short reassembles.addressed absent sender confirmRx stale
    have tracked := reassembles.tracked.imp fun _ _ tracks => tracks.mono (sender, message)
    have exact := fun other mem => (reassembles.exact other mem).mono (sender, message)
    refine ⟨?_, ?_, ?_⟩
    · dsimp only
      rw [cid]
      exact reassembles.addressed
    · dsimp only
      rw [incomplete]
      by_cases single : rest = []
      · simp only [single, if_true, isLast.mpr single]
        exact tracked
      · simp only [single, if_false, mt isLast.mp single]
        refine rel_append tracked (.cons ?_ .nil)
        exact ⟨isMid, isFrom, payloads, single, message, mem_cons_self, split⟩
    intro other mem
    rw [readQ] at mem
    by_cases single : rest = []
    · simp only [isLast.mpr single, if_true] at mem
      rcases mem_append.mp mem with earlier | latest
      · exact exact other earlier
      obtain rfl := mem_singleton.mp latest
      refine ⟨sender, message, mem_cons_self, isFrom, ?_⟩
      rw [payloads, split, single]
      rfl
    · simp only [mt isLast.mp single] at mem
      exact exact other mem

theorem later (undisputed : system.Undisputed (.next sender mid confirmRx stale)) :
    Reassembles (system.nextPiece sender mid confirmRx stale) := by
  unfold System.nextPiece
  split
  · exact reassembles
  rename_i before flight after found
  obtain ⟨isFlights, rfl, rfl, notBefore⟩ := splitFlight_some found
  have allTracked := reassembles.tracked
  rw [isFlights] at allTracked
  obtain ⟨front, packet, back, isList, tracked, tracks, trackedAfter⟩ := forall₂_split allTracked
  have absent := no_packet_of_no_flight tracked
    (fun other mem => undisputed other (isList ▸ mem_append_left _ mem)) notBefore
  cases isRest : flight.rest with
  | nil => exact absurd isRest tracks.unfinished
  | cons piece rest =>
    obtain ⟨message, isSent, split⟩ := tracks.message
    rw [isRest] at split
    obtain ⟨isLast, short⟩ := pieces_split split
    obtain ⟨grown, isMid, isHdr, payloads, cid, incomplete, readQ⟩ :=
      arrive_append short reassembles.addressed isList absent tracks.mid flight.sender
        confirmRx stale
    have isFrom : grown.From flight.sender := by
      rw [Packet.From, isHdr]
      exact tracks.sender
    have isPayloads : grown.payloads = (flight.arrived ++ [piece]).map Piece.data := by
      rw [payloads, tracks.payloads, map_append]
      rfl
    refine ⟨?_, ?_, ?_⟩
    · dsimp only
      rw [cid]
      exact reassembles.addressed
    · dsimp only
      rw [incomplete]
      by_cases single : rest = []
      · simp only [single, if_true, isLast.mpr single]
        exact rel_append tracked trackedAfter
      simp only [single, if_false, mt isLast.mp single]
      refine rel_append tracked (.cons ?_ trackedAfter)
      refine ⟨isMid.trans tracks.mid, isFrom, isPayloads, single, message, isSent, ?_⟩
      rw [split, append_assoc]
      rfl
    intro other mem
    rw [readQ] at mem
    by_cases single : rest = []
    · simp only [isLast.mpr single, if_true] at mem
      rcases mem_append.mp mem with earlier | latest
      · exact reassembles.exact other earlier
      · obtain rfl := mem_singleton.mp latest
        refine ⟨flight.sender, message, isSent, isFrom, ?_⟩
        rw [isPayloads, split, single]
    · simp only [mt isLast.mp single] at mem
      exact reassembles.exact other mem

theorem read (env : ReadEnv) : Reassembles (system.step (.read env)) := by
  have kept := system.ept.msmRpcRead_keeps env
  refine ⟨?_, ?_, fun packet mem => reassembles.exact packet (kept.readQ packet mem)⟩
  · simp only [System.step, kept.cid]
    exact reassembles.addressed
  · simp only [System.step, kept.incomplete]
    exact reassembles.tracked

end

end Reassembles

/-- If no two senders have unfinished messages with one id, each packet on the read queue consists
of all pieces of one message, in order, and its header names the sender. -/
theorem System.reassembled_run (cid : {cid : Word // cid ≠ rpcrouterRouterAddress})
    (server : Option (Word × Word × Word × Word)) (uninterruptible : Bool) (requests : List Request)
    (admitted : Run.Admits System.step
      (fun system request => system.OwnIds request ∧ system.Undisputed request)
      ⟨createLocalEndpoint cid server uninterruptible, [], []⟩ requests) :
    let reached := Run.run System.step
      ⟨createLocalEndpoint cid server uninterruptible, [], []⟩ requests
    ∀ packet ∈ reached.ept.readQ, ∃ sender message, (sender, message) ∈ reached.sent ∧
      packet.hdr.srcPid = sender.pid ∧ packet.hdr.srcCid = sender.cid ∧
      packet.payloads = (pieces message).map Piece.data ∧ packet.payloads.flatten = message := by
  have created : Reassembles ⟨createLocalEndpoint cid server uninterruptible, [], []⟩ :=
    ⟨cid.property, .nil, by simp [createLocalEndpoint]⟩
  have reassembles := Run.invariant_run Reassembles (fun system request holds condition => by
    cases request with
    | start sender mid message confirmRx stale => exact holds.first condition.1 condition.2
    | next sender mid confirmRx stale => exact holds.later condition.2
    | read env => exact holds.read env) created admitted
  intro reached packet mem
  obtain ⟨sender, message, isSent, isFrom, payloads⟩ := reassembles.exact packet mem
  refine ⟨sender, message, isSent, isFrom.1, isFrom.2, payloads, ?_⟩
  rw [payloads]
  exact piecesFrom_flatten (le_refl _)

/-- An endpoint to which nothing has been sent. -/
def twoSenders : System :=
  ⟨createLocalEndpoint 7 none false, [], []⟩

/-- The first sender begins a message of 501 bytes under the id 5. -/
def longMessage : Request :=
  .start ⟨rpcrouterPidRemote, 9⟩ 5 (List.replicate 501 1) 0 []

theorem reassembled_run_two :
    let reached := Run.run System.step twoSenders
      [longMessage, .start ⟨rpcrouterPidRemote, 10⟩ 6 (List.replicate 24 2) 0 [],
        .next ⟨rpcrouterPidRemote, 9⟩ 5 0 []]
    ∀ packet ∈ reached.ept.readQ, ∃ sender message, (sender, message) ∈ reached.sent ∧
      packet.hdr.srcPid = sender.pid ∧ packet.hdr.srcCid = sender.cid ∧
      packet.payloads = (pieces message).map Piece.data ∧ packet.payloads.flatten = message :=
  System.reassembled_run ⟨7, by decide⟩ none false _ (by decide +kernel)

/-- The second sender uses the id 5 as well, for a message of one fragment. The fragment
completes the packet of the first sender, which holds pieces of both messages. -/
theorem senders_mixed :
    let requests := [longMessage, .start ⟨rpcrouterPidRemote, 10⟩ 5 (List.replicate 24 2) 0 []]
    let reached := Run.run System.step twoSenders requests
    Run.Admits System.step System.OwnIds twoSenders requests ∧
      reached.ept.readQ.map (fun packet => (packet.hdr.srcCid, packet.payloads)) =
        [(9, [List.replicate 500 1, List.replicate 24 2])] ∧
      ∀ packet ∈ reached.ept.readQ, ∀ begun ∈ reached.sent,
        packet.payloads ≠ (pieces begun.2).map Piece.data := by
  decide +kernel

end StreakKernel.RpcRouter
