import Mathlib.Data.Int.Order.Basic
import Mathlib.Data.List.Basic

/-!
# The ONCRPC router

Embedding of the part of `arch/arm/mach-msm/smd_rpcrouter.c` that works on one
local endpoint: the reassembly of packets in `do_read_data`, the reading and
writing of RPC messages with their reply records, and the cleanup at a restart of
the modem. Each function is one step. Endpoints do not share state, so that what
happens to the others is left out, as are the transport below the router and the
quota of the remote endpoints; a failure of either is an argument of the call.
-/

namespace StreakKernel.RpcRouter

abbrev Byte := BitVec 8
abbrev Word := BitVec 32

/-! ## The wire format -/

def rpcrouterVersion : Word := 1
def rpcrouterMsgsizeMax : ℕ := 512
def rpcrouterPendRepliesMax : ℕ := 32
def rpcrouterRouterAddress : Word := 0xfffffffe
def rpcrouterPidLocal : Word := 1
def rpcrouterPidRemote : Word := 0
def rpcrouterCtrlCmdData : Word := 1

structure Header where
  version : Word
  type : Word
  srcPid : Word
  srcCid : Word
  confirmRx : Word
  size : Word
  dstPid : Word
  dstCid : Word
  deriving DecidableEq, Repr

def pacmark (len mid : Word) (first last : Bool) : Word :=
  (len &&& 0xFFFF) ||| ((mid &&& 0xFF) <<< 16)
    ||| ((if first then 1 else 0 : Word) <<< 30) ||| ((if last then 1 else 0 : Word) <<< 31)

def pacmarkLast (mark : Word) : Bool :=
  decide (mark &&& 0x80000000 ≠ 0)

def pacmarkMid (mark : Word) : Word :=
  (mark >>> 16) &&& 0xFF

structure Frame where
  hdr : Header
  mark : Word
  payload : List Byte
  deriving DecidableEq, Repr

/-! ## The endpoint -/

/-- `struct rr_fragment`: what has been read, and what the buffer holds behind it. -/
structure Fragment where
  data : List Byte
  stale : List Byte
  deriving DecidableEq, Repr

def Fragment.length (fragment : Fragment) : Word :=
  BitVec.ofNat 32 fragment.data.length

def wordAt (bytes : List Byte) (offset : ℕ) : Word :=
  bytes.getD (offset + 3) 0 ++ bytes.getD (offset + 2) 0 ++ bytes.getD (offset + 1) 0 ++
    bytes.getD offset 0

def be32ToCpu (word : Word) : Word :=
  word.extractLsb' 0 8 ++ word.extractLsb' 8 8 ++ word.extractLsb' 16 8 ++ word.extractLsb' 24 8

/-- `struct rpc_request_hdr`, as far as the router looks at it. -/
structure RequestHdr where
  xid : Word
  type : Word
  prog : Word
  vers : Word
  deriving DecidableEq, Repr

def requestHdr (bytes : List Byte) : RequestHdr :=
  ⟨wordAt bytes 0, wordAt bytes 4, wordAt bytes 12, wordAt bytes 16⟩

/-- `struct rr_packet`; its fragments are never empty. -/
structure Packet where
  first : Fragment
  others : List Fragment
  hdr : Header
  mid : Word
  length : Word
  deriving DecidableEq, Repr

def Packet.fragments (packet : Packet) : List Fragment :=
  packet.first :: packet.others

structure Reply where
  pid : Word
  cid : Word
  prog : Word
  vers : Word
  xid : Word
  deriving DecidableEq, Repr

/-- The bits of `restart_state`. -/
structure RestartState where
  pendSvr : Bool
  pendNtfy : Bool
  deriving DecidableEq, Repr

def restartNormal : RestartState := ⟨false, false⟩

structure Endpoint where
  incomplete : List Packet
  readQ : List Packet
  readQWakeLock : Bool
  uninterruptible : Bool
  forcedWakeup : Bool
  restartState : RestartState
  pid : Word
  cid : Word
  dstPid : Word
  dstCid : Word
  dstProg : Word
  dstVers : Word
  replyPendQ : List Reply
  replyAvailQ : List Reply
  replyCnt : ℕ
  replyQWakeLock : Bool
  deriving DecidableEq, Repr

/-- The endpoint that `msm_rpcrouter_create_local_endpoint` makes, with the flags that
`__msm_rpc_connect` sets. -/
def createLocalEndpoint (cid : Word) (server : Option (Word × Word × Word × Word))
    (uninterruptible : Bool) : Endpoint :=
  let destination := server.getD (0xffffffff, 0, 0, 0)
  ⟨[], [], false, uninterruptible, false, restartNormal, rpcrouterPidLocal, cid, destination.1,
    destination.2.1, destination.2.2.1, destination.2.2.2, [], [], 0, false⟩

/-! ## Errors -/

def eagain : ℤ := 11
def enomem : ℤ := 12
def einval : ℤ := 22
def enetreset : ℤ := 102
def enotconn : ℤ := 107
def etimedout : ℤ := 110
def ehostunreach : ℤ := 113
def erestartsys : ℤ := 512
def etoosmall : ℤ := 525

/-! ## Reassembly -/

def Packet.append (packet : Packet) (fragment : Fragment) : Packet :=
  { packet with
    others := packet.others ++ [fragment]
    length := packet.length + fragment.length }

/-- The first packet of a list with the message id, and what stands around it. -/
def splitAtMid (mid : Word) : List Packet → Option (List Packet × Packet × List Packet)
  | [] => none
  | packet :: rest =>
    if packet.mid = mid then some ([], packet, rest)
    else (splitAtMid mid rest).map fun (before, found, after) => (packet :: before, found, after)

namespace Endpoint

def packetComplete (ept : Endpoint) (packet : Packet) : Endpoint :=
  { ept with readQWakeLock := true, readQ := ept.readQ ++ [packet] }

/-- A fragment joins the partial packet with its message id, or begins a new one. -/
def addFragment (ept : Endpoint) (hdr : Header) (mark : Word) (fragment : Fragment) : Endpoint :=
  let mid := pacmarkMid mark
  match splitAtMid mid ept.incomplete with
  | some (before, packet, after) =>
    if pacmarkLast mark then
      { ept with incomplete := before ++ after }.packetComplete (packet.append fragment)
    else { ept with incomplete := before ++ packet.append fragment :: after }
  | none =>
    let packet : Packet := ⟨fragment, [], hdr, mid, fragment.length⟩
    if pacmarkLast mark then ept.packetComplete packet
    else { ept with incomplete := ept.incomplete ++ [packet] }

end Endpoint

/-- How `do_read_data` ends. `RESUME_TX` is sent for an address when the header asks for a
confirmation. -/
inductive ReadResult where
  | died
  | done (resumeTx : Option (Word × Word))
  deriving DecidableEq, Repr

def doReadData (ept : Endpoint) (frame : Frame) (stale : List Byte) : ReadResult × Endpoint :=
  let hdr := frame.hdr
  let confirm := if hdr.confirmRx = 0 then none else some (hdr.dstPid, hdr.dstCid)
  if hdr.version ≠ rpcrouterVersion then (.died, ept)
  else if rpcrouterMsgsizeMax < hdr.size.toNat then (.died, ept)
  else if hdr.dstCid = rpcrouterRouterAddress then (.done confirm, ept)
  else if hdr.size.toNat < 4 then (.died, ept)
  else
    let hdr := { hdr with size := hdr.size - 4 }
    if hdr.dstCid ≠ ept.cid then (.done confirm, ept)
    else (.done confirm, ept.addFragment hdr frame.mark ⟨frame.payload.take hdr.size.toNat, stale⟩)

/-! ## Writing -/

/-- What one call of `msm_rpc_write_pkt` sends. -/
structure Piece where
  data : List Byte
  first : Bool
  last : Bool
  deriving DecidableEq, Repr

/-- The room for data in a message: the modem keeps 8 bytes, the mark takes 4. -/
def maxTx : ℕ := rpcrouterMsgsizeMax - 8 - 4

/-- The loop of `msm_rpc_write` over the buffer, with one round per byte as its bound. -/
def piecesFrom : ℕ → Bool → List Byte → List Piece
  | 0, _, _ => []
  | fuel + 1, first, buffer =>
    if buffer.length = 0 then []
    else if maxTx < buffer.length then
      ⟨buffer.take maxTx, first, false⟩ :: piecesFrom fuel false (buffer.drop maxTx)
    else [⟨buffer, first, true⟩]

def pieces (buffer : List Byte) : List Piece :=
  piecesFrom buffer.length true buffer

def Piece.frame (piece : Piece) (srcPid srcCid dstPid dstCid confirmRx mid : Word) : Frame :=
  ⟨⟨rpcrouterVersion, rpcrouterCtrlCmdData, srcPid, srcCid, confirmRx,
      BitVec.ofNat 32 (piece.data.length + 4), dstPid, dstCid⟩,
    pacmark (BitVec.ofNat 32 piece.data.length) mid piece.first piece.last, piece.data⟩

inductive PktOutcome where
  | written (confirmRx : Word)
  | interrupted
  | reset
  deriving DecidableEq, Repr

namespace Endpoint

/-- The answer to a caller of an endpoint whose peer has restarted. -/
def clearNtfy (ept : Endpoint) : Endpoint :=
  { ept with restartState := { ept.restartState with pendNtfy := false } }

def msmRpcWritePkt (ept : Endpoint) (dstPid dstCid mid : Word) (piece : Piece) :
    PktOutcome → ℤ × Option Frame × Endpoint
  | .written confirmRx =>
    (32 + (piece.data.length + 4),
      some (piece.frame ept.pid ept.cid dstPid dstCid confirmRx mid), ept)
  | .interrupted => (-erestartsys, none, ept)
  | .reset => (-enetreset, none, ept.clearNtfy)

def writePieces (dstPid dstCid mid : Word) :
    List PktOutcome → List Piece → Endpoint → Option ℤ × List Frame × Endpoint
  | _, [], ept => (none, [], ept)
  | outcomes, piece :: rest, ept =>
    let result := ept.msmRpcWritePkt dstPid dstCid mid piece
      (outcomes.headD (.written 0))
    if result.1 < 0 then (some result.1, [], result.2.2)
    else
      let (error, frames, after) :=
        writePieces dstPid dstCid mid outcomes.tail rest result.2.2
      (error, result.2.1.toList ++ frames, after)

/-- The reply record of a transaction id is taken off the pending queue. -/
def getPendReply (ept : Endpoint) (xid : Word) : Option Reply × Endpoint :=
  match ept.replyPendQ.find? fun reply => reply.xid = xid with
  | some reply =>
    (some reply,
      { ept with replyPendQ := ept.replyPendQ.eraseP fun other => other.xid = xid })
  | none => (none, ept)

def setAvailReply (ept : Endpoint) (reply : Reply) : Endpoint :=
  { ept with replyAvailQ := ept.replyAvailQ ++ [reply] }

def setPendReply (ept : Endpoint) (reply : Reply) : Endpoint :=
  { ept with replyQWakeLock := true, replyPendQ := ept.replyPendQ ++ [reply] }

/-- A record that is free, or a new one, for which `kmalloc` has to succeed. -/
def getAvailReply (ept : Endpoint) (kmalloc : Bool) : Option Reply × Endpoint :=
  match ept.replyAvailQ with
  | [] =>
    if rpcrouterPendRepliesMax ≤ ept.replyCnt then (none, ept)
    else if kmalloc then (some ⟨0, 0, 0, 0, 0⟩, { ept with replyCnt := ept.replyCnt + 1 })
    else (none, ept)
  | reply :: rest => (some reply, { ept with replyAvailQ := rest })

/-- The end of `msm_rpc_write` for a reply. -/
def writeReleaseLock (ept : Endpoint) (reply : Reply) (failed : Bool) : Endpoint :=
  let queued := if failed then ept.setPendReply reply else ept.setAvailReply reply
  if queued.replyPendQ = [] then { queued with replyQWakeLock := false } else queued

end Endpoint

/-- What `msm_rpc_write` meets: whether there is a route, the message id, and the outcomes of its
packets. -/
structure WriteEnv where
  routed : Bool
  mid : Word
  outcomes : List PktOutcome
  deriving DecidableEq, Repr

namespace Endpoint

/-- The part of `msm_rpc_write` from the lookup of the remote endpoint on. -/
def writeTo (ept : Endpoint) (env : WriteEnv) (dstPid dstCid : Word) (buffer : List Byte) :
    Option ℤ × List Frame × Endpoint :=
  if env.routed = false ∧ dstPid ≠ rpcrouterPidLocal then (some (-ehostunreach), [], ept)
  else writePieces dstPid dstCid env.mid env.outcomes (pieces buffer) ept

def msmRpcWrite (ept : Endpoint) (env : WriteEnv) (buffer : List Byte) :
    ℤ × List Frame × Endpoint :=
  let rq := requestHdr buffer
  let count : ℤ := buffer.length
  if buffer.length < 8 then (-einval, [], ept)
  else if rq.type = 0 then
    if buffer.length < 24 then (-einval, [], ept)
    else if ept.dstPid = 0xffffffff then (-enotconn, [], ept)
    else if ept.dstProg ≠ rq.prog ∨
        be32ToCpu ept.dstVers &&& 0x0fff0000 ≠ be32ToCpu rq.vers &&& 0x0fff0000 then
      (-einval, [], ept)
    else
      let (error, frames, after) := ept.writeTo env ept.dstPid ept.dstCid buffer
      (error.getD count, frames, after)
  else
    match ept.getPendReply rq.xid with
    | (none, _) => (-einval, [], ept)
    | (some reply, taken) =>
      let (error, frames, after) := taken.writeTo env reply.pid reply.cid buffer
      (error.getD count, frames, after.writeReleaseLock reply error.isSome)

end Endpoint

/-! ## Reading -/

/-- How the wait for a packet ends: woken up, after the timeout, or by a signal. -/
inductive WaitResult where
  | woken
  | timedOut
  | interrupted
  deriving DecidableEq, Repr

/-- What `__msm_rpc_read` is called with and meets. -/
structure ReadEnv where
  len : Word
  timed : Bool
  wait : WaitResult
  kmalloc : Bool
  deriving DecidableEq, Repr

namespace Endpoint

/-- `msm_rpc_clear_netreset`: whether the peer has not restarted. -/
def msmRpcClearNetreset (ept : Endpoint) : Bool × Endpoint :=
  if ept.restartState ≠ restartNormal then (false, ept.clearNtfy) else (true, ept)

/-- The error that ends the wait. The interruptible wait with a timeout does not look for a
signal. -/
def waitError (ept : Endpoint) (env : ReadEnv) : Option ℤ :=
  if env.timed then
    if env.wait = .timedOut then some (-etimedout) else none
  else if ept.uninterruptible = false ∧ env.wait = .interrupted then some (-erestartsys)
  else none

/-- The end of `__msm_rpc_read`. -/
def readReleaseLock (ept : Endpoint) : Endpoint :=
  if ept.readQ = [] then { ept with readQWakeLock := false } else ept

/-- The reply record for a call that has been read; without one the read fails. -/
def recordCall (ept : Endpoint) (packet : Packet) (kmalloc : Bool) : Option Endpoint :=
  let rq := requestHdr (packet.first.data ++ packet.first.stale)
  if 12 ≤ packet.length.toNat ∧ rq.type = 0 then
    match ept.getAvailReply kmalloc with
    | (none, _) => none
    | (some _, after) =>
      some (after.setPendReply ⟨packet.hdr.srcPid, packet.hdr.srcCid, rq.prog, rq.vers, rq.xid⟩)
  else some ept

def readPacket (ept : Endpoint) (env : ReadEnv) : ℤ × List Fragment × Endpoint :=
  match ept.readQ with
  | [] => (-eagain, [], ept)
  | packet :: rest =>
    if env.len < packet.length then (-etoosmall, [], ept)
    else
      let taken := { ept with readQ := rest }
      match taken.recordCall packet env.kmalloc with
      | none => (-enomem, packet.fragments, taken.readReleaseLock)
      | some after => (packet.length.toInt, packet.fragments, after.readReleaseLock)

def msmRpcRead (ept : Endpoint) (env : ReadEnv) : ℤ × List Fragment × Endpoint :=
  match ept.msmRpcClearNetreset with
  | (false, reset) => (-enetreset, [], reset)
  | (true, _) =>
    match ept.waitError env with
    | some error => (error, [], ept)
    | none =>
      if ept.forcedWakeup then (0, [], { ept with forcedWakeup := false })
      else ept.readPacket env

def msmRpcReadWakeup (ept : Endpoint) : Endpoint :=
  { ept with forcedWakeup := true }

/-! ## Restarts -/

def modemResetStartCleanup (ept : Endpoint) : Endpoint :=
  let freed := { ept with replyPendQ := [], replyAvailQ := [] }
  if ept.dstPid = rpcrouterPidRemote then
    { freed with incomplete := [], readQ := [], restartState := ⟨true, true⟩ }
  else freed

def handleServerRestart (ept : Endpoint) (prog vers : Word) : Endpoint :=
  if be32ToCpu ept.dstProg = prog ∧ be32ToCpu ept.dstVers = vers then
    { ept with restartState := { ept.restartState with pendSvr := false } }
  else ept

end Endpoint

end StreakKernel.RpcRouter
