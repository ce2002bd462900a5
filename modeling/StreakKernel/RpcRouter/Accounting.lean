import StreakKernel.Lib.Run
import StreakKernel.RpcRouter.Basic

/-!
# The accounts of an endpoint

All operations keep the number of reply records and the wake locks of the two queues,
except the cleanup at a restart of the modem, which empties the queues and forgets both.
-/

namespace StreakKernel.RpcRouter

open List

namespace Endpoint

structure RepliesAccounted (ept : Endpoint) : Prop where
  replyCnt : ept.replyCnt = ept.replyPendQ.length + ept.replyAvailQ.length
  replyLock : ept.replyQWakeLock = true ↔ ept.replyPendQ ≠ []

/-- Likewise, with one record that is in neither queue. -/
structure RepliesLent (ept : Endpoint) : Prop where
  replyCnt : ept.replyCnt = ept.replyPendQ.length + ept.replyAvailQ.length + 1
  replyLock : ept.replyPendQ ≠ [] → ept.replyQWakeLock = true

structure Accounted (ept : Endpoint) : Prop where
  replies : ept.RepliesAccounted
  readLock : ept.readQWakeLock = true ↔ ept.readQ ≠ []

structure SameReplies (before after : Endpoint) : Prop where
  replyPendQ : after.replyPendQ = before.replyPendQ
  replyAvailQ : after.replyAvailQ = before.replyAvailQ
  replyCnt : after.replyCnt = before.replyCnt
  replyQWakeLock : after.replyQWakeLock = before.replyQWakeLock

structure SameReads (before after : Endpoint) : Prop where
  readQ : after.readQ = before.readQ
  readQWakeLock : after.readQWakeLock = before.readQWakeLock

variable {first second third before after : Endpoint} {reply : Reply} {kmalloc : Bool}

theorem SameReplies.trans (left : SameReplies first second) (right : SameReplies second third) :
    SameReplies first third :=
  ⟨right.replyPendQ.trans left.replyPendQ, right.replyAvailQ.trans left.replyAvailQ,
    right.replyCnt.trans left.replyCnt, right.replyQWakeLock.trans left.replyQWakeLock⟩

theorem SameReads.trans (left : SameReads first second) (right : SameReads second third) :
    SameReads first third :=
  ⟨right.readQ.trans left.readQ, right.readQWakeLock.trans left.readQWakeLock⟩

theorem RepliesAccounted.of_same (accounted : before.RepliesAccounted)
    (same : SameReplies before after) : after.RepliesAccounted := by
  constructor
  · rw [same.replyCnt, same.replyPendQ, same.replyAvailQ]
    exact accounted.replyCnt
  · rw [same.replyQWakeLock, same.replyPendQ]
    exact accounted.replyLock

theorem SameReplies.lent (same : SameReplies before after) (lent : before.RepliesLent) :
    after.RepliesLent := by
  constructor
  · rw [same.replyCnt, same.replyPendQ, same.replyAvailQ]
    exact lent.replyCnt
  · rw [same.replyQWakeLock, same.replyPendQ]
    exact lent.replyLock

theorem Accounted.of_sameReads (accounted : before.Accounted) (replies : after.RepliesAccounted)
    (same : SameReads before after) : after.Accounted := by
  refine ⟨replies, ?_⟩
  rw [same.readQ, same.readQWakeLock]
  exact accounted.readLock

theorem Accounted.of_same (accounted : before.Accounted) (sameReplies : SameReplies before after)
    (sameReads : SameReads before after) : after.Accounted :=
  accounted.of_sameReads (accounted.replies.of_same sameReplies) sameReads

variable {ept : Endpoint}

/-! ## Arrivals -/

section

variable (accounted : ept.Accounted)
include accounted

theorem Accounted.packetComplete (packet : Packet) : (ept.packetComplete packet).Accounted := by
  refine ⟨accounted.replies.of_same ⟨rfl, rfl, rfl, rfl⟩, ?_⟩
  simp [Endpoint.packetComplete]

theorem Accounted.setIncomplete (incomplete : List Packet) :
    { ept with incomplete := incomplete }.Accounted :=
  accounted.of_same ⟨rfl, rfl, rfl, rfl⟩ ⟨rfl, rfl⟩

theorem Accounted.addFragment (hdr : Header) (mark : Word) (fragment : Fragment) :
    (ept.addFragment hdr mark fragment).Accounted := by
  unfold Endpoint.addFragment
  dsimp only
  split
  · split
    · exact (accounted.setIncomplete _).packetComplete _
    · exact accounted.setIncomplete _
  · split
    · exact accounted.packetComplete _
    · exact accounted.setIncomplete _

theorem Accounted.doReadData (frame : Frame) (stale : List Byte) :
    (doReadData ept frame stale).2.Accounted := by
  unfold RpcRouter.doReadData
  dsimp only
  generalize (if frame.hdr.confirmRx = 0 then none
    else some (frame.hdr.dstPid, frame.hdr.dstCid)) = confirm
  split_ifs
  · exact accounted
  · exact accounted
  · exact accounted
  · exact accounted
  · exact accounted
  · exact accounted.addFragment _ _ _

end

/-! ## Writing -/

theorem clearNtfy_same (ept : Endpoint) :
    SameReplies ept ept.clearNtfy ∧ SameReads ept ept.clearNtfy :=
  ⟨⟨rfl, rfl, rfl, rfl⟩, ⟨rfl, rfl⟩⟩

theorem writePieces_same (dstPid dstCid mid : Word) (outcomes : List PktOutcome)
    (pieces : List Piece) (ept : Endpoint) :
    SameReplies ept (writePieces dstPid dstCid mid outcomes pieces ept).2.2 ∧
      SameReads ept (writePieces dstPid dstCid mid outcomes pieces ept).2.2 := by
  induction pieces generalizing outcomes ept with
  | nil => exact ⟨⟨rfl, rfl, rfl, rfl⟩, ⟨rfl, rfl⟩⟩
  | cons piece rest ih =>
    have written : ∀ outcome,
        SameReplies ept (ept.msmRpcWritePkt dstPid dstCid mid piece outcome).2.2 ∧
          SameReads ept (ept.msmRpcWritePkt dstPid dstCid mid piece outcome).2.2 := by
      intro outcome
      cases outcome with
      | written confirmRx | interrupted => exact ⟨⟨rfl, rfl, rfl, rfl⟩, ⟨rfl, rfl⟩⟩
      | reset => exact ept.clearNtfy_same
    rw [writePieces]
    dsimp only
    split
    · exact written _
    · exact ⟨(written _).1.trans (ih _ _).1, (written _).2.trans (ih _ _).2⟩

theorem writeTo_same (ept : Endpoint) (env : WriteEnv) (dstPid dstCid : Word) (buffer : List Byte) :
    SameReplies ept (ept.writeTo env dstPid dstCid buffer).2.2 ∧
      SameReads ept (ept.writeTo env dstPid dstCid buffer).2.2 := by
  unfold writeTo
  split
  · exact ⟨⟨rfl, rfl, rfl, rfl⟩, ⟨rfl, rfl⟩⟩
  · exact writePieces_same _ _ _ _ _ _

theorem RepliesAccounted.getPendReply (accounted : ept.RepliesAccounted) {xid : Word}
    {taken : Endpoint} (found : ept.getPendReply xid = (some reply, taken)) :
    taken.RepliesLent ∧ SameReads ept taken := by
  unfold Endpoint.getPendReply at found
  split at found
  · rename_i record isFound
    obtain ⟨-, rfl⟩ := Prod.mk.inj found
    have mem := mem_of_find?_eq_some isFound
    have shorter := length_eraseP_of_mem mem (find?_some isFound)
    have nonempty := length_pos_of_mem mem
    have count := accounted.replyCnt
    refine ⟨⟨?_, fun _ => ?_⟩, ⟨rfl, rfl⟩⟩
    · dsimp only
      omega
    · exact accounted.replyLock.mpr (ne_nil_of_mem mem)
  · simp at found

theorem RepliesLent.setPendReply (lent : ept.RepliesLent) (reply : Reply) :
    (ept.setPendReply reply).RepliesAccounted := by
  have count := lent.replyCnt
  refine ⟨?_, by simp [Endpoint.setPendReply]⟩
  simp only [Endpoint.setPendReply, length_append, length_singleton]
  omega

theorem RepliesLent.writeReleaseLock (lent : ept.RepliesLent) (reply : Reply) (failed : Bool) :
    (ept.writeReleaseLock reply failed).RepliesAccounted ∧
      SameReads ept (ept.writeReleaseLock reply failed) := by
  unfold Endpoint.writeReleaseLock
  cases failed with
  | true =>
    have pending : (ept.setPendReply reply).replyPendQ ≠ [] := by simp [Endpoint.setPendReply]
    simp only [if_true, if_neg pending]
    exact ⟨lent.setPendReply reply, ⟨rfl, rfl⟩⟩
  | false =>
    have count := lent.replyCnt
    have counted : ept.replyCnt =
        ept.replyPendQ.length + (ept.replyAvailQ ++ [reply]).length := by
      simp only [length_append, length_singleton]
      omega
    simp only [Bool.false_eq_true, if_false]
    split
    · rename_i empty
      exact ⟨⟨counted, by simpa using empty⟩, ⟨rfl, rfl⟩⟩
    · rename_i nonempty
      exact ⟨⟨counted, fun _ => nonempty, lent.replyLock⟩, ⟨rfl, rfl⟩⟩

theorem Accounted.msmRpcWrite (accounted : ept.Accounted) (env : WriteEnv) (buffer : List Byte) :
    (ept.msmRpcWrite env buffer).2.2.Accounted := by
  unfold Endpoint.msmRpcWrite
  dsimp only
  split
  · exact accounted
  split
  · split_ifs
    · exact accounted
    · exact accounted
    · exact accounted
    · have same := writeTo_same ept env ept.dstPid ept.dstCid buffer
      exact accounted.of_same same.1 same.2
  split
  · exact accounted
  rename_i reply taken found
  obtain ⟨lent, sameTaken⟩ := accounted.replies.getPendReply found
  have same := writeTo_same taken env reply.pid reply.cid buffer
  have released := fun failed => (same.1.lent lent).writeReleaseLock reply failed
  exact accounted.of_sameReads (released _).1 ((sameTaken.trans same.2).trans (released _).2)

/-! ## Reading -/

theorem RepliesAccounted.getAvailReply (accounted : ept.RepliesAccounted)
    (found : ept.getAvailReply kmalloc = (some reply, after)) :
    after.RepliesLent ∧ SameReads ept after := by
  have count := accounted.replyCnt
  have lock := accounted.replyLock
  unfold Endpoint.getAvailReply at found
  split at found
  · split_ifs at found
    · simp at found
    · obtain ⟨-, rfl⟩ := Prod.mk.inj found
      exact ⟨⟨by simp [count], lock.mpr⟩, ⟨rfl, rfl⟩⟩
    · simp at found
  rename_i first rest isQueue
  obtain ⟨-, rfl⟩ := Prod.mk.inj found
  rw [isQueue, length_cons] at count
  exact ⟨⟨count, lock.mpr⟩, ⟨rfl, rfl⟩⟩

theorem RepliesAccounted.recordCall (accounted : ept.RepliesAccounted) {packet : Packet}
    (recorded : ept.recordCall packet kmalloc = some after) :
    after.RepliesAccounted ∧ SameReads ept after := by
  unfold Endpoint.recordCall at recorded
  dsimp only at recorded
  split at recorded
  · split at recorded
    · simp at recorded
    rename_i reply lender found
    obtain rfl := Option.some.inj recorded
    obtain ⟨lent, same⟩ := accounted.getAvailReply found
    exact ⟨lent.setPendReply _, same.trans ⟨rfl, rfl⟩⟩
  · obtain rfl := Option.some.inj recorded
    exact ⟨accounted, ⟨rfl, rfl⟩⟩

/-- The lock of the read queue may be held too long before it is released. -/
theorem RepliesAccounted.readReleaseLock (accounted : ept.RepliesAccounted)
    (locked : ept.readQWakeLock = true) : ept.readReleaseLock.Accounted := by
  unfold Endpoint.readReleaseLock
  split
  · rename_i empty
    exact ⟨⟨accounted.replyCnt, accounted.replyLock⟩, by simpa using empty⟩
  · rename_i nonempty
    exact ⟨accounted, fun _ => nonempty, fun _ => locked⟩

section

variable (accounted : ept.Accounted)
include accounted

theorem Accounted.readPacket (env : ReadEnv) : (ept.readPacket env).2.2.Accounted := by
  unfold Endpoint.readPacket
  split
  · exact accounted
  rename_i packet rest isQueue
  have locked : ept.readQWakeLock = true := accounted.readLock.mpr (by simp [isQueue])
  have taken : { ept with readQ := rest }.RepliesAccounted :=
    accounted.replies.of_same ⟨rfl, rfl, rfl, rfl⟩
  split
  · exact accounted
  dsimp only
  split
  · exact taken.readReleaseLock locked
  · rename_i after recorded
    obtain ⟨replies, same⟩ := taken.recordCall recorded
    exact replies.readReleaseLock (same.readQWakeLock.trans locked)

theorem Accounted.msmRpcClearNetreset : ept.msmRpcClearNetreset.2.Accounted := by
  have same := ept.clearNtfy_same
  unfold Endpoint.msmRpcClearNetreset
  split
  · exact accounted.of_same same.1 same.2
  · exact accounted

theorem Accounted.msmRpcRead (env : ReadEnv) : (ept.msmRpcRead env).2.2.Accounted := by
  have cleared := accounted.msmRpcClearNetreset
  unfold Endpoint.msmRpcRead
  split
  · rename_i reset isReset
    rw [isReset] at cleared
    exact cleared
  split
  · exact accounted
  · split
    · exact accounted.of_same ⟨rfl, rfl, rfl, rfl⟩ ⟨rfl, rfl⟩
    · exact accounted.readPacket env

/-! ## Restarts -/

theorem Accounted.handleServerRestart (prog vers : Word) :
    (ept.handleServerRestart prog vers).Accounted := by
  unfold Endpoint.handleServerRestart
  split
  · exact accounted.of_same ⟨rfl, rfl, rfl, rfl⟩ ⟨rfl, rfl⟩
  · exact accounted

theorem Accounted.modemResetStartCleanup (noPending : ept.replyPendQ = [])
    (noAvail : ept.replyAvailQ = [])
    (noPackets : ept.dstPid = rpcrouterPidRemote → ept.readQ = []) :
    ept.modemResetStartCleanup.Accounted := by
  have freed : SameReplies ept ept.modemResetStartCleanup := by
    unfold Endpoint.modemResetStartCleanup
    dsimp only
    split <;> exact ⟨noPending.symm, noAvail.symm, rfl, rfl⟩
  refine accounted.of_same freed ?_
  unfold Endpoint.modemResetStartCleanup
  dsimp only
  split
  · rename_i remote
    exact ⟨(noPackets remote).symm, rfl⟩
  · exact ⟨rfl, rfl⟩

end

end Endpoint

/-! ## Histories -/

inductive Op where
  | arrive (frame : Frame) (stale : List Byte)
  | read (env : ReadEnv)
  | write (env : WriteEnv) (buffer : List Byte)
  | wakeup
  | clearNetreset
  | serverRestart (prog vers : Word)
  | modemReset
  deriving DecidableEq, Repr

namespace Endpoint

def step (ept : Endpoint) : Op → Endpoint
  | .arrive frame stale => (doReadData ept frame stale).2
  | .read env => (ept.msmRpcRead env).2.2
  | .write env buffer => (ept.msmRpcWrite env buffer).2.2
  | .wakeup => ept.msmRpcReadWakeup
  | .clearNetreset => ept.msmRpcClearNetreset.2
  | .serverRestart prog vers => ept.handleServerRestart prog vers
  | .modemReset => ept.modemResetStartCleanup

/-- The modem restarts only while the endpoint has no reply records and, where its peer
is on the modem, no packets to read. -/
def Spared (ept : Endpoint) : Op → Prop
  | .modemReset => ept.replyPendQ = [] ∧ ept.replyAvailQ = [] ∧
      (ept.dstPid = rpcrouterPidRemote → ept.readQ = [])
  | _ => True

instance (ept : Endpoint) (op : Op) : Decidable (ept.Spared op) :=
  match op with
  | .modemReset => inferInstanceAs (Decidable (_ ∧ _ ∧ (_ → _)))
  | .arrive .. | .read .. | .write .. | .wakeup | .clearNetreset | .serverRestart .. =>
    inferInstanceAs (Decidable True)

theorem Accounted.step {ept : Endpoint} (accounted : ept.Accounted) {op : Op}
    (spared : ept.Spared op) : (ept.step op).Accounted := by
  cases op with
  | arrive frame stale => exact accounted.doReadData frame stale
  | read env => exact accounted.msmRpcRead env
  | write env buffer => exact accounted.msmRpcWrite env buffer
  | wakeup => exact accounted.of_same ⟨rfl, rfl, rfl, rfl⟩ ⟨rfl, rfl⟩
  | clearNetreset => exact accounted.msmRpcClearNetreset
  | serverRestart prog vers => exact accounted.handleServerRestart prog vers
  | modemReset =>
    obtain ⟨noPending, noAvail, noPackets⟩ := spared
    exact accounted.modemResetStartCleanup noPending noAvail noPackets

/-- After every history in which a restart of the modem finds nothing to clean up, the
counter and both wake locks agree with the queues. -/
theorem accounted_run (cid : Word) (server : Option (Word × Word × Word × Word))
    (uninterruptible : Bool) (ops : List Op) (spared : Run.Admits Endpoint.step Endpoint.Spared
      (createLocalEndpoint cid server uninterruptible) ops) :
    let ept := Run.run Endpoint.step (createLocalEndpoint cid server uninterruptible) ops
    ept.replyCnt = ept.replyPendQ.length + ept.replyAvailQ.length ∧
      (ept.replyQWakeLock = true ↔ ept.replyPendQ ≠ []) ∧
      (ept.readQWakeLock = true ↔ ept.readQ ≠ []) := by
  have created : (createLocalEndpoint cid server uninterruptible).Accounted :=
    ⟨⟨rfl, by simp [createLocalEndpoint]⟩, by simp [createLocalEndpoint]⟩
  have accounted := Run.invariant_run Endpoint.Accounted
    (fun _ _ isAccounted isSpared => isAccounted.step isSpared) created spared
  exact ⟨accounted.replies.replyCnt, accounted.replies.replyLock, accounted.readLock⟩

end Endpoint

/-- A call in one fragment of zeros, from a client on the modem to the endpoint 7. -/
def callFrame : Frame :=
  (Piece.mk (List.replicate 24 0) true true).frame rpcrouterPidRemote 9 rpcrouterPidLocal 7 0 1

def plainRead : ReadEnv :=
  ⟨512, false, .woken, true⟩

def boundEndpoint : Endpoint :=
  createLocalEndpoint 7 (some (rpcrouterPidRemote, 9, 0, 0)) false

theorem accounted_run_call :
    let ept := Run.run Endpoint.step boundEndpoint
      [.modemReset, .arrive callFrame [], .read plainRead, .arrive callFrame []]
    ept.replyCnt = ept.replyPendQ.length + ept.replyAvailQ.length ∧
      (ept.replyQWakeLock = true ↔ ept.replyPendQ ≠ []) ∧
      (ept.readQWakeLock = true ↔ ept.readQ ≠ []) :=
  Endpoint.accounted_run 7 (some (rpcrouterPidRemote, 9, 0, 0)) false _ (by decide +kernel)

/-- A call is read, and another waits to be read, when the modem restarts. The queues
are empty afterwards, but one reply is counted and both wake locks are held. -/
theorem modem_reset_keeps_locks :
    let ept := Run.run Endpoint.step boundEndpoint
      [.arrive callFrame [], .read plainRead, .arrive callFrame [], .modemReset]
    ept.replyCnt = 1 ∧ ept.replyPendQ = [] ∧ ept.replyAvailQ = [] ∧
      ept.replyQWakeLock = true ∧ ept.readQ = [] ∧ ept.readQWakeLock = true := by
  decide +kernel

end StreakKernel.RpcRouter
