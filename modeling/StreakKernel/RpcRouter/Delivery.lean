import StreakKernel.RpcRouter.Accounting

/-!
# Packets that are read

A read takes the first packet off the queue before it looks for the record of the reply. A packet
is lost between the queue and the reader just when it is taken and is empty, or is a call for which
there is no record.
-/

namespace StreakKernel.RpcRouter

namespace Endpoint

/-- `msm_rpc_read`, which returns the bytes of the fragments in one buffer. -/
def msmRpcReadBuffer (ept : Endpoint) (env : ReadEnv) : ℤ × Option (List Byte) × Endpoint :=
  let (rc, fragments, after) := ept.msmRpcRead env
  if rc ≤ 0 then (rc, none, after)
  else (rc, some (fragments.map Fragment.data).flatten, after)

/-- A read that fails leaves the queue as it was, and otherwise the first packet leaves it with
all its fragments. -/
def Conserving (ept : Endpoint) (result : ℤ × List Fragment × Endpoint) : Prop :=
  (result.1 ≤ 0 → result.2.2.readQ = ept.readQ) ∧
    (0 < result.1 → ∃ packet, ept.readQ = packet :: result.2.2.readQ ∧
      result.1 = packet.length.toInt ∧ result.2.1 = packet.fragments)

/-- Likewise, and the caller gets the bytes of the packet. -/
def Conserves (ept : Endpoint) (env : ReadEnv) : Prop :=
  ept.Conserving (ept.msmRpcRead env) ∧
    ∀ packet, ept.readQ = packet :: (ept.msmRpcRead env).2.2.readQ →
      (ept.msmRpcReadBuffer env).2.1 = some (packet.fragments.map Fragment.data).flatten

/-- A reply can be recorded: a record is free, or there may be another one and there is memory
for it. -/
def Recordable (ept : Endpoint) (env : ReadEnv) : Prop :=
  ept.replyAvailQ ≠ [] ∨ ept.replyCnt < rpcrouterPendRepliesMax ∧ env.kmalloc = true

/-- The read comes to the queue, and the first packet fits into the buffer. -/
def Takes (ept : Endpoint) (env : ReadEnv) (packet : Packet) : Prop :=
  ept.restartState = restartNormal ∧ ept.waitError env = none ∧ ept.forcedWakeup = false ∧
    ept.readQ.head? = some packet ∧ packet.length ≤ env.len

/-- A packet of type 0 that is long enough for the header of a request. -/
def IsCall (packet : Packet) : Prop :=
  12 ≤ packet.length.toNat ∧ (requestHdr (packet.first.data ++ packet.first.stale)).type = 0

/-- A packet that is taken has a length that is positive as an `int`, and if it is a call then a
reply can be recorded. -/
def Readable (ept : Endpoint) (env : ReadEnv) : Prop :=
  ∀ packet, ept.Takes env packet →
    0 < packet.length.toInt ∧ (IsCall packet → ept.Recordable env)

variable {ept : Endpoint} {env : ReadEnv} {packet : Packet}

theorem getAvailReply_cases (ept : Endpoint) (env : ReadEnv) :
    (ept.Recordable env ∧ ∃ reply after, ept.getAvailReply env.kmalloc = (some reply, after) ∧
      after.readQ = ept.readQ) ∨
    ¬ept.Recordable env ∧ ∃ after, ept.getAvailReply env.kmalloc = (none, after) := by
  unfold Endpoint.getAvailReply Recordable
  split
  · next isQueue =>
    split_ifs with many memory
    · exact .inr ⟨by simp [isQueue, Nat.not_lt.mpr many], _, rfl⟩
    · exact .inl ⟨.inr ⟨Nat.not_le.mp many, memory⟩, _, _, rfl, rfl⟩
    · exact .inr ⟨by simp [isQueue, memory], _, rfl⟩
  · next isQueue => exact .inl ⟨.inl (by simp [isQueue]), _, _, rfl, rfl⟩

theorem recordCall_cases (ept : Endpoint) (env : ReadEnv) (packet : Packet) :
    ((IsCall packet → ept.Recordable env) ∧
      ∃ after, ept.recordCall packet env.kmalloc = some after ∧ after.readQ = ept.readQ) ∨
    ¬(IsCall packet → ept.Recordable env) ∧ ept.recordCall packet env.kmalloc = none := by
  unfold recordCall
  dsimp only
  split
  · next isCall =>
    rcases ept.getAvailReply_cases env with
      ⟨recordable, reply, after, isReply, sameQueue⟩ | ⟨notRecordable, after, isReply⟩
    · rw [isReply]
      exact .inl ⟨fun _ => recordable, _, rfl, sameQueue⟩
    · rw [isReply]
      exact .inr ⟨fun recordable => notRecordable (recordable isCall), rfl⟩
  · next notCall => exact .inl ⟨fun isCall => absurd isCall notCall, ept, rfl, rfl⟩

theorem readQ_readReleaseLock (ept : Endpoint) : ept.readReleaseLock.readQ = ept.readQ := by
  unfold readReleaseLock
  split <;> rfl

theorem conserving_of_failure {rc : ℤ} {fragments : List Fragment} {after : Endpoint}
    (failed : rc ≤ 0) (sameQueue : after.readQ = ept.readQ) :
    ept.Conserving (rc, fragments, after) :=
  ⟨fun _ => sameQueue, fun pos => absurd failed (Int.not_le.mpr pos)⟩

/-- A packet that is taken leaves the queue, whether the read then succeeds or not. -/
theorem Takes.msmRpcRead (takes : ept.Takes env packet) :
    ept.Conserving (ept.msmRpcRead env) ↔
      0 < packet.length.toInt ∧ (IsCall packet → ept.Recordable env) := by
  rcases takes with ⟨normal, noError, notForced, isFirst, fits⟩
  obtain ⟨rest, isQueue⟩ := List.head?_eq_some_iff.mp isFirst
  have isRead : ept.msmRpcRead env = ept.readPacket env := by
    simp [Endpoint.msmRpcRead, msmRpcClearNetreset, normal, noError, notForced]
  have lost : rest ≠ ept.readQ := by
    rw [isQueue]
    exact (List.cons_ne_self packet rest).symm
  rw [isRead, readPacket, isQueue]
  simp only [BitVec.not_lt.mpr fits, if_false]
  rcases recordCall_cases { ept with readQ := rest } env packet with
    ⟨recordable, after, isRecorded, sameQueue⟩ | ⟨notRecordable, isRecorded⟩
  · simp only [isRecorded]
    have leaves : after.readReleaseLock.readQ = rest := by rw [readQ_readReleaseLock, sameQueue]
    refine ⟨fun conserving => ⟨?_, recordable⟩, fun fine => ⟨fun failed => ?_, fun _ => ?_⟩⟩
    · by_contra failed
      exact lost (leaves.symm.trans (conserving.1 (Int.not_lt.mp failed)))
    · exact absurd fine.1 (Int.not_lt.mpr failed)
    · exact ⟨packet, by rw [leaves, isQueue], rfl, rfl⟩
  · simp only [isRecorded]
    refine iff_of_false (fun conserving => lost ?_) fun fine => notRecordable fine.2
    rw [← conserving.1 (show -enomem ≤ 0 by decide), readQ_readReleaseLock]

theorem msmRpcRead_of_not_takes (notTaken : ∀ packet, ¬ept.Takes env packet) :
    ept.Conserving (ept.msmRpcRead env) := by
  unfold Endpoint.msmRpcRead msmRpcClearNetreset
  split
  · next isReset =>
    split_ifs at isReset
    · rw [← (Prod.mk.inj isReset).2]
      exact conserving_of_failure (by decide) rfl
    · exact conserving_of_failure (by decide) ((Prod.mk.inj isReset).2 ▸ rfl)
  next isNormal =>
  split
  · next error waits =>
    refine conserving_of_failure ?_ rfl
    unfold waitError at waits
    split_ifs at waits
    all_goals exact Option.some.inj waits ▸ by decide
  next noError =>
  split
  · exact conserving_of_failure le_rfl rfl
  next notForced =>
  unfold Endpoint.readPacket
  split
  · exact conserving_of_failure (by decide) rfl
  next packet rest isQueue =>
  split
  · exact conserving_of_failure (by decide) rfl
  next fits =>
  have normal : ept.restartState = restartNormal := by
    by_contra restarted
    rw [if_pos restarted] at isNormal
    exact Bool.noConfusion (Prod.mk.inj isNormal).1
  exact absurd ⟨normal, noError, by simpa using notForced, by rw [isQueue]; rfl,
    BitVec.not_lt.mp fits⟩ (notTaken packet)

/-- A read loses nothing just when the packet that it takes, if any, is not empty and finds a record
if it is a call. -/
theorem conserves_iff (ept : Endpoint) (env : ReadEnv) :
    ept.Conserves env ↔ ept.Readable env := by
  have isConserving : ept.Conserving (ept.msmRpcRead env) ↔ ept.Readable env := by
    by_cases taken : ∃ packet, ept.Takes env packet
    · rcases taken with ⟨packet, takes⟩
      refine takes.msmRpcRead.trans ⟨fun fine other otherTakes => ?_, fun fine => fine packet takes⟩
      obtain rfl := Option.some.inj (takes.2.2.2.1.symm.trans otherTakes.2.2.2.1)
      exact fine
    · have never := not_exists.mp taken
      exact iff_of_true (msmRpcRead_of_not_takes never)
        fun packet takes => absurd takes (never packet)
  rw [← isConserving]
  refine ⟨And.left, fun conserving => ⟨conserving, fun packet isQueue => ?_⟩⟩
  have pos : ¬(ept.msmRpcRead env).1 ≤ 0 := by
    intro failed
    have := conserving.1 failed
    rw [isQueue] at this
    exact absurd this (List.cons_ne_self packet _).symm
  rcases conserving.2 (Int.not_le.mp pos) with ⟨first, isFirst, _, isWhole⟩
  have isPacket : first = packet := (List.cons.inj (isFirst.symm.trans isQueue)).1
  unfold msmRpcReadBuffer
  dsimp only
  rw [if_neg pos, isWhole, isPacket]

end Endpoint

def calledEndpoint : Endpoint := Run.run Endpoint.step boundEndpoint [.arrive callFrame []]

/-- There is no memory for the record of the reply: the read fails, and the call is gone. -/
theorem call_lost : ¬calledEndpoint.Conserves { plainRead with kmalloc := false } := by
  intro conserves
  have failed : (calledEndpoint.msmRpcRead { plainRead with kmalloc := false }).1 ≤ 0 := by
    decide +kernel
  have lost : (calledEndpoint.msmRpcRead { plainRead with kmalloc := false }).2.2.readQ ≠
      calledEndpoint.readQ := by decide +kernel
  exact lost (conserves.1.1 failed)

end StreakKernel.RpcRouter
