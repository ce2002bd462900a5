import StreakKernel.Datamover.Basic

/-!
# The order of the commands

The commands of a channel are completed, active and ready in the order in which they were enqueued,
as long as no command is started past others that are ready.
-/

namespace StreakKernel.Datamover

open List

namespace Chan

variable {chan : Chan}

structure Sound (chan : Chan) : Prop where
  order : chan.written ++ chan.ready = List.range chan.count
  started : chan.completed ++ chan.active = chan.written
  results : chan.completed.length ≤ chan.results
  bit : chan.active ≠ [] → chan.isActive = true
  fault : chan.fault = false

def Single (round : Round) : Prop :=
  round.done.toNat + round.flush.toNat + round.error.toNat ≤ 1
  deriving Decidable

/-- There is one result for each command that has been started. -/
def Plausible : Chan → List Round → Prop
  | _, [] => True
  | chan, round :: rest => chan.results < chan.written.length ∧ Plausible (chan.round round) rest

instance Plausible.decidable : ∀ chan rounds, Decidable (Plausible chan rounds)
  | _, [] => isTrue trivial
  | chan, round :: rest =>
    haveI := Plausible.decidable (chan.round round) rest
    inferInstanceAs (Decidable (_ ∧ _))

theorem answer_single {round : Round} (single : Single round) {cmd : ℕ} {rest : List ℕ}
    (isActive : chan.active = cmd :: rest) (fresh : cmd ∉ rest) :
    chan.answer round = chan ∨
      chan.answer round = { chan with active := rest, completed := chan.completed ++ [cmd] } := by
  rcases round with ⟨done, flush, error, ready⟩
  revert single
  cases done <;> cases flush <;> cases error <;> simp [Single, answer, complete, isActive, fresh]

section

variable (sound : chan.Sound)
include sound

theorem Sound.start (isActive : chan.isActive = true) : chan.start.Sound := by
  unfold Chan.start
  split
  · exact sound
  next cmd rest isReady =>
    refine ⟨?_, ?_, sound.results, fun _ => isActive, sound.fault⟩
    · simpa [isReady] using sound.order
    · simp [← sound.started]

theorem Sound.answer {round : Round} (single : Single round)
    (outstanding : chan.results < chan.written.length) :
    Sound ({ chan with results := chan.results + 1 }.answer round) ∧
      ({ chan with results := chan.results + 1 }.answer round).isActive = true := by
  have ordered := sound.order
  have started := sound.started
  have results := sound.results
  cases isActive : chan.active with
  | nil =>
    simp only [← started, isActive, append_nil] at outstanding
    omega
  | cons cmd rest =>
    have bit : chan.isActive = true := sound.bit (by simp [isActive])
    have fresh : cmd ∉ rest := by
      have nodup : (chan.written ++ chan.ready).Nodup := ordered ▸ nodup_range
      simp only [← started, isActive, nodup_append, nodup_cons] at nodup
      exact nodup.1.2.1.1
    rw [isActive] at started
    rcases @answer_single { chan with active := cmd :: rest, results := chan.results + 1 } _ single
      _ _ rfl fresh with same | next
    · rw [same]
      exact ⟨⟨ordered, started, Nat.le_succ_of_le results, fun _ => bit, sound.fault⟩, bit⟩
    rw [next]
    refine ⟨⟨ordered, ?_, ?_, fun _ => bit, sound.fault⟩, bit⟩
    · simpa using started
    · simpa using results

theorem Sound.round {round : Round} (single : Single round)
    (outstanding : chan.results < chan.written.length) : (chan.round round).Sound := by
  rcases sound.answer single outstanding with ⟨answered, bit⟩
  unfold Chan.round
  dsimp only
  split
  · exact answered.start bit
  · exact answered

theorem Sound.rounds {rounds : List Round} (single : ∀ round ∈ rounds, Single round)
    (possible : Plausible chan rounds) : (rounds.foldl Chan.round chan).Sound := by
  induction rounds generalizing chan with
  | nil => exact sound
  | cons round rest ih =>
    have next := sound.round (single round mem_cons_self) possible.1
    exact ih next (fun other mem => single other (mem_cons_of_mem _ mem)) possible.2

theorem Sound.visit {rounds : List Round} (single : ∀ round ∈ rounds, Single round)
    (possible : Plausible chan rounds) : (chan.visit rounds).Sound := by
  have later := sound.rounds single possible
  unfold Chan.visit
  split
  · exact sound
  dsimp only
  split
  · next empty =>
      exact ⟨later.order, later.started, later.results, fun nonempty => absurd empty.1 nonempty,
        later.fault⟩
  · exact later

end

theorem Sound.enqueue (sound : chan.Sound) {cmdPtrRdy : Bool}
    (inOrder : cmdPtrRdy = true → chan.ready = []) : (chan.enqueue cmdPtrRdy).Sound := by
  have ordered := sound.order
  unfold Chan.enqueue
  split
  · next isReady =>
      refine ⟨?_, ?_, sound.results, fun _ => rfl, sound.fault⟩
      · simp only [inOrder isReady, append_nil] at ordered ⊢
        rw [ordered, range_succ]
      · simp [← sound.started]
  · refine ⟨?_, sound.started, sound.results, sound.bit, sound.fault⟩
    dsimp only
    rw [← append_assoc, ordered, range_succ]

end Chan

namespace Device

variable {device : Device}

structure Sound (device : Device) : Prop where
  chans : ∀ ch, (device.chans ch).Sound
  irq : device.irqEnabled = true → device.Active
  gated : device.Active → device.clkCtl = .en
  clock : device.clkCtl ≠ .dis → device.clockOn = true
  bug : device.bug = false

/-- A command starts at once only if none is ready on its channel, and each started command gets
one result, with at most one flag. -/
def Orderly (device : Device) : Request → Prop
  | .enqueue ch cmdPtrRdy clkOk =>
    (cmdPtrRdy = true → (device.chans ch).ready = []) ∧ (device.clkCtl = .dis → clkOk = true)
  | .irq rounds => ∀ ch, (∀ round ∈ rounds ch, Chan.Single round) ∧
      Chan.Plausible (device.chans ch) (rounds ch)
  | .timer => True

instance (device : Device) : ∀ request, Decidable (device.Orderly request)
  | .enqueue _ _ _ => inferInstanceAs (Decidable (_ ∧ _))
  | .irq _ => inferInstanceAs (Decidable (∀ _, _))
  | .timer => isTrue trivial

theorem sound_initial : initial.Sound := by
  refine ⟨fun ch => ⟨rfl, rfl, le_refl 0, fun nonempty => absurd rfl nonempty, rfl⟩,
    ?_, ?_, ?_, rfl⟩
  · simp [initial]
  · simp [initial, Active]
  · simp [initial]

theorem Sound.enqueue (sound : device.Sound) {ch : Channel} {cmdPtrRdy clkOk : Bool}
    (inOrder : cmdPtrRdy = true → (device.chans ch).ready = [])
    (enables : device.clkCtl = .dis → clkOk = true) :
    (device.enqueue ch cmdPtrRdy clkOk).Sound := by
  have running : (if device.clkCtl = .dis then clkOk else device.clockOn) = true := by
    split
    · next isDis => exact enables isDis
    · next notDis => exact sound.clock notDis
  have active : (device.enqueue ch cmdPtrRdy clkOk).Active ↔ cmdPtrRdy = true ∨ device.Active := by
    cases cmdPtrRdy with
    | false =>
      have same : ∀ other, ((device.enqueue ch false clkOk).chans other).isActive =
          (device.chans other).isActive := by
        intro other
        by_cases isCh : other = ch
        · subst isCh
          simp [Device.enqueue, Chan.enqueue]
        · simp [Device.enqueue, isCh]
      simp [Active, same]
    | true => exact ⟨fun _ => .inl rfl, fun _ => ⟨ch, by simp [Device.enqueue, Chan.enqueue]⟩⟩
  refine ⟨?_, ?_, ?_, fun _ => running, sound.bug⟩
  · intro other
    by_cases same : other = ch
    · subst same
      simpa [Device.enqueue] using (sound.chans other).enqueue inOrder
    · simpa [Device.enqueue, same] using sound.chans other
  · intro enabled
    rw [active]
    by_cases isActive : device.Active
    · exact .inr isActive
    · simp only [Device.enqueue, Bool.or_eq_true, Bool.and_eq_true] at enabled
      exact enabled.elim (fun before => .inr (sound.irq before)) fun now => .inl now.1
  intro isActive
  rw [active] at isActive
  refine if_neg fun idle => ?_
  rcases isActive with isReady | isActive
  · simp [isReady] at idle
  · exact idle.2 isActive

theorem Sound.irqHandler (sound : device.Sound) {rounds : Channel → List Round}
    (isActive : device.Active) (orderly : ∀ ch, (∀ round ∈ rounds ch, Chan.Single round) ∧
      Chan.Plausible (device.chans ch) (rounds ch)) : (device.irqHandler rounds).Sound := by
  have visits := fun ch => (sound.chans ch).visit (orderly ch).1 (orderly ch).2
  have running := sound.clock (by simp [sound.gated isActive])
  unfold Device.irqHandler
  dsimp only
  split
  · next stays =>
      exact ⟨visits, fun _ => stays, fun _ => sound.gated isActive, fun _ => running, sound.bug⟩
  · next idle =>
      exact ⟨visits, by simp, fun active => absurd active idle, fun _ => running, sound.bug⟩

theorem Sound.timerFunc (sound : device.Sound) : device.timerFunc.Sound := by
  unfold Device.timerFunc
  split
  · next toBeDis =>
      have idle : ¬device.Active := fun active => by simp [sound.gated active] at toBeDis
      rw [if_neg idle]
      exact ⟨sound.chans, sound.irq, fun active => absurd active idle, by simp, sound.bug⟩
  · exact sound

theorem Sound.step (sound : device.Sound) (request : Request) (orderly : device.Orderly request) :
    (device.step request).Sound := by
  cases request with
  | enqueue ch cmdPtrRdy clkOk => exact sound.enqueue orderly.1 orderly.2
  | irq rounds =>
    unfold Device.step
    dsimp only
    split
    · next enabled => exact sound.irqHandler (sound.irq enabled) orderly
    · exact sound
  | timer => exact sound.timerFunc

/-- Commands are written in the order they were enqueued in on their channel and completed at most
once, after their start; the clock is on while a channel is active. -/
structure InOrder (device : Device) : Prop where
  order : ∀ ch, (device.chans ch).written ++ (device.chans ch).ready =
    List.range (device.chans ch).count
  once : ∀ ch, (device.chans ch).completed.Nodup
  started : ∀ ch, ∀ cmd ∈ (device.chans ch).completed, cmd ∈ (device.chans ch).written
  bit : ∀ ch, (device.chans ch).active ≠ [] → (device.chans ch).isActive = true
  fault : ∀ ch, (device.chans ch).fault = false
  clock : device.Active → device.clockOn = true
  bug : device.bug = false

theorem Sound.inOrder (sound : device.Sound) : device.InOrder where
  order ch := (sound.chans ch).order
  once ch := by
    have nodup : ((device.chans ch).written ++ (device.chans ch).ready).Nodup :=
      (sound.chans ch).order ▸ nodup_range
    rw [← (sound.chans ch).started, append_assoc] at nodup
    exact (nodup_append.mp nodup).1
  started ch cmd isCompleted := by
    rw [← (sound.chans ch).started]
    exact mem_append_left _ isCompleted
  bit ch := (sound.chans ch).bit
  fault ch := (sound.chans ch).fault
  clock active := sound.clock (by simp [sound.gated active])
  bug := sound.bug

theorem inOrder_of_orderly {requests : List Request}
    (orderly : Run.Admits Device.step Orderly initial requests) :
    (Run.run Device.step initial requests).InOrder :=
  (Run.invariant_run Sound (fun _ request sound meets => sound.step request meets)
    sound_initial orderly).inOrder

/-- A command that has to wait is started by the interrupt that completes the one before it. -/
def twoCommands : List Request :=
  [.enqueue 3 true true, .enqueue 3 false true,
    .irq fun ch => if ch = 3 then [⟨true, false, false, true⟩] else [], .timer]

theorem inOrder_twoCommands : ((Run.run Device.step initial twoCommands).chans 3).written = [0, 1] ∧
      (Run.run Device.step initial twoCommands).InOrder :=
  ⟨by decide +kernel, inOrder_of_orderly (by decide +kernel)⟩

/-- A command that is enqueued when the hardware has become ready overtakes one that waits; and a
result with two flags has a command taken off its list twice. -/
theorem not_inOrder :
    ¬(Run.run Device.step initial [.enqueue 3 false true, .enqueue 3 true true]).InOrder ∧
      ¬(Run.run Device.step initial [.enqueue 3 true true,
        .irq fun ch => if ch = 3 then [⟨true, true, false, true⟩] else []]).InOrder := by
  constructor
  · intro inOrder
    exact absurd (inOrder.order 3) (by decide +kernel)
  · intro inOrder
    exact absurd (inOrder.fault 3) (by decide +kernel)

end Device

end StreakKernel.Datamover
