import StreakKernel.Kgsl.RingBuffer

/-!
# The ring is never overrun

What is pending goes from the read pointer to the write pointer, either directly or by way of a NOP
packet that reaches the end of the ring. In the second case the write pointer stays below the read
pointer.
-/

namespace StreakKernel.Kgsl

open List Word

variable {ring : Ring} {state : State} {limit reach nop numcmds : ℕ}

def Commands (memory : ℕ → Dword) (start stop : ℕ) : Prop :=
  ∀ offset, start ≤ offset → offset < stop → memory offset = .command

structure Ahead (state : State) (limit : ℕ) : Prop where
  le : state.rptr ≤ limit
  pending : state.pending = List.range' state.rptr (limit - state.rptr)
  commands : Commands state.memory state.rptr limit

/-- The GPU has the packet at `nop` before it and then all up to `limit`. The dwords up to `reach`
have been handed out. -/
structure Behind (ring : Ring) (state : State) (limit reach nop : ℕ) : Prop where
  le_reach : limit ≤ reach
  reach_lt : reach < state.rptr
  le_nop : state.rptr ≤ nop
  nop_lt : nop + 2 ≤ ring.sizedwords
  pending : state.pending = List.range' state.rptr (nop + 1 - state.rptr) ++ List.range' 0 limit
  commands : Commands state.memory state.rptr nop
  front : Commands state.memory 0 limit
  isNop : state.memory nop = .nop (ring.sizedwords - nop - 1)

def Flow (ring : Ring) (state : State) (limit reach nop : ℕ) : Prop :=
  Ahead state limit ∨ Behind ring state limit reach nop

theorem Flow.congr {next : State} (flow : Flow ring state limit reach nop)
    (sameRptr : next.rptr = state.rptr) (sameMemory : next.memory = state.memory)
    (samePending : next.pending = state.pending) : Flow ring next limit reach nop := by
  rcases next with ⟨_, _, _, _, _, _⟩
  subst sameRptr sameMemory samePending
  rcases flow with ahead | behind
  · exact .inl ⟨ahead.le, ahead.pending, ahead.commands⟩
  · exact .inr ⟨behind.le_reach, behind.reach_lt, behind.le_nop, behind.nop_lt, behind.pending,
      behind.commands, behind.front, behind.isNop⟩

/-! ## The GPU -/

theorem range_eq_cons {start stop : ℕ} (less : start < stop) :
    range' start (stop - start) = start :: range' (start + 1) (stop - (start + 1)) := by
  rw [show stop - start = stop - (start + 1) + 1 by omega, range'_succ]

theorem range_append {start middle stop : ℕ} (first : start ≤ middle) (second : middle ≤ stop) :
    range' start (middle - start) ++ range' middle (stop - middle) =
      range' start (stop - start) := by
  have joined := @range'_append_1 start (middle - start) (stop - middle)
  rwa [Nat.add_sub_cancel' first, show middle - start + (stop - middle) = stop - start by omega]
    at joined

theorem Ahead.consume (ahead : Ahead state limit) (small : limit + 2 ≤ ring.sizedwords) :
    Ahead (state.consume ring) limit := by
  have le := ahead.le
  have isPending := ahead.pending
  rcases Nat.eq_or_lt_of_le le with same | less
  · have nothing : state.pending = [] := by simp [isPending, same]
    simpa [State.consume, nothing] using ahead
  rw [range_eq_cons less] at isPending
  have isCommand := ahead.commands state.rptr (le_refl _) less
  have inside : state.rptr + 1 ≠ ring.sizedwords := by omega
  have stepped : state.consume ring = { state with
        rptr := state.rptr + 1
        pending := range' (state.rptr + 1) (limit - (state.rptr + 1)) } := by
    simp [State.consume, isPending, isCommand, inside]
  rw [stepped]
  exact ⟨less, rfl, fun offset low => ahead.commands offset (Nat.le_of_succ_le low)⟩

theorem Behind.consume (behind : Behind ring state limit reach nop) :
    Flow ring (state.consume ring) limit reach nop := by
  have reachLt := behind.reach_lt
  have nopLt := behind.nop_lt
  have isPending := behind.pending
  rw [range_eq_cons (Nat.lt_succ_of_le behind.le_nop), cons_append] at isPending
  rcases Nat.eq_or_lt_of_le behind.le_nop with same | less
  · have isNop := behind.isNop
    have atEnd : nop + 1 + (ring.sizedwords - nop - 1) = ring.sizedwords := by omega
    have stepped : state.consume ring =
        { state with rptr := 0, pending := range' 0 limit } := by
      simp [State.consume, isPending, same, isNop, atEnd]
    rw [stepped]
    exact Or.inl ⟨Nat.zero_le _, rfl, behind.front⟩
  have isCommand := behind.commands state.rptr (Nat.le_refl _) less
  have inside : state.rptr + 1 ≠ ring.sizedwords := by omega
  have stepped : state.consume ring = { state with
        rptr := state.rptr + 1
        pending := range' (state.rptr + 1) (nop + 1 - (state.rptr + 1)) ++
          range' 0 limit } := by
    simp [State.consume, isPending, isCommand, inside]
  rw [stepped]
  exact .inr ⟨behind.le_reach, Nat.lt_succ_of_lt reachLt, less, nopLt, rfl,
    fun offset low => behind.commands offset (Nat.le_of_succ_le low), behind.front, behind.isNop⟩

theorem Flow.consume (flow : Flow ring state limit reach nop)
    (small : limit + 2 ≤ ring.sizedwords) : Flow ring (state.consume ring) limit reach nop := by
  rcases flow with ahead | behind
  · exact .inl (ahead.consume small)
  · exact behind.consume

theorem consume_same (ring : Ring) (state : State) : ∃ rptr pending,
    state.consume ring = { state with rptr := rptr, pending := pending } := by
  unfold State.consume
  split
  · exact ⟨_, _, rfl⟩
  · split
    all_goals exact ⟨_, _, rfl⟩

/-! ## The driver -/

structure Quiet (ring : Ring) (state : State) (nop : ℕ) : Prop where
  submitted : state.submitted = state.wptr
  bound : state.wptr + 2 ≤ ring.sizedwords
  flow : Flow ring state state.wptr state.wptr nop

def Good (ring : Ring) (state : State) : Prop :=
  match state.phase with
  | .idle => ∃ nop, Quiet ring state nop
  | .waitNonzero numcmds =>
    numcmds + 2 ≤ ring.sizedwords ∧ state.submitted = state.wptr ∧
      state.wptr + 2 ≤ ring.sizedwords ∧ Ahead state state.wptr ∧
        state.memory state.wptr = .nop (ring.sizedwords - state.wptr - 1)
  | .nopSubmitted numcmds =>
    numcmds + 2 ≤ ring.sizedwords ∧ ∃ nop, state.wptr = nop + 1 ∧ Flow ring state 0 0 nop
  | .waitFree numcmds checks =>
    numcmds + 2 ≤ ring.sizedwords ∧ (checks = false → state.wptr = 0) ∧ ∃ nop, Quiet ring state nop
  | .handedOut start numcmds =>
    state.submitted = start ∧ state.wptr = start + numcmds ∧ state.wptr + 2 ≤ ring.sizedwords ∧
      Commands state.memory start state.wptr ∧ ∃ nop, Flow ring state start state.wptr nop
  | .bug => ∃ nop, Quiet ring state nop

theorem Quiet.consume (quiet : Quiet ring state nop) : Quiet ring (state.consume ring) nop := by
  have flow := quiet.flow.consume quiet.bound
  rcases consume_same ring state with ⟨rptr, pending, isNext⟩
  rw [isNext] at flow ⊢
  exact ⟨quiet.submitted, quiet.bound, flow⟩

theorem Good.consume (good : Good ring state) : Good ring (state.consume ring) := by
  have flows := @Flow.consume ring state
  have aheads := @Ahead.consume ring state
  have quiets := @Quiet.consume ring state
  have sized := ring.two_le
  rcases consume_same ring state with ⟨rptr, pending, isNext⟩
  rw [isNext] at flows aheads quiets ⊢
  rcases state with ⟨wptr, _, memory, submitted, _, phase⟩
  cases phase with
  | idle | bug => exact Exists.imp (fun _ => quiets) good
  | waitNonzero numcmds =>
    rcases good with ⟨few, isSubmitted, bound, ahead, isNop⟩
    exact ⟨few, isSubmitted, bound, aheads ahead bound, isNop⟩
  | nopSubmitted numcmds =>
    rcases good with ⟨few, nop, isWptr, flow⟩
    exact ⟨few, nop, isWptr, flows flow sized⟩
  | waitFree numcmds checks =>
    rcases good with ⟨few, wrapped, nop, quiet⟩
    exact ⟨few, wrapped, nop, quiets quiet⟩
  | handedOut start numcmds =>
    rcases good with ⟨isSubmitted, isWptr, bound, commands, nop, flow⟩
    refine ⟨isSubmitted, isWptr, bound, commands, nop, flows flow ?_⟩
    omega

theorem Quiet.handOut (quiet : Quiet ring state nop)
    (bound : state.wptr + numcmds + 2 ≤ ring.sizedwords)
    (free : Behind ring state state.wptr state.wptr nop → state.wptr + numcmds < state.rptr) :
    Good ring (state.handOut numcmds) := by
  have fits := ring.fits
  have isWptr : add state.wptr numcmds = state.wptr + numcmds := add_eq (by omega)
  have keeps : ∀ {start stop}, Commands state.memory start stop →
      Commands (state.handOut numcmds).memory start stop := by
    intro start stop commands offset low high
    simp only [State.handOut]
    split
    · rfl
    · exact commands offset low high
  refine ⟨quiet.submitted, isWptr, ?_, ?_, nop, ?_⟩
  · simpa [State.handOut, isWptr] using bound
  · intro offset low high
    simp only [State.handOut, isWptr] at high ⊢
    exact if_pos ⟨low, high⟩
  rcases quiet.flow with ahead | behind
  · exact .inl ⟨ahead.le, ahead.pending, keeps ahead.commands⟩
  have below := free behind
  have leNop := behind.le_nop
  refine .inr ⟨?_, ?_, leNop, behind.nop_lt, behind.pending, keeps behind.commands,
    keeps behind.front, ?_⟩
  · simp [State.handOut, isWptr]
  · simpa [State.handOut, isWptr] using below
  · have outside : ¬(state.wptr ≤ nop ∧ nop < state.wptr + numcmds) := by omega
    simpa [State.handOut, outside] using behind.isNop

theorem Quiet.fillWithNop (quiet : Quiet ring state nop) (few : numcmds + 2 ≤ ring.sizedwords)
    (ahead : Ahead state state.wptr) : Good ring (state.fillWithNop ring numcmds) := by
  refine ⟨few, quiet.submitted, quiet.bound, ⟨ahead.le, ahead.pending, ?_⟩,
    by simp [State.fillWithNop]⟩
  intro offset low high
  have ne : offset ≠ state.wptr := ne_of_lt high
  simpa [State.fillWithNop, ne] using ahead.commands offset low high

theorem tooLong_iff (bound : state.wptr + 2 ≤ ring.sizedwords)
    (few : numcmds + 2 ≤ ring.sizedwords) :
    state.tooLong ring numcmds ↔ ring.sizedwords < state.wptr + numcmds + 2 := by
  have fits := ring.fits
  rw [State.tooLong, add_eq (by omega), sub_eq ring.two_le (by omega)]
  omega

section Waits

variable (quiet : Quiet ring state nop) (few : numcmds + 2 ≤ ring.sizedwords)
include quiet few

theorem Quiet.checkRemaining
    (free : Behind ring state state.wptr state.wptr nop → state.wptr + numcmds < state.rptr) :
    Good ring (state.checkRemaining ring numcmds) := by
  unfold State.checkRemaining
  simp only [tooLong_iff quiet.bound few]
  split
  · next tooLong =>
      refine quiet.fillWithNop few ?_
      rcases quiet.flow with ahead | behind
      · exact ahead
      have below := free behind
      have leNop := behind.le_nop
      have nopLt := behind.nop_lt
      omega
  · next fitsIn => exact quiet.handOut (by omega) free

theorem Quiet.allocspace : Good ring (state.allocspace ring numcmds) := by
  have fits := ring.fits
  have bound := quiet.bound
  unfold State.allocspace
  rw [if_neg (by omega), add_eq (by omega)]
  split
  · next isAhead =>
      refine quiet.checkRemaining few fun behind => ?_
      have reachLt := behind.reach_lt
      omega
  · split
    · exact ⟨few, by simp, nop, quiet.submitted, bound, quiet.flow.congr rfl rfl rfl⟩
    · next free => exact quiet.checkRemaining few fun _ => by omega

theorem Quiet.waitFree {checks : Bool} (wrapped : checks = false → state.wptr = 0)
    (leaves : ¬(sub state.rptr state.wptr ≠ 0 ∧ sub state.rptr state.wptr ≤ numcmds)) :
    Good ring (if checks then state.checkRemaining ring numcmds else state.handOut numcmds) := by
  have fits := ring.fits
  have free : Behind ring state state.wptr state.wptr nop → state.wptr + numcmds < state.rptr := by
    intro behind
    have reachLt := behind.reach_lt
    have leNop := behind.le_nop
    have nopLt := behind.nop_lt
    have space : sub state.rptr state.wptr = state.rptr - state.wptr := sub_eq (by omega) (by omega)
    omega
  split
  · exact quiet.checkRemaining few free
  next unchecked =>
    refine quiet.handOut ?_ free
    have atStart := wrapped (Bool.eq_false_iff.mpr unchecked)
    omega

end Waits

theorem Ahead.submitNop (ahead : Ahead state state.wptr)
    (isSubmitted : state.submitted = state.wptr) (bound : state.wptr + 2 ≤ ring.sizedwords)
    (few : numcmds + 2 ≤ ring.sizedwords)
    (isNop : state.memory state.wptr = .nop (ring.sizedwords - state.wptr - 1))
    (nonzero : state.rptr ≠ 0) :
    Good ring ({ state with wptr := add state.wptr 1 }.submit (.nopSubmitted numcmds)) := by
  have fits := ring.fits
  have le := ahead.le
  rw [add_eq (by omega), State.submit, if_neg (by simp)]
  refine ⟨few, state.wptr, rfl, Or.inr ⟨Nat.le_refl _, Nat.pos_of_ne_zero nonzero, le, bound, ?_,
    ahead.commands, fun offset _ high => absurd high (Nat.not_lt_zero _), isNop⟩⟩
  simp only [ahead.pending, isSubmitted, range'_zero, append_nil]
  exact range_append le (Nat.le_succ _)

theorem Flow.submit {start : ℕ} (flow : Flow ring state start state.wptr nop)
    (isSubmitted : state.submitted = start) (isWptr : state.wptr = start + numcmds)
    (bound : state.wptr + 2 ≤ ring.sizedwords) (commands : Commands state.memory start state.wptr) :
    Good ring (state.submit .idle) := by
  have joins : ∀ {first}, Commands state.memory first start →
      Commands state.memory first state.wptr := by
    intro first before offset low high
    rcases lt_or_ge offset start with less | ge
    · exact before offset low less
    · exact commands offset ge high
  unfold State.submit
  split
  · next atStart =>
      have nothing : start = state.wptr := by omega
      rw [nothing] at flow isSubmitted
      exact ⟨nop, isSubmitted, bound, flow.congr rfl rfl rfl⟩
  refine ⟨nop, rfl, bound, ?_⟩
  rcases flow with ahead | behind
  · have le := ahead.le
    refine .inl ⟨by dsimp only; omega, ?_, joins ahead.commands⟩
    dsimp only
    rw [ahead.pending, isSubmitted]
    exact range_append le (by omega)
  refine .inr ⟨le_refl _, behind.reach_lt, behind.le_nop, behind.nop_lt, ?_,
    behind.commands, joins behind.front, behind.isNop⟩
  dsimp only
  rw [behind.pending, isSubmitted, append_assoc]
  exact congrArg _ (range_append (Nat.zero_le start) (by omega))

theorem Good.advance (good : Good ring state) : Good ring (state.advance ring) := by
  have isGood := good
  unfold State.advance
  rcases state with ⟨wptr, rptr, memory, submitted, pending, phase⟩
  cases phase with
  | idle | bug => exact good
  | waitNonzero numcmds =>
    rcases good with ⟨few, isSubmitted, bound, ahead, isNop⟩
    dsimp only
    split
    · exact isGood
    · next nonzero => exact ahead.submitNop isSubmitted bound few isNop nonzero
  | nopSubmitted numcmds =>
    rcases good with ⟨few, nop, _, flow⟩
    exact ⟨few, fun _ => rfl, nop, rfl, ring.two_le, flow.congr rfl rfl rfl⟩
  | waitFree numcmds checks =>
    rcases good with ⟨few, wrapped, nop, quiet⟩
    dsimp only
    split
    · exact isGood
    · next leaves => exact quiet.waitFree few wrapped leaves
  | handedOut start numcmds =>
    rcases good with ⟨isSubmitted, isWptr, bound, commands, nop, flow⟩
    exact flow.submit isSubmitted isWptr bound commands

theorem Good.step (good : Good ring state) (request : Request ring) :
    Good ring (state.step ring request) := by
  cases request with
  | allocspace numcmds few =>
    unfold State.step
    dsimp only
    split
    · next isIdle =>
        rw [Good, isIdle] at good
        rcases good with ⟨nop, quiet⟩
        exact quiet.allocspace few
    · exact good
  | advance => exact good.advance
  | consume => exact good.consume

theorem good_initial (ring : Ring) : Good ring initial :=
  ⟨0, rfl, ring.two_le, Or.inl ⟨Nat.le_refl 0, rfl, fun _ _ _ => rfl⟩⟩

theorem Flow.mem_pending {dword : ℕ} (flow : Flow ring state limit reach nop)
    (isPending : dword ∈ state.pending) : dword < limit ∨ reach < dword := by
  rcases flow with ahead | behind
  · rw [ahead.pending, mem_range'_1] at isPending
    omega
  · rw [behind.pending, mem_append, mem_range'_1, mem_range'_1] at isPending
    have reachLt := behind.reach_lt
    omega

theorem Flow.pending_eq_nil (flow : Flow ring state limit reach nop) (le : limit ≤ reach)
    (same : reach = state.rptr) : state.pending = [] := by
  rcases flow with ahead | behind
  · have leLimit := ahead.le
    simp [ahead.pending, show limit - state.rptr = 0 by omega]
  · exact absurd same (ne_of_lt behind.reach_lt)

/-- What is handed out lies in the ring and holds nothing that the GPU has still to read, the NOP
packet fills the ring to its end, and the two pointers meet only if nothing is pending. -/
theorem ring_never_overrun (ring : Ring) (requests : List (Request ring)) :
    let state := Run.run (State.step ring) initial requests
    (∀ start numcmds, state.phase = .handedOut start numcmds → start + numcmds ≤ ring.sizedwords ∧
          ∀ dword ∈ state.pending, ¬(start ≤ dword ∧ dword < start + numcmds)) ∧
      (∀ numcmds, state.phase = .waitNonzero numcmds →
        state.wptr ∉ state.pending ∧ ∃ count, state.memory state.wptr = .nop count ∧
          state.wptr + 1 + count = ring.sizedwords) ∧
      (state.wptr = state.rptr → state.pending = []) := by
  intro state
  have good : Good ring state :=
    Run.invariant_always (Good ring) (fun _ request good => good.step request)
      (good_initial ring) requests
  clear_value state
  unfold Good at good
  refine ⟨?_, ?_, ?_⟩
  · intro start numcmds isPhase
    simp only [isPhase] at good
    rcases good with ⟨_, isWptr, bound, _, nop, flow⟩
    refine ⟨by omega, fun dword isPending => ?_⟩
    have outside := flow.mem_pending isPending
    omega
  · intro numcmds isPhase
    simp only [isPhase] at good
    rcases good with ⟨_, _, bound, ahead, isNop⟩
    refine ⟨?_, _, isNop, by omega⟩
    rw [ahead.pending, mem_range'_1]
    omega
  intro same
  split at good
  · rcases good with ⟨nop, quiet⟩
    exact quiet.flow.pending_eq_nil (le_refl _) same
  · rcases good with ⟨_, _, _, ahead, _⟩
    simp [ahead.pending, same]
  · rcases good with ⟨_, nop, isWptr, flow⟩
    rcases flow with ahead | behind
    · have atStart := ahead.le
      omega
    · have leNop := behind.le_nop
      omega
  · rcases good with ⟨_, _, nop, quiet⟩
    exact quiet.flow.pending_eq_nil (le_refl _) same
  · rcases good with ⟨_, isWptr, _, _, nop, flow⟩
    exact flow.pending_eq_nil (by omega) same
  · rcases good with ⟨nop, quiet⟩
    exact quiet.flow.pending_eq_nil (le_refl _) same

end StreakKernel.Kgsl
