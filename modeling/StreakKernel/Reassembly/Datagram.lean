import StreakKernel.Reassembly.Sound

/-!
# What is delivered was received

`ip_frag_reasm` is called for a queue that tiles the datagram, and the payload that it
puts together holds at every position a byte that some fragment carried there.
-/

namespace StreakKernel.Reassembly

open List State

namespace Queue

variable {env : Env} {received : List Packet} {queue : Queue} {packet : Packet}

/-- The fragments are sorted and disjoint, not empty, and within the datagram, and `meat`
is the sum of their lengths. -/
structure Tidy (queue : Queue) : Prop where
  ordered : queue.fragments.Pairwise fun first second => first.stop ≤ second.offset
  nonempty : ∀ frag ∈ queue.fragments, 0 < frag.skb.len
  within : ∀ frag ∈ queue.fragments, frag.stop ≤ queue.len
  meat : queue.meat = (queue.fragments.map fun frag => frag.skb.len).sum

def Tiles (queue : Queue) : Prop :=
  Tiling.Tiles Frag.offset Frag.stop 0 queue.fragments queue.len

theorem extent_eq_sum (frags : List Frag) :
    extent frags = (frags.map fun frag => frag.skb.len).sum := by
  induction frags with
  | nil => rfl
  | cons frag rest ih => rw [extent_cons, ih, map_cons, sum_cons]

theorem Sound.tidy (sound : queue.Sound received) : queue.Tidy := by
  refine ⟨sound.proper.ordered, sound.proper.nonempty, sound.proper.within, ?_⟩
  rw [sound.meat, extent_eq_sum]

theorem Sound.tiles (sound : queue.Sound received) (full : queue.meat = queue.len) :
    queue.Tiles := by
  have meat := sound.meat
  refine Tiling.tiles_of_extent sound.proper.ordered ?_ ?_
  · intro frag mem
    exact ⟨Nat.zero_le _, Nat.le_add_right _ _, sound.proper.within frag mem⟩
  · change 0 + extent queue.fragments = queue.len
    omega

theorem flatMap_splitHead (head : Skb) : (splitHead head).flatMap Skb.bytes = head.bytes := by
  unfold splitHead
  split_ifs <;> simp [Skb.bytes]

theorem flatMap_chunks (head : Frag) (rest : List Frag) :
    (splitHead head.skb ++ rest.map Frag.skb).flatMap Skb.bytes =
      (head :: rest).flatMap fun frag => frag.skb.bytes := by
  rw [flatMap_append, flatMap_splitHead, flatMap_map, flatMap_cons]

structure Faithful (received : List Packet) (len : ℕ) (payload : List Byte) : Prop where
  length : payload.length = len
  carried : ∀ position byte, payload[position]? = some byte →
    ∃ packet ∈ received, packet.Carries position byte

theorem Sound.faithful (sound : queue.Sound received) (tiles : queue.Tiles) :
    Faithful received queue.len (queue.fragments.flatMap fun frag => frag.skb.bytes) := by
  have lengths : ∀ frag : Frag, frag.stop = frag.offset + frag.skb.bytes.length := fun _ => rfl
  refine ⟨?_, ?_⟩
  · have := Tiling.length_flatMap_of_tiles tiles lengths
    omega
  intro pos byte found
  obtain ⟨frag, mem, place, isFound, isPlace⟩ :=
    Tiling.exists_of_getElem?_flatMap tiles lengths found
  have carries := sound.proper.carried frag mem place byte isFound
  rwa [isPlace, zero_add] at carries

/-- How a call of `ip_frag_queue` ends. The head of an empty queue is never used. -/
inductive Settled (received : List Packet) : Queue × Outcome → Prop where
  | failed {queue : Queue} (errno : Errno) (sound : queue.Sound received) :
      Settled received (queue, .failed errno)
  | inProgress {queue : Queue} (sound : queue.Sound received) :
      Settled received (queue, .inProgress)
  | delivered {queue : Queue} {payload : List Byte} (isComplete : queue.complete = true)
      (faithful : Faithful received queue.len payload) :
      Settled received (queue, .delivered payload)

theorem Sound.ipFragReasm (sound : queue.Sound received) (ready : queue.Ready)
    (hasPrev : Bool) : Settled received (queue.ipFragReasm env hasPrev) := by
  have faithful := sound.faithful (sound.tiles ready.full)
  unfold Queue.ipFragReasm
  dsimp only
  split
  · exact .failed _ sound.kill
  split
  · rename_i isEmpty
    exact absurd isEmpty ready.nonempty
  rename_i head rest isHead
  split
  · exact .failed _ sound.kill
  split
  · exact .failed _ sound.kill
  split
  · exact .failed _ sound.kill
  · refine .delivered rfl ?_
    rw [flatMap_chunks, ← show queue.fragments = head :: rest from isHead]
    exact faithful

theorem Sound.ipFragQueue (sound : queue.Sound received) (mem : packet ∈ received) :
    Settled received (queue.ipFragQueue env packet) := by
  have collected : Collected received (queue.collect env packet) := sound.collect mem
  unfold Queue.ipFragQueue
  generalize queue.collect env packet = result at collected
  cases collected with
  | failed errno sound => exact .failed errno sound
  | inProgress sound => exact .inProgress sound
  | reasm hasPrev sound ready => exact sound.ipFragReasm ready hasPrev

theorem ipFragQueue_of_complete (isComplete : queue.complete = true) :
    queue.ipFragQueue env packet = (queue, .failed .noent) := by
  unfold Queue.ipFragQueue Queue.collect
  rw [if_pos isComplete]

end Queue

/-! ## The life of a queue -/

def packets (events : List Event) : List Packet :=
  events.filterMap fun
    | .receive packet _ => some packet
    | .expire => none

namespace State

variable {received : List Packet} {state : State}

structure Valid (received : List Packet) (state : State) : Prop where
  sound : state.delivered = none → state.queue.Sound received
  dead : ∀ payload, state.delivered = some payload →
    state.queue.complete = true ∧ Queue.Faithful received state.queue.len payload

def Among (received : List Packet) (_ : State) : Event → Prop
  | .receive packet _ => packet ∈ received
  | .expire => True

theorem Valid.receive (valid : state.Valid received) {packet : Packet} (env : Env)
    (mem : packet ∈ received) : (state.step (.receive packet env)).Valid received := by
  unfold step
  dsimp only
  cases isDelivered : state.delivered with
  | some payload =>
    rw [Queue.ipFragQueue_of_complete (valid.dead payload isDelivered).1]
    refine ⟨by simp, ?_⟩
    intro other isOther
    exact valid.dead other (isDelivered.trans isOther)
  | none =>
    have settled : Queue.Settled received (state.queue.ipFragQueue env packet) :=
      (valid.sound isDelivered).ipFragQueue mem
    generalize state.queue.ipFragQueue env packet = result at settled
    cases settled with
    | failed errno sound | inProgress sound => exact ⟨fun _ => sound, by simp⟩
    | delivered isComplete faithful =>
      refine ⟨by simp, ?_⟩
      rintro payload isPayload
      obtain rfl := Option.some.inj isPayload
      exact ⟨isComplete, faithful⟩

theorem Valid.expire (valid : state.Valid received) : (state.step .expire).Valid received := by
  unfold step
  dsimp only
  unfold Queue.ipExpire
  split
  · exact valid
  · refine ⟨fun isNone => (valid.sound isNone).kill, fun payload isPayload => ?_⟩
    exact ⟨rfl, (valid.dead payload isPayload).2⟩

theorem Valid.step (valid : state.Valid received) (event : Event)
    (among : Among received state event) : (state.step event).Valid received := by
  cases event with
  | receive packet env => exact valid.receive env among
  | expire => exact valid.expire

theorem created_valid : created.Valid received :=
  ⟨fun _ => ⟨Proper.nil, rfl, by simp [created, Queue.created]⟩, by simp [created]⟩

theorem admits_packets {received : List Packet} {events : List Event}
    (subset : packets events ⊆ received) (state : State) :
    Run.Admits step (Among received) state events := by
  induction events generalizing state with
  | nil => trivial
  | cons event rest ih =>
    cases event with
    | receive packet env =>
      obtain ⟨mem, restSubset⟩ := cons_subset.mp subset
      exact ⟨mem, ih restSubset _⟩
    | expire => exact ⟨trivial, ih subset _⟩

theorem valid_run (events : List Event) {received : List Packet}
    (subset : packets events ⊆ received) : (Run.run step created events).Valid received :=
  Run.invariant_run (Valid received) (fun _ event valid among => valid.step event among)
    created_valid (admits_packets subset created)

/-- For every sequence of fragments, with failures anywhere: until its datagram is
delivered the queue is tidy; `ip_frag_reasm` is only called when a last fragment was seen
and the fragments tile the datagram; and each byte of what is delivered was carried by a
fragment at that position. -/
theorem reassembles (events : List Event) :
    let state := Run.run step created events
    (state.delivered = none → state.queue.Tidy) ∧
    (∀ env packet queue hasPrev, state.queue.collect env packet = (queue, .reasm hasPrev) →
      queue.Tidy ∧ queue.Tiles ∧ queue.lastIn = true ∧
      ∃ last ∈ packet :: packets events, last.moreFragments = false ∧ last.stop = queue.len) ∧
    ∀ payload, state.delivered = some payload → payload.length = state.queue.len ∧
      ∀ position byte, payload[position]? = some byte →
        ∃ packet ∈ packets events, packet.Carries position byte := by
  have valid := valid_run events (List.Subset.refl _)
  refine ⟨fun isNone => (valid.sound isNone).tidy, ?_, fun payload isPayload => ?_⟩
  · intro env packet queue hasPrev isReasm
    have further := valid_run events (subset_cons_self packet (packets events))
    cases isDelivered : (Run.run step created events).delivered with
    | some payload =>
      have isComplete := (further.dead payload isDelivered).1
      unfold Queue.collect at isReasm
      rw [if_pos isComplete] at isReasm
      simp at isReasm
    | none =>
      have collected : Queue.Collected (packet :: packets events) (queue, .reasm hasPrev) :=
        isReasm ▸ (further.sound isDelivered).collect mem_cons_self
      cases collected with
      | reasm _ sound ready =>
        exact ⟨sound.tidy, sound.tiles ready.full, ready.lastIn, sound.lastSeen ready.lastIn⟩
  · obtain ⟨_, faithful⟩ := valid.dead payload isPayload
    exact ⟨faithful.length, faithful.carried⟩

end State

end StreakKernel.Reassembly
