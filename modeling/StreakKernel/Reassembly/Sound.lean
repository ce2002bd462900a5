import StreakKernel.Lib.Run
import StreakKernel.Lib.Tiling
import StreakKernel.Reassembly.Basic

/-!
# The queue holds disjoint fragments

The fragments in the queue lie one after the other within the known length of the
datagram, `meat` counts their bytes, and each byte was received at the position where it
is held.
-/

namespace StreakKernel.Reassembly

open List

namespace Skb

variable (skb : Skb) (count : ℕ)

theorem bytes_pull : (skb.pull count).bytes = skb.bytes.drop count :=
  drop_append.symm

theorem bytes_trim : (skb.trim count).bytes = skb.bytes.take count :=
  take_append.symm

theorem len_pull : (skb.pull count).len = skb.len - count := by
  rw [len, bytes_pull, length_drop, len]

theorem len_trim : (skb.trim count).len = min count skb.len := by
  rw [len, bytes_trim, length_take, len]

end Skb

namespace Packet

def Carries (packet : Packet) (position : ℕ) (byte : Byte) : Prop :=
  ∃ index, packet.payload[index]? = some byte ∧ packet.offset + index = position

theorem offset_le_stop (packet : Packet) : packet.offset ≤ packet.stop := by
  have := packet.headerLe
  unfold stop offset
  dsimp only
  split <;> omega

theorem stop_le (packet : Packet) :
    packet.stop + packet.skb.headerLen ≤ packet.offset + packet.skb.len := by
  have := packet.headerLe
  unfold stop
  dsimp only
  split <;> omega

end Packet

abbrev Ordered (frags : List Frag) : Prop := Tiling.Ordered Frag.offset Frag.stop frags

abbrev extent (frags : List Frag) : ℕ := Tiling.extent Frag.offset Frag.stop frags

theorem extent_cons (frag : Frag) (rest : List Frag) :
    extent (frag :: rest) = frag.skb.len + extent rest := by
  rw [extent, Tiling.extent_cons, Frag.stop, Nat.add_sub_cancel_left]

theorem extent_append (first second : List Frag) :
    extent (first ++ second) = extent first + extent second :=
  Tiling.extent_append first second

def Frag.Carried (received : List Packet) (frag : Frag) : Prop :=
  ∀ index byte, frag.skb.bytes[index]? = some byte →
    ∃ packet ∈ received, packet.Carries (frag.offset + index) byte

theorem Frag.Carried.pull {received : List Packet} {frag : Frag} (carried : frag.Carried received)
    (count : ℕ) : Frag.Carried received ⟨frag.offset + count, frag.skb.pull count⟩ := by
  intro index byte found
  rw [Skb.bytes_pull, getElem?_drop] at found
  obtain ⟨packet, mem, carries⟩ := carried _ _ found
  refine ⟨packet, mem, ?_⟩
  rwa [← add_assoc] at carries

structure Proper (received : List Packet) (len : ℕ) (frags : List Frag) : Prop where
  ordered : Ordered frags
  nonempty : ∀ frag ∈ frags, 0 < frag.skb.len
  within : ∀ frag ∈ frags, frag.stop ≤ len
  carried : ∀ frag ∈ frags, frag.Carried received

namespace Proper

variable {received : List Packet} {len more : ℕ} {frag : Frag} {front back frags : List Frag}

theorem nil : Proper received len [] :=
  ⟨List.Pairwise.nil, by simp, by simp, by simp⟩

theorem mono (proper : Proper received len frags) (le : len ≤ more) : Proper received more frags :=
  ⟨proper.ordered, proper.nonempty,
    fun frag mem => Nat.le_trans (proper.within frag mem) le, proper.carried⟩

theorem sublist (proper : Proper received len frags) {kept : List Frag} (sub : kept.Sublist frags) :
    Proper received len kept :=
  ⟨List.Pairwise.sublist sub proper.ordered,
    fun frag mem => proper.nonempty frag (sub.subset mem),
    fun frag mem => proper.within frag (sub.subset mem),
    fun frag mem => proper.carried frag (sub.subset mem)⟩

theorem append (first : Proper received len front) (second : Proper received len back)
    (before : ∀ frag ∈ front, ∀ later ∈ back, frag.stop ≤ later.offset) :
    Proper received len (front ++ back) := by
  refine ⟨pairwise_append.mpr ⟨first.ordered, second.ordered, before⟩, ?_, ?_, ?_⟩
  · exact fun frag mem =>
      (mem_append.mp mem).elim (first.nonempty frag) (second.nonempty frag)
  · exact fun frag mem =>
      (mem_append.mp mem).elim (first.within frag) (second.within frag)
  · exact fun frag mem =>
      (mem_append.mp mem).elim (first.carried frag) (second.carried frag)

theorem cons (rest : Proper received len back) (isNonempty : 0 < frag.skb.len)
    (isWithin : frag.stop ≤ len) (isCarried : frag.Carried received)
    (before : ∀ later ∈ back, frag.stop ≤ later.offset) : Proper received len (frag :: back) := by
  have single : Proper received len [frag] :=
    ⟨pairwise_singleton _ _, by simpa using isNonempty, by simpa using isWithin,
      by simpa using isCarried⟩
  exact single.append rest (by simpa using before)

theorem before_of_append (proper : Proper received len (front ++ back)) :
    ∀ frag ∈ front, ∀ later ∈ back, frag.stop ≤ later.offset :=
  (pairwise_append.mp proper.ordered).2.2

theorem stop_le_of_getLast? (proper : Proper received len front) {prev : Frag}
    (isLast : front.getLast? = some prev) : ∀ frag ∈ front, frag.stop ≤ prev.stop := by
  obtain ⟨init, rfl⟩ := getLast?_eq_some_iff.mp isLast
  intro frag mem
  rcases mem_append.mp mem with inInit | isPrev
  · have := proper.before_of_append frag inInit prev (by simp)
    unfold Frag.stop at this ⊢
    omega
  · rw [mem_singleton.mp isPrev]

end Proper

/-! ## The overlaps -/

section Overlap

variable {env : Env} {received : List Packet} {len : ℕ}

theorem clearFront_ok {front : List Frag} (proper : Proper received len front) {offset stop : ℕ}
    {skb : Skb} {frag : Frag} (isOk : clearFront env front offset stop skb = .ok frag)
    (isLen : offset + skb.len = stop) (isNonempty : 0 < skb.len)
    (isCarried : Frag.Carried received ⟨offset, skb⟩) :
    frag.stop = stop ∧ 0 < frag.skb.len ∧ frag.Carried received ∧
      (∀ earlier ∈ front, earlier.stop ≤ frag.offset) ∧
      (frag.offset = offset ∨ ∃ prev ∈ front, frag.offset = prev.stop) := by
  unfold clearFront at isOk
  split at isOk
  · rename_i isLast
    obtain rfl := getLast?_eq_none_iff.mp isLast
    obtain rfl := Except.ok.inj isOk
    exact ⟨isLen, isNonempty, isCarried, by simp, .inl rfl⟩
  rename_i prev isLast
  have last := proper.stop_le_of_getLast? isLast
  dsimp only at isOk
  split_ifs at isOk with overlaps inside pulled
  · obtain rfl := Except.ok.inj isOk
    have isLen' := skb.len_pull (prev.stop - offset)
    refine ⟨?_, ?_, isCarried.pull _, ?_, .inr ⟨prev, mem_of_getLast? isLast, ?_⟩⟩
    · unfold Frag.stop at overlaps inside isLen' ⊢
      dsimp only
      omega
    · dsimp only
      omega
    · intro earlier mem
      have := last earlier mem
      dsimp only
      omega
    · dsimp only
      omega
  · obtain rfl := Except.ok.inj isOk
    refine ⟨isLen, isNonempty, isCarried, ?_, .inl rfl⟩
    intro earlier mem
    have := last earlier mem
    dsimp only
    omega

structure Cleared (received : List Packet) (len : ℕ) (back : List Frag) (meat : ℤ)
    (result : List Frag × ℤ × Bool) : Prop where
  proper : Proper received len result.1
  later : ∀ frag ∈ result.1, ∃ old ∈ back, old.offset ≤ frag.offset
  meat : result.2.1 - extent result.1 = meat - extent back

theorem clearBack_cleared (env : Env) (stop : ℕ) {back : List Frag}
    (proper : Proper received len back) (meat : ℤ) :
    Cleared received len back meat (clearBack env stop back meat) := by
  induction back generalizing meat with
  | nil => exact ⟨proper, by simp [clearBack], rfl⟩
  | cons next rest ih =>
    have unchanged : ∀ flag, Cleared received len (next :: rest) meat (next :: rest, meat, flag) :=
      fun _ => ⟨proper, fun frag mem => ⟨frag, mem, le_refl _⟩, rfl⟩
    have restProper := proper.sublist (sublist_cons_self next rest)
    unfold clearBack
    dsimp only
    split_ifs with overlaps partly pulled
    · -- the head of the next fragment is cut off
      have isLen := next.skb.len_pull (stop - next.offset)
      have before := (pairwise_cons.mp proper.ordered).1
      have within := proper.within next mem_cons_self
      refine ⟨?_, ?_, ?_⟩
      · refine restProper.cons (by dsimp only; omega) ?_
          ((proper.carried next mem_cons_self).pull _) ?_
        · unfold Frag.stop at within ⊢
          dsimp only
          omega
        intro later mem
        have := before later mem
        unfold Frag.stop at this ⊢
        dsimp only
        omega
      · intro frag mem
        rcases mem_cons.mp mem with rfl | inRest
        · exact ⟨next, mem_cons_self, Nat.le_add_right _ _⟩
        · exact ⟨frag, mem_cons_of_mem _ inRest, le_refl _⟩
      dsimp only
      rw [extent_cons, extent_cons]
      dsimp only
      omega
    · exact unchanged false
    · -- the next fragment is replaced
      have cleared := ih restProper (meat - next.skb.len)
      refine ⟨cleared.proper, ?_, ?_⟩
      · intro frag mem
        obtain ⟨old, inRest, le⟩ := cleared.later frag mem
        exact ⟨old, mem_cons_of_mem _ inRest, le⟩
      · rw [cleared.meat]
        rw [extent_cons]
        omega
    · exact unchanged true

theorem stop_le_of_clearBack (env : Env) (stop : ℕ) {back : List Frag}
    (ordered : Ordered back) (meat : ℤ) (isDone : (clearBack env stop back meat).2.2 = true) :
    ∀ frag ∈ (clearBack env stop back meat).1, stop ≤ frag.offset := by
  induction back generalizing meat with
  | nil => simp [clearBack]
  | cons next rest ih =>
    obtain ⟨before, restOrdered⟩ := pairwise_cons.mp ordered
    unfold clearBack at isDone ⊢
    dsimp only at isDone ⊢
    split_ifs at isDone ⊢ with overlaps partly pulled
    · intro frag mem
      rcases mem_cons.mp mem with rfl | inRest
      · dsimp only
        omega
      · have := before frag inRest
        unfold Frag.stop at this
        omega
    · exact ih restOrdered _ isDone
    intro frag mem
    rcases mem_cons.mp mem with rfl | inRest
    · omega
    · have := before frag inRest
      unfold Frag.stop at this
      omega

end Overlap

/-! ## One call -/

namespace Queue

structure Sound (received : List Packet) (queue : Queue) : Prop where
  proper : Proper received queue.len queue.fragments
  meat : queue.meat = extent queue.fragments
  lastSeen : queue.lastIn = true →
    ∃ packet ∈ received, packet.moreFragments = false ∧ packet.stop = queue.len

/-- The state in which `ip_frag_reasm` is called. -/
structure Ready (queue : Queue) : Prop where
  lastIn : queue.lastIn = true
  full : queue.meat = queue.len
  nonempty : queue.fragments ≠ []

/-- How `ip_frag_queue` comes to its end, or to the call of `ip_frag_reasm`. -/
inductive Collected (received : List Packet) : Queue × Verdict → Prop where
  | failed {queue : Queue} (errno : Errno) (sound : queue.Sound received) :
      Collected received (queue, .done (.failed errno))
  | inProgress {queue : Queue} (sound : queue.Sound received) :
      Collected received (queue, .done .inProgress)
  | reasm {queue : Queue} (hasPrev : Bool) (sound : queue.Sound received)
      (ready : queue.Ready) : Collected received (queue, .reasm hasPrev)

variable {env : Env} {received : List Packet} {queue next : Queue} {packet : Packet}

theorem Sound.kill (sound : queue.Sound received) : queue.kill.Sound received :=
  ⟨sound.proper, sound.meat, sound.lastSeen⟩

theorem Sound.ipFragTooFar (sound : queue.Sound received) :
    (queue.ipFragTooFar env).2.Sound received := by
  unfold Queue.ipFragTooFar
  split
  · exact sound
  · split
    · exact sound
    · exact ⟨sound.proper, sound.meat, sound.lastSeen⟩

theorem Sound.ipFragReinit (isFresh : queue.ipFragReinit env = some next) :
    next.Sound received := by
  unfold Queue.ipFragReinit at isFresh
  split_ifs at isFresh
  obtain rfl := Option.some.inj isFresh
  exact ⟨Proper.nil, rfl, by simp⟩

theorem Sound.accept (sound : queue.Sound received) :
    (∀ next, queue.accept env packet = .ok next → next.Sound received) ∧
      ∀ next, queue.accept env packet = .error next → next.Sound received := by
  have farSound : (queue.ipFragTooFar env).2.Sound received := sound.ipFragTooFar
  unfold Queue.accept
  dsimp only
  split_ifs
  · exact ⟨fun next isOk => Except.ok.inj isOk ▸ sound, by simp⟩
  · split
    · rename_i fresh isFresh
      exact ⟨fun next isOk => Except.ok.inj isOk ▸ Sound.ipFragReinit isFresh, by simp⟩
    · exact ⟨by simp, fun next isError => Except.error.inj isError ▸ farSound.kill⟩
  · exact ⟨fun next isOk => Except.ok.inj isOk ▸ farSound, by simp⟩

theorem Sound.noteEnd (sound : queue.Sound received) (mem : packet ∈ received)
    (isNoted : queue.noteEnd packet = some next) :
    next.Sound received ∧ packet.stop ≤ next.len := by
  unfold Queue.noteEnd at isNoted
  split_ifs at isNoted with more longer last ends <;> obtain rfl := Option.some.inj isNoted
  · refine ⟨⟨sound.proper.mono (le_of_lt longer), sound.meat, ?_⟩, le_refl _⟩
    exact fun isLast => absurd isLast last
  · exact ⟨sound, Nat.le_of_not_lt longer⟩
  refine ⟨⟨sound.proper.mono ?_, sound.meat, ?_⟩, Nat.le_refl _⟩
  · dsimp only
    omega
  · exact fun _ => ⟨packet, mem, by simpa using more, rfl⟩

theorem carried_trim (mem : packet ∈ received) : Frag.Carried received ⟨packet.offset,
      (packet.skb.pull packet.skb.headerLen).trim (packet.stop - packet.offset)⟩ := by
  intro index byte found
  rw [Skb.bytes_trim, Skb.bytes_pull, getElem?_take] at found
  split_ifs at found
  exact ⟨packet, mem, index, found, rfl⟩

theorem len_trim_pull (packet : Packet) : packet.offset +
      ((packet.skb.pull packet.skb.headerLen).trim (packet.stop - packet.offset)).len =
        packet.stop := by
  have := packet.offset_le_stop
  have := packet.stop_le
  rw [Skb.len_trim, Skb.len_pull]
  omega

theorem Sound.insert (sound : queue.Sound received) {offset stop : ℕ} {skb : Skb}
    (isWithin : stop ≤ queue.len) (isLen : offset + skb.len = stop) (isNonempty : 0 < skb.len)
    (isCarried : Frag.Carried received ⟨offset, skb⟩) :
    Collected received (queue.insert env offset stop skb) := by
  unfold Queue.insert
  dsimp only
  generalize isFront : (queue.fragments.takeWhile fun frag => frag.offset < offset) = front
  generalize isBack : (queue.fragments.dropWhile fun frag => frag.offset < offset) = back
  have isSplit : front ++ back = queue.fragments := by
    rw [← isFront, ← isBack]
    exact takeWhile_append_dropWhile
  have proper := sound.proper
  rw [← isSplit] at proper
  have frontProper := proper.sublist (sublist_append_left front back)
  have backProper := proper.sublist (sublist_append_right front back)
  split
  · exact .failed _ sound
  rename_i frag isOk
  obtain ⟨isStop, fragNonempty, fragCarried, frontBefore, isOffset⟩ :=
    clearFront_ok frontProper isOk isLen isNonempty isCarried
  have cleared := clearBack_cleared env stop backProper queue.meat
  have isClear := stop_le_of_clearBack env stop backProper.ordered queue.meat
  have frontBack : ∀ earlier ∈ front, ∀ later ∈ (clearBack env stop back queue.meat).1,
      earlier.stop ≤ later.offset := by
    intro earlier inFront later inBack
    obtain ⟨old, isOld, le⟩ := cleared.later later inBack
    exact le_trans (proper.before_of_append earlier inFront old isOld) le
  have meat := sound.meat
  rw [← isSplit, extent_append] at meat
  have clearedMeat := cleared.meat
  split
  · -- the pull failed: only whole fragments are gone
    rename_i left leftMeat isCleared
    rw [isCleared] at cleared frontBack clearedMeat
    refine .failed _ ⟨frontProper.append cleared.proper frontBack, ?_, sound.lastSeen⟩
    dsimp only at clearedMeat ⊢
    rw [extent_append]
    omega
  rename_i left leftMeat isCleared
  rw [isCleared] at cleared frontBack clearedMeat isClear
  have linked : (queue.link front frag left leftMeat).Sound received := by
    refine ⟨?_, ?_, sound.lastSeen⟩
    · refine frontProper.append (cleared.proper.cons fragNonempty ?_ fragCarried ?_) ?_
      · rw [isStop]
        exact isWithin
      · rw [isStop]
        exact isClear rfl
      intro earlier inFront later mem
      rcases mem_cons.mp mem with rfl | inLeft
      · exact frontBefore earlier inFront
      · exact frontBack earlier inFront later inLeft
    simp only [link]
    rw [extent_append, extent_cons]
    dsimp only at clearedMeat
    omega
  split_ifs with isReady
  · exact .reasm _ linked ⟨isReady.2.1, isReady.2.2.2, by simp [link]⟩
  · exact .inProgress linked

theorem Sound.collect (sound : queue.Sound received) (mem : packet ∈ received) :
    Collected received (queue.collect env packet) := by
  unfold Queue.collect
  split
  · exact .failed _ sound
  split
  · rename_i killed isError
    exact .failed _ (sound.accept.2 killed isError)
  rename_i admitted isOk
  have admittedSound := sound.accept.1 admitted isOk
  split
  · exact .failed _ admittedSound
  rename_i noted isNoted
  obtain ⟨notedSound, isWithin⟩ := admittedSound.noteEnd mem isNoted
  have isLen := len_trim_pull packet
  split_ifs with isEmpty fails
  · exact .failed _ notedSound
  · exact .failed _ notedSound
  · exact notedSound.insert isWithin isLen (by omega) (carried_trim mem)

end Queue

end StreakKernel.Reassembly
