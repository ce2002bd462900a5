import StreakKernel.TimerWheel.Placement

/-!
# The search for the next timer

The search goes through the vectors from the lowest on and takes the first bucket with a timer in
each; it stops when the bucket it has found ends before the next cascade of the vector above.
-/

namespace StreakKernel.TimerWheel

open List Word TimingWheel Shape Base Nat

universe u

variable {Timer : Type u}

/-! ## Comparing times -/

theorem timeBefore_mod {left right : ℕ} (low : right ≤ left + 2147483648)
    (high : left < right + 2147483648) :
    timeBefore (left % 4294967296) (right % 4294967296) ↔ left < right := by
  unfold timeBefore toSigned sub
  split_ifs <;> omega

structure Least (bound : ℕ) (due : ℕ → Prop) (time : ℕ) : Prop where
  le_bound : time ≤ bound
  le_due : ∀ other, due other → time ≤ other
  attained : time = bound ∨ due time

variable {bound time : ℕ} {due more : ℕ → Prop}

theorem Least.congr {other : ℕ → Prop} (least : Least bound due time)
    (same : ∀ moment, due moment ↔ other moment) : Least bound other time :=
  ⟨least.le_bound, fun moment isDue => least.le_due moment ((same moment).mpr isDue),
    least.attained.imp_right (same time).mp⟩

theorem Least.extend (least : Least bound due time) (subset : ∀ moment, due moment → more moment)
    (later : ∀ moment, more moment → due moment ∨ time ≤ moment) : Least bound more time := by
  refine ⟨least.le_bound, ?_, least.attained.imp_right (subset time)⟩
  intro moment isMore
  rcases later moment isMore with isDue | isLater
  · exact least.le_due moment isDue
  · exact isLater

theorem Least.trans {first second : ℕ} (least : Least bound due first)
    (next : Least first more second) :
    Least bound (fun moment => due moment ∨ more moment) second := by
  refine ⟨next.le_bound.trans least.le_bound, ?_, ?_⟩
  · rintro moment (isDue | isMore)
    · exact next.le_bound.trans (least.le_due moment isDue)
    · exact next.le_due moment isMore
  rcases next.attained with rfl | isMore
  · rcases least.attained with isBound | isDue
    · exact .inl isBound
    · exact .inr (.inl isDue)
  · exact .inr (.inr isMore)

/-! ## The timers that the search sees -/

/-- The timers of the buckets that are not deferrable expire at their deadlines. -/
structure Timely (base : Base Timer) (ticks : ℕ) (deadline : Timer → ℕ) : Prop where
  clock : base.timerJiffies = ticks % 4294967296
  level : ∀ lev slot, ∀ timer ∈ base.wakers lev slot, lev ≤ 4
  isSlot : ∀ lev slot, ∀ timer ∈ base.wakers lev slot, slot = wheel.slotOf lev (deadline timer)
  within : ∀ lev slot, ∀ timer ∈ base.wakers lev slot,
    wheel.Within lev (wheel.upcoming ticks lev) (deadline timer)
  expires : ∀ lev slot, ∀ timer ∈ base.wakers lev slot,
    base.expires timer = deadline timer % 4294967296
  near : ∀ lev slot, ∀ timer ∈ base.wakers lev slot, deadline timer < ticks + 2147483648

def Seen (base : Base Timer) (deadline : Timer → ℕ) (levels moment : ℕ) : Prop :=
  ∃ lev < levels, ∃ slot, ∃ timer ∈ base.wakers lev slot, deadline timer = moment

section Search

variable {base : Base Timer} {ticks : ℕ} {deadline : Timer → ℕ} {lev slot : ℕ} {timer : Timer}

section OneTimer

variable (timely : Timely base ticks deadline)
include timely

theorem Timely.begins (mem : timer ∈ base.wakers lev slot) :
    wheel.upcoming ticks lev * wheel.unit lev ≤ deadline timer :=
  (mul_le_mul_right _ (timely.within lev slot timer mem).low).trans
    (div_mul_le_self _ _)

theorem Timely.late (mem : timer ∈ base.wakers lev slot) : ticks ≤ deadline timer :=
  (wheel.le_upcoming_mul ticks lev).trans (timely.begins mem)

theorem Timely.above {low : ℕ} (le : low ≤ lev) (mem : timer ∈ base.wakers lev slot) :
    wheel.upcoming ticks low * wheel.unit low ≤ deadline timer :=
  (upcoming_mul_le le).trans (timely.begins mem)

theorem Timely.unit_eq {offset : ℕ} (short : offset < wheel.slots lev)
    (mem : timer ∈ base.wakers lev ((wheel.upcoming ticks lev + offset) % wheel.slots lev)) :
    deadline timer / wheel.unit lev = wheel.upcoming ticks lev + offset :=
  (timely.within _ _ timer mem).eq_add_of_slotOf short (timely.isSlot _ _ timer mem).symm

theorem Timely.offset (mem : timer ∈ base.wakers lev slot) :
    ∃ offset < wheel.slots lev, slot = (wheel.upcoming ticks lev + offset) % wheel.slots lev ∧
      deadline timer / wheel.unit lev = wheel.upcoming ticks lev + offset := by
  have within := timely.within lev slot timer mem
  obtain ⟨offset, isOffset⟩ := Nat.exists_eq_add_of_le within.low
  have high := within.high
  refine ⟨offset, by omega, ?_, isOffset⟩
  rw [timely.isSlot lev slot timer mem, slotOf, isOffset]

end OneTimer

theorem earliest_spec {timers : List Timer} {least : ℕ}
    (expires : ∀ timer ∈ timers, base.expires timer = deadline timer % 4294967296)
    (late : ∀ timer ∈ timers, ticks ≤ deadline timer)
    (near : ∀ timer ∈ timers, deadline timer < ticks + 2147483648)
    (low : ticks ≤ least) (high : least < ticks + 2147483648) :
    ∃ time, base.earliest (least % 4294967296) timers = time % 4294967296 ∧ ticks ≤ time ∧
      Least least (fun moment => ∃ timer ∈ timers, deadline timer = moment) time := by
  induction timers generalizing least with
  | nil =>
    refine ⟨least, rfl, low, le_rfl, ?_, .inl rfl⟩
    rintro moment ⟨timer, mem, _⟩
    cases mem
  | cons timer rest ih =>
    have isExpires := expires timer mem_cons_self
    have isLate := late timer mem_cons_self
    have isNear := near timer mem_cons_self
    have isBefore := @timeBefore_mod (deadline timer) least (by omega) (by omega)
    have isFold : base.earliest (least % 4294967296) (timer :: rest) =
        base.earliest (min (deadline timer) least % 4294967296) rest := by
      unfold earliest
      rw [foldl_cons, isExpires]
      by_cases before : deadline timer < least
      · rw [if_pos (isBefore.mpr before), min_eq_left before.le]
      · rw [if_neg (fun isLess => before (isBefore.mp isLess)), min_eq_right (not_lt.mp before)]
    rcases ih (fun x mem => expires x (mem_cons_of_mem _ mem))
      (fun x mem => late x (mem_cons_of_mem _ mem))
      (fun x mem => near x (mem_cons_of_mem _ mem))
      (le_min isLate low) (lt_of_le_of_lt (min_le_right _ _) high) with
      ⟨time, isTime, timeLow, isLeast⟩
    refine ⟨time, isFold.trans isTime, timeLow, isLeast.le_bound.trans (min_le_right _ _), ?_, ?_⟩
    · rintro moment ⟨x, mem, rfl⟩
      rcases mem_cons.mp mem with rfl | inRest
      · exact isLeast.le_bound.trans (min_le_left _ _)
      · exact isLeast.le_due _ ⟨x, inRest, rfl⟩
    rcases isLeast.attained with isMin | ⟨x, inRest, isDue⟩
    · rcases min_choice (deadline timer) least with isFirst | isOld
      · exact .inr ⟨timer, mem_cons_self, (isMin.trans isFirst).symm⟩
      · exact .inl (isMin.trans isOld)
    · exact .inr ⟨x, mem_cons_of_mem _ inRest, isDue⟩

theorem scanRoot_spec (timely : Timely base ticks deadline) {rest offset : ℕ}
    (isRest : offset + rest = 256)
    (before : ∀ slot, ∀ timer ∈ base.wakers 0 slot, ticks + offset ≤ deadline timer) :
    (base.scanRoot rest ((ticks + offset) % 256) = none ∧ ∀ moment, ¬Seen base deadline 1 moment) ∨
      ∃ found < 256, base.scanRoot rest ((ticks + offset) % 256) =
          some ((ticks + found) % 4294967296, (ticks + found) % 256) ∧
        Seen base deadline 1 (ticks + found) ∧
        ∀ moment, Seen base deadline 1 moment → ticks + found ≤ moment := by
  have unitOf : ∀ {slot : ℕ} {x : Timer}, x ∈ base.wakers 0 slot →
      deadline x < ticks + 256 ∧ slot = deadline x % 256 := by
    intro slot x mem
    have high := (timely.within 0 slot x mem).high
    rw [upcoming_zero, unit, Nat.div_one] at high
    refine ⟨high, ?_⟩
    rw [timely.isSlot 0 slot x mem, slotOf, unit, Nat.div_one]
    rfl
  induction rest generalizing offset with
  | zero =>
    refine .inl ⟨rfl, ?_⟩
    rintro moment ⟨lev, isRoot, slot, x, mem, _⟩
    obtain rfl : lev = 0 := by omega
    have := before slot x mem
    have := (unitOf mem).1
    omega
  | succ rest ih =>
    have isNext : ((ticks + offset) % 256 + 1) % 256 = (ticks + (offset + 1)) % 256 := by omega
    cases isWakers : base.wakers 0 ((ticks + offset) % 256) with
    | nil =>
      have isScan : base.scanRoot (rest + 1) ((ticks + offset) % 256) =
          base.scanRoot rest ((ticks + (offset + 1)) % 256) := by
        rw [← isNext]
        simp [scanRoot, isWakers]
      rw [isScan]
      refine ih (by omega) ?_
      intro slot x mem
      have isLate := before slot x mem
      have isSlot := (unitOf mem).2
      by_contra isHere
      obtain rfl : slot = (ticks + offset) % 256 := by omega
      rw [isWakers] at mem
      cases mem
    | cons x others =>
      have mem : x ∈ base.wakers 0 ((ticks + offset) % 256) := by simp [isWakers]
      have isDeadline : deadline x = ticks + offset := by
        have := before _ x mem
        have := unitOf mem
        omega
      refine .inr ⟨offset, by omega, ?_, ⟨0, one_pos, _, x, mem, isDeadline⟩, ?_⟩
      · simp only [scanRoot, isWakers]
        rw [timely.expires 0 _ x mem, isDeadline]
      · rintro moment ⟨lev, isRoot, slot, y, yMember, rfl⟩
        obtain rfl : lev = 0 := by omega
        exact before slot y yMember

structure Visited (base : Base Timer) (ticks : ℕ) (deadline : Timer → ℕ)
    (lev offset least time : ℕ) :
    Prop where
  isOffset : offset < wheel.slots lev
  low : ticks ≤ time
  isLeast : Least least (fun moment =>
    ∃ timer ∈ base.wakers lev ((wheel.upcoming ticks lev + offset) % wheel.slots lev),
      deadline timer = moment) time
  inside : time < (wheel.upcoming ticks lev + offset + 1) * wheel.unit lev
  first : ∀ slot, ∀ timer ∈ base.wakers lev slot,
    wheel.upcoming ticks lev + offset ≤ deadline timer / wheel.unit lev

section

variable (timely : Timely base ticks deadline)
include timely

theorem scanVector_spec (isSlots : wheel.slots lev = 64) {rest offset least : ℕ}
    (isRest : offset + rest = 64) (before : ∀ slot, ∀ timer ∈ base.wakers lev slot,
      wheel.upcoming ticks lev + offset ≤ deadline timer / wheel.unit lev) (low : ticks ≤ least)
    (high : least < ticks + 2147483648) :
    (base.scanVector lev (wheel.upcoming ticks lev % 64) rest
        ((wheel.upcoming ticks lev + offset) % 64) (least % 4294967296) false =
          (least % 4294967296, false, false) ∧ ∀ slot timer, timer ∉ base.wakers lev slot) ∨
      ∃ found time, base.scanVector lev (wheel.upcoming ticks lev % 64) rest
        ((wheel.upcoming ticks lev + offset) % 64) (least % 4294967296) false =
          (time % 4294967296, true, !(wheel.upcoming ticks lev % 64 == 0 ||
            decide ((wheel.upcoming ticks lev + found) % 64 < wheel.upcoming ticks lev % 64))) ∧
        Visited base ticks deadline lev found least time := by
  induction rest generalizing offset with
  | zero =>
    refine .inl ⟨rfl, ?_⟩
    intro slot x mem
    have := before slot x mem
    have := (timely.within lev slot x mem).high
    omega
  | succ rest ih =>
    have isNext : ((wheel.upcoming ticks lev + offset) % 64 + 1) % 64 =
        (wheel.upcoming ticks lev + (offset + 1)) % 64 := by omega
    cases isWakers : base.wakers lev ((wheel.upcoming ticks lev + offset) % 64) with
    | nil =>
      have isScan : base.scanVector lev (wheel.upcoming ticks lev % 64) (rest + 1)
          ((wheel.upcoming ticks lev + offset) % 64) (least % 4294967296) false =
          base.scanVector lev (wheel.upcoming ticks lev % 64) rest
            ((wheel.upcoming ticks lev + (offset + 1)) % 64) (least % 4294967296) false := by
        rw [← isNext]
        simp [scanVector, isWakers, earliest]
      rw [isScan]
      refine ih (by omega) ?_
      intro slot x mem
      rcases timely.offset mem with ⟨distance, _, isSlot, isUnit⟩
      have isLate := before slot x mem
      by_contra isHere
      obtain rfl : distance = offset := by omega
      rw [isSlot, isSlots, isWakers] at mem
      cases mem
    | cons x others =>
      rw [← isSlots] at isWakers
      have mem : x ∈ base.wakers lev
          ((wheel.upcoming ticks lev + offset) % wheel.slots lev) := by simp [isWakers]
      rcases earliest_spec (timely.expires lev _) (fun _ isWaker => timely.late isWaker)
        (timely.near lev ((wheel.upcoming ticks lev + offset) % wheel.slots lev)) low high with
        ⟨time, isTime, timeLow, isLeast⟩
      refine .inr ⟨offset, time, ?_, ⟨by omega, timeLow, isLeast, ?_, before⟩⟩
      · rw [isSlots] at isTime isWakers
        rw [isWakers] at isTime
        rw [scanVector]
        simp [isTime, isWakers]
      have isUnit := timely.unit_eq (by omega) mem
      refine (isLeast.le_due _ ⟨x, mem, rfl⟩).trans_lt ?_
      rw [← isUnit, Nat.succ_mul]
      exact lt_div_mul_add (wheel.unit_pos lev)

theorem Visited.least {offset bound least time : ℕ}
    (visited : Visited base ticks deadline lev offset least time)
    (before : Least bound (Seen base deadline lev) least) :
    Least bound (Seen base deadline (lev + 1)) time := by
  refine (before.trans visited.isLeast).extend ?_ ?_
  · rintro moment (⟨low, isLow, rest⟩ | ⟨timer, mem, isDue⟩)
    · exact ⟨low, by omega, rest⟩
    · exact ⟨lev, lt_succ_self lev, _, timer, mem, isDue⟩
  rintro moment ⟨low, isLow, slot, timer, mem, isDue⟩
  by_cases same : low = lev
  · subst same
    rcases timely.offset mem with ⟨distance, _, isSlot, isUnit⟩
    have isFirst := visited.first slot timer mem
    by_cases here : distance = offset
    · subst here
      exact .inl (.inr ⟨timer, isSlot ▸ mem, isDue⟩)
    refine .inr ?_
    have later : wheel.upcoming ticks low + offset + 1 ≤ deadline timer / wheel.unit low := by omega
    rw [← isDue]
    exact visited.inside.le.trans ((mul_le_mul_right _ later).trans (div_mul_le_self _ _))
  · exact .inl (.inl ⟨low, by omega, slot, timer, mem, isDue⟩)

theorem Visited.least_all {offset bound least time : ℕ}
    (visited : Visited base ticks deadline lev offset least time)
    (before : Least bound (Seen base deadline lev) least)
    (ends : wheel.upcoming ticks lev + offset + 1 ≤
      wheel.slots lev * wheel.upcoming ticks (lev + 1)) :
    Least bound (Seen base deadline 5) time := by
  refine (visited.least timely before).extend ?_ ?_
  · rintro moment ⟨low, _, slot, timer, mem, isDue⟩
    exact ⟨low, lt_succ_of_le (timely.level low slot timer mem), slot, timer, mem, isDue⟩
  rintro moment ⟨high, _, slot, timer, mem, isDue⟩
  by_cases isLow : high < lev + 1
  · exact .inl ⟨high, isLow, slot, timer, mem, isDue⟩
  refine .inr (visited.inside.le.trans ?_)
  rw [← isDue]
  refine le_trans ?_ (timely.above (not_lt.mp isLow) mem)
  rw [unit, mul_comm (wheel.unit lev), ← mul_assoc, mul_comm (wheel.upcoming ticks (lev + 1))]
  exact mul_le_mul_right _ ends

end

theorem Visited.next {offset least time : ℕ}
    (visited : Visited base ticks deadline lev offset least time) :
    time < (wheel.upcoming ticks (lev + 1) + 1) * wheel.unit (lev + 1) := by
  have isOffset : wheel.upcoming ticks lev + offset + 1 ≤
      wheel.upcoming ticks lev + wheel.slots lev := by
    have := visited.isOffset
    omega
  calc
    time < (wheel.upcoming ticks lev + offset + 1) * wheel.unit lev := visited.inside
    _ ≤ (wheel.upcoming ticks lev + wheel.slots lev) * wheel.unit lev :=
      mul_le_mul_right _ isOffset
    _ = wheel.upcoming ticks lev * wheel.unit lev + wheel.unit (lev + 1) := by
      rw [add_mul, unit, mul_comm (wheel.slots lev)]
    _ ≤ wheel.upcoming ticks (lev + 1) * wheel.unit (lev + 1) + wheel.unit (lev + 1) :=
      Nat.add_le_add_right (upcoming_mul_le (Nat.le_succ lev)) _
    _ = (wheel.upcoming ticks (lev + 1) + 1) * wheel.unit (lev + 1) := (Nat.succ_mul _ _).symm

theorem round_congr {counter units modulus : ℕ} (same : counter % (64 * modulus) =
    units % (64 * modulus)) :
    (if counter % 64 = 0 then counter else counter + (64 - counter % 64)) / 64 % modulus =
      (units + 64 - 1) / 64 % modulus := by
  have isRound : (if counter % 64 = 0 then counter else counter + (64 - counter % 64)) / 64 =
      (counter + 64 - 1) / 64 := by
    split_ifs with isZero <;> omega
  have shifted := Nat.ModEq.add_right 63 same
  rw [isRound]
  calc
    (counter + 63) / 64 % modulus = (counter + 63) % (64 * modulus) / 64 :=
      (mod_mul_right_div_self _ _ _).symm
    _ = (units + 63) % (64 * modulus) / 64 := by rw [shifted]
    _ = (units + 63) / 64 % modulus := mod_mul_right_div_self _ _ _

theorem scanVectors_spec (timely : Timely base ticks deadline) {rest counter bound least : ℕ}
    {found : Bool} (isRest : rest + lev = 5) (pos : lev ≠ 0)
    (isCounter : counter % 64 ^ rest = wheel.upcoming ticks lev % 64 ^ rest) (low : ticks ≤ least)
    (high : bound < ticks + 2147483648) (isLeast : Least bound (Seen base deadline lev) least)
    (isFound : found = true → least < (wheel.upcoming ticks lev + 1) * wheel.unit lev) :
    ∃ time, base.scanVectors rest lev counter (least % 4294967296) found = time % 4294967296 ∧
      ticks ≤ time ∧ Least bound (Seen base deadline 5) time := by
  induction rest generalizing lev counter least found with
  | zero =>
    obtain rfl : lev = 5 := by omega
    exact ⟨least, rfl, low, isLeast⟩
  | succ rest ih =>
    have isSlots : wheel.slots lev = 64 := by
      cases lev with
      | zero => exact absurd rfl pos
      | succ lev => rfl
    have isIndex : counter % 64 = wheel.upcoming ticks lev % 64 := by
      have dvd : 64 ∣ 64 ^ (rest + 1) := Dvd.intro_left _ (pow_succ 64 rest).symm
      rw [← mod_mod_of_dvd counter dvd, isCounter, mod_mod_of_dvd _ dvd]
    have nextCounter : (if counter % 64 = 0 then counter else counter + (64 - counter % 64)) / 64 %
        64 ^ rest = wheel.upcoming ticks (lev + 1) % 64 ^ rest := by
      rw [upcoming_level_succ, isSlots]
      exact round_congr (by rw [← pow_succ']; exact isCounter)
    have leastHigh := isLeast.le_bound.trans_lt high
    have visit : ∀ offset time, Visited base ticks deadline lev offset least time →
        base.scanVector lev (wheel.upcoming ticks lev % 64) 64 (wheel.upcoming ticks lev % 64)
          (least % 4294967296) found =
          (time % 4294967296, true, !(wheel.upcoming ticks lev % 64 == 0 ||
            decide ((wheel.upcoming ticks lev + offset) % 64 < wheel.upcoming ticks lev % 64))) →
        ∃ time, base.scanVectors (rest + 1) lev counter (least % 4294967296) found =
          time % 4294967296 ∧ ticks ≤ time ∧ Least bound (Seen base deadline 5) time := by
      intro offset time visited isScan
      rw [scanVectors]
      simp only [isIndex, isScan]
      rw [← isIndex]
      by_cases goesOn : wheel.upcoming ticks lev % 64 = 0 ∨
          (wheel.upcoming ticks lev + offset) % 64 < wheel.upcoming ticks lev % 64
      · rw [if_neg (by simpa [isIndex, or_iff_not_imp_left] using goesOn)]
        exact ih (by omega) (succ_ne_zero lev) nextCounter visited.low
          (visited.least timely isLeast) fun _ => visited.next
      rw [if_pos (by simpa [isIndex] using goesOn)]
      refine ⟨time, rfl, visited.low, visited.least_all timely isLeast ?_⟩
      have isOffset := visited.isOffset
      rw [upcoming_level_succ, isSlots]
      omega
    cases found with
    | true =>
      rcases earliest_spec (timely.expires lev _) (fun _ isWaker => timely.late isWaker)
        (timely.near lev (wheel.upcoming ticks lev % wheel.slots lev)) low leastHigh with
        ⟨time, isTime, timeLow, timeLeast⟩
      refine visit 0 time ⟨wheel.slots_pos lev, timeLow, timeLeast, ?_, ?_⟩ ?_
      · exact timeLeast.le_bound.trans_lt (isFound rfl)
      · exact fun slot timer mem => (timely.within lev slot timer mem).low
      · rw [isSlots] at isTime
        rw [scanVector]
        simp [isTime]
    | false =>
      rcases scanVector_spec timely isSlots (zero_add 64)
        (fun slot timer mem => (timely.within lev slot timer mem).low) low leastHigh with
        ⟨isScan, isEmpty⟩ | ⟨offset, time, isScan, visited⟩
      · rw [scanVectors]
        simp only [isIndex]
        rw [add_zero] at isScan
        simp only [isScan, Bool.false_eq_true, if_false]
        rw [← isIndex]
        refine ih (by omega) (succ_ne_zero lev) nextCounter low ?_ (by simp)
        refine isLeast.congr fun moment => ⟨?_, ?_⟩
        · rintro ⟨level, isLow, rest⟩
          exact ⟨level, by omega, rest⟩
        rintro ⟨level, isLow, slot, timer, mem, isDue⟩
        refine ⟨level, ?_, slot, timer, mem, isDue⟩
        by_contra isHere
        obtain rfl : level = lev := by omega
        exact isEmpty slot timer mem
      · exact visit offset time visited isScan

theorem nextTimerInterrupt_spec (timely : Timely base ticks deadline) :
    ∃ time, base.nextTimerInterrupt = time % 4294967296 ∧ ticks ≤ time ∧
      Least (ticks + nextTimerMaxDelta) (Seen base deadline 5) time := by
  have isIndex : base.timerJiffies % 256 = ticks % 256 := by
    rw [timely.clock]
    omega
  have isUnit : wheel.unit 1 = 256 := rfl
  have isUpcoming : wheel.upcoming ticks 1 = (ticks + 255) / 256 := rfl
  have isCounter : (if base.timerJiffies % 256 = 0 then base.timerJiffies
      else add base.timerJiffies (256 - base.timerJiffies % 256)) / 256 % 64 ^ 4 =
      wheel.upcoming ticks 1 % 64 ^ 4 := by
    rw [isUpcoming, isIndex, timely.clock]
    unfold add
    split_ifs with isZero <;> omega
  have high : ticks + nextTimerMaxDelta < ticks + 2147483648 :=
    Nat.add_lt_add_left (by decide) ticks
  unfold nextTimerInterrupt
  simp only
  generalize (if base.timerJiffies % 256 = 0 then base.timerJiffies
      else add base.timerJiffies (256 - base.timerJiffies % 256)) = later at isCounter ⊢
  rcases scanRoot_spec timely (zero_add 256) (fun slot timer mem => timely.late mem) with
    ⟨isScan, isEmpty⟩ | ⟨found, isFound, isScan, seen, first⟩
  · rw [add_zero, ← isIndex] at isScan
    have isBound : add base.timerJiffies nextTimerMaxDelta =
        (ticks + nextTimerMaxDelta) % 4294967296 := by
      rw [timely.clock]
      unfold add
      omega
    simp only [isScan, isBound]
    exact scanVectors_spec timely (add_comm 4 1) one_ne_zero isCounter
      (le_add_right _ _) high
      ⟨le_rfl, fun moment isSeen => absurd isSeen (isEmpty moment), .inl rfl⟩ (by simp)
  rw [add_zero, ← isIndex] at isScan
  have isLeast : Least (ticks + nextTimerMaxDelta) (Seen base deadline 1)
      (ticks + found) := by
    refine ⟨?_, first, .inr seen⟩
    unfold nextTimerMaxDelta
    omega
  simp only [isScan]
  split_ifs with goesOn
  · refine scanVectors_spec timely (add_comm 4 1) one_ne_zero isCounter
      (le_add_right _ _) high isLeast fun _ => ?_
    rw [isUpcoming, isUnit]
    omega
  refine ⟨ticks + found, rfl, le_add_right _ _, isLeast.extend ?_ ?_⟩
  · rintro moment ⟨lev, isRoot, rest⟩
    exact ⟨lev, by omega, rest⟩
  rintro moment ⟨lev, _, slot, timer, mem, isDue⟩
  by_cases isRoot : lev < 1
  · exact .inl ⟨lev, isRoot, slot, timer, mem, isDue⟩
  refine .inr ?_
  have above := timely.above (not_lt.mp isRoot) mem
  rw [isUpcoming, isUnit, isDue] at above
  omega

end Search

end StreakKernel.TimerWheel
