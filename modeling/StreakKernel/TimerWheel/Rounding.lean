import StreakKernel.TimerWheel.Basic

/-!
# Rounding of the times of timers

`round_jiffies_common` of `kernel/timer.c` moves a timer to a whole second, skewed by processor.
The rounded time is compared with `jiffies` as a plain number, although both wrap.
-/

namespace StreakKernel.TimerWheel

open Word

/-- The time before it is compared with `jiffies`. -/
def roundedJiffies (hz j : ℕ) (cpu : ℤ) (forceUp : Bool) : ℕ :=
  let skew := ofSigned (cpu * 3)
  let skewed := add j skew
  let rem := skewed % hz
  if rem < hz / 4 ∧ forceUp = false then sub (sub skewed rem) skew
  else sub (add (sub skewed rem) hz) skew

def roundJiffiesCommon (hz jiffies j : ℕ) (cpu : ℤ) (forceUp : Bool) : ℕ :=
  let rounded := roundedJiffies hz j cpu forceUp
  if rounded ≤ jiffies then j else rounded

variable {hz j : ℕ}

theorem roundedJiffies_diff (pos : 0 < hz) (lt : hz < 2147483648) (fits : j < 4294967296)
    (cpu : ℤ) (forceUp : Bool) :
    (toSigned (sub (roundedJiffies hz j cpu forceUp) j)).natAbs < hz + 1 ∧
      (forceUp = true → ¬timeBefore (roundedJiffies hz j cpu forceUp) j) := by
  have remLt := Nat.mod_lt (add j (ofSigned (cpu * 3))) pos
  simp only [timeBefore, roundedJiffies]
  generalize add j (ofSigned (cpu * 3)) % hz = rem at *
  generalize ofSigned (cpu * 3) = skew
  split_ifs with down
  · have isRem : toSigned (sub (sub (sub (add j skew) rem) skew) j) = -rem := by
      unfold toSigned sub add
      split_ifs with small <;> omega
    rw [isRem]
    exact ⟨by omega, by simp [down.2]⟩
  · have isRem : toSigned (sub (sub (add (sub (add j skew) rem) hz) skew) j) = hz - rem := by
      unfold toSigned sub add
      split_ifs with small <;> omega
    rw [isRem]
    omega

/-- A time later than `jiffies` as a number, too, that is rounded down below 0, or up to more than
half of the range of `jiffies` ahead without a wrap. -/
def Overshoots (hz jiffies j : ℕ) (cpu : ℤ) (forceUp : Bool) : Prop :=
  let rem := add j (ofSigned (cpu * 3)) % hz
  jiffies < j ∧ if rem < hz / 4 ∧ forceUp = false then j < rem
    else j + (hz - rem) < 4294967296 ∧ jiffies + 2147483648 < j + (hz - rem)

/-- The rounded time is a larger number than `jiffies` but not later just when the rounding
overshoots. -/
theorem overshoots_iff {jiffies : ℕ} (pos : 0 < hz) (lt : hz < 2147483648)
    (fits : j < 4294967296) (now : jiffies < 4294967296) (after : timeBefore jiffies j) (cpu : ℤ)
    (forceUp : Bool) :
    Overshoots hz jiffies j cpu forceUp ↔ jiffies < roundedJiffies hz j cpu forceUp ∧
      ¬timeBefore jiffies (roundedJiffies hz j cpu forceUp) := by
  have remLt := Nat.mod_lt (add j (ofSigned (cpu * 3))) pos
  simp only [timeBefore, roundedJiffies, Overshoots] at after ⊢
  generalize add j (ofSigned (cpu * 3)) % hz = rem at *
  generalize ofSigned (cpu * 3) = skew
  -- the skew cancels
  split_ifs with down
  · have isRounded : sub (sub (add j skew) rem) skew = sub j rem := by
      unfold sub add
      omega
    rw [isRounded]
    unfold toSigned sub at *
    split_ifs at * <;> omega
  · have isRounded : sub (add (sub (add j skew) rem) hz) skew = add j (hz - rem) := by
      unfold sub add
      omega
    rw [isRounded]
    unfold toSigned sub add at *
    split_ifs at * <;> omega

/-- The timer stays after `jiffies`, near its time and not before it if that is forced, just when
the rounding does not overshoot. -/
theorem roundJiffiesCommon_iff {jiffies : ℕ} (pos : 0 < hz) (lt : hz < 2147483648)
    (fits : j < 4294967296) (now : jiffies < 4294967296) (after : timeBefore jiffies j) (cpu : ℤ)
    (forceUp : Bool) :
    (timeBefore jiffies (roundJiffiesCommon hz jiffies j cpu forceUp) ∧
      (toSigned (sub (roundJiffiesCommon hz jiffies j cpu forceUp) j)).natAbs < hz + 1 ∧
      (forceUp = true → ¬timeBefore (roundJiffiesCommon hz jiffies j cpu forceUp) j)) ↔
    ¬Overshoots hz jiffies j cpu forceUp := by
  have near := roundedJiffies_diff pos lt fits cpu forceUp
  rw [overshoots_iff pos lt fits now after, roundJiffiesCommon]
  split_ifs with ate
  · have self : toSigned (sub j j) = 0 := by
      unfold toSigned sub
      split_ifs with small <;> omega
    refine iff_of_true ⟨after, ?_, fun _ => ?_⟩ fun past => by omega
    · rw [self]
      simp
    · simp [timeBefore, self]
  · have larger := Nat.lt_of_not_le ate
    exact ⟨fun all past => past.2 all.1, fun fine =>
      ⟨not_not.mp fun notLater => fine ⟨larger, notLater⟩, near⟩⟩

theorem roundJiffiesCommon_wraps :
    timeBefore 4294967290 (roundJiffiesCommon 100 4294967290 10 1 true) :=
  ((@roundJiffiesCommon_iff 100 10 4294967290 (by decide) (by decide) (by decide) (by decide)
    (by decide +kernel) 1 true).mpr fun past => absurd past.1 (by decide)).1

/-- The rounded time is 6 jiffies below 0. -/
theorem roundJiffiesCommon_past :
    timeBefore 5 6 ∧ timeBefore (roundJiffiesCommon 100 5 6 2 false) 5 := by
  decide +kernel

end StreakKernel.TimerWheel
