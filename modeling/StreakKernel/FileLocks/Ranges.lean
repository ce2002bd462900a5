import StreakKernel.FileLocks.Basic

/-!
# The range of a request

`flock_to_posix_lock` and `flock64_to_posix_lock` of `fs/locks.c`. The offsets of `struct flock`
have 32 bits, those of `struct flock64` and of a file have 64; `half` is 2 to the number of bits
less one.
-/

namespace StreakKernel.FileLocks

universe u

variable {Owner : Type u} {half : ℤ}

abbrev Offset (half : ℤ) := {value : ℤ // -half ≤ value ∧ value < half}

/-- An offset keeps the low bits of what it is assigned. -/
def wrap (half value : ℤ) : ℤ := (value + half) % (2 * half) - half

inductive Whence
  | seekSet
  | seekCur
  | seekEnd
  | other

structure Flock (half : ℤ) where
  lType : Option LockType
  whence : Whence
  start : Offset half
  len : Offset half

/-- The open file with the size of its inode, and the owner of the locks. -/
structure File (Owner : Type u) where
  owner : Owner
  fPos : ℤ
  size : ℤ

inductive RangeError
  | einval
  | eoverflow

def File.origin (file : File Owner) : Whence → Option ℤ
  | .seekSet => some 0
  | .seekCur => some file.fPos
  | .seekEnd => some file.size
  | .other => none

def toPosixLock (file : File Owner) (l : Flock half) : Except RangeError (Lock Owner) :=
  match file.origin l.whence with
  | none => .error .einval
  | some origin =>
    let start := wrap half (wrap half origin + l.start)
    if start < 0 then .error .einval
    else
      let finish := if 0 < l.len.1 then wrap half (start + l.len - 1)
        else if l.len.1 < 0 then start - 1 else offsetMax
      let start := if l.len.1 < 0 then start + l.len else start
      if start < 0 then .error .einval
      else if finish < start then .error .eoverflow
      else
        match l.lType with
        | none => .error .einval
        | some lType => .ok ⟨true, file.owner, lType, start, finish⟩

def flockToPosixLock (file : File Owner) (l : Flock 2147483648) :
    Except RangeError (Lock Owner) := toPosixLock file l

def flock64ToPosixLock (file : File Owner) (l : Flock 9223372036854775808) :
    Except RangeError (Lock Owner) := toPosixLock file l

/-- The bytes that are meant, when the start counts from `origin`. -/
def exactRange (origin : ℤ) (l : Flock half) : ℤ × ℤ :=
  let first := origin + l.start
  if 0 < l.len.1 then (first, first + l.len - 1)
  else if l.len.1 < 0 then (first + l.len, first - 1) else (first, offsetMax)

def Exact (file : File Owner) (l : Flock half) (result : Except RangeError (Lock Owner)) : Prop :=
  ∀ lock, result = .ok lock →
    ∃ origin ∈ file.origin l.whence, (lock.start, lock.finish) = exactRange origin l

/-- The sum of the origin and `l_start` is no offset, and its low bits are taken for a start, with
the whole range from there on in bounds. -/
def Truncated (file : File Owner) (l : Flock half) : Prop :=
  l.lType ≠ none ∧ ∃ origin ∈ file.origin l.whence,
    ¬(-half ≤ origin + l.start ∧ origin + l.start < half) ∧
      let low := wrap half (origin + l.start)
      0 ≤ low ∧ 0 ≤ low + l.len ∧ low + l.len ≤ half

section

variable (isHalf : half = 2147483648 ∨ half = 9223372036854775808)

include isHalf

theorem wrap_eq_iff (value : ℤ) : wrap half value = value ↔ -half ≤ value ∧ value < half := by
  rcases isHalf with rfl | rfl <;> unfold wrap <;> omega

theorem wrap_wrap_add (value more : ℤ) :
    wrap half (wrap half value + more) = wrap half (value + more) := by
  rcases isHalf with rfl | rfl <;> unfold wrap <;> omega

theorem wrap_bounds (value : ℤ) : -half ≤ wrap half value ∧ wrap half value < half := by
  rcases isHalf with rfl | rfl <;> unfold wrap <;> omega

theorem wrap_finish {low len : ℤ} (nonneg : 0 ≤ low) (lowLt : low < half) (pos : 0 < len)
    (lt : len < half) :
    wrap half (low + len - 1) = if low + len ≤ half then low + len - 1
      else low + len - 1 - 2 * half := by
  split_ifs with fits <;> rcases isHalf with rfl | rfl <;> unfold wrap <;> omega

theorem toPosixLock_exact_iff (file : File Owner) (l : Flock half) :
    Exact file l (toPosixLock file l) ↔ ¬Truncated file l := by
  cases isOrigin : file.origin l.whence with
  | none => simp [Exact, Truncated, toPosixLock, isOrigin]
  | some origin =>
    have bounds := wrap_bounds isHalf (origin + l.start)
    have isFinish := @wrap_finish half isHalf (wrap half (origin + l.start)) l.len
    have isLen := l.len.2
    simp only [Exact, Truncated, toPosixLock, isOrigin, wrap_wrap_add isHalf, exactRange,
      ← wrap_eq_iff isHalf, Option.mem_some_iff, exists_eq_left']
    generalize wrap half (origin + l.start) = low at *
    -- a start that wrapped is recorded, an end that wrapped is refused
    cases l.lType with
    | none => split_ifs <;> simp
    | some lType =>
      rcases Int.lt_trichotomy l.len.1 0 with neg | zero | pos
      · simp only [neg, Int.lt_asymm neg, if_true, if_false]
        split_ifs <;> simp <;> omega
      · simp only [zero, Int.lt_irrefl, if_false, Int.add_zero, offsetMax]
        split_ifs <;> simp <;> omega
      · simp only [pos, Int.lt_asymm pos, if_true, if_false]
        by_cases nonneg : low < 0
        · simp only [nonneg, if_true]
          exact iff_of_true (by simp) fun truncated => by omega
        · rw [isFinish (by omega) bounds.2 pos isLen.2]
          split_ifs <;> simp <;> omega

end

/-- The range is exact or refused unless the start is truncated to the width at hand. -/
theorem flockToPosixLock_exact_iff (file : File Owner) :
    (∀ l, Exact file l (flockToPosixLock file l) ↔ ¬Truncated file l) ∧
      ∀ l, Exact file l (flock64ToPosixLock file l) ↔ ¬Truncated file l :=
  ⟨toPosixLock_exact_iff (.inl rfl) file, toPosixLock_exact_iff (.inr rfl) file⟩

def nextBytes : Flock 2147483648 :=
  ⟨some .readLock, .seekCur, ⟨0, by decide⟩, 7, by decide⟩

theorem flockToPosixLock_truncates :
    ¬Exact ⟨(), 4294967296, 0⟩ nextBytes (flockToPosixLock ⟨(), 4294967296, 0⟩ nextBytes) := by
  intro exact
  rcases exact _ rfl with ⟨origin, isOrigin, same⟩
  cases isOrigin
  exact absurd same (by decide)

end StreakKernel.FileLocks
