import Mathlib.Data.List.TakeWhile
import StreakKernel.Lib.Word

/-!
# Timeouts of user wake locks

Shallow embedding of what `kernel/power/userwakelock.c` does with a string written to
`/sys/power/wake_lock`, where `HZ` is 100. A string is the list of its bytes up to the first zero,
and the search tree of the locks is the list of their names.
-/

namespace StreakKernel.Wakelock

open List

def isspace (c : UInt8) : Bool := c = 32 ∨ 9 ≤ c ∧ c ≤ 13 ∨ c = 160

/-- `isxdigit`, with the value of the digit. -/
def xdigit (c : UInt8) : Option ℕ :=
  if 48 ≤ c ∧ c ≤ 57 then some (c.toNat - 48)
  else if 97 ≤ c ||| 32 ∧ c ||| 32 ≤ 102 then some ((c ||| 32).toNat - 87)
  else none

def simpleGuessBase : List UInt8 → ℕ
  | 48 :: x :: digit :: _ => if x ||| 32 = 120 ∧ (xdigit digit).isSome then 16 else 8
  | 48 :: _ => 8
  | _ => 10

/-- The loop of `simple_strtoull`: the number, and what is left of the string. -/
def readDigits (base : ℕ) : ℕ → List UInt8 → ℕ × List UInt8
  | result, [] => (result, [])
  | result, c :: cp =>
    match xdigit c with
    | some value =>
      if base ≤ value then (result, c :: cp)
      else readDigits base ((result * base + value) % 18446744073709551616) cp
    | none => (result, c :: cp)

/-- `simple_strtoull` with the base 0. -/
def simpleStrtoull (cp : List UInt8) : ℕ × List UInt8 :=
  let base := simpleGuessBase cp
  readDigits base 0 (if base = 16 then cp.drop 2 else cp)

/-- The jiffies for a number of nanoseconds, which become a `long`. -/
def toJiffies (nanoseconds : ℕ) : ℤ :=
  let timeout := (nanoseconds + 9999999) % 18446744073709551616 / 10000000
  Word.toSigned ((if timeout ≤ 0 then 1 else timeout) % 4294967296)

/-- The name and the timeout that `lookup_wake_lock_name` finds in a string, unless it is a bad
argument. -/
def parseArg (buf : List UInt8) : Option (List UInt8 × ℤ) :=
  let name := buf.takeWhile fun c => !isspace c
  let arg := (buf.dropWhile fun c => !isspace c).dropWhile isspace
  if name = [] then none
  else if arg = [] then some (name, 0)
  else
    let (timeout, arg) := simpleStrtoull arg
    if arg.dropWhile isspace = [] then some (name, toJiffies timeout) else none

/-- What `wake_lock_store` does with the lock. -/
inductive Store where
  | error
  | wakeLock
  | wakeLockTimeout (timeout : ℤ)
  deriving DecidableEq, Repr

/-- `wake_lock_store`: the names of the locks, and what is done. `alloc` tells of memory for a new
lock. -/
def wakeLockStore (names : List (List UInt8)) (alloc : Bool) (written : List UInt8) :
    List (List UInt8) × Store :=
  match parseArg (written.takeWhile (· ≠ 0)) with
  | none => (names, .error)
  | some (name, timeout) =>
    if name ∉ names ∧ alloc = false then (names, .error)
    else
      (if name ∈ names then names else name :: names,
        if timeout = 0 then .wakeLock else .wakeLockTimeout timeout)

/-- The lock is not held for less than a number of nanoseconds. -/
def NotShortened (nanoseconds : ℕ) : Store → Prop
  | .error => True
  | .wakeLock => True
  | .wakeLockTimeout timeout => (nanoseconds : ℤ) ≤ timeout * 10000000

instance NotShortened.decidable (nanoseconds : ℕ) :
    ∀ store, Decidable (NotShortened nanoseconds store)
  | .error => .isTrue trivial
  | .wakeLock => .isTrue trivial
  | .wakeLockTimeout timeout => inferInstanceAs (Decidable ((nanoseconds : ℤ) ≤ timeout * 10000000))

/-- The value of decimal digits behind those of another number. -/
def decimalFrom : ℕ → List UInt8 → ℕ := foldl fun value digit => value * 10 + (digit.toNat - 48)

/-- A name and a number of nanoseconds, which begins with 0 only if it is 0. -/
structure Argument where
  name : List UInt8
  gap : List UInt8
  digits : List UInt8
  trail : List UInt8
  isName : name ≠ []
  plain : ∀ c ∈ name, c ≠ 0 ∧ isspace c = false
  isGap : gap ≠ []
  blank : ∀ c ∈ gap ++ trail, isspace c = true
  decimal : ∀ c ∈ digits, 48 ≤ c ∧ c ≤ 57
  numeral : digits = [48] ∨ ∃ c rest, digits = c :: rest ∧ c ≠ 48
  fits : decimalFrom 0 digits < 18446744073709551616

namespace Argument

variable (argument : Argument)

def nanoseconds : ℕ := decimalFrom 0 argument.digits

def buf : List UInt8 := argument.name ++ (argument.gap ++ (argument.digits ++ argument.trail))

end Argument

section Parse

variable {c : UInt8} {digits trail : List UInt8} {result : ℕ}

theorem blank_ne (blank : isspace c = true) : c ≠ 0 ∧ xdigit c = none ∧ c ||| 32 ≠ 120 := by
  have all : ∀ bits : BitVec 8, isspace ⟨bits⟩ = true →
      (⟨bits⟩ : UInt8) ≠ 0 ∧ xdigit ⟨bits⟩ = none ∧ (⟨bits⟩ : UInt8) ||| 32 ≠ 120 := by
    decide
  exact all c.toBitVec blank

theorem digit_ne (decimal : 48 ≤ c ∧ c ≤ 57) : c ≠ 0 ∧ isspace c = false := by
  have all : ∀ bits : BitVec 8, 48 ≤ (⟨bits⟩ : UInt8) ∧ (⟨bits⟩ : UInt8) ≤ 57 →
      (⟨bits⟩ : UInt8) ≠ 0 ∧ isspace ⟨bits⟩ = false := by
    decide
  exact all c.toBitVec decimal

theorem readDigits_blank (base result : ℕ) (blank : ∀ c ∈ trail, isspace c = true) :
    readDigits base result trail = (result, trail) := by
  cases trail with
  | nil => rfl
  | cons c trail =>
    rw [readDigits, (blank_ne (blank c mem_cons_self)).2.1]

theorem le_decimalFrom (digits : List UInt8) (result : ℕ) : result ≤ decimalFrom result digits := by
  induction digits generalizing result with
  | nil => exact le_refl result
  | cons digit digits ih => exact le_trans (by omega) (ih (result * 10 + (digit.toNat - 48)))

theorem readDigits_decimal (decimal : ∀ c ∈ digits, 48 ≤ c ∧ c ≤ 57)
    (blank : ∀ c ∈ trail, isspace c = true)
    (fits : decimalFrom result digits < 18446744073709551616) :
    readDigits 10 result (digits ++ trail) = (decimalFrom result digits, trail) := by
  induction digits generalizing result with
  | nil => exact readDigits_blank 10 result blank
  | cons digit digits ih =>
    have isDigit := decimal digit mem_cons_self
    have small : digit.toNat ≤ 57 := isDigit.2
    have read := lt_of_le_of_lt (le_decimalFrom digits _) fits
    rw [cons_append, readDigits, xdigit, if_pos isDigit]
    dsimp only
    rw [if_neg (by omega), Nat.mod_eq_of_lt read]
    exact ih (fun c mem => decimal c (mem_cons_of_mem _ mem)) fits

theorem simpleGuessBase_zero (blank : ∀ c ∈ trail, isspace c = true) :
    simpleGuessBase (48 :: trail) = 8 := by
  rcases trail with _ | ⟨x, _ | ⟨digit, rest⟩⟩
  · rfl
  · rfl
  · exact if_neg fun isHex => (blank_ne (blank x mem_cons_self)).2.2 isHex.1

end Parse

theorem Argument.simpleStrtoull_eq (argument : Argument) :
    simpleStrtoull (argument.digits ++ argument.trail) =
      (argument.nanoseconds, argument.trail) := by
  have blank : ∀ c ∈ argument.trail, isspace c = true :=
    fun c mem => argument.blank c (mem_append_right _ mem)
  unfold simpleStrtoull nanoseconds
  rcases argument.numeral with isZero | ⟨c, rest, isDigits, nonzero⟩
  · rw [isZero, singleton_append, simpleGuessBase_zero blank]
    exact readDigits_blank 8 0 blank
  have isBase : simpleGuessBase (argument.digits ++ argument.trail) = 10 := by
    rw [isDigits, cons_append]
    unfold simpleGuessBase
    split
    · next same => exact absurd (cons.inj same).1 nonzero
    · next same => exact absurd (cons.inj same).1 nonzero
    · rfl
  rw [isBase]
  exact readDigits_decimal argument.decimal blank argument.fits

theorem Argument.takeWhile_buf (argument : Argument) :
    argument.buf.takeWhile (· ≠ 0) = argument.buf := by
  refine takeWhile_eq_self_iff.mpr fun c mem => decide_eq_true ?_
  simp only [buf, mem_append] at mem
  rcases mem with inName | inGap | inDigits | inTrail
  · exact (argument.plain c inName).1
  · exact (blank_ne (argument.blank c (mem_append_left _ inGap))).1
  · exact (digit_ne (argument.decimal c inDigits)).1
  · exact (blank_ne (argument.blank c (mem_append_right _ inTrail))).1

theorem Argument.parseArg_eq (argument : Argument) :
    parseArg argument.buf = some (argument.name, toJiffies argument.nanoseconds) := by
  have plain : ∀ c ∈ argument.name, (!isspace c) = true := fun c mem => by
    rw [(argument.plain c mem).2]
    rfl
  have blank := fun c mem => argument.blank c (mem_append_left _ mem)
  rcases isGap : argument.gap with _ | ⟨space, gap⟩
  · exact absurd isGap argument.isGap
  rcases isDigits : argument.digits with _ | ⟨digit, digits⟩
  · rcases argument.numeral with isZero | ⟨_, _, isNumeral, _⟩
    · exact absurd (isDigits.symm.trans isZero) (cons_ne_nil _ _).symm
    · exact absurd (isDigits.symm.trans isNumeral) (cons_ne_nil _ _).symm
  have isSpace := blank space (isGap ▸ mem_cons_self)
  have notSpace := (digit_ne (argument.decimal digit (isDigits ▸ mem_cons_self))).2
  have isName : argument.buf.takeWhile (fun c => !isspace c) = argument.name := by
    rw [buf, takeWhile_append_of_pos plain, isGap, cons_append,
      takeWhile_cons_of_neg (by simp [isSpace]), append_nil]
  have isArg : (argument.buf.dropWhile fun c => !isspace c).dropWhile isspace =
      argument.digits ++ argument.trail := by
    rw [buf, dropWhile_append_of_pos plain, isGap, cons_append,
      dropWhile_cons_of_neg (by simp [isSpace]), ← cons_append, ← isGap,
      dropWhile_append_of_pos blank, isDigits, cons_append,
      dropWhile_cons_of_neg (by simp [notSpace])]
  have isTrail := dropWhile_eq_nil_iff.mpr fun c mem =>
      argument.blank c (mem_append_right _ mem)
  unfold parseArg
  dsimp only
  rw [isName, isArg, if_neg argument.isName, if_neg (by simp [isDigits]),
    argument.simpleStrtoull_eq, if_pos isTrail]

theorem le_toJiffies_iff (nanoseconds : ℕ) :
    (nanoseconds : ℤ) ≤ toJiffies nanoseconds * 10000000 ↔ nanoseconds ≤ 21474836470000000 := by
  unfold toJiffies Word.toSigned
  dsimp only
  split_ifs <;> omega

/-- A timeout is not shortened exactly if there is no memory for the lock or the jiffies fit a
`long` or become 0 in it. -/
theorem wakeLockStore_notShortened_iff (names : List (List UInt8)) (alloc : Bool)
    (argument : Argument) :
    NotShortened argument.nanoseconds (wakeLockStore names alloc argument.buf).2 ↔
      argument.name ∉ names ∧ alloc = false ∨ argument.nanoseconds ≤ 21474836470000000 ∨
        toJiffies argument.nanoseconds = 0 := by
  unfold wakeLockStore
  rw [argument.takeWhile_buf, argument.parseArg_eq]
  dsimp only
  by_cases failed : argument.name ∉ names ∧ alloc = false
  · rw [if_pos failed]
    exact iff_of_true trivial (.inl failed)
  rw [if_neg failed]
  by_cases isZero : toJiffies argument.nanoseconds = 0
  · rw [if_pos isZero]
    exact iff_of_true trivial (.inr (.inr isZero))
  · rw [if_neg isZero]
    simp only [failed, isZero, false_or, or_false]
    exact le_toJiffies_iff _

/-- `a 42949672970000000`: 2^32 + 1 jiffies become one. -/
theorem wakeLockStore_shortened : ∃ argument : Argument,
    (wakeLockStore [] true argument.buf).2 = .wakeLockTimeout 1 ∧
      ¬NotShortened argument.nanoseconds (wakeLockStore [] true argument.buf).2 := by
  refine ⟨⟨[97], [32], [52, 50, 57, 52, 57, 54, 55, 50, 57, 55, 48, 48, 48, 48, 48, 48, 48], [], ?_,
    ?_, ?_, ?_, ?_, .inr ⟨52, _, rfl, ?_⟩, ?_⟩, ?_⟩ <;> decide +kernel

end StreakKernel.Wakelock
