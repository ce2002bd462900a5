import Mathlib.Algebra.Group.Nat.Defs
import Mathlib.Data.Fintype.Basic
import Mathlib.Tactic.FinCases
import StreakKernel.NandEcc.Basic

/-!
# Signatures of errors

Each bit of the code is the parity of a row, and the rows are sums of words of the buffer. The code
of a buffer with errors is therefore the code of the buffer and the signature of the errors. That
of one wrong bit has a pair of bits for each digit of its address, of which the digit says which one
is set.
-/

namespace StreakKernel.NandEcc

open BitVec

def Buffer.xor (left right : Buffer) : Buffer := fun index => left index ^^^ right index

theorem word_xor (left right : Buffer) (index : ℕ) :
    word (left.xor right) index = word left index ^^^ word right index := by
  refine eq_of_getLsbD_eq fun bit _ => ?_
  simp only [word, Buffer.xor, getLsbD_append, getLsbD_xor]
  split
  · rfl
  · split
    · rfl
    · split <;> rfl

def Parities.xor (left right : Parities) : Parities :=
  ⟨left.par ^^^ right.par, left.rp4 ^^^ right.rp4, left.rp6 ^^^ right.rp6, left.rp8 ^^^ right.rp8,
    left.rp10 ^^^ right.rp10, left.rp12 ^^^ right.rp12, left.rp14 ^^^ right.rp14,
    left.rp16 ^^^ right.rp16⟩

theorem iteration_xor (large : Bool) (i : ℕ) (bp bp' : ℕ → BitVec 32) (sums sums' : Parities) :
    iteration large i (fun index => bp index ^^^ bp' index) (sums.xor sums') =
      (iteration large i bp sums).xor (iteration large i bp' sums') := by
  simp only [iteration, Parities.xor, Parities.mk.injEq]
  refine ⟨?_, ?_, ?_, ?_, ?_, ?_, ?_, ?_⟩
  all_goals
    try split
  all_goals
    ac_rfl

theorem loop_xor (large : Bool) (left right : Buffer) (count : ℕ) :
    loop large (left.xor right) count = (loop large left count).xor (loop large right count) := by
  induction count with
  | zero => simp [loop, Parities.xor]
  | succ i ih =>
    simp only [loop, word_xor, ih]
    exact iteration_xor large i _ _ _ _

theorem xor_and (left right mask : BitVec 32) :
    (left ^^^ right) &&& mask = (left &&& mask) ^^^ (right &&& mask) := by
  refine eq_of_getLsbD_eq fun bit _ => ?_
  simp only [getLsbD_and, getLsbD_xor]
  cases mask.getLsbD bit <;> simp

theorem reduce_xor (left right : BitVec 32) :
    reduce (left ^^^ right) = reduce left ^^^ reduce right := by
  simp only [reduce, ushiftRight_xor_distrib, xor_and]
  ac_rfl

theorem remaining_xor (par par' rp rp' : BitVec 32) :
    remaining (par ^^^ par') (rp ^^^ rp') = remaining par rp ^^^ remaining par' rp' := by
  simp only [remaining, xor_and]
  ac_rfl

section

variable (left right : BitVec 32)
include left right

theorem rp3_xor : rp3 (left ^^^ right) = rp3 left ^^^ rp3 right := by
  simp only [rp3, ushiftRight_xor_distrib, xor_and]
  ac_rfl

theorem rp2_xor : rp2 (left ^^^ right) = rp2 left ^^^ rp2 right := by
  simp only [rp2, ushiftRight_xor_distrib, xor_and]
  ac_rfl

theorem rp1_xor : rp1 (left ^^^ right) = rp1 left ^^^ rp1 right := by
  simp only [rp1, ushiftRight_xor_distrib, xor_and]
  ac_rfl

theorem rp0_xor : rp0 (left ^^^ right) = rp0 left ^^^ rp0 right := by
  simp only [rp0, ushiftRight_xor_distrib, xor_and]
  ac_rfl

end

theorem vec_xor (a0 a1 a2 a3 a4 a5 a6 a7 b0 b1 b2 b3 b4 b5 b6 b7 : BitVec 32) (bit : Fin 8) :
    ![a0 ^^^ b0, a1 ^^^ b1, a2 ^^^ b2, a3 ^^^ b3, a4 ^^^ b4, a5 ^^^ b5, a6 ^^^ b6, a7 ^^^ b7] bit =
      ![a0, a1, a2, a3, a4, a5, a6, a7] bit ^^^ ![b0, b1, b2, b3, b4, b5, b6, b7] bit := by
  fin_cases bit <;> rfl

theorem onlyLarge_xor (large : Bool) (left right : BitVec 32) :
    onlyLarge large (left ^^^ right) = onlyLarge large left ^^^ onlyLarge large right := by
  cases large <;> simp [onlyLarge]

theorem rows_xor (large : Bool) (left right : Parities) (place : Fin 3) (bit : Fin 8) :
    rows large (left.xor right) place bit =
      rows large left place bit ^^^ rows large right place bit := by
  simp only [rows, Parities.xor, reduce_xor, remaining_xor, rp0_xor, rp1_xor, rp2_xor, rp3_xor,
    onlyLarge_xor, xor_and]
  fin_cases place
  all_goals exact vec_xor ..

def odd (row : BitVec 32) : Bool :=
  (List.range 8).foldr (fun bit parity => row.getLsbD bit ^^ parity) false

theorem odd_xor (left right : BitVec 32) : odd (left ^^^ right) = (odd left ^^ odd right) := by
  unfold odd
  induction List.range 8 with
  | nil => rfl
  | cons bit bits ih =>
    rw [List.foldr_cons, List.foldr_cons, List.foldr_cons, ih, getLsbD_xor]
    cases left.getLsbD bit <;> cases right.getLsbD bit <;> simp

def single (bit : Bool) : BitVec 8 := if bit then 1 else 0

theorem invparity_eq {row : BitVec 32} (isByte : row.toNat < 256) :
    invparity row = single (!odd row) := by
  have all : ∀ value < 256, invparity (BitVec.ofNat 32 value) =
      single (!odd (BitVec.ofNat 32 value)) := by decide +kernel
  have isRow := all row.toNat isByte
  rwa [BitVec.ofNat_toNat, BitVec.setWidth_eq] at isRow

theorem rows_lt (large : Bool) (sums : Parities) (place : Fin 3) (bit : Fin 8) :
    (rows large sums place bit).toNat < 256 := by
  have masked : ∀ row mask : BitVec 32, mask.toNat < 256 → (row &&& mask).toNat < 256 := by
    intro row mask isByte
    rw [toNat_and]
    exact lt_of_le_of_lt Nat.and_le_right isByte
  cases large
  all_goals
    fin_cases place <;> fin_cases bit
  all_goals
    first
    | exact masked _ _ (by decide)
    | exact Nat.zero_lt_succ _

theorem getLsbD_pack (bits : Fin 8 → Bool) (pos : Fin 8) :
    (pack fun bit => single (bits bit)).getLsbD pos = bits pos := by
  have all : ∀ b0 b1 b2 b3 b4 b5 b6 b7 pos,
      (pack fun bit => single (![b0, b1, b2, b3, b4, b5, b6, b7] bit)).getLsbD (pos : Fin 8) =
        ![b0, b1, b2, b3, b4, b5, b6, b7] pos := by decide +kernel
  have isBits : bits = ![bits 0, bits 1, bits 2, bits 3, bits 4, bits 5, bits 6, bits 7] := by
    funext bit
    fin_cases bit <;> rfl
  rw [isBits]
  exact all _ _ _ _ _ _ _ _ pos

def signature (large smc : Bool) (errors : Buffer) : Code :=
  let sums := loop large errors (if large then 8 else 4)
  fun place => pack fun bit => single (odd (rows large sums (slot smc place) bit))

theorem pack_xor (left right : Fin 8 → Bool) : (pack fun bit => single (left bit ^^ right bit)) =
      (pack fun bit => single (left bit)) ^^^ pack fun bit => single (right bit) := by
  refine eq_of_getLsbD_eq fun bit inRange => ?_
  have ofLeft := getLsbD_pack left ⟨bit, inRange⟩
  have ofRight := getLsbD_pack right ⟨bit, inRange⟩
  have ofBoth := getLsbD_pack (fun bit => left bit ^^ right bit) ⟨bit, inRange⟩
  rw [getLsbD_xor, ofLeft, ofRight]
  exact ofBoth

theorem calculateEcc_xor (large smc : Bool) (buf errors : Buffer) (place : Fin 3) :
    calculateEcc large smc (buf.xor errors) place =
      calculateEcc large smc buf place ^^^ signature large smc errors place := by
  unfold calculateEcc signature
  simp only [invparity_eq (rows_lt _ _ _ _)]
  rw [← pack_xor]
  refine congrArg pack (funext fun bit => congrArg single ?_)
  rw [loop_xor, rows_xor, odd_xor]
  cases odd (rows large (loop large buf _) _ bit) <;> simp

theorem signature_xor (large smc : Bool) (left right : Buffer) (place : Fin 3) :
    signature large smc (left.xor right) place =
      signature large smc left place ^^^ signature large smc right place := by
  unfold signature
  rw [← pack_xor]
  refine congrArg pack (funext fun bit => congrArg single ?_)
  rw [loop_xor, rows_xor, odd_xor]

/-! ## One wrong bit -/

def errorAt (byte bit : ℕ) : Buffer := fun index => if index = byte then 1#8 <<< bit else 0

theorem invert_eq (buf : Buffer) (byte bit : ℕ) :
    invert buf byte bit = buf.xor (errorAt byte bit) := by
  funext index
  by_cases same : index = byte
  all_goals simp [invert, Buffer.xor, errorAt, same]

theorem word_errorAt (byte : ℕ) (bit : Fin 8) (index : ℕ) : word (errorAt byte bit) index =
      if index = byte / 4 then 1#32 <<< (8 * (byte % 4) + bit.1) else 0 := by
  have places : ∀ place : Fin 4, ∀ bit : Fin 8, (if place.1 = 3 then 1#8 <<< bit.1 else 0) ++
        (if place.1 = 2 then 1#8 <<< bit.1 else 0) ++
        (if place.1 = 1 then 1#8 <<< bit.1 else 0) ++
        (if place.1 = 0 then 1#8 <<< bit.1 else 0) =
      1#32 <<< (8 * place.1 + bit.1) := by decide +kernel
  unfold word errorAt
  by_cases same : index = byte / 4
  · rw [if_pos same, ← places ⟨byte % 4, Nat.mod_lt _ (by decide)⟩ bit]
    have isPlace : ∀ offset < 4, 4 * index + offset = byte ↔ byte % 4 = offset := by omega
    have isFirst := isPlace 0 (by decide)
    simp only [add_zero] at isFirst
    simp [isPlace 3 (by decide), isPlace 2 (by decide), isPlace 1 (by decide), isFirst]
  · rw [if_neg same, if_neg (by omega), if_neg (by omega), if_neg (by omega), if_neg (by omega)]
    rfl

def select (holds : Bool) (value : BitVec 32) : BitVec 32 := if holds then value else 0

def wordParities (large : Bool) (i index : ℕ) (value : BitVec 32) : Parities :=
  { par := value
    rp4 := select (index % 2 == 0) value
    rp6 := select (index / 2 % 2 == 0) value
    rp8 := select (index / 4 % 2 == 0) value
    rp10 := select (index / 8 % 2 == 0) value
    rp12 := select (i &&& 1 == 0) value
    rp14 := select (i &&& 2 == 0) value
    rp16 := select (large && (i &&& 4 == 0)) value }

theorem iteration_congr (large : Bool) (i : ℕ) {bp bp' : ℕ → BitVec 32} (sums : Parities)
    (same : ∀ index : Fin 16, bp index = bp' index) :
    iteration large i bp sums = iteration large i bp' sums := by
  have all := fun index inRange => same ⟨index, inRange⟩
  simp [iteration, all 0 (by decide), all 1 (by decide), all 2 (by decide), all 3 (by decide),
    all 4 (by decide), all 5 (by decide), all 6 (by decide), all 7 (by decide), all 8 (by decide),
    all 9 (by decide), all 10 (by decide), all 11 (by decide), all 12 (by decide),
    all 13 (by decide), all 14 (by decide), all 15 (by decide)]

theorem iteration_zero (large : Bool) (i : ℕ) (sums : Parities) :
    iteration large i (fun _ => 0) sums = sums := by
  simp [iteration]

theorem iteration_word (large : Bool) (i : ℕ) (pos : Fin 16) (value : BitVec 32) :
    iteration large i (fun index => if index = pos.1 then value else 0)
      ⟨0, 0, 0, 0, 0, 0, 0, 0⟩ = wordParities large i pos value := by
  fin_cases pos
  all_goals
    simp [iteration, wordParities, select]

theorem loop_errorAt (large : Bool) (byte : ℕ) (bit : Fin 8) (count : ℕ) :
    loop large (errorAt byte bit) count =
      if byte / 64 < count then
        wordParities large (byte / 64) (byte / 4 % 16) (1#32 <<< (8 * (byte % 4) + bit.1))
      else ⟨0, 0, 0, 0, 0, 0, 0, 0⟩ := by
  induction count with
  | zero => rfl
  | succ i ih =>
    rw [loop, ih]
    simp only [word_errorAt]
    by_cases same : byte / 64 = i
    · have isPosition : ∀ index, 16 * i + index = byte / 4 ↔ index = byte / 4 % 16 := by omega
      simp only [isPosition]
      rw [if_neg (by omega), if_pos (by omega), same]
      exact iteration_word large i ⟨byte / 4 % 16, Nat.mod_lt _ (by decide)⟩ _
    have none : ∀ index : Fin 16, 16 * i + index.1 ≠ byte / 4 := by omega
    rw [@iteration_congr large i _ (fun _ => 0) _ fun index => if_neg (none index), iteration_zero]
    by_cases before : byte / 64 < i
    · rw [if_pos before, if_pos (by omega)]
    · rw [if_neg before, if_neg (by omega)]

def digit (number place : ℕ) : Bool := number / 2 ^ place % 2 == 1

/-- A pair of bits for each of four digits, of which the digit says which one is set. -/
def pairBits (number : ℕ) : Fin 8 → Bool :=
  ![!digit number 0, digit number 0, !digit number 1, digit number 1,
    !digit number 2, digit number 2, !digit number 3, digit number 3]

def pairs (number : ℕ) : BitVec 8 := pack fun bit => single (pairBits number bit)

/-- A block of 256 bytes has no pair for the highest digit of a byte's address. -/
def pairMask (large : Bool) : BitVec 8 := if large then 0xff else 0xfc

theorem digit_congr {number other place pos : ℕ}
    (same : number / 2 ^ place % 2 = other / 2 ^ pos % 2) :
    digit number place = digit other pos := by
  rw [digit, digit, same]

theorem digit_half (number place : ℕ) : digit (number / 2) place = digit number (place + 1) := by
  rw [digit, digit, Nat.pow_succ', Nat.div_div_eq_div_mul]

theorem even_eq {number other place : ℕ} (same : number % 2 = other / 2 ^ place % 2) :
    (number % 2 == 0) = !digit other place := by
  rw [digit, ← same]
  rcases Nat.mod_two_eq_zero_or_one number with even | odd
  · rw [even]
    rfl
  · rw [odd]
    rfl

theorem and_eq : ∀ number : Fin 8, (number.1 &&& 1 == 0) = !digit number 0 ∧
    (number.1 &&& 2 == 0) = !digit number 1 ∧ (number.1 &&& 4 == 0) = !digit number 2 := by
  decide

theorem odd_select (pos : Fin 32) {holds found : Bool} (isFound : holds = !found) :
    let value := 1#32 <<< pos.1
    odd (reduce (select holds value)) = !found ∧
      odd (remaining (reduce value) (reduce (select holds value))) = found := by
  subst isFound
  revert pos found
  decide +kernel

theorem odd_par :
    ∀ pos : Fin 32, let value := 1#32 <<< pos.1
      odd (rp0 value) = !digit (pos.1 / 8) 0 ∧ odd (rp1 value) = digit (pos.1 / 8) 0 ∧
      odd (rp2 value) = !digit (pos.1 / 8) 1 ∧ odd (rp3 value) = digit (pos.1 / 8) 1 ∧
      odd (reduce value &&& 0x55) = !digit (pos.1 % 8) 0 ∧
      odd (reduce value &&& 0xaa) = digit (pos.1 % 8) 0 ∧
      odd (reduce value &&& 0x33) = !digit (pos.1 % 8) 1 ∧
      odd (reduce value &&& 0xcc) = digit (pos.1 % 8) 1 ∧
      odd (reduce value &&& 0x0f) = !digit (pos.1 % 8) 2 ∧
      odd (reduce value &&& 0xf0) = digit (pos.1 % 8) 2 := by
  decide +kernel

theorem odd_zero : odd 0 = false := by decide

theorem odd_vec {a0 a1 a2 a3 a4 a5 a6 a7 : BitVec 32} {c0 c1 c2 c3 c4 c5 c6 c7 : Bool}
    (h0 : odd a0 = c0) (h1 : odd a1 = c1) (h2 : odd a2 = c2) (h3 : odd a3 = c3) (h4 : odd a4 = c4)
    (h5 : odd a5 = c5) (h6 : odd a6 = c6) (h7 : odd a7 = c7) (bit : Fin 8) :
    odd (![a0, a1, a2, a3, a4, a5, a6, a7] bit) = ![c0, c1, c2, c3, c4, c5, c6, c7] bit := by
  fin_cases bit <;> assumption

def errorParities (large : Bool) (byte : ℕ) (bit : Fin 8) : Parities :=
  wordParities large (byte / 64) (byte / 4 % 16) (1#32 <<< (8 * (byte % 4) + bit.1))

theorem odd_rows_zero (large : Bool) (byte : ℕ) (bit place : Fin 8) :
    odd (rows large (errorParities large byte bit) 0 place) = pairBits (byte % 16) place := by
  have inWord : 8 * (byte % 4) + bit.1 < 32 := by omega
  have isByte : (8 * (byte % 4) + bit.1) / 8 = byte % 4 := by omega
  have par := odd_par ⟨_, inWord⟩
  simp only [isByte] at par
  have zero : digit (byte % 4) 0 = digit (byte % 16) 0 := digit_congr (by omega)
  have one : digit (byte % 4) 1 = digit (byte % 16) 1 := digit_congr (by omega)
  rw [zero, one] at par
  have two := odd_select ⟨_, inWord⟩ (@even_eq (byte / 4 % 16) (byte % 16) 2 (by omega))
  have three := odd_select ⟨_, inWord⟩ (@even_eq (byte / 4 % 16 / 2) (byte % 16) 3 (by omega))
  exact odd_vec par.1 par.2.1 par.2.2.1 par.2.2.2.1 two.1 two.2 three.1 three.2 place

theorem odd_rows_one (large : Bool) {byte : ℕ} (inBlock : byte < 512) (bit place : Fin 8) :
    odd (rows large (errorParities large byte bit) 1 place) = pairBits (byte / 16 % 16) place := by
  have inWord : 8 * (byte % 4) + bit.1 < 32 := by omega
  have inBlocks : byte / 64 < 8 := by omega
  have zero := odd_select ⟨_, inWord⟩ (@even_eq (byte / 4 % 16 / 4) (byte / 16 % 16) 0 (by omega))
  have one := odd_select ⟨_, inWord⟩ (@even_eq (byte / 4 % 16 / 8) (byte / 16 % 16) 1 (by omega))
  have isTwo : digit (byte / 64) 0 = digit (byte / 16 % 16) 2 := digit_congr (by omega)
  have isThree : digit (byte / 64) 1 = digit (byte / 16 % 16) 3 := digit_congr (by omega)
  have two := odd_select ⟨_, inWord⟩ (isTwo ▸ (and_eq ⟨_, inBlocks⟩).1)
  have three := odd_select ⟨_, inWord⟩ (isThree ▸ (and_eq ⟨_, inBlocks⟩).2.1)
  exact odd_vec zero.1 zero.2 one.1 one.2 two.1 two.2 three.1 three.2 place

theorem odd_rows_two (large : Bool) {byte : ℕ} (inBlock : byte < 512) (bit place : Fin 8) :
    let number := 2 * bit.1 + byte / 256
    odd (rows large (errorParities large byte bit) 2 place) =
      ![large && !digit number 0, large && digit number 0, !digit number 1, digit number 1,
        !digit number 2, digit number 2, !digit number 3, digit number 3] place := by
  have inWord : 8 * (byte % 4) + bit.1 < 32 := by omega
  have inBlocks : byte / 64 < 8 := by omega
  have isBit : (8 * (byte % 4) + bit.1) % 8 = bit.1 := by omega
  have par := odd_par ⟨_, inWord⟩
  simp only [isBit] at par
  have isHalf : (2 * bit.1 + byte / 256) / 2 = bit.1 := by omega
  have isZero : digit (byte / 64) 2 = digit (2 * bit.1 + byte / 256) 0 := by
    have isLow : digit (byte / 64) 2 = digit (byte / 256) 0 := digit_congr (by omega)
    rw [isLow]
    exact digit_congr (by omega)
  have half : ∀ place, digit bit.1 place = digit (2 * bit.1 + byte / 256) (place + 1) := by
    intro place
    rw [← digit_half, isHalf]
  rw [half 0, half 1, half 2] at par
  rcases par with ⟨_, _, _, _, low0, high0, low1, high1, low2, high2⟩
  have zero := odd_select ⟨_, inWord⟩ (isZero ▸ (and_eq ⟨_, inBlocks⟩).2.2)
  cases large with
  | false => exact odd_vec odd_zero odd_zero low0 high0 low1 high1 low2 high2 place
  | true => exact odd_vec zero.1 zero.2 low0 high0 low1 high1 low2 high2 place

def blockSize (large : Bool) : ℕ := if large then 512 else 256

theorem signature_errorAt (large smc : Bool) (byte : Fin (blockSize large)) (bit : Fin 8) :
    signature large smc (errorAt byte bit) (slot smc 0) = pairs (byte.1 % 16) ∧
      signature large smc (errorAt byte bit) (slot smc 1) = pairs (byte.1 / 16 % 16) ∧
      signature large smc (errorAt byte bit) (slot smc 2) =
        pairs (2 * bit.1 + byte.1 / 256) &&& pairMask large := by
  have twice : ∀ smc place, slot smc (slot smc place) = place := by decide
  have inBlock : byte.1 < 512 ∧ byte.1 / 64 < if large then 8 else 4 := by
    cases large with
    | false =>
      have lt : byte.1 < 256 := byte.2
      exact ⟨by omega, show byte.1 / 64 < 4 by omega⟩
    | true =>
      have lt : byte.1 < 512 := byte.2
      exact ⟨by omega, show byte.1 / 64 < 8 by omega⟩
  have isMasked : ∀ large, ∀ number : Fin 16,
      (pack fun bit => single (![large && !digit number 0, large && digit number 0, !digit number 1,
        digit number 1, !digit number 2, digit number 2, !digit number 3, digit number 3] bit)) =
      pairs number &&& pairMask large := by decide +kernel
  unfold signature
  simp only [twice, loop_errorAt, if_pos inBlock.2]
  refine ⟨?_, ?_, ?_⟩
  · exact congrArg pack (funext fun place => congrArg single (odd_rows_zero large byte bit place))
  · exact congrArg pack (funext fun place =>
      congrArg single (odd_rows_one large inBlock.1 bit place))
  · refine Eq.trans ?_ (isMasked large ⟨2 * bit.1 + byte.1 / 256, by omega⟩)
    exact congrArg pack (funext fun place =>
      congrArg single (odd_rows_two large inBlock.1 bit place))

end StreakKernel.NandEcc
