import StreakKernel.NandEcc.Signature

/-!
# One error is corrected, two are detected

Two signatures of wrong bits of the data differ in whole pairs.
-/

namespace StreakKernel.NandEcc

/-- A bit that is read back. -/
inductive Position (large : Bool) where
  | data (byte : Fin (blockSize large)) (bit : Fin 8)
  | code (place : Fin 3) (bit : Fin 8)
  deriving DecidableEq

namespace Position

variable {large : Bool}

def flip : Position large → Buffer × Code → Buffer × Code
  | data byte bit, (buf, ecc) => (invert buf byte bit, ecc)
  | code place bit, (buf, ecc) =>
    (buf, Function.update ecc place (ecc place ^^^ 1#8 <<< bit.1))

def errors : Position large → Buffer
  | data byte bit => errorAt byte bit
  | code _ _ => fun _ => 0

def codeErrors : Position large → Code
  | data _ _ => fun _ => 0
  | code place bit => fun other => if other = place then 1#8 <<< bit.1 else 0

def syndrome (smc : Bool) (position : Position large) (place : Fin 3) : BitVec 8 :=
  position.codeErrors (slot smc place) ^^^
    signature large smc position.errors (slot smc place)

theorem flip_eq (pos : Position large) (buf : Buffer) (ecc : Code) : pos.flip (buf, ecc) =
      (buf.xor pos.errors, fun place => ecc place ^^^ pos.codeErrors place) := by
  cases pos with
  | data byte bit => simp [flip, errors, codeErrors, invert_eq]
  | code place bit =>
    refine Prod.ext (funext fun _ => BitVec.xor_zero.symm) (funext fun other => ?_)
    simp only [flip, codeErrors]
    by_cases same : other = place
    · simp [same]
    · simp [same]

end Position

def readBack (large smc : Bool) (read : Buffer × Code) : ℤ × Buffer :=
  correctData large smc read.1 read.2 (calculateEcc large smc read.1)

theorem readBack_xor (large smc : Bool) (buf errors : Buffer) (codeErrors : Code) :
    let differ := fun place =>
      codeErrors (slot smc place) ^^^ signature large smc errors (slot smc place)
    readBack large smc
        (buf.xor errors, fun place => calculateEcc large smc buf place ^^^ codeErrors place) =
      correctBits large (buf.xor errors) (differ 0) (differ 1) (differ 2) := by
  have cancel : ∀ code error change : BitVec 8,
      (code ^^^ error) ^^^ (code ^^^ change) = error ^^^ change := by
    intro code error change
    rw [BitVec.xor_comm code error, BitVec.xor_assoc, ← BitVec.xor_assoc code code, BitVec.xor_self,
      BitVec.zero_xor]
  have last : slot smc 2 = 2 := by cases smc <;> rfl
  simp only [readBack, correctData, calculateEcc_xor, cancel, last]

def codeBits (place : Fin 3) (bit : Fin 8) (other : Fin 3) : BitVec 8 :=
  if other = place then 1#8 <<< bit.1 else 0

def dataBits (large : Bool) (byte : ℕ) (bit : Fin 8) : Fin 3 → BitVec 8 :=
  ![pairs (byte % 16), pairs (byte / 16 % 16), pairs (2 * bit.1 + byte / 256) &&& pairMask large]

section Verdict

variable {large : Bool} {buf : Buffer}

theorem correctBits_rejected {b0 b1 b2 : BitVec 8} (notSingle : ¬isSingle large b0 b1 b2)
    (heavy : 2 ≤ bitsperbyte b0 + bitsperbyte b1 + bitsperbyte b2) :
    correctBits large buf b0 b1 b2 = (-1, buf) := by
  have nonzero : ¬(b0 ||| b1 ||| b2 = 0) := by
    intro zero
    rcases BitVec.or_eq_zero_iff.mp zero with ⟨rest, rfl⟩
    rcases BitVec.or_eq_zero_iff.mp rest with ⟨rfl, rfl⟩
    exact absurd heavy (by decide)
  rw [correctBits, if_neg nonzero, if_neg notSingle, if_neg (by omega)]

theorem correctBits_zero : correctBits large buf 0#8 0#8 0#8 = (0, buf) := by
  rw [correctBits, if_pos (by decide)]

theorem correctBits_code (place : Fin 3) (bit : Fin 8) :
    correctBits large buf (codeBits place bit 0) (codeBits place bit 1) (codeBits place bit 2) =
      (1, buf) := by
  have isCode : ∀ large place bit,
      ¬(codeBits place bit 0 ||| codeBits place bit 1 ||| codeBits place bit 2 = 0) ∧
      ¬isSingle large (codeBits place bit 0) (codeBits place bit 1) (codeBits place bit 2) ∧
      bitsperbyte (codeBits place bit 0) + bitsperbyte (codeBits place bit 1) +
        bitsperbyte (codeBits place bit 2) = 1 := by decide +kernel
  rcases isCode large place bit with ⟨nonzero, notSingle, one⟩
  rw [correctBits, if_neg nonzero, if_neg notSingle, if_pos one]

theorem correctBits_code_code {place place' : Fin 3} {bit bit' : Fin 8}
    (differ : (place, bit) ≠ (place', bit')) :
    correctBits large buf (codeBits place bit 0 ^^^ codeBits place' bit' 0)
      (codeBits place bit 1 ^^^ codeBits place' bit' 1)
      (codeBits place bit 2 ^^^ codeBits place' bit' 2) = (-1, buf) := by
  have isWrong : ∀ large place bit place' bit', (place, bit) ≠ (place', bit') →
      let b0 := codeBits place bit 0 ^^^ codeBits place' bit' 0
      let b1 := codeBits place bit 1 ^^^ codeBits place' bit' 1
      let b2 := codeBits place bit 2 ^^^ codeBits place' bit' 2
      ¬isSingle large b0 b1 b2 ∧ 2 ≤ bitsperbyte b0 + bitsperbyte b1 + bitsperbyte b2 := by
    decide +kernel
  rcases isWrong large place bit place' bit' differ with ⟨notSingle, heavy⟩
  exact correctBits_rejected notSingle heavy

theorem pairs_single : ∀ number : Fin 16, (pairs number ^^^ pairs number >>> 1) &&& 0x55 = 0x55 ∧
    addressbits (pairs number) = number ∧ bitsperbyte (pairs number) = 4 := by
  decide +kernel

def errorBytes : List (BitVec 8) := [0, 1, 2, 4, 8, 16, 32, 64, 128]

theorem mem_errorBytes : ∀ bit : Fin 8, 1#8 <<< bit.1 ∈ errorBytes := by decide

theorem pairs_last : ∀ large, ∀ number : Fin 16, ∀ error ∈ errorBytes,
    let b2 := (pairs number &&& pairMask large) ^^^ error
    let passes := large = false ∧ (b2 ^^^ b2 >>> 1) &&& 0x54 = 0x54 ∨
      large = true ∧ (b2 ^^^ b2 >>> 1) &&& 0x55 = 0x55
    (error = 0 → passes) ∧ (passes → addressbits (b2 >>> 2) = number / 2 ∧
      (large = true → addressbits (b2 &&& 0x3) = number % 2)) := by
  decide +kernel

section Data

variable (byte : Fin (blockSize large)) (bit : Fin 8)

theorem byte_lt : byte.1 < 512 ∧ (large = false → byte.1 < 256) := by
  cases large with
  | false =>
    have lt : byte.1 < 256 := byte.2
    exact ⟨by omega, fun _ => lt⟩
  | true => exact ⟨byte.2, fun isSmall => (nomatch isSmall)⟩

/-- An error in a wrong bit of the data is corrected, also when the last byte of the code has an
error that passes the test. -/
theorem correctBits_passes {error : BitVec 8} (isError : error ∈ errorBytes)
    (passes : isSingle large (dataBits large byte bit 0) (dataBits large byte bit 1)
      (dataBits large byte bit 2 ^^^ error)) :
    correctBits large buf (dataBits large byte bit 0) (dataBits large byte bit 1)
      (dataBits large byte bit 2 ^^^ error) = (1, invert buf byte bit) := by
  rcases byte_lt byte with ⟨inLarge, inSmall⟩
  have low := pairs_single ⟨byte.1 % 16, Nat.mod_lt _ (by decide)⟩
  have middle := pairs_single ⟨byte.1 / 16 % 16, Nat.mod_lt _ (by decide)⟩
  have high := (pairs_last large ⟨2 * bit.1 + byte.1 / 256, by omega⟩ error isError).2 passes.2.2
  have nonzero : ¬(dataBits large byte bit 0 ||| dataBits large byte bit 1 |||
      (dataBits large byte bit 2 ^^^ error) = 0) := by
    intro zero
    have isZero : pairs (byte.1 % 16) = 0 :=
      (BitVec.or_eq_zero_iff.mp (BitVec.or_eq_zero_iff.mp zero).1).1
    have weight := low.2.2
    rw [isZero] at weight
    exact absurd weight (by decide)
  rw [correctBits, if_neg nonzero, if_pos passes]
  have isBit : addressbits ((dataBits large byte bit 2 ^^^ error) >>> 2) = bit := by
    refine high.1.trans ?_
    dsimp only
    omega
  have isLow : addressbits (dataBits large byte bit 0) = byte.1 % 16 := low.2.1
  have isMiddle : addressbits (dataBits large byte bit 1) = byte.1 / 16 % 16 := middle.2.1
  rw [isBit, isLow, isMiddle]
  refine congrArg (fun address => ((1 : ℤ), invert buf address bit)) ?_
  cases large with
  | false =>
    have lt := inSmall rfl
    rw [if_neg (by decide)]
    omega
  | true =>
    have isHigh : addressbits ((dataBits true byte bit 2 ^^^ error) &&& 0x3) =
        (2 * bit.1 + byte.1 / 256) % 2 := high.2 rfl
    rw [if_pos rfl, isHigh]
    omega

theorem correctBits_data :
    correctBits large buf (dataBits large byte bit 0) (dataBits large byte bit 1)
      (dataBits large byte bit 2) = (1, invert buf byte bit) := by
  have low := pairs_single ⟨byte.1 % 16, Nat.mod_lt _ (by decide)⟩
  have middle := pairs_single ⟨byte.1 / 16 % 16, Nat.mod_lt _ (by decide)⟩
  have inLarge := (byte_lt byte).1
  have high := (pairs_last large ⟨2 * bit.1 + byte.1 / 256, by omega⟩ 0 (by decide)).1 rfl
  have corrected := @correctBits_passes large buf byte bit 0#8 (by decide) ⟨low.1, middle.1, high⟩
  rwa [BitVec.xor_zero] at corrected

theorem correctBits_data_code (place : Fin 3) (bit' : Fin 8) :
    let result := correctBits large buf (dataBits large byte bit 0 ^^^ codeBits place bit' 0)
      (dataBits large byte bit 1 ^^^ codeBits place bit' 1)
      (dataBits large byte bit 2 ^^^ codeBits place bit' 2)
    result = (-1, buf) ∨ result = (1, invert buf byte bit) := by
  have broken : ∀ number : Fin 16, ∀ bit : Fin 8, let error := pairs number ^^^ 1#8 <<< bit.1
      (error ^^^ error >>> 1) &&& 0x55 ≠ 0x55 ∧ 2 ≤ bitsperbyte error := by decide +kernel
  have places : ∀ place : Fin 3, place = 0 ∨ place = 1 ∨ place = 2 := by decide
  rcases places place with rfl | rfl | rfl
  · have isBroken := broken ⟨byte.1 % 16, Nat.mod_lt _ (by decide)⟩ bit'
    refine .inl (correctBits_rejected (fun single => isBroken.1 single.1) ?_)
    exact le_trans isBroken.2 (le_trans (Nat.le_add_right _ _) (Nat.le_add_right _ _))
  · have isBroken := broken ⟨byte.1 / 16 % 16, Nat.mod_lt _ (by decide)⟩ bit'
    refine .inl (correctBits_rejected (fun single => isBroken.1 single.2.1) ?_)
    exact le_trans isBroken.2 (le_trans (Nat.le_add_left _ _) (Nat.le_add_right _ _))
  have low := pairs_single ⟨byte.1 % 16, Nat.mod_lt _ (by decide)⟩
  have none : codeBits 2 bit' 0 = 0#8 ∧ codeBits 2 bit' 1 = 0#8 := ⟨rfl, rfl⟩
  have last : codeBits 2 bit' 2 = 1#8 <<< bit'.1 := rfl
  rw [none.1, none.2, last, BitVec.xor_zero, BitVec.xor_zero]
  by_cases passes : isSingle large (dataBits large byte bit 0) (dataBits large byte bit 1)
      (dataBits large byte bit 2 ^^^ 1#8 <<< bit'.1)
  · exact .inr (correctBits_passes byte bit (mem_errorBytes bit') passes)
  · refine .inl (correctBits_rejected passes ?_)
    have weight : bitsperbyte (dataBits large byte bit 0) = 4 := low.2.2
    omega

theorem correctBits_data_data {byte byte' : Fin (blockSize large)} {bit bit' : Fin 8}
    (differ : (byte, bit) ≠ (byte', bit')) :
    correctBits large buf (dataBits large byte bit 0 ^^^ dataBits large byte' bit' 0)
      (dataBits large byte bit 1 ^^^ dataBits large byte' bit' 1)
      (dataBits large byte bit 2 ^^^ dataBits large byte' bit' 2) = (-1, buf) := by
  have whole : ∀ number other : Fin 16, let error := pairs number ^^^ pairs other
      (error ^^^ error >>> 1) &&& 0x55 ≠ 0x55 ∧ bitsperbyte error % 2 = 0 ∧
        (bitsperbyte error = 0 → number.1 = other.1) := by decide +kernel
  have masked : ∀ large, ∀ number other : Fin 16,
      let error := (pairs number &&& pairMask large) ^^^ (pairs other &&& pairMask large)
      bitsperbyte error % 2 = 0 ∧ (bitsperbyte error = 0 →
        number.1 / 2 = other.1 / 2 ∧ (large = true → number.1 % 2 = other.1 % 2)) := by
    decide +kernel
  rcases byte_lt byte with ⟨inLarge, inSmall⟩
  rcases byte_lt byte' with ⟨inLarge', inSmall'⟩
  have low := whole ⟨byte.1 % 16, Nat.mod_lt _ (by decide)⟩ ⟨byte'.1 % 16, Nat.mod_lt _ (by decide)⟩
  have middle := whole ⟨byte.1 / 16 % 16, Nat.mod_lt _ (by decide)⟩
    ⟨byte'.1 / 16 % 16, Nat.mod_lt _ (by decide)⟩
  have high := masked large ⟨2 * bit.1 + byte.1 / 256, by omega⟩
    ⟨2 * bit'.1 + byte'.1 / 256, by omega⟩
  refine correctBits_rejected (fun single => low.1 single.1) (Nat.not_lt.mp fun light => differ ?_)
  change bitsperbyte (pairs (byte.1 % 16) ^^^ pairs (byte'.1 % 16)) +
    bitsperbyte (pairs (byte.1 / 16 % 16) ^^^ pairs (byte'.1 / 16 % 16)) +
    bitsperbyte ((pairs (2 * bit.1 + byte.1 / 256) &&& pairMask large) ^^^
      (pairs (2 * bit'.1 + byte'.1 / 256) &&& pairMask large)) < 2 at light
  dsimp only at low middle high
  rcases high.2 (by omega) with ⟨sameBit, sameHigh⟩
  have sameByte : byte.1 = byte'.1 := by
    cases large with
    | false =>
      have lt := inSmall rfl
      have lt' := inSmall' rfl
      omega
    | true =>
      have same := sameHigh rfl
      omega
  have same : bit.1 = bit'.1 := by omega
  exact Prod.ext (Fin.ext sameByte) (Fin.ext same)

end Data

end Verdict

namespace Position

variable {large : Bool}

theorem signature_zero (smc : Bool) (place : Fin 3) :
    signature large smc (fun _ => 0) place = 0 := by
  have twice := signature_xor large smc (fun _ => 0) (fun _ => 0) place
  have none : Buffer.xor (fun _ => 0) (fun _ => 0) = fun _ => 0 := funext fun _ => BitVec.xor_zero
  rw [none, BitVec.xor_self] at twice
  exact twice

theorem syndrome_data (smc : Bool) (byte : Fin (blockSize large)) (bit : Fin 8) :
    (data byte bit).syndrome smc = dataBits large byte bit := by
  have signatures := signature_errorAt large smc byte bit
  funext place
  refine BitVec.zero_xor.trans ?_
  fin_cases place
  · exact signatures.1
  · exact signatures.2.1
  · exact signatures.2.2

theorem syndrome_code (smc : Bool) (place : Fin 3) (bit : Fin 8) :
    (code place bit : Position large).syndrome smc = codeBits (slot smc place) bit := by
  have back : ∀ smc place other, slot smc other = place ↔ other = slot smc place := by decide
  funext other
  simp only [syndrome, codeErrors, errors, signature_zero, codeBits, back]
  exact BitVec.xor_zero

end Position

theorem Buffer.xor_xor (buf errors : Buffer) : (buf.xor errors).xor errors = buf := by
  funext index
  simp only [Buffer.xor, BitVec.xor_assoc, BitVec.xor_self, BitVec.xor_zero]

theorem readBack_flip (large smc : Bool) (buf : Buffer) (pos : Position large) :
    let differ := pos.syndrome smc
    readBack large smc (pos.flip (buf, calculateEcc large smc buf)) =
      correctBits large (buf.xor pos.errors) (differ 0) (differ 1) (differ 2) := by
  rw [Position.flip_eq]
  exact readBack_xor large smc buf pos.errors pos.codeErrors

theorem readBack_flip_flip (large smc : Bool) (buf : Buffer) (first second : Position large) :
    let differ := fun place => first.syndrome smc place ^^^ second.syndrome smc place
    readBack large smc (second.flip (first.flip (buf, calculateEcc large smc buf))) =
      correctBits large ((buf.xor first.errors).xor second.errors) (differ 0) (differ 1)
        (differ 2) := by
  have both : (buf.xor first.errors).xor second.errors =
      buf.xor (first.errors.xor second.errors) := by
    funext index
    exact BitVec.xor_assoc _ _ _
  have read := readBack_xor large smc buf (first.errors.xor second.errors)
    fun place => first.codeErrors place ^^^ second.codeErrors place
  simp only [signature_xor] at read
  rw [Position.flip_eq, Position.flip_eq, both]
  simp only [BitVec.xor_assoc, Position.syndrome] at read ⊢
  rw [read]
  congr 1
  all_goals
    ac_rfl

/-- One wrong bit is corrected, and two wrong bits are never taken for a block without errors or
with another error. -/
theorem corrects_one_detects_two (large smc : Bool) (buf : Buffer) :
    let written := (buf, calculateEcc large smc buf)
    readBack large smc written = (0, buf) ∧
      (∀ position : Position large, readBack large smc (position.flip written) = (1, buf)) ∧
      ∀ first second : Position large, first ≠ second →
        let result := readBack large smc (second.flip (first.flip written))
        0 ≤ result.1 → result.2 = buf := by
  have none : ∀ buf : Buffer, buf.xor (fun _ => 0) = buf :=
    fun buf => funext fun _ => BitVec.xor_zero
  refine ⟨?_, fun position => ?_, fun first second differ => ?_⟩
  · simp only [readBack, correctData, BitVec.xor_self]
    exact correctBits_zero
  · rw [readBack_flip]
    cases position with
    | data byte bit =>
      rw [Position.syndrome_data, correctBits_data, invert_eq]
      exact congrArg (Prod.mk 1) (Buffer.xor_xor _ _)
    | code place bit =>
      rw [Position.syndrome_code, correctBits_code]
      exact congrArg (Prod.mk 1) (none buf)
  have undetected : ∀ buf' : Buffer, 0 ≤ ((-1 : ℤ), buf').1 → ((-1 : ℤ), buf').2 = buf :=
    fun _ negative => absurd (show (0 : ℤ) ≤ -1 from negative) (by decide)
  rw [readBack_flip_flip]
  cases first with
  | data byte bit =>
    cases second with
    | data byte' bit' =>
      have apart : (byte, bit) ≠ (byte', bit') := fun same => differ (by cases same; rfl)
      simp only [Position.syndrome_data, correctBits_data_data apart]
      exact undetected _
    | code place bit' =>
      simp only [Position.syndrome_data, Position.syndrome_code, Position.errors, none]
      rcases correctBits_data_code byte bit (slot smc place) bit' with rejected | corrected
      · rw [rejected]
        exact undetected _
      · rw [corrected, invert_eq]
        exact fun _ => Buffer.xor_xor _ _
  | code place bit =>
    cases second with
    | data byte bit' =>
      simp only [Position.syndrome_data, Position.syndrome_code, Position.errors, none,
        BitVec.xor_comm (codeBits _ _ _)]
      rcases correctBits_data_code byte bit' (slot smc place) bit with rejected | corrected
      · rw [rejected]
        exact undetected _
      · rw [corrected, invert_eq]
        exact fun _ => Buffer.xor_xor _ _
    | code place' bit' =>
      have apart : (slot smc place, bit) ≠ (slot smc place', bit') := by
        intro same
        rcases Prod.mk.inj same with ⟨sameSlot, rfl⟩
        have injective : ∀ smc place place', slot smc place = slot smc place' →
            place = place' := by decide
        exact differ (by rw [injective smc place place' sameSlot])
      simp only [Position.syndrome_code, correctBits_code_code apart]
      exact undetected _

end StreakKernel.NandEcc
