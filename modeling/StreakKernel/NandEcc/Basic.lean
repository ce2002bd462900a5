import Mathlib.Data.Fin.VecNotation

/-!
# Error-correcting code of NAND flash

Shallow embedding of `drivers/mtd/nand/nand_ecc.c` on a little-endian machine. `large` is a block
of 512 bytes, and `smc` is `CONFIG_MTD_NAND_ECC_SMC`.
-/

namespace StreakKernel.NandEcc

def invparityTable : List ℕ :=
  [1, 0, 0, 1, 0, 1, 1, 0, 0, 1, 1, 0, 1, 0, 0, 1, 0, 1, 1, 0, 1, 0, 0, 1, 1, 0, 0, 1, 0, 1, 1, 0,
   0, 1, 1, 0, 1, 0, 0, 1, 1, 0, 0, 1, 0, 1, 1, 0, 1, 0, 0, 1, 0, 1, 1, 0, 0, 1, 1, 0, 1, 0, 0, 1,
   0, 1, 1, 0, 1, 0, 0, 1, 1, 0, 0, 1, 0, 1, 1, 0, 1, 0, 0, 1, 0, 1, 1, 0, 0, 1, 1, 0, 1, 0, 0, 1,
   1, 0, 0, 1, 0, 1, 1, 0, 0, 1, 1, 0, 1, 0, 0, 1, 0, 1, 1, 0, 1, 0, 0, 1, 1, 0, 0, 1, 0, 1, 1, 0,
   0, 1, 1, 0, 1, 0, 0, 1, 1, 0, 0, 1, 0, 1, 1, 0, 1, 0, 0, 1, 0, 1, 1, 0, 0, 1, 1, 0, 1, 0, 0, 1,
   1, 0, 0, 1, 0, 1, 1, 0, 0, 1, 1, 0, 1, 0, 0, 1, 0, 1, 1, 0, 1, 0, 0, 1, 1, 0, 0, 1, 0, 1, 1, 0,
   1, 0, 0, 1, 0, 1, 1, 0, 0, 1, 1, 0, 1, 0, 0, 1, 0, 1, 1, 0, 1, 0, 0, 1, 1, 0, 0, 1, 0, 1, 1, 0,
   0, 1, 1, 0, 1, 0, 0, 1, 1, 0, 0, 1, 0, 1, 1, 0, 1, 0, 0, 1, 0, 1, 1, 0, 0, 1, 1, 0, 1, 0, 0, 1]

def bitsperbyteTable : List ℕ :=
  [0, 1, 1, 2, 1, 2, 2, 3, 1, 2, 2, 3, 2, 3, 3, 4, 1, 2, 2, 3, 2, 3, 3, 4, 2, 3, 3, 4, 3, 4, 4, 5,
   1, 2, 2, 3, 2, 3, 3, 4, 2, 3, 3, 4, 3, 4, 4, 5, 2, 3, 3, 4, 3, 4, 4, 5, 3, 4, 4, 5, 4, 5, 5, 6,
   1, 2, 2, 3, 2, 3, 3, 4, 2, 3, 3, 4, 3, 4, 4, 5, 2, 3, 3, 4, 3, 4, 4, 5, 3, 4, 4, 5, 4, 5, 5, 6,
   2, 3, 3, 4, 3, 4, 4, 5, 3, 4, 4, 5, 4, 5, 5, 6, 3, 4, 4, 5, 4, 5, 5, 6, 4, 5, 5, 6, 5, 6, 6, 7,
   1, 2, 2, 3, 2, 3, 3, 4, 2, 3, 3, 4, 3, 4, 4, 5, 2, 3, 3, 4, 3, 4, 4, 5, 3, 4, 4, 5, 4, 5, 5, 6,
   2, 3, 3, 4, 3, 4, 4, 5, 3, 4, 4, 5, 4, 5, 5, 6, 3, 4, 4, 5, 4, 5, 5, 6, 4, 5, 5, 6, 5, 6, 6, 7,
   2, 3, 3, 4, 3, 4, 4, 5, 3, 4, 4, 5, 4, 5, 5, 6, 3, 4, 4, 5, 4, 5, 5, 6, 4, 5, 5, 6, 5, 6, 6, 7,
   3, 4, 4, 5, 4, 5, 5, 6, 4, 5, 5, 6, 5, 6, 6, 7, 4, 5, 5, 6, 5, 6, 6, 7, 5, 6, 6, 7, 6, 7, 7, 8]

def addressbitsTable : List ℕ :=
  [0, 0, 1, 1, 0, 0, 1, 1, 2, 2, 3, 3, 2, 2, 3, 3, 0, 0, 1, 1, 0, 0, 1, 1, 2, 2, 3, 3, 2, 2, 3, 3,
   4, 4, 5, 5, 4, 4, 5, 5, 6, 6, 7, 7, 6, 6, 7, 7, 4, 4, 5, 5, 4, 4, 5, 5, 6, 6, 7, 7, 6, 6, 7, 7,
   0, 0, 1, 1, 0, 0, 1, 1, 2, 2, 3, 3, 2, 2, 3, 3, 0, 0, 1, 1, 0, 0, 1, 1, 2, 2, 3, 3, 2, 2, 3, 3,
   4, 4, 5, 5, 4, 4, 5, 5, 6, 6, 7, 7, 6, 6, 7, 7, 4, 4, 5, 5, 4, 4, 5, 5, 6, 6, 7, 7, 6, 6, 7, 7,
   8, 8, 9, 9, 8, 8, 9, 9, 10, 10, 11, 11, 10, 10, 11, 11, 8, 8, 9, 9, 8, 8, 9, 9, 10, 10, 11, 11,
   10, 10, 11, 11, 12, 12, 13, 13, 12, 12, 13, 13, 14, 14, 15, 15, 14, 14, 15, 15, 12, 12, 13, 13,
   12, 12, 13, 13, 14, 14, 15, 15, 14, 14, 15, 15, 8, 8, 9, 9, 8, 8, 9, 9, 10, 10, 11, 11, 10, 10,
   11, 11, 8, 8, 9, 9, 8, 8, 9, 9, 10, 10, 11, 11, 10, 10, 11, 11, 12, 12, 13, 13, 12, 12, 13, 13,
   14, 14, 15, 15, 14, 14, 15, 15, 12, 12, 13, 13, 12, 12, 13, 13, 14, 14, 15, 15, 14, 14, 15, 15]

def invparity (row : BitVec 32) : BitVec 8 := BitVec.ofNat 8 (invparityTable.getD row.toNat 0)

def bitsperbyte (byte : BitVec 8) : ℕ := bitsperbyteTable.getD byte.toNat 0

def addressbits (byte : BitVec 8) : ℕ := addressbitsTable.getD byte.toNat 0

abbrev Buffer : Type := ℕ → BitVec 8

def word (buf : Buffer) (index : ℕ) : BitVec 32 :=
  buf (4 * index + 3) ++ buf (4 * index + 2) ++ buf (4 * index + 1) ++ buf (4 * index)

structure Parities where
  par : BitVec 32
  rp4 : BitVec 32
  rp6 : BitVec 32
  rp8 : BitVec 32
  rp10 : BitVec 32
  rp12 : BitVec 32
  rp14 : BitVec 32
  rp16 : BitVec 32

/-- An iteration of the loop over the words from `bp` on. -/
def iteration (large : Bool) (i : ℕ) (bp : ℕ → BitVec 32) (sums : Parities) : Parities :=
  let tmppar := bp 0
  let rp4 := sums.rp4 ^^^ bp 0
  let tmppar := tmppar ^^^ bp 1
  let rp6 := sums.rp6 ^^^ tmppar
  let tmppar := tmppar ^^^ bp 2
  let rp4 := rp4 ^^^ bp 2
  let tmppar := tmppar ^^^ bp 3
  let rp8 := sums.rp8 ^^^ tmppar
  let tmppar := tmppar ^^^ bp 4
  let rp4 := rp4 ^^^ bp 4
  let rp6 := rp6 ^^^ bp 4
  let tmppar := tmppar ^^^ bp 5
  let rp6 := rp6 ^^^ bp 5
  let tmppar := tmppar ^^^ bp 6
  let rp4 := rp4 ^^^ bp 6
  let tmppar := tmppar ^^^ bp 7
  let rp10 := sums.rp10 ^^^ tmppar
  let tmppar := tmppar ^^^ bp 8
  let rp4 := rp4 ^^^ bp 8
  let rp6 := rp6 ^^^ bp 8
  let rp8 := rp8 ^^^ bp 8
  let tmppar := tmppar ^^^ bp 9
  let rp6 := rp6 ^^^ bp 9
  let rp8 := rp8 ^^^ bp 9
  let tmppar := tmppar ^^^ bp 10
  let rp4 := rp4 ^^^ bp 10
  let rp8 := rp8 ^^^ bp 10
  let tmppar := tmppar ^^^ bp 11
  let rp8 := rp8 ^^^ bp 11
  let tmppar := tmppar ^^^ bp 12
  let rp4 := rp4 ^^^ bp 12
  let rp6 := rp6 ^^^ bp 12
  let tmppar := tmppar ^^^ bp 13
  let rp6 := rp6 ^^^ bp 13
  let tmppar := tmppar ^^^ bp 14
  let rp4 := rp4 ^^^ bp 14
  let tmppar := tmppar ^^^ bp 15
  { par := sums.par ^^^ tmppar
    rp4 := rp4
    rp6 := rp6
    rp8 := rp8
    rp10 := rp10
    rp12 := if i &&& 1 = 0 then sums.rp12 ^^^ tmppar else sums.rp12
    rp14 := if i &&& 2 = 0 then sums.rp14 ^^^ tmppar else sums.rp14
    rp16 := if large = true ∧ i &&& 4 = 0 then sums.rp16 ^^^ tmppar else sums.rp16 }

def loop (large : Bool) (buf : Buffer) : ℕ → Parities
  | 0 => ⟨0, 0, 0, 0, 0, 0, 0, 0⟩
  | i + 1 => iteration large i (fun index => word buf (16 * i + index)) (loop large buf i)

def reduce (rp : BitVec 32) : BitVec 32 :=
  let rp := rp ^^^ rp >>> 16
  let rp := rp ^^^ rp >>> 8
  rp &&& 0xff

def rp3 (par : BitVec 32) : BitVec 32 := (par >>> 16 ^^^ par >>> 16 >>> 8) &&& 0xff

def rp2 (par : BitVec 32) : BitVec 32 := (par &&& 0xffff ^^^ (par &&& 0xffff) >>> 8) &&& 0xff

def rp1 (par : BitVec 32) : BitVec 32 := (par ^^^ par >>> 16) >>> 8 &&& 0xff

def rp0 (par : BitVec 32) : BitVec 32 := (par ^^^ par >>> 16) &&& 0xff

def remaining (par rp : BitVec 32) : BitVec 32 := (par ^^^ rp) &&& 0xff

def onlyLarge (large : Bool) (rp : BitVec 32) : BitVec 32 := if large then rp else 0

/-- `rp0` to `rp7`, `rp8` to `rp15`, and the rest. The 3 in the code of 256 bytes is what zero
rows give for `rp16` and `rp17`. -/
def rows (large : Bool) (sums : Parities) : Fin 3 → Fin 8 → BitVec 32 :=
  let rp4 := reduce sums.rp4
  let rp6 := reduce sums.rp6
  let rp8 := reduce sums.rp8
  let rp10 := reduce sums.rp10
  let rp12 := reduce sums.rp12
  let rp14 := reduce sums.rp14
  let rp16 := reduce sums.rp16
  let par := reduce sums.par
  ![![rp0 sums.par, rp1 sums.par, rp2 sums.par, rp3 sums.par,
      rp4, remaining par rp4, rp6, remaining par rp6],
    ![rp8, remaining par rp8, rp10, remaining par rp10,
      rp12, remaining par rp12, rp14, remaining par rp14],
    ![onlyLarge large rp16, onlyLarge large (remaining par rp16),
      par &&& 0x55, par &&& 0xaa, par &&& 0x33, par &&& 0xcc, par &&& 0x0f, par &&& 0xf0]]

def pack (bits : Fin 8 → BitVec 8) : BitVec 8 :=
  bits 7 <<< 7 ||| bits 6 <<< 6 ||| bits 5 <<< 5 ||| bits 4 <<< 4 ||| bits 3 <<< 3 |||
    bits 2 <<< 2 ||| bits 1 <<< 1 ||| bits 0

abbrev Code : Type := Fin 3 → BitVec 8

/-- The byte of the code for `rp0` to `rp7`, `rp8` to `rp15` and the rest. -/
def slot (smc : Bool) (place : Fin 3) : Fin 3 :=
  if smc then place else ![1, 0, 2] place

def calculateEcc (large smc : Bool) (buf : Buffer) : Code :=
  let sums := loop large buf (if large then 8 else 4)
  fun place => pack fun bit => invparity (rows large sums (slot smc place) bit)

/-- The differences of the code belong to an error in one bit of the data. -/
def isSingle (large : Bool) (b0 b1 b2 : BitVec 8) : Prop :=
  (b0 ^^^ b0 >>> 1) &&& 0x55 = 0x55 ∧ (b1 ^^^ b1 >>> 1) &&& 0x55 = 0x55 ∧
    (large = false ∧ (b2 ^^^ b2 >>> 1) &&& 0x54 = 0x54 ∨
      large = true ∧ (b2 ^^^ b2 >>> 1) &&& 0x55 = 0x55)
  deriving Decidable

def invert (buf : Buffer) (byteAddr bitAddr : ℕ) : Buffer :=
  Function.update buf byteAddr (buf byteAddr ^^^ 1#8 <<< bitAddr)

/-- `__nand_correct_data` for the differences of the code. -/
def correctBits (large : Bool) (buf : Buffer) (b0 b1 b2 : BitVec 8) : ℤ × Buffer :=
  if b0 ||| b1 ||| b2 = 0 then (0, buf)
  else if isSingle large b0 b1 b2 then
    let byteAddr := (if large then addressbits (b2 &&& 0x3) * 256 else 0) +
      addressbits b1 * 16 + addressbits b0
    (1, invert buf byteAddr (addressbits (b2 >>> 2)))
  else if bitsperbyte b0 + bitsperbyte b1 + bitsperbyte b2 = 1 then (1, buf)
  else (-1, buf)

def correctData (large smc : Bool) (buf : Buffer) (readEcc calcEcc : Code) : ℤ × Buffer :=
  correctBits large buf (readEcc (slot smc 0) ^^^ calcEcc (slot smc 0))
    (readEcc (slot smc 1) ^^^ calcEcc (slot smc 1)) (readEcc 2 ^^^ calcEcc 2)

end StreakKernel.NandEcc
