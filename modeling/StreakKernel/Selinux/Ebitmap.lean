import StreakKernel.Lib.Run
import StreakKernel.Lib.Word

/-!
# Extensible bitmaps

Shallow embedding of `security/selinux/ss/ebitmap.c` where `unsigned long` has 32 bits. The nodes
of a bitmap are a list, and `none` is an error.
-/

namespace StreakKernel.Selinux

structure EbitmapNode where
  startbit : ℕ
  maps : Fin 6 → BitVec 32

namespace EbitmapNode

def stop (node : EbitmapNode) : ℕ := Word.add node.startbit 192

/-- `EBITMAP_NODE_INDEX`, for a bit of the node. -/
def index (node : EbitmapNode) (bit : ℕ) : Fin 6 := Fin.ofNat 6 ((bit - node.startbit) / 32)

def offset (node : EbitmapNode) (bit : ℕ) : ℕ := (bit - node.startbit) % 32

def setMap (node : EbitmapNode) (index : Fin 6) (map : BitVec 32) : EbitmapNode :=
  { node with maps := Function.update node.maps index map }

def getBit (node : EbitmapNode) (bit : ℕ) : Bool :=
  (node.maps (node.index bit)).getLsbD (node.offset bit)

def setBit (node : EbitmapNode) (bit : ℕ) : EbitmapNode :=
  node.setMap (node.index bit) (node.maps (node.index bit) ||| BitVec.twoPow 32 (node.offset bit))

def clrBit (node : EbitmapNode) (bit : ℕ) : EbitmapNode :=
  node.setMap (node.index bit)
    (node.maps (node.index bit) &&& ~~~BitVec.twoPow 32 (node.offset bit))

/-- `find_first_bit` finds a bit of the node. -/
def anyBit (node : EbitmapNode) : Bool := decide (∃ index, node.maps index ≠ 0)

/-- The loop of `ebitmap_read` over the words of a map, which has 64 bits. -/
def storeMap (node : EbitmapNode) (index : ℕ) (map : ℕ) : EbitmapNode :=
  if map = 0 then node
  else
    let node := node.setMap (Fin.ofNat 6 index) (BitVec.ofNat 32 map)
    if map / 4294967296 = 0 then node
    else node.setMap (Fin.ofNat 6 (index + 1)) (BitVec.ofNat 32 (map / 4294967296))

end EbitmapNode

def newNode (bit : ℕ) : EbitmapNode := ⟨bit - bit % 192, fun _ => 0⟩

def cmpNodes : List EbitmapNode → List EbitmapNode → Bool
  | [], [] => true
  | first :: firsts, second :: seconds =>
    if first.startbit = second.startbit ∧ ∀ index, first.maps index = second.maps index then
      cmpNodes firsts seconds
    else false
  | _, _ => false

def containsNodes : List EbitmapNode → List EbitmapNode → Bool
  | _, [] => true
  | [], _ :: _ => false
  | first :: firsts, second :: seconds =>
    if first.startbit < second.startbit then containsNodes firsts (second :: seconds)
    else if first.startbit = second.startbit then
      if ∀ index, first.maps index &&& second.maps index = second.maps index then
        containsNodes firsts seconds
      else false
    else false

def getNodes (bit : ℕ) : List EbitmapNode → Bool
  | [] => false
  | node :: rest =>
    if node.startbit ≤ bit then
      if bit < node.stop then node.getBit bit else getNodes bit rest
    else false

/-- `ebitmap_set_bit` from a node on: the nodes and `highbit`. `below` is where the previous node
ends, or zero. -/
def setNodes (bit : ℕ) (value alloc : Bool) (highbit : ℕ) :
    ℕ → List EbitmapNode → Option (List EbitmapNode × ℕ)
  | _, [] =>
    let node := newNode bit
    if !value then some ([], highbit)
    else if !alloc then none
    else some ([node.setBit bit], node.stop)
  | below, node :: rest =>
    if node.startbit ≤ bit then
      if bit < node.stop then
        let cleared := node.clrBit bit
        if value then some (node.setBit bit :: rest, highbit)
        else if cleared.anyBit then some (cleared :: rest, highbit)
        else some (rest, if rest.isEmpty then below else highbit)
      else
        (setNodes bit value alloc highbit node.stop rest).map fun result =>
          (node :: result.1, result.2)
    else if !value then some (node :: rest, highbit)
    else if !alloc then none
    else some ((newNode bit).setBit bit :: node :: rest, highbit)

/-- `next_entry` of a number with the given number of bytes, least significant first. -/
def nextEntry (size : ℕ) (fp : List UInt8) : Option (ℕ × List UInt8) :=
  if fp.length < size then none
  else some ((fp.take size).foldr (fun byte value => byte.toNat + 256 * value) 0, fp.drop size)

/-- The loop of `ebitmap_read` when `count` maps are left: the nodes from the last one on. `alloc`
says which allocations succeed. -/
def readNodes (highbit : ℕ) (alloc : ℕ → Bool) :
    ℕ → Option EbitmapNode → List UInt8 → Option (List EbitmapNode)
  | 0, last, _ => some last.toList
  | count + 1, last, fp => do
      let (startbit, fp) ← nextEntry 4 fp
      if startbit % 64 ≠ 0 then none
      else if startbit > Word.sub highbit 64 then none
      else if last.all (·.stop ≤ startbit) then
        if !alloc count then none
        else
          let (map, fp) ← nextEntry 8 fp
          let node := newNode startbit
          let rest ← readNodes highbit alloc count
            (some (node.storeMap ((startbit - node.startbit) / 32) map)) fp
          some (last.toList ++ rest)
      else if last.any (startbit ≤ ·.startbit) then none
      else
        let (map, fp) ← nextEntry 8 fp
        readNodes highbit alloc count
          (last.map fun node => node.storeMap ((startbit - node.startbit) / 32) map) fp

/-- `highbit`, rounded up by `ebitmap_read`. -/
def roundUp (highbit : ℕ) : ℕ :=
  let highbit := Word.add highbit 191
  highbit - highbit % 192

structure Ebitmap where
  nodes : List EbitmapNode
  highbit : ℕ

namespace Ebitmap

def init : Ebitmap := ⟨[], 0⟩

def cmp (first second : Ebitmap) : Bool :=
  first.highbit == second.highbit && cmpNodes first.nodes second.nodes

def contains (first second : Ebitmap) : Bool :=
  if first.highbit < second.highbit then false else containsNodes first.nodes second.nodes

def getBit (ebitmap : Ebitmap) (bit : ℕ) : Bool :=
  if ebitmap.highbit < bit then false else getNodes bit ebitmap.nodes

def setBit (ebitmap : Ebitmap) (bit : ℕ) (value alloc : Bool) : Option Ebitmap :=
  (setNodes bit value alloc ebitmap.highbit 0 ebitmap.nodes).map fun result =>
    ⟨result.1, result.2⟩

def cpy (ebitmap : Ebitmap) (alloc : ℕ → Bool) : Option Ebitmap :=
  if ∀ position < ebitmap.nodes.length, alloc position then some ebitmap else none

def read (fp : List UInt8) (alloc : ℕ → Bool) : Option Ebitmap := do
  let (mapunit, fp) ← nextEntry 4 fp
  let (highbit, fp) ← nextEntry 4 fp
  let (count, fp) ← nextEntry 4 fp
  if mapunit ≠ 64 then none
  else if roundUp highbit = 0 then some init
  else
    let nodes ← readNodes (roundUp highbit) alloc count none fp
    some ⟨nodes, roundUp highbit⟩

end Ebitmap

/-- The bits for which no sum of a `startbit` and `EBITMAP_SIZE` wraps. -/
abbrev Bit : Type := Fin 4294967232

inductive Request where
  | setBit (ebitmap : ℕ) (bit : Bit) (value alloc : Bool)
  | cpy (dst src : ℕ) (alloc : ℕ → Bool)
  | read (ebitmap : ℕ) (fp : List UInt8) (alloc : ℕ → Bool)

/-- A failed `ebitmap_set_bit` changes nothing, the other failures leave an empty bitmap. -/
def step (table : ℕ → Ebitmap) : Request → ℕ → Ebitmap
  | .setBit ebitmap bit value alloc =>
    Function.update table ebitmap
      (((table ebitmap).setBit bit value alloc).getD (table ebitmap))
  | .cpy dst src alloc =>
    let table := Function.update table dst .init
    Function.update table dst (((table src).cpy alloc).getD .init)
  | .read ebitmap fp alloc =>
    Function.update table ebitmap ((Ebitmap.read fp alloc).getD .init)

end StreakKernel.Selinux
