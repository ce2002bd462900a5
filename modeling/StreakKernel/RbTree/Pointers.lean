import StreakKernel.RbTree.Basic

/-!
# The nodes of a red-black tree in memory

The model follows `include/linux/rbtree.h` and `lib/rbtree.c` with the nodes at their addresses. A
node keeps its colour in the lowest bit of the word that holds the address of its parent. Reading
or writing through NULL fails. Where the code treats left and right alike, the side is a
parameter. The loops have a number of rounds that they may take at most.
-/

namespace StreakKernel.RbTree

abbrev Address := BitVec 32

def Side.other : Side → Side
  | .left => .right
  | .right => .left

structure RbNode where
  parentColor : Address
  right : Address
  left : Address

/-- The nodes and `root->rb_node`. -/
structure Memory where
  node : Address → RbNode
  root : Address

namespace RbNode

def parent (node : RbNode) : Address := node.parentColor &&& ~~~3#32

/-- `rb_color`, with `RB_RED` as 0 and `RB_BLACK` as 1. -/
def color (node : RbNode) : Color := if node.parentColor &&& 1#32 = 0#32 then .red else .black

def child (node : RbNode) : Side → Address
  | .left => node.left
  | .right => node.right

def setChild (node : RbNode) (side : Side) (child : Address) : RbNode :=
  match side with
  | .left => { node with left := child }
  | .right => { node with right := child }

def setParent (node : RbNode) (parent : Address) : RbNode :=
  { node with parentColor := (node.parentColor &&& 3#32) ||| parent }

def setRed (node : RbNode) : RbNode := { node with parentColor := node.parentColor &&& ~~~1#32 }

def setBlack (node : RbNode) : RbNode := { node with parentColor := node.parentColor ||| 1#32 }

def setColor (node : RbNode) (color : Color) : RbNode :=
  { node with
    parentColor := (node.parentColor &&& ~~~1#32) |||
      match color with
      | .red => 0#32
      | .black => 1#32 }

end RbNode

namespace Memory

def load (memory : Memory) (address : Address) : Option RbNode :=
  if address = 0#32 then none else some (memory.node address)

def put (memory : Memory) (address : Address) (node : RbNode) : Memory :=
  { memory with node := Function.update memory.node address node }

def modify (memory : Memory) (address : Address) (change : RbNode → RbNode) : Option Memory :=
  if address = 0#32 then none else some (memory.put address (change (memory.node address)))

def isRed (memory : Memory) (address : Address) : Bool :=
  decide (address ≠ 0#32) && decide ((memory.node address).color = .red)

/-- The parent or the root gets another child; the two links of the parent are compared from the
side `first`. -/
def relink (first : Side) (memory : Memory) (parent old new : Address) : Option Memory :=
  if parent = 0#32 then some { memory with root := new }
  else do
    let node ← memory.load parent
    if old = node.child first then memory.modify parent fun node => node.setChild first new
    else memory.modify parent fun node => node.setChild first.other new

def rotate (side : Side) (memory : Memory) (node : Address) : Option Memory := do
  let right := (← memory.load node).child side.other
  let parent := (← memory.load node).parent
  let inner := (← memory.load right).child side
  let memory ← memory.modify node fun node => node.setChild side.other inner
  let memory ←
    (if inner = 0#32 then some memory else memory.modify inner fun inner => inner.setParent node)
  let memory ← memory.modify right fun right => right.setChild side node
  let memory ← memory.modify right fun right => right.setParent parent
  let memory ← memory.relink side parent node right
  memory.modify node fun node => node.setParent right

def rbRotateLeft (memory : Memory) (node : Address) : Option Memory := memory.rotate .left node

def rbRotateRight (memory : Memory) (node : Address) : Option Memory := memory.rotate .right node

def rotateTo : Side → Memory → Address → Option Memory
  | .left => rbRotateLeft
  | .right => rbRotateRight

/-! ## Insertion -/

/-- `rb_link_node`; `link` is one of the links of the parent, or `root->rb_node`. -/
def rbLinkNode (memory : Memory) (node parent : Address) (link : Option Side) : Option Memory := do
  let memory ← memory.modify node fun _ => ⟨parent, 0#32, 0#32⟩
  match link with
  | none => some { memory with root := node }
  | some side => memory.modify parent fun parent => parent.setChild side node

/-- One round of `rb_insert_color` for a parent on the given side of its own parent. -/
def insertRound (side : Side) (memory : Memory) (node parent gparent : Address) :
    Option (Memory × Address) := do
  let uncle := (← memory.load gparent).child side.other
  if memory.isRed uncle then
    let memory ← memory.modify uncle RbNode.setBlack
    let memory ← memory.modify parent RbNode.setBlack
    let memory ← memory.modify gparent RbNode.setRed
    return (memory, gparent)
  else if (← memory.load parent).child side.other = node then
    let memory ← memory.rotateTo side parent
    let memory ← memory.modify node RbNode.setBlack
    let memory ← memory.modify gparent RbNode.setRed
    let memory ← memory.rotateTo side.other gparent
    return (memory, parent)
  else
    let memory ← memory.modify parent RbNode.setBlack
    let memory ← memory.modify gparent RbNode.setRed
    let memory ← memory.rotateTo side.other gparent
    return (memory, node)

def insertLoop : ℕ → Memory → Address → Option Memory
  | 0, _, _ => none
  | rounds + 1, memory, node => do
      let parent := (← memory.load node).parent
      if memory.isRed parent then
        let gparent := (← memory.load parent).parent
        let side := if parent = (← memory.load gparent).left then Side.left else Side.right
        let (memory, node) ← memory.insertRound side node parent gparent
        insertLoop rounds memory node
      else some memory

def rbInsertColor (rounds : ℕ) (memory : Memory) (node : Address) : Option Memory := do
  let memory ← memory.insertLoop rounds node
  memory.modify memory.root RbNode.setBlack

/-! ## Removal -/

def raiseSibling (side : Side) (memory : Memory) (parent : Address) :
    Option (Memory × Address) := do
  let other := (← memory.load parent).child side.other
  if (← memory.load other).color = .red then
    let memory ← memory.modify other RbNode.setBlack
    let memory ← memory.modify parent RbNode.setRed
    let memory ← memory.rotateTo side parent
    return (memory, (← memory.load parent).child side.other)
  else return (memory, other)

def turnSibling (side : Side) (memory : Memory) (parent other : Address) :
    Option (Memory × Address) := do
  if memory.isRed ((← memory.load other).child side.other) then return (memory, other)
  else
    let memory ← memory.modify ((← memory.load other).child side) RbNode.setBlack
    let memory ← memory.modify other RbNode.setRed
    let memory ← memory.rotateTo side.other other
    return (memory, (← memory.load parent).child side.other)

/-- A round of `__rb_erase_color` with a black sibling. The result has the next node and its
parent, unless the loop is left. -/
def eraseBlack (side : Side) (memory : Memory) (parent other : Address) :
    Option (Memory × Option (Address × Address)) := do
  let sibling ← memory.load other
  if memory.isRed sibling.left = false ∧ memory.isRed sibling.right = false then
    let memory ← memory.modify other RbNode.setRed
    return (memory, some (parent, (← memory.load parent).parent))
  else
    let (memory, other) ← memory.turnSibling side parent other
    let color := (← memory.load parent).color
    let memory ← memory.modify other fun other => other.setColor color
    let memory ← memory.modify parent RbNode.setBlack
    let memory ← memory.modify ((← memory.load other).child side.other) RbNode.setBlack
    let memory ← memory.rotateTo side parent
    return (memory, none)

/-- One round of `__rb_erase_color` for a node on the given side of its parent. -/
def eraseRound (side : Side) (memory : Memory) (parent : Address) :
    Option (Memory × Option (Address × Address)) := do
  let (memory, other) ← memory.raiseSibling side parent
  memory.eraseBlack side parent other

/-- The end of `__rb_erase_color`. -/
def blacken (memory : Memory) (node : Address) : Option Memory :=
  if node = 0#32 then some memory else memory.modify node RbNode.setBlack

def rbEraseColor : ℕ → Memory → Address → Address → Option Memory
  | 0, _, _, _ => none
  | rounds + 1, memory, node, parent =>
    if memory.isRed node ∨ node = memory.root then memory.blacken node
    else do
      let side := if (← memory.load parent).left = node then Side.left else Side.right
      match ← memory.eraseRound side parent with
      | (memory, some (node, parent)) => rbEraseColor rounds memory node parent
      | (memory, none) => memory.blacken memory.root

def leftmost : ℕ → Memory → Address → Option Address
  | 0, _, _ => none
  | rounds + 1, memory, node => do
      let left := (← memory.load node).left
      if left = 0#32 then some node else leftmost rounds memory left

/-- `rb_erase` of a node with at most one child. -/
def eraseSingle (rounds : ℕ) (memory : Memory) (node child : Address) : Option Memory := do
  let parent := (← memory.load node).parent
  let color := (← memory.load node).color
  let memory ←
    (if child = 0#32 then some memory else memory.modify child fun child => child.setParent parent)
  let memory ← memory.relink .left parent node child
  if color = .black then memory.rbEraseColor rounds child parent else some memory

/-- The next node leaves its place, unless it is the right child of the old one. The result is the
node with a child missing. -/
def detachNext (memory : Memory) (old node child parent : Address) :
    Option (Memory × Address) := do
  if parent = old then return (memory, node)
  else
    let memory ←
      (if child = 0#32 then some memory
        else memory.modify child fun child => child.setParent parent)
    let memory ← memory.modify parent fun parent => parent.setChild .left child
    let right := (← memory.load old).right
    let memory ← memory.modify node fun node => node.setChild .right right
    let memory ← memory.modify right fun right => right.setParent node
    return (memory, parent)

/-- `rb_erase` of a node with two children, in whose place the next node is put. -/
def eraseDouble (rounds : ℕ) (memory : Memory) (old : Address) : Option Memory := do
  let node ← memory.leftmost rounds (← memory.load old).right
  let memory ← memory.relink .left (← memory.load old).parent old node
  let child := (← memory.load node).right
  let parent := (← memory.load node).parent
  let color := (← memory.load node).color
  let (memory, parent) ← memory.detachNext old node child parent
  let word := (← memory.load old).parentColor
  let memory ← memory.modify node fun node => { node with parentColor := word }
  let left := (← memory.load old).left
  let memory ← memory.modify node fun node => node.setChild .left left
  let memory ← memory.modify left fun left => left.setParent node
  if color = .black then memory.rbEraseColor rounds child parent else some memory

def rbErase (rounds : ℕ) (memory : Memory) (node : Address) : Option Memory := do
  if (← memory.load node).left = 0#32 then
    memory.eraseSingle rounds node (← memory.load node).right
  else if (← memory.load node).right = 0#32 then
    memory.eraseSingle rounds node (← memory.load node).left
  else memory.eraseDouble rounds node

end Memory

end StreakKernel.RbTree
