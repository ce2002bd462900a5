import StreakKernel.RbTree.Balance
import StreakKernel.RbTree.Pointers

/-!
# Trees in memory

A tree is stored if its nodes are linked and have their colours. `Focus` describes the
memory around one subtree, so that the steps of the rebalancing are steps from one subtree
to another.
-/

namespace StreakKernel.RbTree

open List RbTree.Tree RbTree.Frame

/-! ## The packed word -/

/-- An address that leaves room for the colour. -/
def Aligned (address : Address) : Prop := address &&& 3#32 = 0#32

theorem aligned_zero : Aligned 0#32 := rfl

section Bits

variable {word addr keep view low : Address}

theorem write_seen (isClear : keep &&& view = 0#32) (isSeen : addr &&& view = addr) :
    ((word &&& keep) ||| addr) &&& view = addr := by
  rw [BitVec.and_or_distrib_right, BitVec.and_assoc, isClear, BitVec.and_zero, BitVec.zero_or,
    isSeen]

theorem write_kept (isApart : addr &&& view = 0#32) (isKept : keep &&& view = view) :
    ((word &&& keep) ||| addr) &&& view = word &&& view := by
  rw [BitVec.and_or_distrib_right, BitVec.and_assoc, isKept, isApart, BitVec.or_zero]

theorem and_not_of_apart (isApart : addr &&& low = 0#32) : addr &&& ~~~low = addr := by
  calc addr &&& ~~~low = (addr &&& low) ||| (addr &&& ~~~low) := by rw [isApart, BitVec.zero_or]
    _ = addr := by rw [← BitVec.and_or_distrib_left, BitVec.or_not_self, BitVec.and_allOnes]

theorem or_eq_write : word ||| low = (word &&& ~~~low) ||| low := by
  apply BitVec.eq_of_getLsbD_eq
  intro i inside
  simp only [BitVec.getLsbD_and, BitVec.getLsbD_or, BitVec.getLsbD_not, inside, decide_true,
    Bool.true_and]
  cases word.getLsbD i <;> cases low.getLsbD i <;> rfl

end Bits

namespace RbNode

variable {node : RbNode} {side : Side} {addr : Address}

theorem child_setChild (node : RbNode) (side other : Side) (addr : Address) :
    (node.setChild side addr).child other =
      if other = side then addr else node.child other := by
  cases side <;> cases other <;> rfl

@[simp]
theorem parent_setChild : (node.setChild side addr).parent = node.parent := by
  cases side <;> rfl

@[simp]
theorem color_setChild : (node.setChild side addr).color = node.color := by
  cases side <;> rfl

@[simp]
theorem child_setParent : (node.setParent addr).child side = node.child side := by
  cases side <;> rfl

theorem parent_setParent (aligned : Aligned addr) : (node.setParent addr).parent = addr :=
  write_seen rfl (and_not_of_apart aligned)

theorem color_setParent (aligned : Aligned addr) : (node.setParent addr).color = node.color := by
  have isApart : addr &&& 1#32 = 0#32 := by
    calc addr &&& 1#32 = (addr &&& 3#32) &&& 1#32 := by rw [BitVec.and_assoc]; rfl
      _ = 0#32 := by rw [aligned, BitVec.zero_and]
  unfold color setParent
  rw [write_kept isApart rfl]

@[simp]
theorem child_setColor (color : Color) : (node.setColor color).child side = node.child side := by
  cases side <;> rfl

@[simp]
theorem parent_setColor (color : Color) : (node.setColor color).parent = node.parent := by
  cases color with
  | red | black => exact write_kept rfl rfl

@[simp]
theorem color_setColor (color : Color) : (node.setColor color).color = color := by
  unfold RbNode.color setColor
  cases color with
  | red =>
    rw [write_seen rfl rfl, if_pos rfl]
  | black =>
    rw [write_seen rfl rfl, if_neg (by decide)]

theorem setRed_eq : node.setRed = node.setColor .red := by
  unfold setRed setColor
  simp only [BitVec.or_zero]

theorem setBlack_eq : node.setBlack = node.setColor .black := by
  unfold setBlack setColor
  simp only [← or_eq_write]

end RbNode

/-! ## Stored trees -/

namespace Tree

def top : Tree Address → Address
  | leaf => 0#32
  | node _ _ value _ => value

end Tree

theorem top_mem {tree : Tree Address} (nonempty : tree.top ≠ 0#32) : tree.top ∈ tree.toList := by
  cases tree with
  | leaf => exact absurd rfl nonempty
  | node color left value right => simp [top, toList]

structure Linked (node : RbNode) (side : Side) (parent : Address) (color : Color)
    (near far : Address) : Prop where
  parent : node.parent = parent
  color : node.color = color
  near : node.child side = near
  far : node.child side.other = far

/-- The nodes of the tree are in memory, below the given parent. -/
def Shows (node : Address → RbNode) : Address → Tree Address → Prop
  | _, .leaf => True
  | parent, .node color left value right =>
    Linked (node value) .left parent color left.top right.top ∧ Shows node value left ∧
      Shows node value right

/-- The node above the hole of a path, with `above` as the parent of the whole. -/
def parentOf (above : Address) : List (Frame Address) → Address
  | [] => above
  | frame :: _ => frame.value

/-- The frames of a path are in memory around a child, and `root` is the address of the whole. -/
def PathShows (node : Address → RbNode) (above root : Address) :
    Address → List (Frame Address) → Prop
  | child, [] => root = child
  | child, frame :: rest =>
    Linked (node frame.value) frame.side (parentOf above rest) frame.color child
        frame.sibling.top ∧
      Shows node frame.value frame.sibling ∧ PathShows node above root frame.value rest

def pathNodes {α : Type} : List (Frame α) → List α
  | [] => []
  | frame :: rest => frame.value :: (frame.sibling.toList ++ pathNodes rest)

namespace Linked

variable {node : RbNode} {side : Side} {parent near far : Address} {color : Color}

section Writes

variable (linked : Linked node side parent color near far)
include linked

theorem flip : Linked node side.other parent color far near := by
  refine ⟨linked.parent, linked.color, linked.far, ?_⟩
  cases side with
  | left => exact linked.near
  | right => exact linked.near

theorem setParent {new : Address} (aligned : Aligned new) :
    Linked (node.setParent new) side new color near far :=
  ⟨RbNode.parent_setParent aligned, (RbNode.color_setParent aligned).trans linked.color,
    RbNode.child_setParent.trans linked.near, RbNode.child_setParent.trans linked.far⟩

theorem setNear (new : Address) : Linked (node.setChild side new) side parent color new far := by
  refine ⟨RbNode.parent_setChild.trans linked.parent, RbNode.color_setChild.trans linked.color,
    ?_, ?_⟩
  · rw [RbNode.child_setChild, if_pos rfl]
  · rw [RbNode.child_setChild, if_neg (by cases side <;> simp [Side.other])]
    exact linked.far

theorem setFar (new : Address) :
    Linked (node.setChild side.other new) side parent color near new := by
  have flipped := (linked.flip.setNear new).flip
  cases side with
  | left => exact flipped
  | right => exact flipped

theorem setColor (new : Color) : Linked (node.setColor new) side parent new near far :=
  ⟨(RbNode.parent_setColor _).trans linked.parent, RbNode.color_setColor _,
    (RbNode.child_setColor _).trans linked.near, (RbNode.child_setColor _).trans linked.far⟩

end Writes

end Linked

section Shows

variable {node after : Address → RbNode} {parent above root child : Address} {tree : Tree Address}
  {path : List (Frame Address)}

theorem shows_fill {frame : Frame Address} {sub : Tree Address} :
    Shows node parent (frame.fill sub) ↔
      Linked (node frame.value) frame.side parent frame.color sub.top frame.sibling.top ∧
        Shows node frame.value sub ∧ Shows node frame.value frame.sibling := by
  rcases frame with ⟨side, color, value, sibling⟩
  cases side with
  | left => exact Iff.rfl
  | right =>
    constructor
    · rintro ⟨linked, ofSibling, ofSub⟩
      exact ⟨linked.flip, ofSub, ofSibling⟩
    · rintro ⟨linked, ofSub, ofSibling⟩
      exact ⟨linked.flip, ofSibling, ofSub⟩

theorem top_fill (frame : Frame Address) (sub : Tree Address) :
    (frame.fill sub).top = frame.value := by
  rcases frame with ⟨side, color, value, sibling⟩
  cases side <;> rfl

theorem Shows.congr (stored : Shows node parent tree)
    (same : ∀ addr ∈ tree.toList, after addr = node addr) : Shows after parent tree := by
  induction tree generalizing parent with
  | leaf => trivial
  | node color left value right ihLeft ihRight =>
    rcases stored with ⟨linked, ofLeft, ofRight⟩
    refine ⟨?_, ihLeft ofLeft ?_, ihRight ofRight ?_⟩
    · rw [same value (by simp [toList])]
      exact linked
    all_goals exact fun addr mem => same addr (by simp [toList, mem])

theorem Shows.reparent {other : Address} (stored : Shows node parent tree)
    (distinct : tree.toList.Nodup) (aligned : Aligned other)
    (atTop : tree.top ≠ 0#32 → after tree.top = (node tree.top).setParent other)
    (nonzero : ∀ addr ∈ tree.toList, addr ≠ 0#32)
    (same : ∀ addr ∈ tree.toList, addr ≠ tree.top → after addr = node addr) :
    Shows after other tree := by
  cases tree with
  | leaf => trivial
  | node color left value right =>
    rcases stored with ⟨linked, ofLeft, ofRight⟩
    simp only [toList, nodup_append, nodup_cons, mem_cons] at distinct
    have isTop := atTop (nonzero value (by simp [toList]))
    simp only [top] at isTop same
    refine ⟨?_, ofLeft.congr ?_, ofRight.congr ?_⟩
    · rw [isTop]
      exact linked.setParent aligned
    · intro addr mem
      exact same addr (by simp [toList, mem]) (distinct.2.2 addr mem value (.inl rfl))
    intro addr mem
    refine same addr (by simp [toList, mem]) ?_
    rintro rfl
    exact distinct.2.1.1 mem

theorem PathShows.congr (stored : PathShows node above root child path)
    (same : ∀ addr ∈ pathNodes path, after addr = node addr) :
    PathShows after above root child path := by
  induction path generalizing child with
  | nil => exact stored
  | cons frame rest ih =>
    rcases stored with ⟨linked, ofSibling, ofRest⟩
    refine ⟨?_, ofSibling.congr ?_, ih ofRest ?_⟩
    · rw [same frame.value (by simp [pathNodes])]
      exact linked
    all_goals exact fun addr mem => same addr (by simp [pathNodes, mem])

theorem shows_zip {sub : Tree Address} :
    Shows node above (zip sub path) ∧ root = (zip sub path).top ↔
      Shows node (parentOf above path) sub ∧ PathShows node above root sub.top path := by
  induction path generalizing sub with
  | nil => exact Iff.rfl
  | cons frame rest ih =>
    rw [zip_cons, ih, shows_fill, top_fill]
    constructor
    · rintro ⟨⟨linked, ofSub, ofSibling⟩, ofRest⟩
      exact ⟨ofSub, linked, ofSibling, ofRest⟩
    · rintro ⟨ofSub, linked, ofSibling, ofRest⟩
      exact ⟨⟨linked, ofSub, ofSibling⟩, ofRest⟩

theorem perm_fill {α : Type} (frame : Frame α) (sub : Tree α) :
    (frame.fill sub).toList.Perm (sub.toList ++ frame.value :: frame.sibling.toList) := by
  rcases frame with ⟨side, color, value, sibling⟩
  cases side with
  | left => exact .refl _
  | right =>
    refine perm_append_comm.trans ?_
    exact perm_middle.symm

theorem perm_zip {α : Type} (sub : Tree α) (path : List (Frame α)) :
    (zip sub path).toList.Perm (sub.toList ++ pathNodes path) := by
  induction path generalizing sub with
  | nil => simp [pathNodes, zip]
  | cons frame rest ih =>
    rw [zip_cons]
    refine (ih _).trans (((perm_fill frame sub).append_right _).trans ?_)
    simp [pathNodes]

end Shows

/-! ## Reading and writing -/

namespace Memory

variable {memory : Memory} {addr other : Address}

theorem load_of_ne (nonzero : addr ≠ 0#32) : memory.load addr = some (memory.node addr) :=
  if_neg nonzero

theorem modify_of_ne (nonzero : addr ≠ 0#32) (change : RbNode → RbNode) :
    memory.modify addr change = some (memory.put addr (change (memory.node addr))) :=
  if_neg nonzero

@[simp]
theorem put_self (node : RbNode) : (memory.put addr node).node addr = node :=
  Function.update_self _ _ _

theorem put_of_ne (ne : other ≠ addr) (node : RbNode) :
    (memory.put addr node).node other = memory.node other :=
  Function.update_of_ne ne _ _

theorem rotateTo_eq (side : Side) : rotateTo side = rotate side := by
  cases side <;> rfl

structure Relinked (before after : Memory) (side : Side) (parent new : Address) : Prop where
  atRoot : parent = 0#32 → after.root = new ∧ after.node = before.node
  atParent : parent ≠ 0#32 → after.root = before.root ∧
    after.node parent = (before.node parent).setChild side new ∧
    ∀ address, address ≠ parent → after.node address = before.node address

theorem relink_spec (first : Side) {side : Side} {parent old : Address} (new : Address)
    (isChild : parent ≠ 0#32 → (memory.node parent).child side = old ∧
      (memory.node parent).child side.other ≠ old) :
    ∃ after, memory.relink first parent old new = some after ∧
      Relinked memory after side parent new := by
  unfold relink
  by_cases isRoot : parent = 0#32
  · rw [if_pos isRoot]
    exact ⟨_, rfl, fun _ => ⟨rfl, rfl⟩, fun notRoot => absurd isRoot notRoot⟩
  rw [if_neg isRoot]
  rcases isChild isRoot with ⟨isOld, notOld⟩
  have written : Relinked memory
      (memory.put parent ((memory.node parent).setChild side new)) side parent new :=
    ⟨fun root => absurd root isRoot, fun _ => ⟨rfl, put_self _, fun _ ne =>
      put_of_ne ne _⟩⟩
  simp only [load_of_ne isRoot, modify_of_ne isRoot, Option.bind_eq_bind, Option.bind_some]
  by_cases isFirst : first = side
  · subst isFirst
    rw [if_pos isOld.symm]
    exact ⟨_, rfl, written⟩
  have isOther : first = side.other := by
    cases first <;> cases side <;> first | rfl | exact absurd rfl isFirst
  have isSide : first.other = side := by
    rw [isOther]
    cases side <;> rfl
  rw [isOther, if_neg notOld.symm, ← isOther, isSide]
  exact ⟨_, rfl, written⟩

theorem reparent_spec (memory : Memory) (child parent : Address) :
    ∃ after, (if child = 0#32 then some memory
        else memory.modify child fun child => child.setParent parent) = some after ∧
      after.root = memory.root ∧
      (child ≠ 0#32 → after.node child = (memory.node child).setParent parent) ∧
      ∀ addr, addr ≠ child → after.node addr = memory.node addr := by
  by_cases noChild : child = 0#32
  · rw [if_pos noChild]
    exact ⟨memory, rfl, rfl, fun isChild => absurd noChild isChild, fun _ _ => rfl⟩
  · rw [if_neg noChild, modify_of_ne noChild]
    exact ⟨_, rfl, rfl, fun _ => put_self _, fun _ ne => put_of_ne ne _⟩

/-- What a rotation does to the node, its child, the inner grandchild and the parent. -/
structure Rotated (before after : Memory) (side parentSide : Side)
    (node right inner parent : Address) :
    Prop where
  atNode : after.node node = ((before.node node).setChild side.other inner).setParent right
  atRight : after.node right = ((before.node right).setChild side node).setParent parent
  atInner : inner ≠ 0#32 → after.node inner = (before.node inner).setParent node
  atRoot : parent = 0#32 → after.root = right
  atParent : parent ≠ 0#32 → after.root = before.root ∧
    after.node parent = (before.node parent).setChild parentSide right
  others : ∀ address, address ≠ node → address ≠ right → address ≠ inner → address ≠ parent →
    after.node address = before.node address

theorem rotate_spec {side parentSide : Side} {node right inner parent : Address}
    (nodeNonzero : node ≠ 0#32) (rightNonzero : right ≠ 0#32)
    (isRight : (memory.node node).child side.other = right)
    (isParent : (memory.node node).parent = parent)
    (isInner : (memory.node right).child side = inner)
    (isChild : parent ≠ 0#32 → (memory.node parent).child parentSide = node ∧
      (memory.node parent).child parentSide.other ≠ node) (nodeRight : node ≠ right)
    (innerNode : inner ≠ node) (innerRight : inner ≠ right) (parentNode : parent ≠ node)
    (parentRight : parent ≠ right) (parentInner : parent ≠ 0#32 → parent ≠ inner) :
    ∃ after, memory.rotate side node = some after ∧
      Rotated memory after side parentSide node right inner parent := by
  rcases (memory.put node ((memory.node node).setChild side.other inner)).reparent_spec inner
    node with ⟨middle, isMiddle, middleRoot, atInner, others⟩
  have middleNode : middle.node node = (memory.node node).setChild side.other inner := by
    rw [others node innerNode.symm, put_self]
  have middleInner : inner ≠ 0#32 → middle.node inner = (memory.node inner).setParent node := by
    intro isInner
    rw [atInner isInner, put_of_ne innerNode]
  have middleOther : ∀ addr, addr ≠ node → addr ≠ inner →
      middle.node addr = memory.node addr := by
    intro addr notNode notInner
    rw [others addr notInner, put_of_ne notNode]
  have middleRight := middleOther right nodeRight.symm innerRight.symm
  have raisedChild : parent ≠ 0#32 →
      (((middle.put right ((middle.node right).setChild side node)).put right
        (((middle.node right).setChild side node).setParent parent)).node parent).child parentSide =
          node ∧
      (((middle.put right ((middle.node right).setChild side node)).put right
        (((middle.node right).setChild side node).setParent parent)).node parent).child
          parentSide.other ≠ node := by
    intro notRoot
    rw [put_of_ne parentRight, put_of_ne parentRight,
      middleOther parent parentNode (parentInner notRoot)]
    exact isChild notRoot
  rcases relink_spec side right raisedChild with ⟨linked, isLinked, relinked⟩
  have linkedOther : ∀ addr, addr ≠ parent → addr ≠ right →
      linked.node addr = middle.node addr := by
    intro addr notParent notRight
    by_cases isRoot : parent = 0#32
    · rw [(relinked.atRoot isRoot).2, put_of_ne notRight, put_of_ne notRight]
    · rw [(relinked.atParent isRoot).2.2 addr notParent, put_of_ne notRight, put_of_ne notRight]
  have linkedRight : linked.node right = ((middle.node right).setChild side node).setParent
      parent := by
    by_cases isRoot : parent = 0#32
    · rw [(relinked.atRoot isRoot).2, put_self]
    · rw [(relinked.atParent isRoot).2.2 right parentRight.symm, put_self]
  refine ⟨linked.put node ((linked.node node).setParent right), ?_, ?_⟩
  · unfold rotate
    simp [load_of_ne nodeNonzero, isRight, load_of_ne rightNonzero, isInner, isParent,
      modify_of_ne nodeNonzero, isMiddle, modify_of_ne rightNonzero, isLinked]
  refine ⟨?_, ?_, ?_, ?_, ?_, ?_⟩
  · rw [put_self, linkedOther node parentNode.symm nodeRight, middleNode]
  · rw [put_of_ne nodeRight.symm, linkedRight, middleRight]
  · intro isInner
    have notParent : inner ≠ parent := by
      by_cases isRoot : parent = 0#32
      · rw [isRoot]
        exact isInner
      · exact (parentInner isRoot).symm
    rw [put_of_ne innerNode, linkedOther inner notParent innerRight, middleInner isInner]
  · intro isRoot
    exact (relinked.atRoot isRoot).1
  · intro notRoot
    rcases relinked.atParent notRoot with ⟨sameRoot, isParent, _⟩
    refine ⟨sameRoot.trans middleRoot, ?_⟩
    rw [put_of_ne parentNode, isParent, put_of_ne parentRight, put_of_ne parentRight,
      middleOther parent parentNode (parentInner notRoot)]
  · intro addr notNode notRight notInner notParent
    rw [put_of_ne notNode, linkedOther addr notParent notRight, middleOther addr notNode notInner]

end Memory

/-! ## A subtree in focus -/

theorem PathShows.swing {node after : Address → RbNode} {above root newRoot child new : Address}
    {path : List (Frame Address)} (stored : PathShows node above root child path)
    (distinct : (pathNodes path).Nodup) (atRoot : path = [] → newRoot = new)
    (atParent : ∀ frame rest, path = frame :: rest → newRoot = root ∧
      after frame.value = (node frame.value).setChild frame.side new)
    (same : ∀ addr ∈ pathNodes path, addr ≠ parentOf above path → after addr = node addr) :
    PathShows after above newRoot new path := by
  cases path with
  | nil => exact atRoot rfl
  | cons frame rest =>
    rcases stored with ⟨linked, ofSibling, ofRest⟩
    rcases atParent frame rest rfl with ⟨rfl, isFrame⟩
    have notValue : ∀ addr ∈ frame.sibling.toList ++ pathNodes rest,
        after addr = node addr := by
      intro addr mem
      exact same addr (mem_cons_of_mem _ mem) (ne_of_mem_of_not_mem mem (nodup_cons.mp distinct).1)
    refine ⟨?_, ofSibling.congr fun addr mem => notValue addr
      (mem_append_left _ mem), ofRest.congr fun addr mem => notValue addr
      (mem_append_right _ mem)⟩
    rw [isFrame]
    exact linked.setNear new

/-- The subtree and the path around it are stored, at distinct addresses. -/
structure Focus (memory : Memory) (sub : Tree Address) (path : List (Frame Address)) : Prop where
  ofSub : Shows memory.node (parentOf 0#32 path) sub
  ofPath : PathShows memory.node 0#32 memory.root sub.top path
  distinct : (sub.toList ++ pathNodes path).Nodup
  valid : ∀ address ∈ sub.toList ++ pathNodes path, address ≠ 0#32 ∧ Aligned address

section Focus

variable {memory : Memory} {sub : Tree Address} {path rest : List (Frame Address)}
  {frame : Frame Address}

theorem focus_zip : Focus memory (zip sub path) [] ↔ Focus memory sub path := by
  have perm := perm_zip sub path
  constructor
  · rintro ⟨stored, isRoot, distinct, valid⟩
    rcases shows_zip.mp ⟨stored, isRoot⟩ with ⟨ofSub, ofPath⟩
    simp only [pathNodes, append_nil] at distinct valid
    exact ⟨ofSub, ofPath, perm.nodup_iff.mp distinct, fun addr mem =>
      valid addr (perm.mem_iff.mpr mem)⟩
  rintro ⟨ofSub, ofPath, distinct, valid⟩
  rcases shows_zip.mpr ⟨ofSub, ofPath⟩ with ⟨stored, isRoot⟩
  refine ⟨stored, isRoot, ?_, ?_⟩
  · simpa only [pathNodes, append_nil] using perm.nodup_iff.mpr distinct
  · intro addr mem
    simp only [pathNodes, append_nil] at mem
    exact valid addr (perm.mem_iff.mp mem)

theorem focus_fill : Focus memory (frame.fill sub) rest ↔ Focus memory sub (frame :: rest) := by
  rw [← focus_zip, ← @focus_zip _ sub, zip_cons]

theorem Focus.setColor {color : Color} {left right : Tree Address} {value : Address}
    (focus : Focus memory (.node color left value right) path) (newColor : Color) :
    ∃ after, memory.modify value (fun node => node.setColor newColor) = some after ∧
      Focus after (.node newColor left value right) path := by
  have nonzero : value ≠ 0#32 := (focus.valid value (by simp [toList])).1
  refine ⟨_, Memory.modify_of_ne nonzero _, ?_⟩
  have distinct := focus.distinct
  simp only [toList, append_assoc, cons_append, nodup_append, nodup_cons,
    mem_append, mem_cons, not_or] at distinct
  rcases distinct with ⟨_, ⟨⟨notRight, notPath⟩, _⟩, notLeft⟩
  have same : ∀ addr, addr ≠ value → (memory.put value
      ((memory.node value).setColor newColor)).node addr = memory.node addr :=
    fun _ ne => Memory.put_of_ne ne _
  rcases focus.ofSub with ⟨linked, ofLeft, ofRight⟩
  refine ⟨⟨?_, ofLeft.congr ?_, ofRight.congr ?_⟩, focus.ofPath.congr ?_, focus.distinct,
    focus.valid⟩
  · rw [Memory.put_self]
    exact linked.setColor newColor
  · exact fun addr mem => same addr (notLeft addr mem value (.inl rfl))
  · exact fun addr mem => same addr (ne_of_mem_of_not_mem mem notRight)
  · exact fun addr mem => same addr (ne_of_mem_of_not_mem mem notPath)

theorem Focus.far_ne (focus : Focus memory sub (frame :: rest)) (nonempty : sub.top ≠ 0#32) :
    (memory.node frame.value).child frame.side.other ≠ sub.top := by
  rw [focus.ofPath.1.far]
  intro same
  have mem : sub.top ∈ frame.sibling.toList := by
    rw [← same]
    exact top_mem (same ▸ nonempty)
  exact (nodup_append.mp focus.distinct).2.2 _ (top_mem nonempty) _
    (mem_cons_of_mem _ (mem_append_left _ mem)) rfl

theorem Focus.isChild (focus : Focus memory sub path) (nonempty : sub.top ≠ 0#32) :
    ∃ side, parentOf 0#32 path ≠ 0#32 → (memory.node (parentOf 0#32 path)).child side = sub.top ∧
        (memory.node (parentOf 0#32 path)).child side.other ≠ sub.top ∧
        ∀ frame rest, path = frame :: rest → side = frame.side := by
  cases path with
  | nil => exact ⟨.left, fun notRoot => absurd rfl notRoot⟩
  | cons frame rest =>
    refine ⟨frame.side, fun _ => ⟨focus.ofPath.1.near, focus.far_ne nonempty, ?_⟩⟩
    rintro _ _ ⟨⟩
    rfl

theorem ne_top {addr : Address} (nonzero : addr ≠ 0#32) (notMem : addr ∉ sub.toList) :
    addr ≠ sub.top := by
  rintro rfl
  exact notMem (top_mem nonzero)

theorem parentOf_mem (notRoot : parentOf 0#32 path ≠ 0#32) :
    parentOf 0#32 path ∈ pathNodes path := by
  cases path with
  | nil => exact absurd rfl notRoot
  | cons frame rest => exact mem_cons_self

theorem ne_parentOf {addr : Address} (nonzero : addr ≠ 0#32) (notMem : addr ∉ pathNodes path) :
    addr ≠ parentOf 0#32 path := by
  rintro rfl
  exact notMem (parentOf_mem nonzero)

theorem Focus.frame_nonzero (focus : Focus memory sub (frame :: rest)) : frame.value ≠ 0#32 :=
  (focus.valid frame.value (by simp [pathNodes])).1

theorem Focus.parent_aligned (focus : Focus memory sub path) : Aligned (parentOf 0#32 path) := by
  cases path with
  | nil => exact aligned_zero
  | cons frame rest => exact (focus.valid frame.value (by simp [pathNodes])).2

theorem Focus.rotate {side : Side} {color rightColor : Color} {value rightValue : Address}
    {near inner outer : Tree Address} (focus : Focus memory (fill ⟨side, color, value,
      fill ⟨side, rightColor, rightValue, outer⟩ inner⟩ near) path) :
    ∃ after, memory.rotateTo side value = some after ∧
      Focus after (fill ⟨side, rightColor, rightValue, outer⟩
        (fill ⟨side, color, value, inner⟩ near)) path := by
  have isTop : (fill ⟨side, color, value,
      fill ⟨side, rightColor, rightValue, outer⟩ inner⟩ near).top = value := top_fill _ _
  have perm : ((fill ⟨side, color, value,
      fill ⟨side, rightColor, rightValue, outer⟩ inner⟩ near).toList ++ pathNodes path).Perm
        (value :: rightValue ::
          (inner.toList ++ (near.toList ++ (outer.toList ++ pathNodes path)))) := by
    refine perm_iff_count.mpr fun addr => ?_
    simp only [count_append, (perm_fill _ _).count_eq, count_cons]
    omega
  have permAfter : ((fill ⟨side, rightColor, rightValue, outer⟩
      (fill ⟨side, color, value, inner⟩ near)).toList ++ pathNodes path).Perm
        (value :: rightValue ::
          (inner.toList ++ (near.toList ++ (outer.toList ++ pathNodes path)))) := by
    refine perm_iff_count.mpr fun addr => ?_
    simp only [count_append, (perm_fill _ _).count_eq, count_cons]
    omega
  have valid : ∀ addr ∈ value :: rightValue ::
      (inner.toList ++ (near.toList ++ (outer.toList ++ pathNodes path))),
      addr ≠ 0#32 ∧ Aligned addr :=
    fun addr mem => focus.valid addr (perm.mem_iff.mpr mem)
  have distinct := perm.nodup_iff.mp focus.distinct
  simp only [nodup_cons, nodup_append, mem_cons, mem_append, not_or] at distinct
  rcases distinct with ⟨⟨valueRight, valueInner, valueNear, valueOuter, valuePath⟩,
    ⟨rightInner, rightNear, rightOuter, rightPath⟩, innerDistinct, ⟨_,
      ⟨_, pathDistinct, outerPath⟩, nearApart⟩, innerApart⟩
  simp only [mem_cons, mem_append] at valid
  have valueValid := valid value (.inl rfl)
  have rightValid := valid rightValue (.inr (.inl rfl))
  rcases shows_fill.mp focus.ofSub with ⟨ofValue, ofNear, ofRight⟩
  rcases shows_fill.mp ofRight with ⟨ofRightValue, ofInner, ofOuter⟩
  have parentInner : parentOf 0#32 path ≠ 0#32 → parentOf 0#32 path ≠ inner.top :=
    fun notRoot => ne_top notRoot fun inInner =>
      innerApart _ inInner _ (.inr (.inr (parentOf_mem notRoot))) rfl
  rcases focus.isChild (by rw [isTop]; exact valueValid.1) with ⟨parentSide, isChild⟩
  rw [isTop] at isChild
  rcases Memory.rotate_spec valueValid.1 rightValid.1 (ofValue.far.trans (top_fill _ _))
    ofValue.parent ofRightValue.near
    (fun notRoot => ⟨(isChild notRoot).1, (isChild notRoot).2.1⟩) valueRight
    (ne_top valueValid.1 valueInner).symm (ne_top rightValid.1 rightInner).symm
    (ne_parentOf valueValid.1 valuePath).symm (ne_parentOf rightValid.1 rightPath).symm
    parentInner with ⟨after, isAfter, rotated⟩
  have others : ∀ addr, addr ≠ value → addr ≠ rightValue → addr ∉ inner.toList →
      addr ∉ pathNodes path → addr ≠ 0#32 → after.node addr = memory.node addr := by
    intro addr notValue notRight notInner notPath nonzero
    exact rotated.others addr notValue notRight (ne_top nonzero notInner)
      (ne_parentOf nonzero notPath)
  refine ⟨after, by rw [Memory.rotateTo_eq]; exact isAfter, ?_, ?_, ?_, ?_⟩
  · refine shows_fill.mpr ⟨?_, shows_fill.mpr ⟨?_, ?_, ?_⟩, ?_⟩
    · rw [rotated.atRight, top_fill]
      exact (ofRightValue.setNear value).setParent focus.parent_aligned
    · rw [rotated.atNode]
      exact (ofValue.setFar inner.top).setParent rightValid.2
    · refine ofNear.congr fun addr mem => ?_
      refine others addr (ne_of_mem_of_not_mem mem valueNear)
        (ne_of_mem_of_not_mem mem rightNear) ?_ ?_ (valid addr (by simp [mem])).1
      · exact fun inInner => innerApart addr inInner addr (.inl mem) rfl
      · exact fun inPath => nearApart addr mem addr (.inr inPath) rfl
    · refine ofInner.reparent innerDistinct valueValid.2 rotated.atInner ?_ ?_
      · exact fun addr mem => (valid addr (by simp [mem])).1
      intro addr mem notTop
      refine rotated.others addr (ne_of_mem_of_not_mem mem valueInner)
        (ne_of_mem_of_not_mem mem rightInner) notTop ?_
      refine ne_parentOf (valid addr (by simp [mem])).1 fun inPath => ?_
      exact innerApart addr mem addr (.inr (.inr inPath)) rfl
    · refine ofOuter.congr fun addr mem => ?_
      refine others addr (ne_of_mem_of_not_mem mem valueOuter)
        (ne_of_mem_of_not_mem mem rightOuter) ?_ ?_ (valid addr (by simp [mem])).1
      · exact fun inInner => innerApart addr inInner addr (.inr (.inl mem)) rfl
      · exact fun inPath => outerPath addr mem addr inPath rfl
  · rw [top_fill]
    have ofPath := focus.ofPath
    refine ofPath.swing pathDistinct ?_ ?_ ?_
    · rintro rfl
      exact rotated.atRoot rfl
    · rintro frame rest rfl
      have notRoot : frame.value ≠ 0#32 := (valid frame.value (by simp [pathNodes])).1
      rcases rotated.atParent notRoot with ⟨sameRoot, isParent⟩
      refine ⟨sameRoot, ?_⟩
      rw [← (isChild notRoot).2.2 frame rest rfl]
      exact isParent
    intro addr mem notParent
    refine rotated.others addr (ne_of_mem_of_not_mem mem valuePath)
      (ne_of_mem_of_not_mem mem rightPath) ?_ notParent
    refine ne_top (valid addr (by simp [mem])).1 fun inInner => ?_
    exact innerApart addr inInner addr (.inr (.inr mem)) rfl
  · exact permAfter.nodup_iff.mpr (perm.nodup_iff.mp focus.distinct)
  · exact fun addr mem => focus.valid addr
      (perm.mem_iff.mpr (permAfter.mem_iff.mp mem))

end Focus

end StreakKernel.RbTree
