import Mathlib.Data.List.Nodup

/-!
# Red-black trees

Shallow embedding of `lib/rbtree.c`. A node together with its parent pointers
is a subtree and the path of frames above it, innermost first, so following
`rb_parent` takes the head of the path and assigning `root->rb_node` replaces
the whole tree. The links of a node are its position in the tree; what the tree
is sorted by is known to the callers only.

The rebalancing dereferences the grandparent of a red parent and the sibling of a black
node; where one is missing, which the colouring rules exclude, the functions below leave
the tree as it is.
-/

namespace StreakKernel.RbTree

inductive Color where
  | red
  | black
  deriving DecidableEq, Repr

inductive Tree (α : Type) where
  | leaf
  | node (color : Color) (left : Tree α) (value : α) (right : Tree α)
  deriving DecidableEq, Repr

inductive Side where
  | left
  | right
  deriving DecidableEq, Repr

structure Frame (α : Type) where
  side : Side
  color : Color
  value : α
  sibling : Tree α

variable {α ε : Type}

def Frame.fill (frame : Frame α) (tree : Tree α) : Tree α :=
  match frame.side with
  | .left => .node frame.color tree frame.value frame.sibling
  | .right => .node frame.color frame.sibling frame.value tree

def zip (tree : Tree α) (path : List (Frame α)) : Tree α :=
  path.foldl (fun tree frame => frame.fill tree) tree

namespace Tree

def setColor (color : Color) : Tree α → Tree α
  | leaf => leaf
  | node _ left value right => node color left value right

/-- `node && rb_is_red(node)`. -/
def isRed : Tree α → Bool
  | node .red _ _ _ => true
  | _ => false

def rotateLeft : Tree α → Tree α
  | node color left value (node rightColor inner rightValue outer) =>
    node rightColor (node color left value inner) rightValue outer
  | tree => tree

def rotateRight : Tree α → Tree α
  | node color (node leftColor outer leftValue inner) value right =>
    node leftColor outer leftValue (node color inner value right)
  | tree => tree

def setLeftColor (color : Color) : Tree α → Tree α
  | leaf => leaf
  | node top left value right => node top (left.setColor color) value right

def setRightColor (color : Color) : Tree α → Tree α
  | leaf => leaf
  | node top left value right => node top left value (right.setColor color)

def toList : Tree α → List α
  | leaf => []
  | node _ left value right => left.toList ++ value :: right.toList

end Tree

open RbTree.Tree

/-! ## Insertion -/

def rbInsertColor : Tree α → List (Frame α) → Tree α
  | sub, [] => sub.setColor .black
  | sub, [parent] => (parent.fill sub).setColor .black
  | sub, parent :: gparent :: rest =>
    if parent.color = .black then
      (zip sub (parent :: gparent :: rest)).setColor .black
    else if gparent.sibling.isRed then
      let uncle := gparent.sibling.setColor .black
      rbInsertColor ({ gparent with color := .red, sibling := uncle }.fill
        ((parent.fill sub).setColor .black)) rest
    else
      match gparent.side with
      | .left =>
        let top := if parent.side = .right then rotateLeft (parent.fill sub)
          else parent.fill sub
        let gtop := { gparent with color := .red }.fill (top.setColor .black)
        (zip (rotateRight gtop) rest).setColor .black
      | .right =>
        let top := if parent.side = .left then rotateRight (parent.fill sub)
          else parent.fill sub
        let gtop := { gparent with color := .red }.fill (top.setColor .black)
        (zip (rotateLeft gtop) rest).setColor .black

/-- Walk down to the empty link for a new node. The comparison with a node on the way may fail. -/
def descend (goLeft : α → Except ε Bool) : Tree α → List (Frame α) → Except ε (List (Frame α))
  | leaf, path => .ok path
  | node color left value right, path => do
      if ← goLeft value then descend goLeft left (⟨.left, color, value, right⟩ :: path)
      else descend goLeft right (⟨.right, color, value, left⟩ :: path)

def insert (goLeft : α → Except ε Bool) (value : α) (tree : Tree α) : Except ε (Tree α) := do
  let path ← descend goLeft tree []
  return rbInsertColor (node .red leaf value leaf) path

/-! ## Removal -/

/-- The loop of `__rb_erase_color` on a node that misses one black node. -/
def rbEraseColor : Tree α → List (Frame α) → Tree α
  | sub, [] => sub.setColor .black
  | sub, parent :: rest =>
    if sub.isRed then zip (sub.setColor .black) (parent :: rest)
    else
      match parent.side, parent.sibling with
      | .left, .node .red inner value outer =>
        let lowered : Frame α := ⟨.left, .red, parent.value, inner⟩
        eraseSibling sub lowered
          (fun tree => (zip (tree.setColor .black) (⟨.left, .black, value, outer⟩ :: rest)))
          (fun tree => (zip tree (⟨.left, .black, value, outer⟩ :: rest)).setColor .black)
      | .right, .node .red outer value inner =>
        let lowered : Frame α := ⟨.right, .red, parent.value, inner⟩
        eraseSibling sub lowered
          (fun tree => (zip (tree.setColor .black) (⟨.right, .black, value, outer⟩ :: rest)))
          (fun tree => (zip tree (⟨.right, .black, value, outer⟩ :: rest)).setColor .black)
      | _, _ =>
        eraseSibling sub parent (fun tree => rbEraseColor tree rest)
          (fun tree => (zip tree rest).setColor .black)
where
  /-- The rest of an iteration, with a black sibling: `climb` continues at the
  parent and `stop` is the break after the final rotation. -/
  eraseSibling (sub : Tree α) (parent : Frame α) (climb stop : Tree α → Tree α) : Tree α :=
    match parent.side, parent.sibling with
    | _, .leaf => stop (parent.fill sub)
    | .left, .node color inner value outer =>
      if inner.isRed = false ∧ outer.isRed = false then
        climb ({ parent with sibling := .node .red inner value outer }.fill sub)
      else
        let other := if outer.isRed = false then
            rotateRight (.node .red (inner.setColor .black) value outer)
          else .node color inner value outer
        let other := (other.setColor parent.color).setRightColor .black
        stop (rotateLeft ({ parent with color := .black, sibling := other }.fill sub))
    | .right, .node color outer value inner =>
      if outer.isRed = false ∧ inner.isRed = false then
        climb ({ parent with sibling := .node .red outer value inner }.fill sub)
      else
        let other := if outer.isRed = false then
            rotateLeft (.node .red outer value (inner.setColor .black))
          else .node color outer value inner
        let other := (other.setColor parent.color).setLeftColor .black
        stop (rotateRight ({ parent with color := .black, sibling := other }.fill sub))

/-- The leftmost node of a nonempty tree: its colour, its right child and the
path to it. -/
def leftmost (color : Color) (left : Tree α) (value : α) (right : Tree α)
    (path : List (Frame α)) : Color × α × Tree α × List (Frame α) :=
  match left with
  | .leaf => (color, value, right, path)
  | .node leftColor inner leftValue outer =>
    leftmost leftColor inner leftValue outer (⟨.left, color, value, right⟩ :: path)

/-- Put the only child in the place of a removed node and restore the colours. -/
def spliceOut (color : Color) (child : Tree α) (path : List (Frame α)) : Tree α :=
  if color = .black then rbEraseColor child path else zip child path

def rbErase (color : Color) (left right : Tree α) (path : List (Frame α)) : Tree α :=
  match left, right with
  | .leaf, right => spliceOut color right path
  | left, .leaf => spliceOut color left path
  | left, .node rightColor inner value outer =>
    match leftmost rightColor inner value outer [] with
    | (nextColor, next, child, inside) =>
      spliceOut nextColor child (inside ++ ⟨.right, color, next, left⟩ :: path)

def locate [DecidableEq α] (target : α) : Tree α → List (Frame α) →
    Option (Color × Tree α × Tree α × List (Frame α))
  | .leaf, _ => none
  | .node color left value right, path =>
    if value = target then some (color, left, right, path)
    else
      (locate target left (⟨.left, color, value, right⟩ :: path)).orElse fun _ =>
        locate target right (⟨.right, color, value, left⟩ :: path)

/-- `rb_erase` by the identity of the node; `none` if it is not in the tree. -/
def erase [DecidableEq α] (target : α) (tree : Tree α) : Option (Tree α) :=
  (locate target tree []).map fun (color, left, right, path) => rbErase color left right path

/-! ## In-order sequence -/

def before : List (Frame α) → List α
  | [] => []
  | frame :: rest =>
    match frame.side with
    | .left => before rest
    | .right => before rest ++ frame.sibling.toList ++ [frame.value]

def after : List (Frame α) → List α
  | [] => []
  | frame :: rest =>
    match frame.side with
    | .left => frame.value :: frame.sibling.toList ++ after rest
    | .right => after rest

section

variable (color : Color) (tree : Tree α)
include color tree

@[simp]
theorem toList_setColor : (tree.setColor color).toList = tree.toList := by
  cases tree <;> rfl

@[simp]
theorem toList_setLeftColor : (tree.setLeftColor color).toList = tree.toList := by
  cases tree <;> simp [setLeftColor, toList]

@[simp]
theorem toList_setRightColor : (tree.setRightColor color).toList = tree.toList := by
  cases tree <;> simp [setRightColor, toList]

end

@[simp]
theorem toList_rotateLeft (tree : Tree α) : tree.rotateLeft.toList = tree.toList := by
  unfold rotateLeft
  split <;> simp [toList]

@[simp]
theorem toList_rotateRight (tree : Tree α) : tree.rotateRight.toList = tree.toList := by
  unfold rotateRight
  split <;> simp [toList]

theorem toList_fill (frame : Frame α) (tree : Tree α) :
    (frame.fill tree).toList = before [frame] ++ tree.toList ++ after [frame] := by
  rcases frame with ⟨side, color, value, sibling⟩
  cases side <;> simp [Frame.fill, toList, before, after]

theorem toList_zip (tree : Tree α) (path : List (Frame α)) :
    (zip tree path).toList = before path ++ tree.toList ++ after path := by
  induction path generalizing tree with
  | nil => simp [zip, before, after]
  | cons frame rest ih =>
    have step : zip tree (frame :: rest) = zip (frame.fill tree) rest := rfl
    rw [step, ih, toList_fill]
    rcases frame with ⟨side, color, value, sibling⟩
    cases side <;> simp [before, after]

theorem before_append (inner outer : List (Frame α)) :
    before (inner ++ outer) = before outer ++ before inner := by
  induction inner with
  | nil => simp [before]
  | cons frame rest ih =>
    rcases frame with ⟨side, color, value, sibling⟩
    cases side <;> simp [before, ih]

theorem after_append (inner outer : List (Frame α)) :
    after (inner ++ outer) = after inner ++ after outer := by
  induction inner with
  | nil => simp [after]
  | cons frame rest ih =>
    rcases frame with ⟨side, color, value, sibling⟩
    cases side <;> simp [after, ih]

theorem zip_cons (tree : Tree α) (frame : Frame α) (path : List (Frame α)) :
    zip tree (frame :: path) = zip (frame.fill tree) path := rfl

theorem toList_fill_congr {frame other : Frame α} {tree sub : Tree α}
    (side : frame.side = other.side) (value : frame.value = other.value)
    (sibling : frame.sibling.toList = other.sibling.toList) (same : tree.toList = sub.toList) :
    (frame.fill tree).toList = (other.fill sub).toList := by
  rcases frame with ⟨frameSide, color, frameValue, frameSibling⟩
  rcases other with ⟨otherSide, otherColor, otherValue, otherSibling⟩
  subst side value
  cases frameSide <;> simp [Frame.fill, toList, sibling, same]

theorem toList_zip_congr {tree sub : Tree α} (same : tree.toList = sub.toList)
    (path : List (Frame α)) : (zip tree path).toList = (zip sub path).toList := by
  simp only [toList_zip, same]

theorem toList_rbInsertColor (sub : Tree α) (path : List (Frame α)) :
    (rbInsertColor sub path).toList = (zip sub path).toList := by
  fun_induction rbInsertColor sub path with
  | case1 sub => simp [zip]
  | case2 sub parent => simp [zip]
  | case3 => simp
  | case4 sub parent gparent rest _ _ uncle ih =>
    rw [ih, zip_cons, zip_cons]
    apply toList_zip_congr
    apply toList_fill_congr <;> simp [uncle]
  | case5 sub parent gparent rest _ _ _ top gtop =>
    rw [toList_setColor, zip_cons, zip_cons]
    apply toList_zip_congr
    rw [toList_rotateRight]
    refine toList_fill_congr rfl rfl rfl ?_
    rw [toList_setColor]
    simp only [top]
    split_ifs <;> simp
  | case6 sub parent gparent rest _ _ _ top gtop =>
    rw [toList_setColor, zip_cons, zip_cons]
    apply toList_zip_congr
    rw [toList_rotateLeft]
    refine toList_fill_congr rfl rfl rfl ?_
    rw [toList_setColor]
    simp only [top]
    split_ifs <;> simp

theorem toList_eraseSibling {sub : Tree α} {parent : Frame α} {climb stop : Tree α → Tree α}
    {rest : List (Frame α)} (climbs : ∀ tree, (climb tree).toList = (zip tree rest).toList)
    (stops : ∀ tree, (stop tree).toList = (zip tree rest).toList) :
    (rbEraseColor.eraseSibling sub parent climb stop).toList =
      (zip (parent.fill sub) rest).toList := by
  rcases parent with ⟨side, color, value, sibling⟩
  cases sibling with
  | leaf => cases side <;> simp [rbEraseColor.eraseSibling, stops]
  | node siblingColor left siblingValue right =>
    cases side with
    | left =>
      simp only [rbEraseColor.eraseSibling]
      split_ifs
      · rw [climbs]
        apply toList_zip_congr
        exact toList_fill_congr rfl rfl rfl rfl
      all_goals
        rw [stops]
        apply toList_zip_congr
        rw [toList_rotateLeft]
        refine toList_fill_congr rfl rfl ?_ rfl
        simp [toList]
    | right =>
      simp only [rbEraseColor.eraseSibling]
      split_ifs
      · rw [climbs]
        apply toList_zip_congr
        exact toList_fill_congr rfl rfl rfl rfl
      all_goals
        rw [stops]
        apply toList_zip_congr
        rw [toList_rotateRight]
        refine toList_fill_congr rfl rfl ?_ rfl
        simp [toList]

theorem toList_rbEraseColor (sub : Tree α) (path : List (Frame α)) :
    (rbEraseColor sub path).toList = (zip sub path).toList := by
  fun_induction rbEraseColor sub path with
  | case1 sub => simp [zip]
  | case2 sub parent rest _ => exact toList_zip_congr (toList_setColor _ _) _
  | case3 sub parent rest _ inner value outer siblingEq onLeft lowered =>
    rw [toList_eraseSibling (fun _ => toList_zip_congr (toList_setColor _ _) _)
      (fun _ => toList_setColor _ _), zip_cons, zip_cons]
    apply toList_zip_congr
    simp [Frame.fill, lowered, onLeft, siblingEq, toList]
  | case4 sub parent rest _ outer value inner siblingEq onRight lowered =>
    rw [toList_eraseSibling (fun _ => toList_zip_congr (toList_setColor _ _) _)
      (fun _ => toList_setColor _ _), zip_cons, zip_cons]
    apply toList_zip_congr
    simp [Frame.fill, lowered, onRight, siblingEq, toList]
  | case5 sub parent rest _ _ _ ih =>
    rw [toList_eraseSibling ih (fun _ => toList_setColor _ _), zip_cons]

theorem toList_spliceOut (color : Color) (child : Tree α) (path : List (Frame α)) :
    (spliceOut color child path).toList = before path ++ child.toList ++ after path := by
  unfold spliceOut
  split_ifs
  · rw [toList_rbEraseColor, toList_zip]
  · rw [toList_zip]

theorem leftmost_spec (color : Color) (left : Tree α) (value : α) (right : Tree α)
    (path : List (Frame α)) {nextColor : Color} {next : α} {child : Tree α}
    {inside : List (Frame α)}
    (found : leftmost color left value right path = (nextColor, next, child, inside)) :
    before inside = before path ∧ next :: child.toList ++ after inside =
        (Tree.node color left value right).toList ++ after path := by
  fun_induction leftmost color left value right path with
  | case1 =>
    rcases found with ⟨_, rfl, rfl, rfl⟩
    simp [toList]
  | case2 color value right path leftColor inner leftValue outer ih =>
    rcases ih found with ⟨beforeEq, afterEq⟩
    refine ⟨by simpa [before] using beforeEq, ?_⟩
    rw [afterEq]
    simp [toList, after]

theorem toList_rbErase (color : Color) (left right : Tree α) (path : List (Frame α)) :
    (rbErase color left right path).toList =
      before path ++ left.toList ++ right.toList ++ after path := by
  fun_cases rbErase color left right path with
  | case1 | case2 => simp [toList_spliceOut, toList]
  | case3 left rightColor inner value outer notLeaf nextColor next child inside found =>
    rcases leftmost_spec _ _ _ _ _ found with ⟨beforeEq, afterEq⟩
    rw [toList_spliceOut, before_append, after_append, beforeEq]
    have joined : next :: child.toList ++ after inside =
        (Tree.node rightColor inner value outer).toList := by
      simpa [after] using afterEq
    rw [← joined]
    simp [before, after]

section Locate

variable [DecidableEq α] {target : α}

theorem zip_of_locate {tree : Tree α} {path inside : List (Frame α)} {color : Color}
    {left right : Tree α} (found : locate target tree path = some (color, left, right, inside)) :
    zip (.node color left target right) inside = zip tree path := by
  induction tree generalizing path with
  | leaf => simp [locate] at found
  | node top topLeft value topRight ihLeft ihRight =>
    simp only [locate] at found
    split_ifs at found with here
    · simp only [Option.some.injEq, Prod.mk.injEq] at found
      rcases found with ⟨rfl, rfl, rfl, rfl⟩
      rw [here]
    rcases inLeft : locate target topLeft (⟨.left, top, value, topRight⟩ :: path) with
      _ | pos
    · rw [inLeft] at found
      exact ihRight found
    rw [inLeft] at found
    simp only [Option.orElse_some, Option.some.injEq] at found
    rw [found] at inLeft
    exact ihLeft inLeft

theorem locate_isSome {tree : Tree α} (path : List (Frame α)) (mem : target ∈ tree.toList) :
    (locate target tree path).isSome = true := by
  induction tree generalizing path with
  | leaf => simp [toList] at mem
  | node top left value right ihLeft ihRight =>
    simp only [locate]
    split_ifs with here
    · rfl
    simp only [toList, List.mem_append, List.mem_cons] at mem
    rcases mem with inLeft | same | inRight
    · simp [ihLeft (⟨.left, top, value, right⟩ :: path) inLeft]
    · exact absurd same.symm here
    · simp [ihRight (⟨.right, top, value, left⟩ :: path) inRight]

theorem erase_eq {tree : Tree α} (distinct : tree.toList.Nodup) (mem : target ∈ tree.toList) :
    ∃ newTree, erase target tree = some newTree ∧ newTree.toList = tree.toList.erase target := by
  rcases Option.isSome_iff_exists.mp (locate_isSome [] mem) with
    ⟨⟨color, left, right, path⟩, found⟩
  refine ⟨rbErase color left right path, by simp [erase, found], ?_⟩
  have split : tree.toList =
      (before path ++ left.toList) ++ target :: (right.toList ++ after path) := by
    have whole := congrArg toList (zip_of_locate found)
    rw [toList_zip] at whole
    simpa [zip, toList] using whole.symm
  rw [split] at distinct ⊢
  have absent : target ∉ before path ++ left.toList :=
    fun inside => (List.nodup_append.mp distinct).2.2 target inside target (by simp) rfl
  rw [List.erase_append_right _ absent, List.erase_cons_head, toList_rbErase]
  simp

end Locate

/-! ## Position of a new node -/

/-- A descent whose comparisons agree with a monotone predicate ends between the
nodes that fail it and the nodes that satisfy it. -/
theorem descend_eq {goLeft : α → Except ε Bool} {below : α → Bool} {tree : Tree α}
    (compares : ∀ value ∈ tree.toList, goLeft value = .ok (below value))
    (monotone : tree.toList.Pairwise fun first second => below first = true → below second = true)
    (path : List (Frame α)) :
    ∃ inside, descend goLeft tree path = .ok (inside ++ path) ∧
      before inside ++ after inside = tree.toList ∧
      (∀ value ∈ before inside, below value = false) ∧
      ∀ value ∈ after inside, below value = true := by
  induction tree generalizing path with
  | leaf => exact ⟨[], rfl, by simp [before, after, toList], by simp [before], by simp [after]⟩
  | node color left value right ihLeft ihRight =>
    simp only [toList, List.mem_append, List.mem_cons] at compares
    simp only [toList, List.pairwise_append, List.pairwise_cons, List.mem_cons] at monotone
    rcases monotone with ⟨monoLeft, ⟨fromValue, monoRight⟩, across⟩
    have here := compares value (.inr (.inl rfl))
    rcases goes : below value with _ | _
    · rcases ihRight (fun other inRight => compares other (.inr (.inr inRight))) monoRight
        (⟨.right, color, value, left⟩ :: path) with ⟨inside, found, split, below, above⟩
      refine ⟨inside ++ [⟨.right, color, value, left⟩], ?_, ?_, ?_, ?_⟩
      · simp only [descend, here, goes, bind, Except.bind]
        simpa using found
      · rw [before_append, after_append]
        simp [before, after, toList, ← split]
      · intro other mem
        rw [before_append] at mem
        simp only [before, List.mem_append, List.nil_append, List.mem_singleton] at mem
        rcases mem with (inLeft | rfl) | inInside
        · refine Bool.eq_false_iff.mpr fun otherBelow => ?_
          have valueBelow := across other inLeft value (.inl rfl) otherBelow
          simp [goes] at valueBelow
        · exact goes
        · exact below other inInside
      · intro other mem
        rw [after_append] at mem
        exact above other (by simpa [after] using mem)
    · rcases ihLeft (fun other inLeft => compares other (.inl inLeft)) monoLeft
        (⟨.left, color, value, right⟩ :: path) with ⟨inside, found, split, below, above⟩
      refine ⟨inside ++ [⟨.left, color, value, right⟩], ?_, ?_, ?_, ?_⟩
      · simp only [descend, here, goes, bind, Except.bind]
        simpa using found
      · rw [before_append, after_append]
        simp [before, after, toList, ← split]
      · intro other mem
        rw [before_append] at mem
        exact below other (by simpa [before] using mem)
      · intro other mem
        rw [after_append] at mem
        simp only [after, List.mem_append, List.append_nil, List.mem_cons] at mem
        rcases mem with inInside | rfl | inRight
        · exact above other inInside
        · exact goes
        · exact fromValue other inRight goes

theorem insert_eq {goLeft : α → Except ε Bool} {below : α → Bool} {tree : Tree α} {new : α}
    (compares : ∀ value ∈ tree.toList, goLeft value = .ok (below value))
    (monotone : tree.toList.Pairwise fun first second => below first = true → below second = true) :
    ∃ newTree lower upper, insert goLeft new tree = .ok newTree ∧
      tree.toList = lower ++ upper ∧ newTree.toList = lower ++ new :: upper ∧
      (∀ value ∈ lower, below value = false) ∧ ∀ value ∈ upper, below value = true := by
  rcases descend_eq compares monotone [] with ⟨path, found, split, lower, upper⟩
  refine ⟨rbInsertColor (.node .red .leaf new .leaf) path, before path, after path, ?_, split.symm,
    ?_, lower, upper⟩
  · simp [insert, found, bind, Except.bind, pure, Except.pure]
  · rw [toList_rbInsertColor, toList_zip]
    simp [toList]

end StreakKernel.RbTree
