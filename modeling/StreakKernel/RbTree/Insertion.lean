import StreakKernel.RbTree.Shape

/-!
# Insertion in memory

`rb_link_node` and `rb_insert_color` at the addresses of the nodes do what `rbInsertColor` does to
the tree.
-/

namespace StreakKernel.RbTree

open List RbTree.Tree RbTree.Frame RbNode
open Memory (load_of_ne modify_of_ne put_of_ne put_self)
open Option (bind_eq_bind bind_some)

theorem Side.other_other (side : Side) : side.other.other = side := by
  cases side <;> rfl

variable {α : Type} {memory : Memory} {sub : Tree Address} {path : List (Frame Address)}
  {rounds : ℕ} {new : Address}

theorem fill_other (side : Side) (color : Color) (value : α) (near far : Tree α) :
    fill ⟨side, color, value, far⟩ near = fill ⟨side.other, color, value, near⟩ far := by
  cases side <;> rfl

theorem setBlack_funext : setBlack = fun node => node.setColor .black :=
  funext fun _ => setBlack_eq

theorem setRed_funext : setRed = fun node => node.setColor .red :=
  funext fun _ => setRed_eq

section Reading

variable {memory : Memory} {sub : Tree Address} {path rest : List (Frame Address)}
  {frame : Frame Address}

namespace Focus

theorem isRed_top (focus : Focus memory sub path) : memory.isRed sub.top = sub.isRed := by
  cases sub with
  | leaf => simp [Memory.isRed, top, isRed]
  | node color left value right =>
    have nonzero : value ≠ 0#32 := (focus.valid value (by simp [toList])).1
    have isColor := focus.ofSub.1.color
    simp only [Memory.isRed, top, nonzero, ne_eq, not_false_eq_true, decide_true, Bool.true_and,
      isColor]
    cases color <;> rfl

theorem linked (focus : Focus memory sub (frame :: rest)) :
    Linked (memory.node frame.value) frame.side (parentOf 0#32 rest) frame.color sub.top
      frame.sibling.top :=
  focus.ofPath.1

theorem parent_top (focus : Focus memory sub path) (nonempty : sub.top ≠ 0#32) :
    (memory.node sub.top).parent = parentOf 0#32 path := by
  cases sub with
  | leaf => exact absurd rfl nonempty
  | node color left value right => exact focus.ofSub.1.parent

theorem isRed_frame (focus : Focus memory sub (frame :: rest)) :
    memory.isRed frame.value = decide (frame.color = .red) := by
  have isRed := (focus_fill.mpr focus).isRed_top
  rwa [top_fill, isRed_fill] at isRed

theorem sibling {side : Side} {color : Color} {value : Address} {far : Tree Address}
    (focus : Focus memory sub (⟨side, color, value, far⟩ :: rest)) :
    Focus memory far (⟨side.other, color, value, sub⟩ :: rest) := by
  rw [← focus_fill, fill_other] at focus
  exact focus_fill.mp focus

theorem recolor (focus : Focus memory sub (frame :: rest)) (color : Color) :
    ∃ after, memory.modify frame.value (fun node => node.setColor color) = some after ∧
      Focus after sub ({ frame with color := color } :: rest) := by
  rcases frame with ⟨side, old, value, far⟩
  have filled := focus_fill.mpr focus
  cases side with
  | left | right =>
    rcases filled.setColor color with ⟨after, isAfter, recolored⟩
    exact ⟨after, isAfter, focus_fill.mp recolored⟩

theorem recolorTop (focus : Focus memory sub path) (nonempty : sub.top ≠ 0#32)
    (color : Color) :
    ∃ after, memory.modify sub.top (fun node => node.setColor color) = some after ∧
      Focus after (sub.setColor color) path := by
  cases sub with
  | leaf => exact absurd rfl nonempty
  | node old left value right => exact focus.setColor color

theorem top_nonzero (focus : Focus memory sub path) (isRed : sub.isRed = true) :
    sub.top ≠ 0#32 := by
  cases sub with
  | leaf => cases isRed
  | node color left value right => exact (focus.valid value (by simp [toList])).1

end Focus

end Reading

/-! ## One round -/

section Round

variable {memory : Memory} {sub sibling uncle : Tree Address} {rest : List (Frame Address)}
  {side parentSide : Side} {parentColor : Color} {parent gparent : Address}

theorem Focus.insertRound_uncle
    (focus : Focus memory sub (⟨parentSide, parentColor, parent, sibling⟩ ::
      ⟨side, .black, gparent, uncle⟩ :: rest)) (uncleRed : uncle.isRed = true) (node : Address) :
    ∃ after, memory.insertRound side node parent gparent = some (after, gparent) ∧
      Focus after (fill ⟨side, .red, gparent, uncle.setColor .black⟩
        (fill ⟨parentSide, .black, parent, sibling⟩ sub)) rest := by
  have atParent := focus_fill.mpr focus
  have gparentNonzero : gparent ≠ 0#32 := atParent.frame_nonzero
  have isUncle := atParent.linked.far
  have ofUncle := atParent.sibling
  have isRed := ofUncle.isRed_top.trans uncleRed
  rcases ofUncle.recolorTop (ofUncle.top_nonzero uncleRed) .black with ⟨first, isFirst, focusFirst⟩
  have back := focusFirst.sibling
  rw [Side.other_other] at back
  rcases (focus_fill.mp back).recolor .black with ⟨second, isSecond, focusSecond⟩
  rcases (focus_fill.mpr focusSecond).recolor .red with ⟨third, isThird, focusThird⟩
  refine ⟨third, ?_, focus_fill.mpr focusThird⟩
  unfold Memory.insertRound
  simp only [load_of_ne gparentNonzero, bind_eq_bind, bind_some, isUncle, isRed,
    if_true, setBlack_funext, setRed_funext, isFirst]
  simp only [isSecond, bind_some, isThird]
  rfl

theorem Focus.insertRotate {outer inner : Tree Address}
    (focus : Focus memory (fill ⟨side, parentColor, parent, inner⟩ outer)
      (⟨side, .black, gparent, uncle⟩ :: rest)) :
    ∃ first second after, memory.modify parent setBlack = some first ∧
      first.modify gparent setRed = some second ∧
      second.rotateTo side.other gparent = some after ∧
      Focus after outer
        (⟨side, .black, parent, fill ⟨side, .red, gparent, uncle⟩ inner⟩ :: rest) := by
  rcases (focus_fill.mp focus).recolor .black with ⟨first, isFirst, focusFirst⟩
  rcases (focus_fill.mpr focusFirst).recolor .red with ⟨second, isSecond, focusSecond⟩
  have filled := focus_fill.mpr focusSecond
  rw [fill_other side .red, fill_other side .black] at filled
  rcases filled.rotate with ⟨after, isAfter, rotated⟩
  refine ⟨first, second, after, by rw [setBlack_funext]; exact isFirst,
    by rw [setRed_funext]; exact isSecond, isAfter, ?_⟩
  rw [fill_other side .red]
  have flipped := (focus_fill.mp rotated).sibling
  rwa [Side.other_other] at flipped

theorem Focus.insertRound_outer
    (focus : Focus memory sub (⟨side, .red, parent, sibling⟩ :: ⟨side, .black, gparent, uncle⟩ ::
      rest)) (uncleBlack : uncle.isRed = false) (nonempty : sub.top ≠ 0#32) :
    ∃ after, memory.insertRound side sub.top parent gparent = some (after, sub.top) ∧
      Focus after sub
        (⟨side, .black, parent, fill ⟨side, .red, gparent, uncle⟩ sibling⟩ :: rest) := by
  have atParent := focus_fill.mpr focus
  have gparentNonzero : gparent ≠ 0#32 := atParent.frame_nonzero
  have parentNonzero : parent ≠ 0#32 := focus.frame_nonzero
  have isUncle := atParent.linked.far
  have notRed : ¬memory.isRed uncle.top = true := by
    rw [atParent.sibling.isRed_top, uncleBlack]
    exact Bool.false_ne_true
  have notNode := focus.far_ne nonempty
  rcases atParent.insertRotate with ⟨first, second, after, isFirst, isSecond, isAfter, rotated⟩
  refine ⟨after, ?_, rotated⟩
  unfold Memory.insertRound
  simp only [load_of_ne gparentNonzero, bind_eq_bind, bind_some, isUncle,
    if_neg notRed, load_of_ne parentNonzero, if_neg notNode, isFirst, isSecond, isAfter]
  rfl

theorem Focus.insertRound_inner {nodeColor : Color} {node : Address} {outer inner : Tree Address}
    (focus : Focus memory (fill ⟨side, nodeColor, node, outer⟩ inner)
      (⟨side.other, .red, parent, sibling⟩ :: ⟨side, .black, gparent, uncle⟩ :: rest))
    (uncleBlack : uncle.isRed = false) :
    ∃ after, memory.insertRound side node parent gparent = some (after, parent) ∧
      Focus after (fill ⟨side, .red, parent, inner⟩ sibling)
        (⟨side, .black, node, fill ⟨side, .red, gparent, uncle⟩ outer⟩ :: rest) := by
  have atParent := focus_fill.mpr focus
  have gparentNonzero : gparent ≠ 0#32 := atParent.frame_nonzero
  have parentNonzero : parent ≠ 0#32 := focus.frame_nonzero
  have isUncle := atParent.linked.far
  have notRed : ¬memory.isRed uncle.top = true := by
    rw [atParent.sibling.isRed_top, uncleBlack]
    exact Bool.false_ne_true
  have isNode := focus.linked.near.trans (top_fill _ _)
  rw [fill_other side.other, Side.other_other] at atParent
  rcases atParent.rotate with ⟨turned, isTurned, focusTurned⟩
  rcases focusTurned.insertRotate with ⟨first, second, after, isFirst, isSecond, isAfter, rotated⟩
  refine ⟨after, ?_, rotated⟩
  unfold Memory.insertRound
  simp only [load_of_ne gparentNonzero, bind_eq_bind, bind_some, isUncle,
    if_neg notRed, load_of_ne parentNonzero, if_pos isNode, isTurned, isFirst, isSecond,
    isAfter]
  rfl

end Round

/-! ## The loop -/

section Loop

variable {memory : Memory} {sub : Tree Address} {path rest : List (Frame Address)}
  {frame : Frame Address}

theorem Focus.side_eq (focus : Focus memory sub (frame :: rest)) (nonempty : sub.top ≠ 0#32) :
    (if sub.top = (memory.node frame.value).left then Side.left else Side.right) = frame.side := by
  have near := focus.linked.near
  have far := focus.far_ne nonempty
  rcases frame with ⟨side, color, value, sibling⟩
  cases side with
  | left => exact if_pos near.symm
  | right => exact if_neg far.symm

theorem Focus.insertLoop_stop (focus : Focus memory sub (frame :: rest))
    (isBlack : frame.color = .black) (nonempty : sub.top ≠ 0#32) (rounds : ℕ) :
    memory.insertLoop (rounds + 1) sub.top = some memory := by
  have notRed : ¬memory.isRed frame.value = true := by
    rw [focus.isRed_frame, isBlack]
    simp
  have isParent : (memory.node sub.top).parent = frame.value := focus.parent_top nonempty
  unfold Memory.insertLoop
  simp [load_of_ne nonempty, bind_eq_bind, isParent, if_neg notRed]

theorem Focus.insertLoop_root (focus : Focus memory sub []) (nonempty : sub.top ≠ 0#32)
    (rounds : ℕ) : memory.insertLoop (rounds + 1) sub.top = some memory := by
  have isParent : (memory.node sub.top).parent = 0#32 := focus.parent_top nonempty
  have notRed : ¬memory.isRed 0#32 = true := by simp [Memory.isRed]
  unfold Memory.insertLoop
  simp [load_of_ne nonempty, bind_eq_bind, isParent, if_neg notRed]

theorem Focus.insertLoop_step {parent gparent : Frame Address}
    (focus : Focus memory sub (parent :: gparent :: rest)) (isRed : parent.color = .red)
    (nonempty : sub.top ≠ 0#32) {after : Memory} {next : Address}
    (isRound : memory.insertRound gparent.side sub.top parent.value gparent.value =
      some (after, next)) (rounds : ℕ) :
    memory.insertLoop (rounds + 1) sub.top = after.insertLoop rounds next := by
  have parentRed : memory.isRed parent.value = true := by
    rw [focus.isRed_frame, isRed]
    rfl
  have atParent := focus_fill.mpr focus
  have isParent : (memory.node sub.top).parent = parent.value := focus.parent_top nonempty
  have parentNonzero := focus.frame_nonzero
  have isGparent : (memory.node parent.value).parent = gparent.value := by
    have isAbove := atParent.parent_top (by rw [top_fill]; exact parentNonzero)
    rwa [top_fill] at isAbove
  have isSide := atParent.side_eq (by rw [top_fill]; exact parentNonzero)
  rw [top_fill] at isSide
  rw [Memory.insertLoop]
  simp [load_of_ne nonempty, bind_eq_bind, isParent, parentRed, load_of_ne parentNonzero,
    isGparent, load_of_ne atParent.frame_nonzero, isSide, isRound]

variable {side : Side} {parent gparent : Address} {sibling uncle : Tree Address}

theorem Focus.insertLoop_outer
    (focus : Focus memory sub (⟨side, .red, parent, sibling⟩ :: ⟨side, .black, gparent,
      uncle⟩ :: rest)) (uncleBlack : uncle.isRed = false) (nonempty : sub.top ≠ 0#32) (rounds : ℕ) :
    ∃ after, memory.insertLoop (rounds + 2) sub.top = some after ∧
      Focus after (fill ⟨side, .black, parent, fill ⟨side, .red, gparent,
        uncle⟩ sibling⟩
        sub) rest := by
  rcases focus.insertRound_outer uncleBlack nonempty with ⟨after, isRound, rotated⟩
  refine ⟨after, ?_, focus_fill.mpr rotated⟩
  rw [focus.insertLoop_step rfl nonempty isRound]
  exact rotated.insertLoop_stop rfl nonempty rounds

theorem Focus.insertLoop_inner {nodeColor : Color} {node : Address} {outer inner : Tree Address}
    (focus : Focus memory (fill ⟨side, nodeColor, node, outer⟩ inner) (⟨side.other, .red,
      parent, sibling⟩ :: ⟨side, .black, gparent, uncle⟩ :: rest))
    (uncleBlack : uncle.isRed = false) (rounds : ℕ) :
    ∃ after, memory.insertLoop (rounds + 2) node = some after ∧
      Focus after (fill ⟨side, .black, node, fill ⟨side, .red, gparent, uncle⟩ outer⟩
        (fill ⟨side, .red, parent, inner⟩ sibling)) rest := by
  rcases focus.insertRound_inner uncleBlack with ⟨after, isRound, rotated⟩
  refine ⟨after, ?_, focus_fill.mpr rotated⟩
  have nodeNonzero : (fill ⟨side, nodeColor, node, outer⟩ inner).top ≠ 0#32 := by
    rw [top_fill]
    exact (focus_fill.mp focus).frame_nonzero
  have parentNonzero : (fill ⟨side, .red, parent, inner⟩ sibling).top ≠ 0#32 := by
    rw [top_fill]
    exact focus.frame_nonzero
  have isStep := focus.insertLoop_step rfl nodeNonzero (by rw [top_fill]; exact isRound)
    (rounds + 1)
  have isStop := rotated.insertLoop_stop rfl parentNonzero rounds
  rw [top_fill] at isStep isStop
  rw [isStep, isStop]

theorem Hanging.rootBlack {α : Type} {parent : Frame α} {height : ℕ}
    (hanging : Hanging [parent] height) : parent.color = .black := by
  cases hanging with
  | red _ _ _ _ blackParent =>
    rcases blackParent with ⟨_, _, never, _⟩
    cases never
  | black => rfl

theorem Focus.insertLoop (sub : Tree Address) (path : List (Frame Address)) :
    ∀ memory height rounds, Focus memory sub path → Hanging path height → sub.isRed = true →
      path.length < rounds → ∃ after tree, memory.insertLoop rounds sub.top = some after ∧
        Focus after tree [] ∧ tree.setColor .black = rbInsertColor sub path := by
  fun_induction rbInsertColor sub path with
  | case1 sub =>
    intro memory height rounds focus _ isRed enough
    rcases Nat.exists_eq_add_of_lt enough with ⟨more, rfl⟩
    exact ⟨memory, sub, focus.insertLoop_root (focus.top_nonzero isRed) _, focus, rfl⟩
  | case2 sub parent =>
    intro memory height rounds focus hanging isRed enough
    rcases Nat.exists_eq_add_of_lt enough with ⟨more, rfl⟩
    exact ⟨memory, _, focus.insertLoop_stop hanging.rootBlack (focus.top_nonzero isRed) _,
      focus_fill.mpr focus, rfl⟩
  | case3 sub parent gparent rest isBlack =>
    intro memory height rounds focus _ isRed enough
    rcases Nat.exists_eq_add_of_lt enough with ⟨more, rfl⟩
    exact ⟨memory, _, focus.insertLoop_stop isBlack (focus.top_nonzero isRed) _,
      focus_zip.mpr focus, rfl⟩
  | case4 sub parent gparent rest notBlack uncleRed uncle ih =>
    intro memory height rounds focus hanging isRed enough
    rcases hanging.ofRedParent notBlack with ⟨_, _, gparentBlack, _, ofRest⟩
    rcases gparent with ⟨side, _, gvalue, gsibling⟩
    obtain rfl := gparentBlack
    rcases Nat.exists_eq_add_of_lt enough with ⟨more, rfl⟩
    rcases focus.insertRound_uncle uncleRed sub.top with ⟨after, isRound, climbed⟩
    have isStep := focus.insertLoop_step (eq_red_of_ne_black notBlack) (focus.top_nonzero isRed)
      isRound ((parent :: ⟨side, .black, gvalue, gsibling⟩ :: rest).length + more)
    rcases ih after _ ((parent :: ⟨side, .black, gvalue, gsibling⟩ :: rest).length + more)
      (by rw [setColor_fill]; exact climbed) ofRest (by simp) (by simp; omega) with
      ⟨final, tree, isFinal, focusFinal, isTree⟩
    rw [top_fill] at isFinal
    exact ⟨final, tree, isStep.trans isFinal, focusFinal, isTree⟩
  | case5 sub parent gparent rest notBlack uncleBlack onLeft top gtop =>
    intro memory height rounds focus hanging isRed enough
    rcases hanging.ofRedParent notBlack with ⟨_, _, gparentBlack, _, _⟩
    rcases gparent with ⟨side, _, gvalue, uncle⟩
    rcases parent with ⟨parentSide, color, value, sibling⟩
    obtain rfl : color = .red := eq_red_of_ne_black notBlack
    obtain rfl := gparentBlack
    obtain rfl := onLeft
    obtain ⟨more, rfl⟩ : ∃ more, rounds = more + 2 := ⟨rounds - 2, by simp at enough; omega⟩
    rw [Bool.not_eq_true] at uncleBlack
    cases parentSide with
    | left =>
      rcases focus.insertLoop_outer uncleBlack (focus.top_nonzero isRed) more with
        ⟨after, isLoop, rotated⟩
      exact ⟨after, _, isLoop, focus_zip.mpr rotated, rfl⟩
    | right =>
      cases sub with
      | leaf => cases isRed
      | node nodeColor inner node outer =>
        rcases @insertLoop_inner memory rest .left value gvalue sibling uncle
          nodeColor node outer inner focus uncleBlack more with ⟨after, isLoop, rotated⟩
        exact ⟨after, _, isLoop, focus_zip.mpr rotated, rfl⟩
  | case6 sub parent gparent rest notBlack uncleBlack onRight top gtop =>
    intro memory height rounds focus hanging isRed enough
    rcases hanging.ofRedParent notBlack with ⟨_, _, gparentBlack, _, _⟩
    rcases gparent with ⟨side, _, gvalue, uncle⟩
    rcases parent with ⟨parentSide, color, value, sibling⟩
    obtain rfl : color = .red := eq_red_of_ne_black notBlack
    obtain rfl := gparentBlack
    obtain rfl := onRight
    obtain ⟨more, rfl⟩ : ∃ more, rounds = more + 2 := ⟨rounds - 2, by simp at enough; omega⟩
    rw [Bool.not_eq_true] at uncleBlack
    cases parentSide with
    | left =>
      cases sub with
      | leaf => cases isRed
      | node nodeColor outer node inner =>
        rcases @insertLoop_inner memory rest .right value gvalue sibling uncle
          nodeColor node outer inner focus uncleBlack more with ⟨after, isLoop, rotated⟩
        exact ⟨after, _, isLoop, focus_zip.mpr rotated, rfl⟩
    | right =>
      rcases focus.insertLoop_outer uncleBlack (focus.top_nonzero isRed) more with
        ⟨after, isLoop, rotated⟩
      exact ⟨after, _, isLoop, focus_zip.mpr rotated, rfl⟩

end Loop

theorem Focus.rbInsertColor (focus : Focus memory sub path) {height : ℕ}
    (hanging : Hanging path height) (isRed : sub.isRed = true) (enough : path.length < rounds) :
    ∃ after, memory.rbInsertColor rounds sub.top = some after ∧
      Focus after (rbInsertColor sub path) [] := by
  rcases insertLoop sub path memory height rounds focus hanging isRed enough with
    ⟨looped, tree, isLoop, focusLoop, isTree⟩
  have isRoot : looped.root = tree.top := focusLoop.ofPath
  have mem : sub.top ∈ tree.toList := by
    rw [← toList_setColor .black, isTree, toList_rbInsertColor]
    exact (perm_zip sub path).mem_iff.mpr (mem_append_left _ (top_mem (focus.top_nonzero isRed)))
  have nonempty : tree.top ≠ 0#32 := by
    cases tree with
    | leaf => cases mem
    | node color left value right => exact (focusLoop.valid value (by simp [toList])).1
  rcases focusLoop.recolorTop nonempty .black with ⟨after, isAfter, focusAfter⟩
  refine ⟨after, ?_, by rw [← isTree]; exact focusAfter⟩
  unfold Memory.rbInsertColor
  simp [isLoop, bind_eq_bind, isRoot, setBlack_funext, isAfter]

/-! ## A new leaf -/

theorem linked_new {parent : Address} (aligned : Aligned parent) :
    Linked ⟨parent, 0#32, 0#32⟩ .left parent .red 0#32 0#32 := by
  have isSet : (⟨parent, 0#32, 0#32⟩ : RbNode) =
      (⟨0#32, 0#32, 0#32⟩ : RbNode).setParent parent := by
    simp [setParent]
  rw [isSet]
  exact ⟨parent_setParent aligned, color_setParent aligned, rfl, rfl⟩

def linkOf (path : List (Frame Address)) : Option Side := path.head?.map Frame.side

theorem Focus.rbLinkNode (focus : Focus memory .leaf path) (isNew : new ∉ pathNodes path)
    (nonzero : new ≠ 0#32) (aligned : Aligned new) :
    ∃ after, memory.rbLinkNode new (parentOf 0#32 path) (linkOf path) = some after ∧
      Focus after (.node .red .leaf new .leaf) path := by
  have parentAligned := focus.parent_aligned
  have pathDistinct : (pathNodes path).Nodup := focus.distinct
  have distinct := nodup_cons.mpr ⟨isNew, pathDistinct⟩
  have valid : ∀ addr ∈ (Tree.node .red .leaf new .leaf).toList ++ pathNodes path,
      addr ≠ 0#32 ∧ Aligned addr := by
    intro addr mem
    rcases mem_cons.mp mem with rfl | inPath
    · exact ⟨nonzero, aligned⟩
    · exact focus.valid addr inPath
  have notNew : ∀ addr ∈ pathNodes path, addr ≠ new := by
    rintro addr mem rfl
    exact isNew mem
  unfold Memory.rbLinkNode
  simp only [modify_of_ne nonzero, bind_eq_bind, bind_some]
  cases path with
  | nil =>
    refine ⟨_, rfl, ⟨?_, trivial, trivial⟩, rfl, distinct, valid⟩
    simp only [put_self]
    exact linked_new parentAligned
  | cons frame rest =>
    have frameNonzero : frame.value ≠ 0#32 := focus.frame_nonzero
    have frameNew : frame.value ≠ new := notNew frame.value (by simp [pathNodes])
    simp only [linkOf, head?_cons, Option.map_some, parentOf, modify_of_ne frameNonzero,
      put_of_ne frameNew]
    refine ⟨_, rfl, ⟨?_, trivial, trivial⟩, ?_, distinct, valid⟩
    · rw [put_of_ne frameNew.symm, put_self]
      exact linked_new parentAligned
    refine focus.ofPath.swing pathDistinct (fun never => by cases never) ?_ ?_
    · rintro _ _ ⟨⟩
      exact ⟨rfl, put_self _⟩
    · intro addr mem notFrame
      have notValue : addr ≠ frame.value := notFrame
      rw [put_of_ne notValue, put_of_ne (notNew addr mem)]

theorem length_pathNodes (path : List (Frame α)) : path.length ≤ (pathNodes path).length := by
  induction path with
  | nil => exact Nat.le_refl _
  | cons frame rest ih =>
    simp only [pathNodes, length_cons, length_append]
    omega

theorem Focus.insert (focus : Focus memory .leaf path) (redBlack : RedBlack (zip .leaf path))
    (isNew : new ∉ pathNodes path) (nonzero : new ≠ 0#32) (aligned : Aligned new)
    (enough : path.length < rounds) :
    ∃ linked after, memory.rbLinkNode new (parentOf 0#32 path) (linkOf path) = some linked ∧
      Focus linked (.node .red .leaf new .leaf) path ∧
      linked.rbInsertColor rounds new = some after ∧
      Focus after (RbTree.rbInsertColor (.node .red .leaf new .leaf) path) [] := by
  rcases focus.rbLinkNode isNew nonzero aligned with ⟨linked, isLinked, focusLinked⟩
  rcases redBlack.unzip with ⟨height, hanging, _, _⟩
  rcases focusLinked.rbInsertColor hanging rfl enough with ⟨after, isAfter, focusAfter⟩
  exact ⟨linked, after, isLinked, focusLinked, isAfter, focusAfter⟩

end StreakKernel.RbTree
