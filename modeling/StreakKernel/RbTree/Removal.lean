import StreakKernel.RbTree.Insertion

/-!
# Removal in memory

`rb_erase` and `__rb_erase_color` at the addresses of the nodes do what `rbErase` and
`rbEraseColor` do to the tree.
-/

namespace StreakKernel.RbTree

open RbTree.Tree RbTree.Frame
open Memory (load_of_ne)
open Option (bind_eq_bind bind_some)

section Round

variable {memory : Memory} {sub inner outer : Tree Address} {rest : List (Frame Address)}
  {side : Side} {color : Color} {parent other : Address}

theorem Focus.raiseSibling (focus : Focus memory sub
      (⟨side, color, parent, fill ⟨side, .red, other, outer⟩ inner⟩ :: rest)) :
    ∃ after, memory.raiseSibling side parent = some (after, inner.top) ∧
      Focus after sub (⟨side, .red, parent, inner⟩ :: ⟨side, .black, other, outer⟩ :: rest) := by
  have parentNonzero : parent ≠ 0#32 := focus.frame_nonzero
  have isOther := focus.linked.far.trans (top_fill _ _)
  have ofOther := focus_fill.mp focus.sibling
  have otherNonzero : other ≠ 0#32 := ofOther.frame_nonzero
  have isRed := ofOther.linked.color
  rcases ofOther.recolor .black with ⟨first, isFirst, focusFirst⟩
  have back := (focus_fill.mpr focusFirst).sibling
  rw [Side.other_other] at back
  rcases back.recolor .red with ⟨second, isSecond, focusSecond⟩
  rcases (focus_fill.mpr focusSecond).rotate with ⟨after, isAfter, rotated⟩
  have focusAfter := focus_fill.mp (focus_fill.mp rotated)
  have isInner := focusAfter.linked.far
  refine ⟨after, ?_, focusAfter⟩
  unfold Memory.raiseSibling
  simp only [load_of_ne parentNonzero, bind_eq_bind, bind_some, isOther,
    load_of_ne otherNonzero, if_pos isRed, setBlack_funext, setRed_funext, isFirst, isAfter,
    isSecond, isInner]
  rfl

section BlackSibling

variable
  (focus : Focus memory sub (⟨side, color, parent, fill ⟨side, .black, other,
      outer⟩ inner⟩ :: rest))

include focus

theorem Focus.raiseSibling_black : memory.raiseSibling side parent = some (memory, other) := by
  have parentNonzero : parent ≠ 0#32 := focus.frame_nonzero
  have isOther := focus.linked.far.trans (top_fill _ _)
  have ofOther := focus_fill.mp focus.sibling
  have otherNonzero : other ≠ 0#32 := ofOther.frame_nonzero
  have notRed : ¬(memory.node other).color = .red := by
    rw [ofOther.linked.color]
    exact fun never => by cases never
  unfold Memory.raiseSibling
  simp only [load_of_ne parentNonzero, bind_eq_bind, bind_some, isOther,
    load_of_ne otherNonzero, if_neg notRed]
  rfl

theorem Focus.siblingChildren : (memory.isRed (memory.node other).left = false ∧
        memory.isRed (memory.node other).right = false) ↔
      inner.isRed = false ∧ outer.isRed = false := by
  have ofOther := focus_fill.mp focus.sibling
  have near := ofOther.linked.near
  have far := ofOther.linked.far
  have innerRed := ofOther.isRed_top
  have outerRed := ofOther.sibling.isRed_top
  cases side with
  | left =>
    simp only [RbNode.child, Side.other] at near far
    rw [near, far, innerRed, outerRed]
  | right =>
    simp only [RbNode.child, Side.other] at near far
    rw [near, far, innerRed, outerRed]
    exact and_comm

theorem Focus.eraseBlack_climb (bothBlack : inner.isRed = false ∧ outer.isRed = false) :
    ∃ after, memory.eraseBlack side parent other = some (after, some (parent, parentOf 0#32 rest)) ∧
      Focus after (fill ⟨side, color, parent, fill ⟨side, .red, other, outer⟩ inner⟩
        sub)
        rest := by
  have parentNonzero : parent ≠ 0#32 := focus.frame_nonzero
  have ofOther := focus_fill.mp focus.sibling
  have otherNonzero : other ≠ 0#32 := ofOther.frame_nonzero
  rcases ofOther.recolor .red with ⟨after, isAfter, focusAfter⟩
  have back := (focus_fill.mpr focusAfter).sibling
  rw [Side.other_other] at back
  refine ⟨after, ?_, focus_fill.mpr back⟩
  have isParent := back.linked.parent
  unfold Memory.eraseBlack
  simp only [load_of_ne otherNonzero, bind_eq_bind, bind_some,
    if_pos (focus.siblingChildren.mpr bothBlack), setRed_funext, isAfter,
    load_of_ne parentNonzero, isParent]
  rfl

end BlackSibling

theorem Focus.turnSibling {value : Address} {near far : Tree Address}
    (focus : Focus memory sub (⟨side, color, parent, fill ⟨side, .black, other, outer⟩
      (fill ⟨side.other, .red, value, far⟩ near)⟩ :: rest)) (outerBlack : outer.isRed = false) :
    ∃ after, memory.turnSibling side parent other = some (after, value) ∧
      Focus after sub (⟨side, color, parent, fill ⟨side, .black, value,
        fill ⟨side, .red, other, outer⟩ near⟩ far⟩ :: rest) := by
  have parentNonzero : parent ≠ 0#32 := focus.frame_nonzero
  have ofOther := focus_fill.mp focus.sibling
  have otherNonzero : other ≠ 0#32 := ofOther.frame_nonzero
  have isOuter := ofOther.linked.far
  have isInner := ofOther.linked.near.trans (top_fill _ _)
  have notRed : ¬memory.isRed outer.top = true := by
    rw [ofOther.sibling.isRed_top, outerBlack]
    exact Bool.false_ne_true
  rcases (focus_fill.mp ofOther).recolor .black with ⟨first, isFirst, focusFirst⟩
  rcases (focus_fill.mpr focusFirst).recolor .red with ⟨second, isSecond, focusSecond⟩
  have filled := focus_fill.mpr focusSecond
  simp only at filled
  rw [fill_other side .red] at filled
  rcases filled.rotate with ⟨after, isAfter, rotated⟩
  have back := rotated.sibling
  rw [fill_other side.other .black, fill_other side.other .red, Side.other_other] at back
  have isNew := back.linked.far.trans (top_fill _ _)
  refine ⟨after, ?_, back⟩
  unfold Memory.turnSibling
  simp only [load_of_ne otherNonzero, bind_eq_bind, bind_some, isOuter, isInner,
    if_neg notRed, setBlack_funext, setRed_funext, isFirst, isSecond, isAfter,
    load_of_ne parentNonzero, isNew]
  rfl

section

variable {otherColor : Color}
  (focus : Focus memory sub
    (⟨side, color, parent, fill ⟨side, otherColor, other, outer⟩ inner⟩ :: rest))
  (outerRed : outer.isRed = true)
include focus outerRed

theorem Focus.turnSibling_red : memory.turnSibling side parent other = some (memory, other) := by
  have ofOther := focus_fill.mp focus.sibling
  have otherNonzero : other ≠ 0#32 := ofOther.frame_nonzero
  have isOuter := ofOther.linked.far
  have isRed := ofOther.sibling.isRed_top.trans outerRed
  unfold Memory.turnSibling
  simp only [load_of_ne otherNonzero, bind_eq_bind, bind_some, isOuter, if_pos isRed]
  rfl

theorem Focus.eraseRotate :
    ∃ first second third after,
      memory.modify other (fun other => other.setColor (memory.node parent).color) = some first ∧
      first.modify parent RbNode.setBlack = some second ∧
      second.load other = some (second.node other) ∧
      second.modify ((second.node other).child side.other) RbNode.setBlack = some third ∧
      third.rotateTo side parent = some after ∧
      Focus after (fill ⟨side, color, other, outer.setColor .black⟩
        (fill ⟨side, .black, parent, inner⟩ sub)) rest := by
  have isColor := focus.linked.color
  have ofOther := focus_fill.mp focus.sibling
  rcases ofOther.recolor color with ⟨first, isFirst, focusFirst⟩
  have atSub := (focus_fill.mpr focusFirst).sibling
  rw [Side.other_other] at atSub
  rcases atSub.recolor .black with ⟨second, isSecond, focusSecond⟩
  have atOuter := (focus_fill.mp focusSecond.sibling).sibling
  have isOuter := atOuter.linked.near
  rcases atOuter.recolorTop (atOuter.top_nonzero outerRed) .black with ⟨third, isThird, focusThird⟩
  have atInner := focusThird.sibling
  rw [Side.other_other] at atInner
  have filled := (focus_fill.mpr atInner).sibling
  rw [Side.other_other] at filled
  rcases (focus_fill.mpr filled).rotate with ⟨after, isAfter, rotated⟩
  refine ⟨first, second, third, after, by rw [isColor]; exact isFirst,
    by rw [setBlack_funext]; exact isSecond, load_of_ne atOuter.frame_nonzero, ?_, isAfter,
    rotated⟩
  rw [isOuter, setBlack_funext]
  exact isThird

end

theorem Focus.eraseBlack_outer (focus : Focus memory sub
      (⟨side, color, parent, fill ⟨side, .black, other, outer⟩ inner⟩ :: rest))
    (outerRed : outer.isRed = true) :
    ∃ after, memory.eraseBlack side parent other = some (after, none) ∧
      Focus after (fill ⟨side, color, other, outer.setColor .black⟩
        (fill ⟨side, .black, parent, inner⟩ sub)) rest := by
  have parentNonzero : parent ≠ 0#32 := focus.frame_nonzero
  have otherNonzero : other ≠ 0#32 := (focus_fill.mp focus.sibling).frame_nonzero
  have notBoth : ¬(memory.isRed (memory.node other).left = false ∧
      memory.isRed (memory.node other).right = false) := by
    rw [focus.siblingChildren, outerRed]
    exact fun both => by cases both.2
  rcases focus.eraseRotate outerRed with
    ⟨first, second, third, after, isFirst, isSecond, _, isThird, isAfter, rotated⟩
  refine ⟨after, ?_, rotated⟩
  unfold Memory.eraseBlack
  simp only [load_of_ne otherNonzero, bind_eq_bind, bind_some, if_neg notBoth,
    focus.turnSibling_red outerRed, load_of_ne parentNonzero, isFirst, isSecond, isThird,
    isAfter]
  rfl

theorem Focus.eraseBlack_inner {value : Address} {near far : Tree Address}
    (focus : Focus memory sub (⟨side, color, parent, fill ⟨side, .black, other, outer⟩
      (fill ⟨side.other, .red, value, far⟩ near)⟩ :: rest)) (outerBlack : outer.isRed = false) :
    ∃ after, memory.eraseBlack side parent other = some (after, none) ∧
      Focus after (fill ⟨side, color, value, fill ⟨side, .black, other, outer⟩ near⟩
        (fill ⟨side, .black, parent, far⟩ sub)) rest := by
  have parentNonzero : parent ≠ 0#32 := focus.frame_nonzero
  have otherNonzero : other ≠ 0#32 := (focus_fill.mp focus.sibling).frame_nonzero
  have notBoth : ¬(memory.isRed (memory.node other).left = false ∧
      memory.isRed (memory.node other).right = false) := by
    rw [focus.siblingChildren, isRed_fill]
    exact fun both => by cases both.1
  rcases focus.turnSibling outerBlack with ⟨turned, isTurned, focusTurned⟩
  rcases focusTurned.eraseRotate (by simp) with
    ⟨first, second, third, after, isFirst, isSecond, isLoad, isThird, isAfter, rotated⟩
  rw [setColor_fill] at rotated
  refine ⟨after, ?_, rotated⟩
  unfold Memory.eraseBlack
  simp only [load_of_ne otherNonzero, bind_eq_bind, bind_some, if_neg notBoth,
    isTurned, load_of_ne parentNonzero, isFirst, isSecond, isLoad, isThird, isAfter]
  rfl

theorem eraseSibling_climb {α : Type} {sub inner outer : Tree α} {color : Color} {parent other : α}
    (bothBlack : inner.isRed = false ∧ outer.isRed = false) (side : Side)
    (climb stop : Tree α → Tree α) :
    rbEraseColor.eraseSibling sub
        ⟨side, color, parent, fill ⟨side, .black, other, outer⟩ inner⟩ climb stop =
      climb (fill ⟨side, color, parent, fill ⟨side, .red, other, outer⟩ inner⟩ sub) := by
  cases side with
  | left => exact if_pos bothBlack
  | right => exact if_pos bothBlack.symm

theorem eraseSibling_outer {α : Type} {sub inner outer : Tree α} {color : Color} {parent other : α}
    (outerRed : outer.isRed = true) (side : Side) (climb stop : Tree α → Tree α) :
    rbEraseColor.eraseSibling sub
        ⟨side, color, parent, fill ⟨side, .black, other, outer⟩ inner⟩ climb stop =
      stop (fill ⟨side, color, other, outer.setColor .black⟩
        (fill ⟨side, .black, parent, inner⟩ sub)) := by
  cases side with
  | left => simp [rbEraseColor.eraseSibling, fill, outerRed, Tree.setColor, setRightColor,
      rotateLeft]
  | right => simp [rbEraseColor.eraseSibling, fill, outerRed, Tree.setColor, setLeftColor,
      rotateRight]

theorem eraseSibling_inner {α : Type} {sub near far outer : Tree α} {color : Color}
    {parent other value : α} (outerBlack : outer.isRed = false) (side : Side)
    (climb stop : Tree α → Tree α) :
    rbEraseColor.eraseSibling sub
        ⟨side, color, parent, fill ⟨side, .black, other, outer⟩
          (fill ⟨side.other, .red, value, far⟩ near)⟩ climb stop =
      stop (fill ⟨side, color, value, fill ⟨side, .black, other, outer⟩ near⟩
        (fill ⟨side, .black, parent, far⟩ sub)) := by
  cases side with
  | left =>
    have notBoth : ¬((Tree.node .red far value near).isRed = false ∧ outer.isRed = false) :=
      fun both => by cases both.1
    simp only [fill, Side.other, rbEraseColor.eraseSibling, if_neg notBoth, if_pos outerBlack]
    rfl
  | right =>
    have notBoth : ¬(outer.isRed = false ∧ (Tree.node .red near value far).isRed = false) :=
      fun both => by cases both.2
    simp only [fill, Side.other, rbEraseColor.eraseSibling, if_neg notBoth, if_pos outerBlack]
    rfl

end Round

/-- What a round of `__rb_erase_color` with a black sibling comes to. -/
inductive Erased (memory : Memory) (sub : Tree Address) (parent : Frame Address)
    (rest : List (Frame Address)) (other : Address) : Prop
  | climb (after : Memory) (tree : Tree Address)
      (isRound : memory.eraseBlack parent.side parent.value other =
        some (after, some (parent.value, parentOf 0#32 rest)))
      (focus : Focus after tree rest) (isTop : tree.top = parent.value)
      (isRed : tree.isRed = decide (parent.color = .red))
      (isTree : ∀ climb stop, rbEraseColor.eraseSibling sub parent climb stop = climb tree)
  | stop (after : Memory) (tree : Tree Address)
      (isRound : memory.eraseBlack parent.side parent.value other = some (after, none))
      (focus : Focus after tree rest)
      (isTree : ∀ climb stop, rbEraseColor.eraseSibling sub parent climb stop = stop tree)

theorem Focus.erased {memory : Memory} {sub inner outer : Tree Address}
    {rest : List (Frame Address)} {side : Side} {color : Color} {parent other : Address}
    (focus : Focus memory sub
      (⟨side, color, parent, fill ⟨side, .black, other, outer⟩ inner⟩ :: rest)) :
    Erased memory sub ⟨side, color, parent, fill ⟨side, .black, other, outer⟩ inner⟩ rest
      other := by
  by_cases bothBlack : inner.isRed = false ∧ outer.isRed = false
  · rcases focus.eraseBlack_climb bothBlack with ⟨after, isRound, focusAfter⟩
    exact .climb after _ isRound focusAfter (top_fill _ _) (isRed_fill _ _)
      (eraseSibling_climb bothBlack side)
  cases outerRed : outer.isRed with
  | true =>
    rcases focus.eraseBlack_outer outerRed with ⟨after, isRound, focusAfter⟩
    exact .stop after _ isRound focusAfter (eraseSibling_outer outerRed side)
  | false =>
    have innerRed : inner.isRed = true := by simpa [outerRed] using bothBlack
    obtain ⟨value, near, far, rfl⟩ : ∃ value near far,
        inner = fill ⟨side.other, .red, value, far⟩ near := by
      cases inner with
      | leaf => cases innerRed
      | node innerColor left value right =>
        cases innerColor with
        | black => cases innerRed
        | red =>
          cases side with
          | left => exact ⟨value, right, left, rfl⟩
          | right => exact ⟨value, left, right, rfl⟩
    rcases focus.eraseBlack_inner outerRed with ⟨after, isRound, focusAfter⟩
    exact .stop after _ isRound focusAfter (eraseSibling_inner outerRed side)

/-! ## The loop -/

section Loop

variable {memory : Memory} {sub : Tree Address} {path rest : List (Frame Address)}
  {frame : Frame Address}

theorem Focus.blacken (focus : Focus memory sub path) :
    ∃ after, memory.blacken sub.top = some after ∧ Focus after (sub.setColor .black) path := by
  unfold Memory.blacken
  cases sub with
  | leaf => exact ⟨memory, rfl, focus⟩
  | node color left value right =>
    have nonzero : value ≠ 0#32 := (focus.valid value (by simp [toList])).1
    rcases focus.setColor .black with ⟨after, isAfter, focusAfter⟩
    refine ⟨after, ?_, focusAfter⟩
    simp only [top, if_neg nonzero, setBlack_funext, isAfter]

theorem Focus.blackenRoot (focus : Focus memory sub path) :
    ∃ after, memory.blacken memory.root = some after ∧
      Focus after ((zip sub path).setColor .black) [] := by
  have whole := focus_zip.mpr focus
  have isRoot := whole.ofPath
  rw [isRoot]
  exact whole.blacken

theorem PathShows.root_mem {node : Address → RbNode} {above root child : Address}
    (stored : PathShows node above root child (frame :: rest)) :
    root ∈ pathNodes (frame :: rest) := by
  induction rest generalizing frame child with
  | nil =>
    have isRoot : root = frame.value := stored.2.2
    rw [isRoot]
    exact List.mem_cons_self
  | cons next rest ih => exact List.mem_cons_of_mem _ (List.mem_append_right _ (ih stored.2.2))

theorem Focus.ne_root (focus : Focus memory sub (frame :: rest)) : sub.top ≠ memory.root := by
  have mem := focus.ofPath.root_mem
  intro isRoot
  have nonempty : sub.top ≠ 0#32 := by
    rw [isRoot]
    exact (focus.valid _ (List.mem_append_right _ mem)).1
  exact (List.nodup_append.mp focus.distinct).2.2 _ (top_mem nonempty) _ mem isRoot

theorem Focus.rbEraseColor_stop (focus : Focus memory sub path)
    (stops : sub.isRed = true ∨ path = []) (rounds : ℕ) (parent : Address) :
    ∃ after, memory.rbEraseColor (rounds + 1) sub.top parent = some after ∧
      Focus after (zip (sub.setColor .black) path) [] := by
  have condition : memory.isRed sub.top = true ∨ sub.top = memory.root := by
    rcases stops with isRed | rfl
    · exact .inl (focus.isRed_top.trans isRed)
    · exact .inr focus.ofPath.symm
  rcases focus.blacken with ⟨after, isAfter, focusAfter⟩
  refine ⟨after, ?_, focus_zip.mpr focusAfter⟩
  rw [Memory.rbEraseColor, if_pos condition]
  exact isAfter

theorem Focus.rbEraseColor_step (focus : Focus memory sub (frame :: rest))
    (notRed : sub.isRed = false) (hasSibling : frame.sibling.top ≠ 0#32) (rounds : ℕ) :
    memory.rbEraseColor (rounds + 1) sub.top frame.value =
      (memory.eraseRound frame.side frame.value).bind fun result =>
        match result with
        | (memory, some (next, above)) => memory.rbEraseColor rounds next above
        | (memory, none) => memory.blacken memory.root := by
  have condition : ¬(memory.isRed sub.top = true ∨ sub.top = memory.root) := by
    rintro (isRed | isRoot)
    · rw [focus.isRed_top, notRed] at isRed
      cases isRed
    · exact focus.ne_root isRoot
  have isSide : (if (memory.node frame.value).left = sub.top then Side.left else Side.right) =
      frame.side := by
    have near := focus.linked.near
    have far := focus.linked.far
    have farNe : frame.sibling.top ≠ sub.top := by
      by_cases nonempty : sub.top = 0#32
      · rw [nonempty]
        exact hasSibling
      · rw [← far]
        exact focus.far_ne nonempty
    rcases frame with ⟨side, color, value, sibling⟩
    cases side with
    | left => exact if_pos near
    | right =>
      refine if_neg fun same => farNe ?_
      exact far.symm.trans same
  rw [Memory.rbEraseColor, if_neg condition]
  simp only [load_of_ne focus.frame_nonzero, bind_eq_bind, bind_some]
  exact congrArg (fun side => (memory.eraseRound side frame.value).bind _) isSide

theorem Erased.rbEraseColor {other : Address} {parent : Frame Address} {first : Memory}
    (erased : Erased memory sub parent rest other) {climb : Tree Address → Tree Address}
    {rounds : ℕ} (isRound : first.eraseRound parent.side parent.value =
      memory.eraseBlack parent.side parent.value other)
    (climbs : ∀ after tree, Focus after tree rest → tree.isRed = decide (parent.color = .red) →
      (∀ climb stop, rbEraseColor.eraseSibling sub parent climb stop = climb tree) →
      ∃ final, after.rbEraseColor rounds tree.top (parentOf 0#32 rest) = some final ∧
        Focus final (climb tree) []) :
    ∃ final, ((first.eraseRound parent.side parent.value).bind fun result =>
        match result with
        | (memory, some (next, above)) => memory.rbEraseColor rounds next above
        | (memory, none) => memory.blacken memory.root) = some final ∧
      Focus final (rbEraseColor.eraseSibling sub parent climb fun tree =>
        (zip tree rest).setColor .black) [] := by
  rw [isRound]
  cases erased with
  | climb after tree isRound focus isTop isRed isTree =>
    rcases climbs after tree focus isRed isTree with ⟨final, isFinal, focusFinal⟩
    rw [isTop] at isFinal
    refine ⟨final, ?_, by rw [isTree]; exact focusFinal⟩
    rw [isRound]
    exact isFinal
  | stop after tree isRound focus isTree =>
    rcases focus.blackenRoot with ⟨final, isFinal, focusFinal⟩
    refine ⟨final, ?_, by rw [isTree]; exact focusFinal⟩
    rw [isRound]
    exact isFinal

theorem exists_fill_black {α : Type} (side : Side) {tree : Tree α} (notRed : tree.isRed = false)
    (notLeaf : tree ≠ .leaf) : ∃ value far near, tree = fill ⟨side, .black, value, far⟩ near := by
  cases tree with
  | leaf => exact absurd rfl notLeaf
  | node color left value right =>
    cases color with
    | red => cases notRed
    | black =>
      cases side with
      | left => exact ⟨value, right, left, rfl⟩
      | right => exact ⟨value, left, right, rfl⟩

theorem Focus.rbEraseColor_lowered {side : Side} {color : Color} {value other : Address}
    {inner outer : Tree Address} (focus : Focus memory sub
      (⟨side, color, value, fill ⟨side, .red, other, outer⟩ inner⟩ :: rest))
    (notRed : sub.isRed = false) (innerBlack : inner.isRed = false) (hasInner : inner ≠ .leaf)
    (rounds : ℕ) :
    ∃ final, memory.rbEraseColor (rounds + 2) sub.top value = some final ∧
      Focus final (rbEraseColor.eraseSibling sub ⟨side, .red, value, inner⟩
        (fun tree => zip (tree.setColor .black) (⟨side, .black, other, outer⟩ :: rest))
        (fun tree => (zip tree (⟨side, .black, other, outer⟩ :: rest)).setColor .black)) [] := by
  rcases focus.raiseSibling with ⟨raised, isRaised, focusRaised⟩
  obtain ⟨innerValue, innerOuter, innerInner, rfl⟩ := exists_fill_black side innerBlack hasInner
  have hasSibling : (fill ⟨side, .red, other, outer⟩
      (fill ⟨side, .black, innerValue, innerOuter⟩ innerInner)).top ≠ 0#32 := by
    rw [top_fill]
    exact (focus_fill.mp focus.sibling).frame_nonzero
  rw [focus.rbEraseColor_step notRed hasSibling]
  refine focusRaised.erased.rbEraseColor ?_ ?_
  · simp [Memory.eraseRound, isRaised, bind_eq_bind, top_fill]
  · intro after tree focusTree isRed _
    exact focusTree.rbEraseColor_stop (.inl isRed) rounds _

theorem Colored.ne_leaf {α : Type} {tree : Tree α} {height : ℕ}
    (colored : Colored tree (height + 1)) : tree ≠ .leaf := by
  rintro rfl
  cases colored

theorem Focus.rbEraseColor (sub : Tree Address) (path : List (Frame Address)) :
    ∀ memory height rounds, Focus memory sub path → Hanging path (height + 1) → Lacking sub height →
      path.length < rounds →
      ∃ after, memory.rbEraseColor rounds sub.top (parentOf 0#32 path) = some after ∧
        Focus after (RbTree.rbEraseColor sub path) [] := by
  fun_induction RbTree.rbEraseColor sub path with
  | case1 sub =>
    intro memory height rounds focus _ _ enough
    rcases Nat.exists_eq_add_of_lt enough with ⟨more, rfl⟩
    exact focus.rbEraseColor_stop (.inr rfl) _ _
  | case2 sub parent rest isRed =>
    intro memory height rounds focus _ _ enough
    rcases Nat.exists_eq_add_of_lt enough with ⟨more, rfl⟩
    exact focus.rbEraseColor_stop (.inl isRed) _ _
  | case3 sub parent rest notRed inner value outer siblingEq onLeft lowered =>
    intro memory height rounds focus hanging _ enough
    rcases hanging.ofRedSibling siblingEq with ⟨⟨innerBlack, ofInner⟩, _, _⟩
    rcases parent with ⟨side, color, parentValue, sibling⟩
    obtain rfl := onLeft
    obtain rfl := siblingEq
    obtain ⟨more, rfl⟩ : ∃ more, rounds = more + 2 := ⟨rounds - 2, by simp at enough; omega⟩
    exact @Focus.rbEraseColor_lowered memory sub rest .left color parentValue value inner outer
      focus (Bool.not_eq_true _ ▸ notRed) innerBlack ofInner.ne_leaf more
  | case4 sub parent rest notRed outer value inner siblingEq onRight lowered =>
    intro memory height rounds focus hanging _ enough
    rcases hanging.ofRedSibling siblingEq with ⟨_, ⟨innerBlack, ofInner⟩, _⟩
    rcases parent with ⟨side, color, parentValue, sibling⟩
    obtain rfl := onRight
    obtain rfl := siblingEq
    obtain ⟨more, rfl⟩ : ∃ more, rounds = more + 2 := ⟨rounds - 2, by simp at enough; omega⟩
    exact @Focus.rbEraseColor_lowered memory sub rest .right color parentValue value inner outer
      focus (Bool.not_eq_true _ ▸ notRed) innerBlack ofInner.ne_leaf more
  | case5 sub parent rest notRed notLeft notRight ih =>
    intro memory height rounds focus hanging lacking enough
    rw [Bool.not_eq_true] at notRed
    rw [Lacking, if_neg (by simp [notRed])] at lacking
    have siblingBlack := isRed_sibling notLeft notRight
    have hasSibling := hanging.ofSibling.ne_leaf
    obtain ⟨more, rfl⟩ : ∃ more, rounds = more + 1 := ⟨rounds - 1, by omega⟩
    rcases parent with ⟨side, color, value, sibling⟩
    obtain ⟨other, outer, inner, rfl⟩ := exists_fill_black side siblingBlack hasSibling
    rw [parentOf, focus.rbEraseColor_step notRed ?_]
    · refine focus.erased.rbEraseColor ?_ ?_
      · simp [Memory.eraseRound, focus.raiseSibling_black, bind_eq_bind]
      · intro after tree focusTree _ isTree
        rcases hanging.climbed lacking siblingBlack isTree with ⟨above, ofRest, lackingTree⟩
        exact ih tree after above more focusTree ofRest lackingTree (by simp at enough; omega)
    · rw [top_fill]
      exact (focus_fill.mp focus.sibling).frame_nonzero

end Loop

end StreakKernel.RbTree
