import StreakKernel.RbTree.Basic

/-!
# The colouring rules of red-black trees

No red node has a red child, and all paths from the root to a leaf have the same number of black
nodes. `rb_insert_color` and `rb_erase` restore these rules.
-/

namespace StreakKernel.RbTree

open RbTree.Tree

variable {α : Type}

/-- No red node has a red child, and every path to a leaf has `height` black nodes. -/
inductive Colored : Tree α → ℕ → Prop
  | leaf : Colored .leaf 0
  | red {left right : Tree α} {height : ℕ} (value : α) (leftBlack : left.isRed = false)
      (rightBlack : right.isRed = false) (ofLeft : Colored left height)
      (ofRight : Colored right height) : Colored (.node .red left value right) height
  | black {left right : Tree α} {height : ℕ} (value : α) (ofLeft : Colored left height)
      (ofRight : Colored right height) : Colored (.node .black left value right) (height + 1)

structure RedBlack (tree : Tree α) : Prop where
  rootBlack : tree.isRed = false
  colored : ∃ height, Colored tree height

def BlackParent (path : List (Frame α)) : Prop :=
  ∃ parent rest, path = parent :: rest ∧ parent.color = .black

/-- The rules for a path around a subtree with `height` black nodes on its paths. -/
inductive Hanging : List (Frame α) → ℕ → Prop
  | root (height : ℕ) : Hanging [] height
  | red {sibling : Tree α} {rest : List (Frame α)} {height : ℕ} (side : Side) (value : α)
      (siblingBlack : sibling.isRed = false) (ofSibling : Colored sibling height)
      (blackParent : BlackParent rest) (ofRest : Hanging rest height) :
      Hanging (⟨side, .red, value, sibling⟩ :: rest) height
  | black {sibling : Tree α} {rest : List (Frame α)} {height : ℕ} (side : Side) (value : α)
      (ofSibling : Colored sibling height) (ofRest : Hanging rest (height + 1)) :
      Hanging (⟨side, .black, value, sibling⟩ :: rest) height

section Fill

variable {side : Side} {value : α} {sub sibling tree : Tree α} {height : ℕ}
  {path : List (Frame α)}

theorem Colored.fillRed (subBlack : sub.isRed = false) (siblingBlack : sibling.isRed = false)
    (ofSub : Colored sub height) (ofSibling : Colored sibling height) :
    Colored (Frame.fill ⟨side, .red, value, sibling⟩ sub) height := by
  cases side with
  | left => exact .red value subBlack siblingBlack ofSub ofSibling
  | right => exact .red value siblingBlack subBlack ofSibling ofSub

theorem Colored.fillBlack (ofSub : Colored sub height) (ofSibling : Colored sibling height) :
    Colored (Frame.fill ⟨side, .black, value, sibling⟩ sub) (height + 1) := by
  cases side with
  | left => exact .black value ofSub ofSibling
  | right => exact .black value ofSibling ofSub

@[simp]
theorem isRed_fill (frame : Frame α) (sub : Tree α) :
    (frame.fill sub).isRed = decide (frame.color = .red) := by
  rcases frame with ⟨side, color, value, sibling⟩
  cases side <;> cases color <;> rfl

@[simp]
theorem setColor_fill (frame : Frame α) (sub : Tree α) (color : Color) :
    (frame.fill sub).setColor color = { frame with color := color }.fill sub := by
  rcases frame with ⟨side, old, value, sibling⟩
  cases side <;> rfl

theorem setColor_of_not_red (notRed : tree.isRed = false) : tree.setColor .black = tree := by
  cases tree with
  | leaf => rfl
  | node color left value right =>
    cases color with
    | red => cases notRed
    | black => rfl

theorem isRed_setColor_black (tree : Tree α) : (tree.setColor .black).isRed = false := by
  cases tree <;> rfl

theorem Colored.setBlack (colored : Colored tree height) (isRed : tree.isRed = true) :
    Colored (tree.setColor .black) (height + 1) := by
  cases colored with
  | leaf => cases isRed
  | red value leftBlack rightBlack ofLeft ofRight => exact .black value ofLeft ofRight
  | black value ofLeft ofRight => cases isRed

theorem RedBlack.setBlack (redBlack : RedBlack tree) : RedBlack (tree.setColor .black) := by
  rw [setColor_of_not_red redBlack.rootBlack]
  exact redBlack

theorem Colored.redBlack (colored : Colored tree height) : RedBlack (tree.setColor .black) := by
  refine ⟨isRed_setColor_black tree, ?_⟩
  cases isRed : tree.isRed with
  | true => exact ⟨_, colored.setBlack isRed⟩
  | false =>
    rw [setColor_of_not_red isRed]
    exact ⟨height, colored⟩

/-- A tree with the right number of black nodes fits a path if it is black or hangs from a black
node. -/
theorem Hanging.redBlack (hanging : Hanging path height) (colored : Colored sub height)
    (fits : sub.isRed = false ∨ BlackParent path) : RedBlack (zip sub path) := by
  induction hanging generalizing sub with
  | root height =>
    refine ⟨fits.resolve_right ?_, height, colored⟩
    rintro ⟨_, _, never, _⟩
    cases never
  | red side value siblingBlack ofSibling blackParent _ ih =>
    have subBlack : sub.isRed = false := by
      refine fits.resolve_right ?_
      rintro ⟨_, _, isPath, isBlack⟩
      cases isPath
      cases isBlack
    exact ih (.fillRed subBlack siblingBlack colored ofSibling) (.inr blackParent)
  | black side value ofSibling _ ih => exact ih (.fillBlack colored ofSibling) (.inl (by simp))

end Fill

variable {sub left right inner outer child : Tree α} {path rest inside : List (Frame α)}
  {color nextColor : Color} {parent : Frame α} {height : ℕ} {value next : α} {side : Side}

theorem RedBlack.unzip (redBlack : RedBlack (zip sub path)) :
    ∃ height, Hanging path height ∧ Colored sub height ∧
      (sub.isRed = false ∨ BlackParent path) := by
  induction path generalizing sub with
  | nil =>
    rcases redBlack with ⟨rootBlack, height, colored⟩
    exact ⟨height, .root height, colored, .inl rootBlack⟩
  | cons frame rest ih =>
    rcases ih redBlack with ⟨height, ofRest, ofFill, fits⟩
    rcases frame with ⟨side, color, value, sibling⟩
    cases color with
    | red =>
      have blackParent : BlackParent rest := fits.resolve_left (by simp)
      cases side with
      | left =>
        cases ofFill with
        | red value subBlack siblingBlack ofSub ofSibling =>
          exact ⟨height, .red .left value siblingBlack ofSibling blackParent ofRest, ofSub,
            .inl subBlack⟩
      | right =>
        cases ofFill with
        | red value siblingBlack subBlack ofSibling ofSub =>
          exact ⟨height, .red .right value siblingBlack ofSibling blackParent ofRest, ofSub,
            .inl subBlack⟩
    | black =>
      have isBlack : BlackParent (⟨side, .black, value, sibling⟩ :: rest) := ⟨_, _, rfl, rfl⟩
      cases side with
      | left =>
        cases ofFill with
        | black value ofSub ofSibling =>
          exact ⟨_, .black .left value ofSibling ofRest, ofSub, .inr isBlack⟩
      | right =>
        cases ofFill with
        | black value ofSibling ofSub =>
          exact ⟨_, .black .right value ofSibling ofRest, ofSub, .inr isBlack⟩

theorem eq_red_of_ne_black (notBlack : ¬color = .black) : color = .red := by
  cases color with
  | red => rfl
  | black => exact absurd rfl notBlack

theorem Hanging.ofRedParent {gparent : Frame α}
    (hanging : Hanging (parent :: gparent :: rest) height) (notBlack : ¬parent.color = .black) :
    parent.sibling.isRed = false ∧ Colored parent.sibling height ∧ gparent.color = .black ∧
      Colored gparent.sibling height ∧ Hanging rest (height + 1) := by
  cases hanging with
  | black => exact absurd rfl notBlack
  | red side value siblingBlack ofSibling blackParent ofRest =>
    cases ofRest with
    | red =>
      rcases blackParent with ⟨_, _, isPath, isBlack⟩
      cases isPath
      cases isBlack
    | black gside gvalue ofUncle ofRest => exact ⟨siblingBlack, ofSibling, rfl, ofUncle, ofRest⟩

/-! ## Insertion -/

/-- `rb_insert_color` on a red node that hangs below its path with the right number of black
nodes. -/
theorem redBlack_rbInsertColor (sub : Tree α) (path : List (Frame α)) :
    ∀ height, Hanging path height → Colored sub height → sub.isRed = true →
      RedBlack (rbInsertColor sub path) := by
  fun_induction rbInsertColor sub path with
  | case1 sub =>
    intro height _ colored _
    exact colored.redBlack
  | case2 sub parent =>
    intro height hanging colored _
    cases hanging with
    | red side value siblingBlack ofSibling blackParent ofRest =>
      rcases blackParent with ⟨_, _, never, _⟩
      cases never
    | black side value ofSibling ofRest => exact (Colored.fillBlack colored ofSibling).redBlack
  | case3 sub parent gparent rest isBlack =>
    intro height hanging colored _
    exact (hanging.redBlack colored (.inr ⟨parent, _, rfl, isBlack⟩)).setBlack
  | case4 sub parent gparent rest notBlack uncleRed uncle ih =>
    intro height hanging colored _
    rcases hanging.ofRedParent notBlack with ⟨_, ofSibling, _, ofUncle, ofRest⟩
    refine ih _ ofRest ?_ (by simp)
    refine .fillRed ?_ (isRed_setColor_black _) ?_ (ofUncle.setBlack uncleRed)
    · simp
    · rw [setColor_fill]
      exact .fillBlack colored ofSibling
  | case5 sub parent gparent rest notBlack uncleBlack onLeft top gtop =>
    intro height hanging colored isRed
    rcases hanging.ofRedParent notBlack with ⟨siblingBlack, ofSibling, _, ofUncle, ofRest⟩
    rw [Bool.not_eq_true] at uncleBlack
    rcases parent with ⟨side, color, value, sibling⟩
    obtain rfl : color = .red := eq_red_of_ne_black notBlack
    refine RedBlack.setBlack ?_
    simp only [gtop, top, onLeft]
    cases side with
    | left =>
      exact ofRest.redBlack (.black _ colored (.red _ siblingBlack uncleBlack ofSibling ofUncle))
        (.inl rfl)
    | right =>
      cases colored with
      | leaf => cases isRed
      | black => cases isRed
      | red _ innerBlack outerBlack ofInner ofOuter =>
        exact ofRest.redBlack (.black _ (.red _ siblingBlack innerBlack ofSibling ofInner)
          (.red _ outerBlack uncleBlack ofOuter ofUncle)) (.inl rfl)
  | case6 sub parent gparent rest notBlack uncleBlack onRight top gtop =>
    intro height hanging colored isRed
    rcases hanging.ofRedParent notBlack with ⟨siblingBlack, ofSibling, _, ofUncle, ofRest⟩
    rw [Bool.not_eq_true] at uncleBlack
    rcases parent with ⟨side, color, value, sibling⟩
    obtain rfl : color = .red := eq_red_of_ne_black notBlack
    refine RedBlack.setBlack ?_
    simp only [gtop, top, onRight]
    cases side with
    | left =>
      cases colored with
      | leaf => cases isRed
      | black => cases isRed
      | red _ outerBlack innerBlack ofOuter ofInner =>
        exact ofRest.redBlack (.black _ (.red _ uncleBlack outerBlack ofUncle ofOuter)
          (.red _ innerBlack siblingBlack ofInner ofSibling)) (.inl rfl)
    | right =>
      exact ofRest.redBlack (.black _ (.red _ uncleBlack siblingBlack ofUncle ofSibling) colored)
        (.inl rfl)

/-! ## Removal -/

/-- A subtree whose paths miss one black node, or whose root only has to be made black. -/
def Lacking (sub : Tree α) (height : ℕ) : Prop :=
  if sub.isRed then Colored (sub.setColor .black) (height + 1) else Colored sub height

theorem Colored.lacking (colored : Colored sub height) : Lacking sub height := by
  unfold Lacking
  split_ifs with isRed
  · exact colored.setBlack isRed
  · exact colored

theorem Lacking.redBlack (lacking : Lacking sub height) : RedBlack (sub.setColor .black) := by
  refine ⟨isRed_setColor_black sub, ?_⟩
  unfold Lacking at lacking
  split_ifs at lacking with isRed
  · exact ⟨_, lacking⟩
  · rw [setColor_of_not_red (Bool.not_eq_true _ ▸ isRed)]
    exact ⟨_, lacking⟩

theorem Colored.sibling (colored : Colored (.node color left value right) (height + 1))
    (notRed : (Tree.node color left value right).isRed = false) :
    color = .black ∧ Colored left height ∧ Colored right height := by
  cases colored with
  | red => cases notRed
  | black _ ofLeft ofRight => exact ⟨rfl, ofLeft, ofRight⟩

theorem Colored.ofRed {tree : Tree α} (colored : Colored tree height) (isRed : tree.isRed = true) :
    ∃ left value right, tree = .node .red left value right ∧
      Colored left height ∧ Colored right height := by
  cases colored with
  | leaf => cases isRed
  | black => cases isRed
  | red value _ _ ofLeft ofRight => exact ⟨_, value, _, rfl, ofLeft, ofRight⟩

section EraseSibling

variable {sub : Tree α} {parent : Frame α} {rest : List (Frame α)} {height : ℕ}

/-- The frames above a parent allow any tree in its place that has its colour. -/
theorem Hanging.replaceParent (hanging : Hanging (parent :: rest) (height + 1))
    {left right : Tree α} (ofLeft : Colored left (height + 1))
    (ofRight : Colored right (height + 1)) (leftBlack : left.isRed = false)
    (rightBlack : right.isRed = false) (value : α) :
    RedBlack (zip (.node parent.color left value right) rest) := by
  cases hanging with
  | red _ _ _ _ blackParent ofRest =>
    exact ofRest.redBlack (.red value leftBlack rightBlack ofLeft ofRight) (.inr blackParent)
  | black _ _ _ ofRest => exact ofRest.redBlack (.black value ofLeft ofRight) (.inl rfl)

theorem Hanging.climb (hanging : Hanging (parent :: rest) (height + 1)) {sibling : Tree α}
    (ofSub : Colored sub height) (ofSibling : Colored sibling height) :
    ∃ above, Hanging rest (above + 1) ∧ Lacking ({ parent with sibling := sibling }.fill sub)
      above := by
  cases hanging with
  | red side value siblingBlack _ blackParent ofRest =>
    refine ⟨height, ofRest, ?_⟩
    simp only [Lacking, isRed_fill, decide_true, if_true, setColor_fill]
    exact .fillBlack ofSub ofSibling
  | black side value _ ofRest =>
    exact ⟨height + 1, ofRest, (Colored.fillBlack ofSub ofSibling).lacking⟩

theorem Hanging.ofSibling (hanging : Hanging (parent :: rest) height) :
    Colored parent.sibling height := by
  cases hanging with
  | red _ _ _ ofSibling _ _ => exact ofSibling
  | black _ _ ofSibling _ => exact ofSibling

section

variable (hanging : Hanging (parent :: rest) (height + 1)) (ofSub : Colored sub height)
  (siblingBlack : parent.sibling.isRed = false)
include hanging ofSub siblingBlack

theorem redBlack_eraseSibling {climb stop : Tree α → Tree α}
    (climbs : ∀ tree above, tree.isRed = decide (parent.color = .red) →
      Hanging rest (above + 1) → Lacking tree above → RedBlack (climb tree))
    (stops : ∀ tree, RedBlack (zip tree rest) → RedBlack (stop tree)) :
    RedBlack (rbEraseColor.eraseSibling sub parent climb stop) := by
  have ofSibling := hanging.ofSibling
  rcases parent with ⟨side, color, value, sibling⟩
  cases sibling with
  | leaf => cases ofSibling
  | node siblingColor left siblingValue right =>
    rcases ofSibling.sibling siblingBlack with ⟨rfl, ofLeft, ofRight⟩
    have goesOn : left.isRed = false → right.isRed = false →
        RedBlack (climb (Frame.fill ⟨side, color, value, .node .red left siblingValue right⟩
          sub)) := by
      intro leftBlack rightBlack
      rcases hanging.climb ofSub (.red siblingValue leftBlack rightBlack ofLeft ofRight) with
        ⟨above, ofRest, lacking⟩
      exact climbs _ above (isRed_fill _ _) ofRest lacking
    cases side with
    | left =>
      simp only [rbEraseColor.eraseSibling]
      split_ifs with bothBlack outerBlack
      · exact goesOn bothBlack.1 bothBlack.2
      · have innerRed : left.isRed = true := by
          simpa [outerBlack] using bothBlack
        rcases ofLeft.ofRed innerRed with ⟨inner, innerValue, outer, rfl, ofInner, ofOuter⟩
        exact stops _ (hanging.replaceParent (.black value ofSub ofInner)
          (.black siblingValue ofOuter ofRight) rfl rfl innerValue)
      rcases ofRight.ofRed (by simpa using outerBlack) with
        ⟨inner, outerValue, outer, rfl, ofInner, ofOuter⟩
      exact stops _ (hanging.replaceParent (.black value ofSub ofLeft)
        (.black outerValue ofInner ofOuter) rfl rfl siblingValue)
    | right =>
      simp only [rbEraseColor.eraseSibling]
      split_ifs with bothBlack outerBlack
      · exact goesOn bothBlack.1 bothBlack.2
      · have innerRed : right.isRed = true := by
          simpa [outerBlack] using bothBlack
        rcases ofRight.ofRed innerRed with ⟨outer, innerValue, inner, rfl, ofOuter, ofInner⟩
        exact stops _ (hanging.replaceParent (.black siblingValue ofLeft ofOuter)
          (.black value ofInner ofSub) rfl rfl innerValue)
      rcases ofLeft.ofRed (by simpa using outerBlack) with
        ⟨outer, outerValue, inner, rfl, ofOuter, ofInner⟩
      exact stops _ (hanging.replaceParent (.black outerValue ofOuter ofInner)
        (.black value ofRight ofSub) rfl rfl siblingValue)

theorem Hanging.climbed {tree : Tree α}
    (isTree : ∀ climb stop, rbEraseColor.eraseSibling sub parent climb stop = climb tree) :
    ∃ above, Hanging rest (above + 1) ∧ Lacking tree above := by
  have ofSibling := hanging.ofSibling
  have climbs := isTree id fun _ => .leaf
  have notStops := isTree (fun _ => .leaf) fun _ => .node .red .leaf parent.value .leaf
  rcases parent with ⟨side, color, value, sibling⟩
  cases sibling with
  | leaf => cases ofSibling
  | node siblingColor left siblingValue right =>
    rcases ofSibling.sibling siblingBlack with ⟨rfl, ofLeft, ofRight⟩
    by_cases bothBlack : left.isRed = false ∧ right.isRed = false
    · have redSibling := Colored.red siblingValue bothBlack.1 bothBlack.2 ofLeft ofRight
      cases side with
      | left | right =>
        simp only [rbEraseColor.eraseSibling, if_pos bothBlack, id] at climbs
        exact climbs ▸ hanging.climb ofSub redSibling
    cases side with
    | left | right =>
      simp only [rbEraseColor.eraseSibling, if_neg bothBlack] at notStops
      cases notStops

end

end EraseSibling

theorem Hanging.ofRedSibling (hanging : Hanging (parent :: rest) height)
    (isSibling : parent.sibling = .node .red left value right) :
    (left.isRed = false ∧ Colored left height) ∧ (right.isRed = false ∧ Colored right height) ∧
      Hanging rest (height + 1) := by
  cases hanging with
  | red _ _ siblingBlack =>
    simp only at isSibling
    rw [isSibling] at siblingBlack
    cases siblingBlack
  | black _ _ ofSibling ofRest =>
    simp only at isSibling
    rw [isSibling] at ofSibling
    cases ofSibling with
    | red _ leftBlack rightBlack ofLeft ofRight =>
      exact ⟨⟨leftBlack, ofLeft⟩, ⟨rightBlack, ofRight⟩, ofRest⟩

/-- A red sibling moves up, and the parent moves down with one of the black children. -/
theorem Hanging.lower (innerBlack : inner.isRed = false) (ofInner : Colored inner height)
    (ofOuter : Colored outer height) (ofRest : Hanging rest (height + 1)) (side : Side)
    (value siblingValue : α) :
    Hanging (⟨side, .red, value, inner⟩ :: ⟨side, .black, siblingValue, outer⟩ :: rest) height :=
  .red side value innerBlack ofInner ⟨_, _, rfl, rfl⟩ (.black side siblingValue ofOuter ofRest)

theorem redBlack_lowered {siblingValue : α} (ofSub : Colored sub height)
    (innerBlack : inner.isRed = false)
    (lowered : Hanging (⟨side, .red, value, inner⟩ :: ⟨side, .black, siblingValue, outer⟩ :: rest)
      (height + 1)) :
    RedBlack (rbEraseColor.eraseSibling sub ⟨side, .red, value, inner⟩
      (fun tree => zip (tree.setColor .black) (⟨side, .black, siblingValue, outer⟩ :: rest))
      (fun tree => (zip tree (⟨side, .black, siblingValue, outer⟩ :: rest)).setColor .black)) := by
  refine redBlack_eraseSibling lowered ofSub innerBlack ?_ fun _ redBlack => redBlack.setBlack
  intro tree above isRed hanging lacking
  have isTrue : tree.isRed = true := isRed
  rw [Lacking, if_pos isTrue] at lacking
  exact hanging.redBlack lacking (.inl (isRed_setColor_black tree))

theorem isRed_sibling
    (notLeft : ∀ inner value outer, parent.side = .left → parent.sibling = .node .red inner value
      outer → False)
    (notRight : ∀ outer value inner, parent.side = .right → parent.sibling = .node .red outer value
      inner → False) : parent.sibling.isRed = false := by
  rcases parent with ⟨side, color, value, sibling⟩
  cases sibling with
  | leaf => rfl
  | node siblingColor left siblingValue right =>
    cases siblingColor with
    | black => rfl
    | red =>
      cases side with
      | left => exact (notLeft _ _ _ rfl rfl).elim
      | right => exact (notRight _ _ _ rfl rfl).elim

theorem redBlack_rbEraseColor (sub : Tree α) (path : List (Frame α)) :
    ∀ height, Hanging path (height + 1) → Lacking sub height →
      RedBlack (rbEraseColor sub path) := by
  fun_induction rbEraseColor sub path with
  | case1 sub =>
    intro height _ lacking
    exact lacking.redBlack
  | case2 sub parent rest isRed =>
    intro height hanging lacking
    rw [Lacking, if_pos isRed] at lacking
    exact hanging.redBlack lacking (.inl (isRed_setColor_black sub))
  | case3 sub parent rest notRed inner value outer siblingEq _ lowered =>
    intro height hanging lacking
    rw [Lacking, if_neg notRed] at lacking
    rcases hanging.ofRedSibling siblingEq with ⟨⟨innerBlack, ofInner⟩, ⟨_, ofOuter⟩, ofRest⟩
    exact redBlack_lowered lacking innerBlack (.lower innerBlack ofInner ofOuter ofRest .left _ _)
  | case4 sub parent rest notRed outer value inner siblingEq _ lowered =>
    intro height hanging lacking
    rw [Lacking, if_neg notRed] at lacking
    rcases hanging.ofRedSibling siblingEq with ⟨⟨_, ofOuter⟩, ⟨innerBlack, ofInner⟩, ofRest⟩
    exact redBlack_lowered lacking innerBlack (.lower innerBlack ofInner ofOuter ofRest .right _ _)
  | case5 sub parent rest notRed notLeft notRight ih =>
    intro height hanging lacking
    rw [Lacking, if_neg notRed] at lacking
    exact redBlack_eraseSibling hanging lacking (isRed_sibling notLeft notRight)
      (fun tree above _ ofRest lacking => ih tree above ofRest lacking)
      fun _ redBlack => redBlack.setBlack

def Below (color : Color) (child : Tree α) (height : ℕ) : Prop :=
  match color with
  | .red => child.isRed = false ∧ Colored child height
  | .black => ∃ below, height = below + 1 ∧ Colored child below

theorem Colored.children (colored : Colored (.node color left value right) height) :
    Below color left height ∧ Below color right height := by
  cases colored with
  | red _ leftBlack rightBlack ofLeft ofRight => exact ⟨⟨leftBlack, ofLeft⟩, ⟨rightBlack, ofRight⟩⟩
  | black _ ofLeft ofRight => exact ⟨⟨_, rfl, ofLeft⟩, ⟨_, rfl, ofRight⟩⟩

theorem Hanging.spliceOut (hanging : Hanging path height) (below : Below color child height) :
    RedBlack (spliceOut color child path) := by
  unfold RbTree.spliceOut
  cases color with
  | red => exact hanging.redBlack below.2 (.inl below.1)
  | black =>
    rcases below with ⟨childHeight, rfl, ofChild⟩
    exact redBlack_rbEraseColor child path childHeight hanging ofChild.lacking

theorem Hanging.replaceValue {other : α} {sibling : Tree α}
    (hanging : Hanging (inside ++ ⟨side, color, value, sibling⟩ :: path) height) :
    Hanging (inside ++ ⟨side, color, other, sibling⟩ :: path) height := by
  induction inside generalizing height with
  | nil =>
    cases hanging with
    | red _ _ siblingBlack ofSibling blackParent ofRest =>
      exact .red side other siblingBlack ofSibling blackParent ofRest
    | black _ _ ofSibling ofRest => exact .black side other ofSibling ofRest
  | cons frame inside ih =>
    cases hanging with
    | red frameSide frameValue siblingBlack ofSibling blackParent ofRest =>
      refine .red frameSide frameValue siblingBlack ofSibling ?_ (ih ofRest)
      cases inside with
      | nil | cons next inside =>
        rcases blackParent with ⟨_, _, isPath, isBlack⟩
        cases isPath
        exact ⟨_, _, rfl, isBlack⟩
    | black frameSide frameValue ofSibling ofRest =>
      exact .black frameSide frameValue ofSibling (ih ofRest)

theorem zip_append (tree : Tree α) (inside path : List (Frame α)) :
    zip tree (inside ++ path) = zip (zip tree inside) path :=
  List.foldl_append

theorem zip_leftmost (color : Color) (left : Tree α) (value : α) (right : Tree α)
    (path : List (Frame α))
    (found : leftmost color left value right path = (nextColor, next, child, inside)) :
    zip (.node nextColor .leaf next child) inside = zip (.node color left value right) path := by
  fun_induction leftmost color left value right path with
  | case1 =>
    rcases found with ⟨rfl, rfl, rfl, rfl⟩
    rfl
  | case2 color value right path leftColor inner leftValue outer ih => exact ih found

theorem RedBlack.ofNext {rightColor : Color} {rightValue : α}
    (redBlack : RedBlack (zip (.node color left value (.node rightColor inner rightValue outer))
      path))
    (found : leftmost rightColor inner rightValue outer [] = (nextColor, next, child, inside)) :
    ∃ height, Hanging (inside ++ ⟨.right, color, next, left⟩ :: path) height ∧
      Below nextColor child height := by
  have whole : zip (.node nextColor .leaf next child)
      (inside ++ ⟨.right, color, value, left⟩ :: path) =
        zip (.node color left value (.node rightColor inner rightValue outer)) path := by
    rw [zip_append, zip_leftmost _ _ _ _ _ found]
    rfl
  rw [← whole] at redBlack
  rcases redBlack.unzip with ⟨height, ofInside, innerColored, _⟩
  exact ⟨height, ofInside.replaceValue, innerColored.children.2⟩

theorem RedBlack.rbErase (redBlack : RedBlack (zip (.node color left value right) path)) :
    RedBlack (rbErase color left right path) := by
  rcases redBlack.unzip with ⟨height, hanging, colored, _⟩
  fun_cases RbTree.rbErase color left right path with
  | case1 => exact hanging.spliceOut colored.children.2
  | case2 => exact hanging.spliceOut colored.children.1
  | case3 left rightColor inner rightValue outer notLeaf nextColor next child inside found =>
    rcases redBlack.ofNext found with ⟨_, ofInside, ofChild⟩
    exact ofInside.spliceOut ofChild

theorem RedBlack.rbInsertColor (redBlack : RedBlack (zip .leaf path)) (new : α) :
    RedBlack (rbInsertColor (.node .red .leaf new .leaf) path) := by
  rcases redBlack.unzip with ⟨height, hanging, colored, _⟩
  exact redBlack_rbInsertColor _ path height hanging (.red new rfl rfl colored colored) rfl

end StreakKernel.RbTree
