import Mathlib.Algebra.Group.Nat.Defs
import StreakKernel.RbTree.Removal

/-!
# Unlinking a node in memory

`rb_erase` puts the only child of a node in its place, or moves the next node of the sequence
there, and then restores the colours.
-/

namespace StreakKernel.RbTree

open List RbTree.Tree
open Memory (load_of_ne modify_of_ne put_of_ne put_self)
open Option (bind_eq_bind bind_some)

/-! ## Writing links -/

section Writing

variable {memory middle : Memory} {sub : Tree Address} {path : List (Frame Address)}

theorem Focus.relink (focus : Focus memory sub path) (nonempty : sub.top ≠ 0#32)
    (sameRoot : middle.root = memory.root)
    (samePath : ∀ addr ∈ pathNodes path, middle.node addr = memory.node addr) (new : Address) :
    ∃ after, middle.relink .left (parentOf 0#32 path) sub.top new = some after ∧
      PathShows after.node 0#32 after.root new path ∧
      ∀ addr, addr ≠ 0#32 → addr ∉ pathNodes path →
        after.node addr = middle.node addr := by
  rcases focus.isChild nonempty with ⟨side, isChild⟩
  have isChildMiddle : parentOf 0#32 path ≠ 0#32 →
      (middle.node (parentOf 0#32 path)).child side = sub.top ∧
        (middle.node (parentOf 0#32 path)).child side.other ≠ sub.top := by
    intro notRoot
    rw [samePath _ (parentOf_mem notRoot)]
    exact ⟨(isChild notRoot).1, (isChild notRoot).2.1⟩
  rcases Memory.relink_spec .left new isChildMiddle with ⟨after, isAfter, relinked⟩
  have others : ∀ addr, addr ≠ parentOf 0#32 path →
      after.node addr = middle.node addr := by
    intro addr notParent
    by_cases isRoot : parentOf 0#32 path = 0#32
    · rw [(relinked.atRoot isRoot).2]
    · exact (relinked.atParent isRoot).2.2 addr notParent
  refine ⟨after, isAfter, ?_, ?_⟩
  · refine focus.ofPath.swing (nodup_append.mp focus.distinct).2.1 ?_ ?_ ?_
    · rintro rfl
      exact (relinked.atRoot rfl).1
    · rintro frame rest rfl
      have notRoot : frame.value ≠ 0#32 := focus.frame_nonzero
      rcases relinked.atParent notRoot with ⟨isRoot, isParent, _⟩
      have isSame := samePath frame.value mem_cons_self
      refine ⟨isRoot.trans sameRoot, ?_⟩
      rw [← (isChild notRoot).2.2 frame rest rfl, ← isSame]
      exact isParent
    · intro addr mem notParent
      rw [others addr notParent, samePath addr mem]
  · exact fun addr nonzero notPath => others addr (ne_parentOf nonzero notPath)

end Writing

/-! ## A node with one child -/

section Single

variable {memory : Memory} {path : List (Frame Address)}

variable {color : Color} {child : Tree Address} {height rounds : ℕ}

theorem Focus.spliceOut (focus : Focus memory child path) (hanging : Hanging path height)
    (below : Below color child height) (enough : path.length < rounds) :
    ∃ after, (if color = .black then memory.rbEraseColor rounds child.top (parentOf 0#32 path)
        else some memory) = some after ∧ Focus after (spliceOut color child path) [] := by
  cases color with
  | red => exact ⟨memory, rfl, focus_zip.mpr focus⟩
  | black =>
    rcases below with ⟨childHeight, rfl, ofChild⟩
    exact rbEraseColor child path memory childHeight rounds focus hanging ofChild.lacking enough

theorem Focus.eraseSingle {side : Side} {value : Address}
    (focus : Focus memory (Frame.fill ⟨side, color, value, .leaf⟩ child) path)
    (hanging : Hanging path height) (below : Below color child height)
    (enough : path.length < rounds) :
    ∃ after, memory.eraseSingle rounds value child.top = some after ∧
      Focus after (RbTree.spliceOut color child path) [] := by
  have isTop : (Frame.fill ⟨side, color, value, .leaf⟩ child).top = value := top_fill _ _
  have inner := focus_fill.mp focus
  have nonzero : value ≠ 0#32 := inner.frame_nonzero
  have linked := inner.linked
  have distinct := inner.distinct
  simp only [pathNodes, toList, nil_append, nodup_append, nodup_cons, mem_cons]
    at distinct
  rcases distinct with ⟨childDistinct, ⟨_, pathDistinct⟩, apart⟩
  have childValid : ∀ addr ∈ child.toList, addr ≠ 0#32 ∧ Aligned addr :=
    fun addr mem => inner.valid addr (mem_append_left _ mem)
  have notPath : ∀ addr ∈ child.toList, addr ∉ pathNodes path :=
    fun addr mem inPath => apart addr mem addr (.inr inPath) rfl
  have ofChild : Shows memory.node value child := inner.ofSub
  rcases memory.reparent_spec child.top (parentOf 0#32 path) with
    ⟨middle, isMiddle, sameRoot, atChild, others⟩
  have samePath : ∀ addr ∈ pathNodes path, middle.node addr = memory.node addr := by
    intro addr mem
    refine others addr (ne_top (inner.valid addr (by simp [pathNodes, mem])).1 fun inChild => ?_)
    exact notPath addr inChild mem
  rcases focus.relink (by rw [isTop]; exact nonzero) sameRoot samePath child.top with
    ⟨after, isAfter, ofPath, sameOthers⟩
  rw [isTop] at isAfter
  have focusAfter : Focus after child path := by
    refine ⟨?_, ofPath, nodup_append.mpr ⟨childDistinct, pathDistinct, ?_⟩, ?_⟩
    · refine ofChild.reparent childDistinct focus.parent_aligned ?_
        (fun addr mem => (childValid addr mem).1) ?_
      · intro nonempty
        rw [sameOthers _ nonempty (notPath _ (top_mem nonempty)), atChild nonempty]
      · intro addr mem notTop
        rw [sameOthers addr (childValid addr mem).1 (notPath addr mem), others addr notTop]
    · exact fun addr mem other inPath => apart addr mem other (.inr inPath)
    intro addr mem
    refine inner.valid addr ?_
    simp only [pathNodes, mem_append, mem_cons] at mem ⊢
    rcases mem with inChild | inPath
    · exact .inl inChild
    · exact .inr (.inr (.inr inPath))
  rcases focusAfter.spliceOut hanging below enough with ⟨final, isFinal, focusFinal⟩
  refine ⟨final, ?_, focusFinal⟩
  unfold Memory.eraseSingle
  have isParent := linked.parent
  have isColor : (memory.node value).color = color := linked.color
  simp [load_of_ne nonzero, isParent, isColor, isMiddle, isAfter, isFinal]

end Single

/-! ## A node with two children -/

section Double

variable {memory : Memory} {path inside : List (Frame Address)}

variable {color nextColor : Color} {left child : Tree Address} {next old : Address} {rounds : ℕ}

theorem Shows.leftmost {right : Tree Address} {value parent : Address}
    (stored : Shows memory.node parent (.node color left value right))
    (nonzero : ∀ addr ∈ (Tree.node color left value right).toList, addr ≠ 0#32)
    (found : leftmost color left value right path = (nextColor, next, child, inside))
    (enough : (Tree.node color left value right).toList.length ≤ rounds) :
    memory.leftmost rounds value = some next := by
  induction left generalizing color value right parent path rounds with
  | leaf =>
    simp only [RbTree.leftmost, Prod.mk.injEq] at found
    rcases found with ⟨_, rfl, _, _⟩
    obtain ⟨more, rfl⟩ : ∃ more, rounds = more + 1 :=
      ⟨rounds - 1, by simp [toList] at enough; omega⟩
    have isLeft : (memory.node value).left = 0#32 := stored.1.near
    simp only [Memory.leftmost, load_of_ne (nonzero value (by simp [toList])),
      bind_eq_bind, bind_some, isLeft, if_true]
  | node leftColor inner leftValue outer ih _ =>
    obtain ⟨more, rfl⟩ : ∃ more, rounds = more + 1 :=
      ⟨rounds - 1, by simp [toList] at enough; omega⟩
    have isLeft : (memory.node value).left = leftValue := stored.1.near
    have leftNonzero : leftValue ≠ 0#32 := nonzero leftValue (by simp [toList])
    simp only [Memory.leftmost, load_of_ne (nonzero value (by simp [toList])),
      bind_eq_bind, bind_some, isLeft, if_neg leftNonzero]
    refine ih stored.2.1 (fun addr mem => nonzero addr ?_) found ?_
    · rw [toList]
      exact mem_append_left _ mem
    · simp only [toList, length_append, length_cons] at enough ⊢
      omega

structure Detached (before after : Memory) (next : Address) (nodes : List Address)
    (below : Tree Address) : Prop where
  sameRoot : after.root = before.root
  ofBelow : Shows after.node next below
  right : (after.node next).right = below.top
  others : ∀ address, address ∉ nodes → address ≠ 0#32 → after.node address = before.node address

theorem side_leftmost {α : Type} {path inside : List (Frame α)} {left right child : Tree α}
    {value next : α}
    (found : leftmost color left value right path = (nextColor, next, child, inside))
    (onLeft : ∀ frame ∈ path, frame.side = .left) : ∀ frame ∈ inside, frame.side = .left := by
  induction left generalizing color value right path with
  | leaf =>
    rcases found with ⟨_, _, _, rfl⟩
    exact onLeft
  | node leftColor inner leftValue outer ih _ =>
    refine ih found ?_
    rintro frame (_ | ⟨_, mem⟩)
    · rfl
    · exact onLeft frame mem

theorem Shows.unhook {frame : Frame Address} {rest : List (Frame Address)}
    (stored : Shows memory.node old (zip (.node nextColor .leaf next child) (frame :: rest)))
    (distinct : (child.toList ++ pathNodes (frame :: rest)).Nodup)
    (valid : ∀ addr ∈ child.toList ++ pathNodes (frame :: rest), addr ≠ 0#32 ∧ Aligned addr)
    (onLeft : frame.side = .left) :
    ∃ first second, (if child.top = 0#32 then some memory
        else memory.modify child.top fun child => child.setParent frame.value) = some first ∧
      first.modify frame.value (fun parent => parent.setChild .left child.top) = some second ∧
      second.root = memory.root ∧
      (Shows second.node old (zip child (frame :: rest)) ∧
        (zip (.node nextColor .leaf next child) (frame :: rest)).top =
          (zip child (frame :: rest)).top) ∧
      ∀ addr, addr ≠ 0#32 → addr ∉ child.toList ++ pathNodes (frame :: rest) →
        second.node addr = memory.node addr := by
  rcases shows_zip.mp ⟨stored, rfl⟩ with ⟨⟨_, _, ofChild⟩, ofInside⟩
  rcases nodup_append.mp distinct with ⟨childDistinct, insideDistinct, apart⟩
  have parentMem : frame.value ∈ pathNodes (frame :: rest) := mem_cons_self
  have parentValid := valid frame.value (mem_append_right _ parentMem)
  rcases memory.reparent_spec child.top frame.value with
    ⟨first, isFirst, firstRoot, atChild, firstOther⟩
  obtain ⟨second, isSecond, secondRoot, atParent, secondOther⟩ : ∃ second,
      first.modify frame.value (fun parent => parent.setChild .left child.top) = some second ∧
      second.root = first.root ∧
      second.node frame.value = (first.node frame.value).setChild .left child.top ∧
      ∀ addr, addr ≠ frame.value → second.node addr = first.node addr :=
    ⟨_, modify_of_ne parentValid.1 _, rfl, put_self _,
      fun _ ne => put_of_ne ne _⟩
  have same : ∀ addr, addr ≠ 0#32 → addr ≠ frame.value → addr ∉ child.toList →
      second.node addr = memory.node addr := by
    intro addr nonzero notParent notChild
    rw [secondOther addr notParent, firstOther addr (ne_top nonzero notChild)]
  have insideValid : ∀ addr ∈ pathNodes (frame :: rest), addr ≠ 0#32 ∧
      addr ∉ child.toList := by
    intro addr mem
    exact ⟨(valid addr (mem_append_right _ mem)).1, fun inChild => apart addr inChild addr mem rfl⟩
  refine ⟨first, second, isFirst, isSecond, secondRoot.trans firstRoot, shows_zip.mpr ⟨?_, ?_⟩, ?_⟩
  · refine ofChild.reparent childDistinct parentValid.2 ?_ ?_ ?_
    · intro nonempty
      have notParent : child.top ≠ frame.value :=
        fun same => apart _ (top_mem nonempty) _ parentMem same
      rw [secondOther _ notParent, atChild nonempty]
      rfl
    · exact fun addr mem => (valid addr (mem_append_left _ mem)).1
    · intro addr mem notTop
      have notParent : addr ≠ frame.value := fun same => apart _ mem _ parentMem same
      rw [secondOther _ notParent, firstOther addr notTop]
  · refine ofInside.swing insideDistinct (fun never => by cases never) ?_ ?_
    · rintro _ _ ⟨⟩
      refine ⟨rfl, ?_⟩
      rw [atParent, onLeft, firstOther _ (ne_top parentValid.1 (insideValid _ parentMem).2)]
    · intro addr mem notParent
      exact same addr (insideValid addr mem).1 notParent (insideValid addr mem).2
  intro addr nonzero outside
  rw [mem_append, not_or] at outside
  exact same addr nonzero (ne_of_mem_of_not_mem parentMem outside.2).symm outside.1

theorem Shows.detachNext
    (stored : Shows memory.node old (zip (.node nextColor .leaf next child) inside))
    (distinct : (old :: next :: (child.toList ++ pathNodes inside)).Nodup)
    (valid : ∀ addr ∈ old :: next :: (child.toList ++ pathNodes inside), addr ≠ 0#32 ∧ Aligned addr)
    (isRight : (memory.node old).right = (zip (.node nextColor .leaf next child) inside).top)
    (onLeft : ∀ frame ∈ inside, frame.side = .left) :
    ∃ after, memory.detachNext old next child.top (parentOf old inside) =
        some (after, parentOf next inside) ∧
      Detached memory after next (next :: (child.toList ++ pathNodes inside))
        (zip child inside) := by
  rcases shows_zip.mp ⟨stored, rfl⟩ with ⟨⟨linked, _, ofChild⟩, _⟩
  cases inside with
  | nil => exact ⟨memory, if_pos rfl, rfl, ofChild, linked.far, fun _ _ _ => rfl⟩
  | cons frame rest =>
    rcases nodup_cons.mp distinct with ⟨notOld, others⟩
    rcases nodup_cons.mp others with ⟨notNext, belowDistinct⟩
    have belowValid : ∀ addr ∈ child.toList ++ pathNodes (frame :: rest),
        addr ≠ 0#32 ∧ Aligned addr :=
      fun addr mem => valid addr (mem_cons_of_mem _ (mem_cons_of_mem _ mem))
    have nextValid := valid next (mem_cons_of_mem _ mem_cons_self)
    have oldNonzero : old ≠ 0#32 := (valid old mem_cons_self).1
    have oldOutside : old ∉ child.toList ++ pathNodes (frame :: rest) :=
      fun mem => notOld (mem_cons_of_mem _ mem)
    have parentOld : frame.value ≠ old :=
      ne_of_mem_of_not_mem (mem_append_right _ mem_cons_self) oldOutside
    have perm := perm_zip child (frame :: rest)
    have treeDistinct := perm.nodup_iff.mpr belowDistinct
    rcases stored.unhook belowDistinct belowValid (onLeft frame mem_cons_self) with
      ⟨first, second, isFirst, isSecond, sameRoot, ⟨ofBelow, sameTop⟩, same⟩
    have topMem : (zip child (frame :: rest)).top ∈ child.toList ++ pathNodes (frame :: rest) :=
      mem_append_right _ (shows_zip.mp ⟨ofBelow, rfl⟩).2.root_mem
    have topNonzero := (belowValid _ topMem).1
    have topNext : (zip child (frame :: rest)).top ≠ next := ne_of_mem_of_not_mem topMem notNext
    have rightOld : (second.node old).right = (zip child (frame :: rest)).top := by
      rw [same old oldNonzero oldOutside, isRight, sameTop]
    refine ⟨(second.put next ((second.node next).setChild .right
      (zip child (frame :: rest)).top)).put (zip child (frame :: rest)).top
        ((second.node (zip child (frame :: rest)).top).setParent next), ?_, sameRoot, ?_, ?_, ?_⟩
    · unfold Memory.detachNext
      simp only [parentOf, if_neg parentOld, isFirst, isSecond, bind_eq_bind,
        bind_some, load_of_ne oldNonzero, rightOld, modify_of_ne nextValid.1,
        modify_of_ne topNonzero, put_of_ne topNext]
      rfl
    · refine ofBelow.reparent treeDistinct nextValid.2 (fun _ => put_self _) ?_ ?_
      · exact fun addr mem => (belowValid addr (perm.mem_iff.mp mem)).1
      intro addr mem notTop
      have notNext := ne_of_mem_of_not_mem (perm.mem_iff.mp mem) notNext
      rw [put_of_ne notTop, put_of_ne notNext]
    · rw [put_of_ne topNext.symm, put_self]
      rfl
    · intro addr outside nonzero
      rw [mem_cons, not_or] at outside
      have notTop := (ne_of_mem_of_not_mem topMem outside.2).symm
      rw [put_of_ne notTop, put_of_ne outside.1, same addr nonzero outside.2]

theorem Memory.inherit_spec (memory : Memory) {left : Address} (word : Address) (ne : left ≠ next) :
    ∃ after : Memory,
      after = ((memory.put next { memory.node next with parentColor := word }).put next
        ({ memory.node next with parentColor := word }.setChild .left left)).put left
          ((memory.node left).setParent next) ∧
      after.root = memory.root ∧
      after.node next = { memory.node next with parentColor := word }.setChild .left left ∧
      after.node left = (memory.node left).setParent next ∧
      ∀ addr, addr ≠ next → addr ≠ left → after.node addr = memory.node addr := by
  refine ⟨_, rfl, rfl, ?_, put_self _, ?_⟩
  · rw [put_of_ne ne.symm, put_self]
  · intro addr notNext notLeft
    rw [put_of_ne notLeft, put_of_ne notNext, put_of_ne notNext]

theorem parentOf_append (above : Address) (inside path : List (Frame Address)) :
    parentOf above (inside ++ path) = parentOf (parentOf above path) inside := by
  cases inside <;> rfl

theorem perm_double (color nextColor : Color) (left child : Tree Address) (old next : Address)
    (inside path : List (Frame Address)) :
    ((Tree.node color left old (zip (.node nextColor .leaf next child) inside)).toList ++
      pathNodes path).Perm
        ((old :: next :: (child.toList ++ pathNodes inside)) ++
          (left.toList ++ pathNodes path)) := by
  refine perm_iff_count.mpr fun addr => ?_
  simp only [toList, count_append, count_cons, (perm_zip _ _).count_eq, count_nil]
  omega

theorem Focus.replaced {first second third : Memory}
    (focus : Focus memory
      (.node color left old (zip (.node nextColor .leaf next child) inside)) path)
    (hasLeft : left.top ≠ 0#32) (ofPath : PathShows first.node 0#32 first.root next path)
    (sameFirst : ∀ addr, addr ≠ 0#32 → addr ∉ pathNodes path → first.node addr = memory.node addr)
    (detached : Detached first second next (next :: (child.toList ++ pathNodes inside))
      (zip child inside))
    (sameRoot : third.root = second.root)
    (atNext : third.node next =
      { second.node next with
        parentColor := (memory.node old).parentColor }.setChild .left left.top)
    (atLeft : third.node left.top = (second.node left.top).setParent next)
    (same : ∀ addr, addr ≠ next → addr ≠ left.top → third.node addr = second.node addr) :
    Focus third (zip child inside) (⟨.right, color, next, left⟩ :: path) := by
  have perm := perm_double color nextColor left child old next inside path
  have permAfter : (old :: ((zip child inside).toList ++
      pathNodes (⟨.right, color, next, left⟩ :: path))).Perm
        ((old :: next :: (child.toList ++ pathNodes inside)) ++
          (left.toList ++ pathNodes path)) := by
    refine perm_iff_count.mpr fun addr => ?_
    simp only [pathNodes, count_append, count_cons, (perm_zip _ _).count_eq]
    omega
  rcases nodup_append.mp (perm.nodup_iff.mp focus.distinct) with
    ⟨insideDistinct, outsideDistinct, apart⟩
  have valid := fun addr mem => focus.valid addr (perm.mem_iff.mpr mem)
  rcases focus.ofSub with ⟨linked, ofLeft, _⟩
  have leftMem : left.top ∈ left.toList := top_mem hasLeft
  have outsideSame : ∀ addr ∈ left.toList ++ pathNodes path,
      second.node addr = first.node addr := by
    intro addr mem
    refine detached.others addr (fun inside => ?_) (valid addr (mem_append_right _ mem)).1
    exact apart addr (mem_cons_of_mem _ inside) addr mem rfl
  have notNext : ∀ addr ∈ left.toList ++ pathNodes path, addr ≠ next :=
    fun addr mem same => apart next (by simp) addr mem same.symm
  refine ⟨?_, ⟨?_, ?_, ?_⟩, ?_, ?_⟩
  · refine detached.ofBelow.congr fun addr mem => ?_
    have inBelow := (perm_zip child inside).mem_iff.mp mem
    refine same addr (ne_of_mem_of_not_mem inBelow
      (nodup_cons.mp (nodup_cons.mp insideDistinct).2).1) ?_
    rintro rfl
    exact apart _ (mem_cons_of_mem _ (mem_cons_of_mem _ inBelow)) _ (mem_append_left _ leftMem) rfl
  · rw [atNext]
    exact ⟨linked.parent, linked.color, detached.right, rfl⟩
  · have leftSame : ∀ addr ∈ left.toList, second.node addr = memory.node addr := by
      intro addr mem
      rw [outsideSame addr (mem_append_left _ mem)]
      refine sameFirst addr (valid addr (by simp [mem])).1 fun inPath => ?_
      exact (nodup_append.mp outsideDistinct).2.2 addr mem addr inPath rfl
    refine ofLeft.reparent (nodup_append.mp outsideDistinct).1 (valid next (by simp)).2 ?_ ?_ ?_
    · intro _
      rw [atLeft, leftSame _ leftMem]
    · exact fun addr mem => (valid addr (by simp [mem])).1
    · intro addr mem notTop
      rw [same addr (notNext addr (mem_append_left _ mem)) notTop, leftSame addr mem]
  · rw [sameRoot, detached.sameRoot]
    refine ofPath.congr fun addr mem => ?_
    rw [same addr (notNext addr (mem_append_right _ mem)) ?_,
      outsideSame addr (mem_append_right _ mem)]
    rintro rfl
    exact (nodup_append.mp outsideDistinct).2.2 _ leftMem _ mem rfl
  · refine List.Nodup.sublist ?_ (permAfter.nodup_iff.mpr (perm.nodup_iff.mp focus.distinct))
    exact sublist_cons_self old _
  · exact fun addr mem => valid addr (permAfter.mem_iff.mp (mem_cons_of_mem _ mem))

theorem Focus.eraseDouble {rightColor : Color} {inner outer : Tree Address} {rightValue : Address}
    {height : ℕ}
    (focus : Focus memory (.node color left old (.node rightColor inner rightValue outer)) path)
    (hasLeft : left.top ≠ 0#32)
    (found : leftmost rightColor inner rightValue outer [] = (nextColor, next, child, inside))
    (hanging : Hanging (inside ++ ⟨.right, color, next, left⟩ :: path) height)
    (below : Below nextColor child height)
    (enough : ((Tree.node color left old (.node rightColor inner rightValue outer)).toList ++
      pathNodes path).length ≤ rounds) :
    ∃ after, memory.eraseDouble rounds old = some after ∧
      Focus after (RbTree.spliceOut nextColor child
        (inside ++ ⟨.right, color, next, left⟩ :: path)) [] := by
  have isRight : zip (.node nextColor .leaf next child) inside =
      .node rightColor inner rightValue outer := zip_leftmost _ _ _ _ _ found
  have onLeft := side_leftmost found (by simp)
  have stored := focus
  rw [← isRight] at stored
  have perm := perm_double color nextColor left child old next inside path
  rcases nodup_append.mp (perm.nodup_iff.mp stored.distinct) with ⟨insideDistinct, _, apart⟩
  have valid := fun addr mem => stored.valid addr (perm.mem_iff.mpr mem)
  have insideValid : ∀ addr ∈ old :: next :: (child.toList ++ pathNodes inside),
      addr ≠ 0#32 ∧ Aligned addr :=
    fun addr mem => valid addr (mem_append_left _ mem)
  have notPath : ∀ addr ∈ old :: next :: (child.toList ++ pathNodes inside),
      addr ∉ pathNodes path :=
    fun addr mem inPath => apart addr mem addr (mem_append_right _ inPath) rfl
  have oldNonzero : old ≠ 0#32 := (insideValid old (by simp)).1
  have nextValid := insideValid next (by simp)
  rcases focus.ofSub with ⟨linked, ofLeft, ofRight⟩
  rcases focus.relink oldNonzero rfl (fun _ _ => rfl) next with ⟨first, isFirst, ofPath, sameFirst⟩
  have firstSame : ∀ addr ∈ old :: next :: (child.toList ++ pathNodes inside),
      first.node addr = memory.node addr :=
    fun addr mem => sameFirst addr (insideValid addr mem).1 (notPath addr mem)
  have ofRightFirst : Shows first.node old (zip (.node nextColor .leaf next child) inside) := by
    rw [isRight]
    refine ofRight.congr fun addr mem => firstSame addr (mem_cons_of_mem _ ?_)
    rw [← isRight] at mem
    exact (perm_zip _ _).mem_iff.mp mem
  have rightFirst : (first.node old).right =
      (zip (.node nextColor .leaf next child) inside).top := by
    rw [firstSame old (by simp), isRight]
    exact linked.far
  rcases shows_zip.mp ⟨ofRightFirst, rfl⟩ with ⟨⟨linkedNext, _, _⟩, _⟩
  rcases ofRightFirst.detachNext insideDistinct insideValid rightFirst onLeft with
    ⟨second, isSecond, detached⟩
  have secondSame : ∀ addr, addr ≠ 0#32 →
      addr ∉ next :: (child.toList ++ pathNodes inside) → second.node addr = first.node addr :=
    fun addr nonzero outside => detached.others addr outside nonzero
  have oldOutside := (nodup_cons.mp insideDistinct).1
  have oldSame : second.node old = memory.node old := by
    rw [secondSame old oldNonzero oldOutside, firstSame old (by simp)]
  have isLeft : (second.node old).left = left.top := by
    rw [oldSame]
    exact linked.near
  have oldNext : old ≠ next := (ne_of_mem_of_not_mem mem_cons_self oldOutside).symm
  have leftMem : left.top ∈ left.toList := top_mem hasLeft
  have leftNext : left.top ≠ next := by
    intro same
    exact apart next (by simp) _ (mem_append_left _ leftMem) same.symm
  rcases second.inherit_spec (second.node old).parentColor leftNext with
    ⟨third, isThird, thirdRoot, thirdNext, thirdLeft, thirdSame⟩
  have focusChild : Focus third child (inside ++ ⟨.right, color, next, left⟩ :: path) := by
    rw [← focus_zip, zip_append, focus_zip]
    exact stored.replaced hasLeft ofPath sameFirst detached thirdRoot (by rw [thirdNext, oldSame])
      thirdLeft thirdSame
  have bound : (inside ++ (⟨.right, color, next, left⟩ : Frame Address) :: path).length <
      rounds := by
    have total := perm.length_eq
    rw [isRight] at total
    have ofInside := length_pathNodes inside
    have ofOutside := length_pathNodes path
    simp only [length_append, length_cons] at total enough ⊢
    omega
  rcases focusChild.spliceOut hanging below bound with ⟨final, isFinal, focusFinal⟩
  refine ⟨final, ?_, focusFinal⟩
  have nonzeroRight : ∀ addr ∈ (Tree.node rightColor inner rightValue outer).toList,
      addr ≠ 0#32 :=
    fun addr mem => (focus.valid addr (by rw [toList]; simp [mem])).1
  have isNext : memory.leftmost rounds rightValue = some next := by
    refine ofRight.leftmost nonzeroRight found ?_
    rw [toList] at enough
    simp only [length_append, length_cons] at enough ⊢
    omega
  have isOldRight : (memory.node old).right = rightValue := linked.far
  have isOldParent := linked.parent
  have isChild : (first.node next).right = child.top := linkedNext.far
  have isParent := linkedNext.parent
  have isColor : (first.node next).color = nextColor := linkedNext.color
  have relinked : memory.relink .left (parentOf 0#32 path) old next = some first := isFirst
  have isAbove : parentOf 0#32 (inside ++ (⟨.right, color, next, left⟩ : Frame Address) :: path) =
      parentOf next inside := parentOf_append _ _ _
  rw [isAbove, isThird] at isFinal
  unfold Memory.eraseDouble
  simp only [load_of_ne oldNonzero, bind_eq_bind, bind_some, isOldRight, isNext,
    isOldParent, relinked, load_of_ne nextValid.1, isChild, isParent, isColor, isSecond,
    modify_of_ne nextValid.1, put_self, put_of_ne oldNext, isLeft,
    modify_of_ne hasLeft, put_of_ne leftNext]
  exact isFinal

end Double

/-! ## The whole function -/

theorem Focus.rbErase {memory : Memory} {path : List (Frame Address)} {color : Color}
    {left right : Tree Address} {value : Address} {rounds : ℕ}
    (focus : Focus memory (.node color left value right) path)
    (redBlack : RedBlack (zip (.node color left value right) path))
    (enough : ((Tree.node color left value right).toList ++ pathNodes path).length ≤ rounds) :
    ∃ after, memory.rbErase rounds value = some after ∧
      Focus after (RbTree.rbErase color left right path) [] := by
  rcases redBlack.unzip with ⟨height, hanging, colored, _⟩
  have nonzero : value ≠ 0#32 := (focus.valid value (by simp [toList])).1
  have isLeft : (memory.node value).left = left.top := focus.ofSub.1.near
  have isRight : (memory.node value).right = right.top := focus.ofSub.1.far
  have bound : path.length < rounds := by
    have ofPath := length_pathNodes path
    simp only [toList, length_append, length_cons] at enough
    omega
  have topNonzero : ∀ tree : Tree Address, tree ≠ .leaf → (∀ addr ∈ tree.toList,
      addr ≠ 0#32) → tree.top ≠ 0#32 := by
    intro tree notLeaf valid
    cases tree with
    | leaf => exact absurd rfl notLeaf
    | node color inner value outer => exact valid value (by simp [toList])
  unfold Memory.rbErase
  simp only [load_of_ne nonzero, bind_eq_bind, bind_some, isLeft, isRight]
  fun_cases RbTree.rbErase color left right path with
  | case1 =>
    exact @eraseSingle memory path color right height rounds .right value focus hanging
      colored.children.2 bound
  | case2 left notLeaf =>
    have hasLeft : left.top ≠ 0#32 :=
      topNonzero left notLeaf fun addr mem => (focus.valid addr (by simp [toList, mem])).1
    rw [if_neg hasLeft]
    exact @eraseSingle memory path color left height rounds .left value focus hanging
      colored.children.1 bound
  | case3 left rightColor inner rightValue outer notLeaf nextColor next child inside found =>
    have hasLeft : left.top ≠ 0#32 :=
      topNonzero left notLeaf fun addr mem => (focus.valid addr (by simp [toList, mem])).1
    have hasRight : (Tree.node rightColor inner rightValue outer).top ≠ 0#32 :=
      (focus.valid rightValue (by simp [toList])).1
    rcases redBlack.ofNext found with ⟨_, ofInside, ofChild⟩
    rw [if_neg hasLeft, if_neg hasRight]
    exact focus.eraseDouble hasLeft found ofInside ofChild enough

/-- A red-black tree in memory: its links and colours are stored, and it follows the rules. -/
structure Stored (memory : Memory) (tree : Tree Address) : Prop where
  focus : Focus memory tree []
  redBlack : RedBlack tree

/-- A new leaf can be linked at any empty position of a stored tree, after which `rb_insert_color`
stores a tree with the same sequence of nodes; and any node can be erased, which stores the sequence
of the other nodes. -/
theorem Stored.insert_and_erase {memory : Memory} {tree : Tree Address}
    (stored : Stored memory tree) {rounds : ℕ} (enough : tree.toList.length < rounds) :
    (∀ path new, zip .leaf path = tree → new ∉ tree.toList → new ≠ 0#32 → Aligned new →
      ∃ linked after newTree,
        memory.rbLinkNode new (parentOf 0#32 path) (linkOf path) = some linked ∧
        Focus linked (zip (.node .red .leaf new .leaf) path) [] ∧
        linked.rbInsertColor rounds new = some after ∧ Stored after newTree ∧
        newTree.toList = (zip (.node .red .leaf new .leaf) path).toList) ∧
    ∀ node ∈ tree.toList, ∃ after newTree, memory.rbErase rounds node = some after ∧
      Stored after newTree ∧ newTree.toList = tree.toList.erase node := by
  constructor
  · rintro path new rfl isNew nonzero aligned
    have perm := perm_zip (.leaf : Tree Address) path
    have bound : path.length < rounds := by
      have ofPath := length_pathNodes path
      have total := perm.length_eq
      simp only [toList, nil_append] at total
      omega
    rcases (focus_zip.mp stored.focus).insert stored.redBlack
      (fun mem => isNew (perm.mem_iff.mpr mem)) nonzero aligned bound with
      ⟨linked, after, isLinked, focusLinked, isAfter, focusAfter⟩
    exact ⟨linked, after, _, isLinked, focus_zip.mpr focusLinked, isAfter,
      ⟨focusAfter, stored.redBlack.rbInsertColor new⟩, toList_rbInsertColor _ _⟩
  · intro node mem
    rcases Option.isSome_iff_exists.mp (locate_isSome [] mem) with
      ⟨⟨color, left, right, path⟩, found⟩
    have isTree := zip_of_locate found
    subst isTree
    have bound : ((Tree.node color left node right).toList ++ pathNodes path).length ≤ rounds := by
      rw [← (perm_zip (.node color left node right) path).length_eq]
      exact Nat.le_of_lt enough
    rcases (focus_zip.mp stored.focus).rbErase stored.redBlack bound with
      ⟨after, isAfter, focusAfter⟩
    have distinct : (zip (.node color left node right) path).toList.Nodup := by
      have distinct := stored.focus.distinct
      rwa [pathNodes, append_nil] at distinct
    rcases erase_eq distinct mem with ⟨newTree, isErased, sequence⟩
    simp only [erase, found, Option.map_some, Option.some.injEq] at isErased
    subst isErased
    exact ⟨after, _, isAfter, ⟨focusAfter, stored.redBlack.rbErase⟩, sequence⟩

def pairTree : Tree Address := .node .black .leaf 4#32 (.node .red .leaf 8#32 .leaf)

def pairMemory : Memory where
  node address :=
    if address = 4#32 then ⟨1#32, 8#32, 0#32⟩
    else if address = 8#32 then ⟨4#32, 0#32, 0#32⟩
    else ⟨0#32, 0#32, 0#32⟩
  root := 4#32

theorem stored_pair : Stored pairMemory pairTree := by
  have atRoot : Linked (pairMemory.node 4#32) .left 0#32 .black 0#32 8#32 := by
    constructor <;> decide +kernel
  have atChild : Linked (pairMemory.node 8#32) .left 4#32 .red 0#32 0#32 := by
    constructor <;> decide +kernel
  refine ⟨⟨⟨atRoot, trivial, atChild, trivial, trivial⟩, rfl, by decide, ?_⟩, rfl, 1,
    .black _ .leaf (.red _ rfl rfl .leaf .leaf)⟩
  intro addr mem
  have isOne : addr = 4#32 ∨ addr = 8#32 := by simpa [pairTree, toList, pathNodes] using mem
  rcases isOne with rfl | rfl
  all_goals exact ⟨by decide, rfl⟩

theorem insert_and_erase_pair :
    (∃ linked after newTree, pairMemory.rbLinkNode 12#32 8#32 (some .right) = some linked ∧
      Focus linked (zip (.node .red .leaf 12#32 .leaf)
        [⟨.right, .red, 8#32, .leaf⟩, ⟨.right, .black, 4#32, .leaf⟩]) [] ∧
      linked.rbInsertColor 3 12#32 = some after ∧ Stored after newTree ∧
      newTree.toList = [4#32, 8#32, 12#32]) ∧
    ∃ after newTree, pairMemory.rbErase 3 4#32 = some after ∧ Stored after newTree ∧
      newTree.toList = [8#32] :=
  ⟨(stored_pair.insert_and_erase (by decide)).1
      [⟨.right, .red, 8#32, .leaf⟩, ⟨.right, .black, 4#32, .leaf⟩] 12#32 rfl (by decide)
      (by decide) rfl,
    (stored_pair.insert_and_erase (by decide)).2 4#32 (by decide)⟩

def Tree.depth {α : Type} : Tree α → ℕ
  | leaf => 0
  | node _ left _ right => max left.depth right.depth + 1

theorem Colored.bounds {α : Type} {tree : Tree α} {height : ℕ} (colored : Colored tree height) :
    tree.depth ≤ 2 * height + tree.isRed.toNat ∧ 2 ^ height ≤ tree.toList.length + 1 := by
  induction colored with
  | leaf => simp [depth, toList]
  | red _ leftBlack rightBlack _ _ ofLeft ofRight =>
    rw [leftBlack] at ofLeft
    rw [rightBlack] at ofRight
    simp only [depth, toList, length_append, length_cons, isRed, Bool.toNat_true,
      Bool.toNat_false] at ofLeft ofRight ⊢
    omega
  | @black left right =>
    have leftRed := left.isRed.toNat_le
    have rightRed := right.isRed.toNat_le
    simp only [depth, toList, length_append, length_cons, isRed, Bool.toNat_false]
    omega

end StreakKernel.RbTree
