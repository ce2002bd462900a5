import Mathlib.Data.List.Infix
import Mathlib.Data.List.TakeWhile

/-!
# Elements that stand together

The elements of a list that meet a condition are contiguous if no other element stands between two
of them.
-/

namespace StreakKernel

open List

universe u

variable {Element : Type u} {p q : Element → Bool} {list front mine owned post : List Element}

/-- The elements that meet the condition form one block of the list. -/
def Contiguous (p : Element → Bool) (list : List Element) : Prop := list.filter p <:+: list

theorem Contiguous.congr (contiguous : Contiguous p list) (same : ∀ x ∈ list, q x = p x) :
    Contiguous q list := by
  unfold Contiguous
  rw [filter_congr same]
  exact contiguous

theorem contiguous_of_forall_not (none : ∀ x ∈ list, p x = false) : Contiguous p list := by
  unfold Contiguous
  rw [filter_eq_nil_iff.mpr fun x mem => by simp [none x mem]]
  exact nil_infix

theorem contiguous_append (inFront : ∀ x ∈ front, p x = false) (inMine : ∀ x ∈ mine, p x = true)
    (inPost : ∀ x ∈ post, p x = false) :
    (front ++ (mine ++ post)).filter p = mine ∧ Contiguous p (front ++ (mine ++ post)) := by
  have isMine : (front ++ (mine ++ post)).filter p = mine := by
    rw [filter_append, filter_append, filter_eq_self.mpr inMine,
      filter_eq_nil_iff.mpr fun x mem => by simp [inFront x mem],
      filter_eq_nil_iff.mpr fun x mem => by simp [inPost x mem], nil_append,
      append_nil]
  refine ⟨isMine, ?_⟩
  unfold Contiguous
  rw [isMine]
  exact infix_append' _ _ _

/-- From the first element of the block on, the list consists of the block and of elements that do
not meet the condition. -/
theorem Contiguous.split (contiguous : Contiguous p list) :
    ∃ post, list.dropWhile (fun x => !p x) = list.filter p ++ post ∧
      (∀ x ∈ post, p x = false) ∧ (list.filter p = [] → post = []) := by
  rcases contiguous with ⟨front, back, isList⟩
  have counts := congrArg (countP p) isList
  have ofBlock : (list.filter p).countP p = list.countP p := by
    rw [countP_filter]
    simp
  rw [countP_append, countP_append, ofBlock] at counts
  have inFront : ∀ x ∈ front, ¬p x = true := countP_eq_zero.mp (by omega)
  have inBack : ∀ x ∈ back, ¬p x = true := countP_eq_zero.mp (by omega)
  cases isBlock : list.filter p with
  | nil =>
    refine ⟨[], ?_, fun x never => absurd never not_mem_nil, fun _ => rfl⟩
    rw [append_nil, dropWhile_eq_nil_iff]
    intro x mem
    simpa using filter_eq_nil_iff.mp isBlock x mem
  | cons head tail =>
    refine ⟨back, ?_, fun x mem => by simpa using inBack x mem, fun empty => by cases empty⟩
    have isHead : p head = true :=
      (mem_filter.mp (isBlock ▸ mem_cons_self : head ∈ list.filter p)).2
    rw [← isList, isBlock, append_assoc,
      dropWhile_append_of_pos fun x mem => by simpa using inFront x mem,
      cons_append, dropWhile_cons_of_neg (by simp [isHead])]

theorem Contiguous.replace (contiguous : Contiguous p (front ++ (mine ++ post)))
    (sameFront : ∀ x ∈ front, q x = p x) (samePost : ∀ x ∈ post, q x = p x)
    (inMine : ∀ x ∈ mine, p x = false) (inOwned : ∀ x ∈ owned, q x = false)
    (atEnd : mine = [] → post = []) :
    (front ++ (owned ++ post)).filter q = (front ++ (mine ++ post)).filter p ∧
      Contiguous q (front ++ (owned ++ post)) := by
  have noMine : mine.filter p = [] := filter_eq_nil_iff.mpr fun x mem => by simp [inMine x mem]
  have noOwned : owned.filter q = [] := filter_eq_nil_iff.mpr fun x mem => by simp [inOwned x mem]
  have without : (front ++ (mine ++ post)).filter p = front.filter p ++ post.filter p := by
    rw [filter_append, filter_append, noMine, nil_append]
  have sameBlock : (front ++ (owned ++ post)).filter q = (front ++ (mine ++ post)).filter p := by
    rw [without, filter_append, filter_append, noOwned, nil_append,
      filter_congr sameFront, filter_congr samePost]
  refine ⟨sameBlock, ?_⟩
  unfold Contiguous at contiguous ⊢
  rw [sameBlock]
  rw [without] at contiguous ⊢
  have holds : ∀ x ∈ front.filter p ++ post.filter p, p x = true := by
    intro x mem
    rcases mem_append.mp mem with inFront | inPost
    · exact (mem_filter.mp inFront).2
    · exact (mem_filter.mp inPost).2
  generalize front.filter p ++ post.filter p = block at contiguous holds ⊢
  have notMine : ∀ x ∈ block, x ∉ mine := by
    intro x mem isMine
    have := holds x mem
    rw [inMine x isMine] at this
    cases this
  have ofFront : block <:+: front → block <:+: front ++ (owned ++ post) :=
    fun inFront => inFront.trans infix_append_left
  have ofPost : block <:+: post → block <:+: front ++ (owned ++ post) := fun inPost =>
    inPost.trans ⟨front ++ owned, [], by simp⟩
  rcases infix_append_iff.mp contiguous with inFront | inRest | ⟨low, high, rfl, isLow, isHigh⟩
  · exact ofFront inFront
  · rcases infix_append_iff.mp inRest with isMine | inPost | ⟨low, high, rfl, isLow, isHigh⟩
    · rw [eq_nil_iff_forall_not_mem.mpr fun x mem =>
        notMine x mem (isMine.subset mem)]
      exact nil_infix
    · exact ofPost inPost
    have noLow : low = [] := eq_nil_iff_forall_not_mem.mpr fun x mem =>
      notMine x (mem_append_left _ mem) (isLow.subset mem)
    subst noLow
    exact ofPost isHigh.isInfix
  cases high with
  | nil =>
    rw [append_nil] at ofFront ⊢
    exact ofFront isLow.isInfix
  | cons head tail =>
    cases mine with
    | nil =>
      rw [atEnd rfl, append_nil] at isHigh
      exact absurd (isHigh.subset mem_cons_self) not_mem_nil
    | cons first rest =>
      have isFirst : head = first := (cons_prefix_cons.mp isHigh).1
      subst isFirst
      exact absurd mem_cons_self (notMine head (mem_append_right _ mem_cons_self))

end StreakKernel
