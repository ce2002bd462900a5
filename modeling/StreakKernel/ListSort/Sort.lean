import StreakKernel.ListSort.Merge

/-!
# Sorting is stable

The partial lists from the last level down to the first, and then what is still to come,
are at every point a rearrangement of the list in which equivalent nodes stand in their
order.
-/

namespace StreakKernel.ListSort

open List Function StableMerge

universe u

variable {Node : Type u}

def gathered (runs : ℕ → List Node) : ℕ → List Node
  | 0 => []
  | n + 1 => runs n ++ gathered runs n

section Levels

variable {runs other : ℕ → List Node} {lev n : ℕ}

theorem gathered_congr (agree : ∀ j < n, other j = runs j) :
    gathered other n = gathered runs n := by
  induction n with
  | zero => rfl
  | succ n ih =>
    rw [gathered, gathered, agree n (Nat.lt_succ_self n),
      ih fun j before => agree j (before.trans (Nat.lt_succ_self n))]

theorem gathered_eq_nil (empty : ∀ j < n, runs j = []) : gathered runs n = [] := by
  induction n with
  | zero => rfl
  | succ n ih =>
    rw [gathered, empty n (Nat.lt_succ_self n),
      ih fun j before => empty j (before.trans (Nat.lt_succ_self n)), nil_append]

theorem gathered_split (below : ∀ j < lev, runs j = []) (bound : lev < n) :
    ∃ upper, gathered runs n = upper ++ runs lev ∧
      ∀ run, gathered (update runs lev run) n = upper ++ run := by
  induction n with
  | zero => omega
  | succ n ih =>
    by_cases isLast : lev = n
    · subst isLast
      refine ⟨[], ?_, ?_⟩
      · rw [gathered, gathered_eq_nil below, append_nil, nil_append]
      intro run
      have same : gathered (update runs lev run) lev = gathered runs lev :=
        gathered_congr fun j before => update_of_ne (by omega) _ _
      rw [gathered, same, gathered_eq_nil below, update_self, append_nil, nil_append]
    rcases ih (by omega) with ⟨upper, isGathered, updated⟩
    refine ⟨runs n ++ upper, ?_, ?_⟩
    · rw [gathered, isGathered, append_assoc]
    · intro run
      rw [gathered, updated run, update_of_ne (Ne.symm isLast), append_assoc]

theorem gathered_suffix (bound : lev ≤ n) : gathered runs lev <:+ gathered runs n := by
  induction bound with
  | refl => exact suffix_rfl
  | step _ ih => exact ih.trans (suffix_append _ _)

theorem gathered_high (bound : lev ≤ n) (empty : ∀ j, lev ≤ j → runs j = []) :
    gathered runs n = gathered runs lev := by
  induction bound with
  | refl => rfl
  | @step m before ih => rw [gathered, empty m before, ih, nil_append]

theorem mem_gathered {x : Node} (bound : lev < n) (mem : x ∈ runs lev) :
    x ∈ gathered runs n := by
  induction n with
  | zero => omega
  | succ n ih =>
    rw [gathered, mem_append]
    by_cases isLast : lev = n
    · exact Or.inl (isLast ▸ mem)
    · exact Or.inr (ih (by omega))

theorem upTo_empty (below : ∀ j < lev, runs j = [])
    (isEmpty : runs lev = []) : ∀ j ≤ lev, runs j = [] := by
  intro j before
  rcases Nat.lt_or_eq_of_le before with earlier | rfl
  · exact below j earlier
  · exact isEmpty

end Levels

section Sorting

variable {cmp : Node → Node → ℤ} {elements : Set Node}

structure Stock (cmp : Node → Node → ℤ) (elements : Set Node) (parts : Parts Node)
    (cur : Option Node) (runs : ℕ → List Node) (run : List Node) : Prop where
  chains : ∀ lev, Path parts.links.next (parts.part lev) (runs lev) none
  sorted : ∀ lev, Sorted (inOrder cmp) (runs lev)
  curChain : Path parts.links.next cur run none
  curSorted : Sorted (inOrder cmp) run
  beyond : ∀ lev, maxListLengthBits ≤ lev → runs lev = []
  nodup : (gathered runs maxListLengthBits ++ run).Nodup
  inside : ∀ x ∈ gathered runs maxListLengthBits ++ run, x ∈ elements

variable {parts : Parts Node} {cur list : Option Node} {runs : ℕ → List Node} {run xs : List Node}
  {lev limit rest : ℕ} {first : Node} {links : Links Node}

theorem Stock.empty_of_none (stock : Stock cmp elements parts cur runs run)
    (isNone : parts.part lev = none) : runs lev = [] := by
  have isChain := stock.chains lev
  rw [isNone] at isChain
  exact isChain.of_none

structure Filled (cmp : Node → Node → ℤ) (elements : Set Node) (parts : Parts Node)
    (runs : ℕ → List Node) : Prop where
  stock : Stock cmp elements parts none runs []
  high : ∀ lev, parts.maxLev < lev → runs lev = []
  top : parts.maxLev < maxListLengthBits
  started : runs parts.maxLev ≠ [] ∨ parts.maxLev = 0

def storeLevel (parts : Parts Node) (lev : ℕ) : ℕ :=
  if parts.maxLev < lev ∧ maxListLengthBits ≤ lev then lev - 1 else lev

theorem store_eq (parts : Parts Node) (cur : Option Node) (lev : ℕ) :
    store parts cur lev = { parts with
      part := update parts.part (storeLevel parts lev) cur
      maxLev := if parts.maxLev < lev then storeLevel parts lev else parts.maxLev } := by
  unfold store storeLevel
  split_ifs with above full both both other <;> simp_all

theorem store_spec (stock : Stock cmp elements parts cur runs run)
    (bound : lev ≤ maxListLengthBits) (empty : ∀ j ≤ lev, runs j = [])
    (top : parts.maxLev < maxListLengthBits) (high : ∀ j, parts.maxLev < j → runs j = [])
    (nonempty : run ≠ []) (started : lev < parts.maxLev → runs parts.maxLev ≠ []) :
    Filled cmp elements (store parts cur lev)
        (update runs (storeLevel parts lev) run) ∧
      update runs (storeLevel parts lev) run (store parts cur lev).maxLev ≠ [] ∧
      gathered (update runs (storeLevel parts lev) run) maxListLengthBits =
        gathered runs maxListLengthBits ++ run := by
  have levelBound : storeLevel parts lev < maxListLengthBits ∧ storeLevel parts lev ≤ lev := by
    unfold storeLevel maxListLengthBits at *
    split_ifs <;> omega
  generalize isLevel : storeLevel parts lev = level at *
  rcases levelBound with ⟨within, before⟩
  rcases gathered_split (fun j earlier => empty j (by omega)) within with
    ⟨upper, isGathered, updated⟩
  rw [empty level before, append_nil] at isGathered
  have isAll : gathered (update runs level run) maxListLengthBits =
      gathered runs maxListLengthBits ++ run := by
    rw [updated run, isGathered]
  have isStored : store parts cur lev = { parts with
      part := update parts.part level cur
      maxLev := if parts.maxLev < lev then level else parts.maxLev } := by
    rw [store_eq, isLevel]
  have topFilled : update runs level run
      (if parts.maxLev < lev then level else parts.maxLev) ≠ [] := by
    split_ifs with above
    · rw [update_self]
      exact nonempty
    by_cases isTop : parts.maxLev = level
    · rw [isTop, update_self]
      exact nonempty
    rw [update_of_ne isTop]
    refine started ?_
    unfold storeLevel at isLevel
    split_ifs at isLevel with full <;> omega
  rw [isStored]
  refine ⟨⟨⟨?_, ?_, rfl, List.Pairwise.nil, ?_, ?_, ?_⟩, ?_, ?_, .inl topFilled⟩, topFilled, isAll⟩
  · intro j
    by_cases same : j = level
    · subst same
      simp only [update_self]
      exact stock.curChain
    · simp only [update_of_ne same]
      exact stock.chains j
  · exact (forall_update_iff runs fun _ list => Sorted (inOrder cmp) list).mpr
      ⟨stock.curSorted, fun j _ => stock.sorted j⟩
  · intro j outside
    rw [update_of_ne (by omega)]
    exact stock.beyond j outside
  · rw [append_nil, isAll]
    exact stock.nodup
  · rw [append_nil, isAll]
    exact stock.inside
  · intro j beyond
    simp only at beyond
    have notLevel : j ≠ level := by split_ifs at beyond with above <;> omega
    rw [update_of_ne notLevel]
    by_cases earlier : j ≤ lev
    · exact empty j earlier
    · refine high j ?_
      split_ifs at beyond with above <;> omega
  · simp only
    split_ifs with above
    · exact within
    · exact top

theorem filled_empty (links : Links Node) :
    Filled cmp elements ⟨links, fun _ => none, 0⟩ fun _ => [] := by
  have isEmpty : gathered (fun _ => ([] : List Node)) maxListLengthBits = [] :=
    gathered_eq_nil fun _ _ => rfl
  refine ⟨⟨fun _ => rfl, fun _ => .nil, rfl, .nil, fun _ _ => rfl, ?_, ?_⟩, fun _ _ => rfl,
    Nat.succ_pos 19, .inr rfl⟩
  · rw [isEmpty]
    exact nodup_nil
  · rw [isEmpty]
    exact fun _ never => absurd never not_mem_nil

variable [DecidableEq Node]

section

variable (preorder : PreorderOn (inOrder cmp) elements)
  (stock : Stock cmp elements parts cur runs run) (below : ∀ j < lev, runs j = [])
include preorder stock below

theorem Stock.merge (isPart : parts.part lev = some first)
    (enough : (gathered runs maxListLengthBits ++ run).length ≤ limit) :
    ∃ links merged, ListSort.merge cmp limit parts.links (some first) cur = some (links, merged) ∧
      Stock cmp elements
        { parts with links := links, part := update parts.part lev none } merged
        (update runs lev []) ((runs lev).merge run (inOrder cmp)) ∧
      Rearranges (inOrder cmp) elements (gathered runs maxListLengthBits ++ run)
        (gathered (update runs lev []) maxListLengthBits ++ (runs lev).merge run (inOrder cmp)) ∧
      ∀ x, x ∉ gathered runs maxListLengthBits ++ run → links.next x = parts.links.next x := by
  have isChain := stock.chains lev
  have bound : lev < maxListLengthBits := by
    by_contra outside
    rw [stock.beyond lev (not_lt.mp outside), isPart] at isChain
    cases isChain
  rcases gathered_split below bound with ⟨upper, isGathered, updated⟩
  have cleared := updated []
  rw [append_nil] at cleared
  have nodup := stock.nodup
  have inside := stock.inside
  rw [isGathered, append_assoc] at nodup enough inside
  rcases nodup_append.mp nodup with ⟨_, pairNodup, apart⟩
  rw [isPart] at isChain
  rcases @merge_spec _ _ cmp _ _ _ _ _ limit pairNodup isChain stock.curChain
    (by simp only [length_append] at enough; omega) with
    ⟨links, merged, result, path, same⟩
  have leftInside : ∀ x ∈ runs lev, x ∈ elements := fun x mem =>
    inside x (mem_append_right _ (mem_append_left _ mem))
  have rightInside : ∀ x ∈ run, x ∈ elements := fun x mem =>
    inside x (mem_append_right _ (mem_append_right _ mem))
  have rearranged : Rearranges (inOrder cmp) elements (upper ++ (runs lev ++ run))
      (upper ++ (runs lev).merge run (inOrder cmp)) :=
    (Rearranges.refl upper).append
      (rearranges_merge preorder leftInside rightInside (stock.sorted lev))
  refine ⟨links, merged, result, ⟨?_, ?_, path, ?_, ?_, ?_, ?_⟩, ?_, ?_⟩
  · intro j
    by_cases isLevel : j = lev
    · subst isLevel
      simp only [update_self]
      rfl
    simp only [update_of_ne isLevel]
    refine (stock.chains j).frame ?_
    intro x mem
    refine same x ?_
    intro inPair
    have level : j < maxListLengthBits := by
      by_contra outside
      rw [stock.beyond j (not_lt.mp outside)] at mem
      cases mem
    have inUpper : x ∈ upper := by
      rw [← cleared]
      refine mem_gathered level ?_
      rwa [update_of_ne isLevel]
    exact apart x inUpper x inPair rfl
  · exact (forall_update_iff runs fun _ list => Sorted (inOrder cmp) list).mpr
      ⟨List.Pairwise.nil, fun j _ => stock.sorted j⟩
  · exact sorted_merge preorder leftInside rightInside (stock.sorted lev) stock.curSorted
  · intro j outside
    rw [update_of_ne (by omega)]
    exact stock.beyond j outside
  · rw [cleared]
    exact (rearranged.perm.nodup_iff).mpr nodup
  · rw [cleared]
    intro x mem
    exact inside x (rearranged.perm.mem_iff.mp mem)
  · rw [cleared, isGathered, append_assoc]
    exact rearranged
  · rw [isGathered, append_assoc]
    intro x outside
    exact same x fun inPair => outside (mem_append_right _ inPair)

/-- The loop over the levels ends at a level that is empty, with all below it empty. -/
theorem propagate_spec (isRest : lev + rest = maxListLengthBits) (nonempty : run ≠ [])
    (enough : (gathered runs maxListLengthBits ++ run).length ≤ limit) :
    ∃ after merged stop newRuns newRun,
      propagate cmp limit (rest + 1) lev parts cur = some (after, merged, stop) ∧
      lev ≤ stop ∧ stop ≤ maxListLengthBits ∧ (∀ j ≤ stop, newRuns j = []) ∧
      (∀ j, stop < j → newRuns j = runs j) ∧ after.maxLev = parts.maxLev ∧
      newRun ≠ [] ∧ Stock cmp elements after merged newRuns newRun ∧
      Rearranges (inOrder cmp) elements (gathered runs maxListLengthBits ++ run)
        (gathered newRuns maxListLengthBits ++ newRun) ∧
      ∀ x, x ∉ gathered runs maxListLengthBits ++ run →
        after.links.next x = parts.links.next x := by
  induction rest generalizing parts cur runs run lev with
  | zero =>
    have isEmpty := stock.beyond lev (by omega)
    have isNone : parts.part lev = none := by
      have isChain := stock.chains lev
      rw [isEmpty] at isChain
      exact isChain
    refine ⟨parts, cur, lev, runs, run, ?_, le_rfl, by omega, upTo_empty below isEmpty,
      fun _ _ => rfl, rfl, nonempty, stock, .refl _, fun _ _ => rfl⟩
    simp [propagate, isNone]
  | succ rest ih =>
    cases isPart : parts.part lev with
    | none =>
      refine ⟨parts, cur, lev, runs, run, ?_, le_rfl, by omega,
        upTo_empty below (stock.empty_of_none isPart), fun _ _ => rfl, rfl, nonempty, stock,
        .refl _, fun _ _ => rfl⟩
      simp [propagate, isPart]
    | some first =>
      rcases stock.merge preorder below isPart enough with
        ⟨links, merged, result, mergedStock, rearranged, same⟩
      have newBelow : ∀ j < lev + 1, update runs lev [] j = [] := by
        intro j before
        by_cases isLevel : j = lev
        · rw [isLevel, update_self]
        · rw [update_of_ne isLevel]
          exact below j (by omega)
      have newNonempty : (runs lev).merge run (inOrder cmp) ≠ [] := by
        intro isEmpty
        have perm := @merge_perm_append _ (inOrder cmp) (runs lev) run
        rw [isEmpty] at perm
        exact nonempty (append_eq_nil_iff.mp perm.nil_eq.symm).2
      rcases ih mergedStock newBelow (by omega) newNonempty
        (by rw [rearranged.perm.length_eq]; exact enough) with
        ⟨after, final, stop, newRuns, newRun, isPropagated, reached, bound, empty, kept, isMax,
          isRun, finalStock, finalRearranged, finalSame⟩
      refine ⟨after, final, stop, newRuns, newRun, ?_, by omega, bound, empty, ?_, isMax, isRun,
        finalStock, rearranged.trans finalRearranged, ?_⟩
      · rw [propagate]
        simp only [isPart, result]
        exact isPropagated
      · intro j beyond
        rw [kept j beyond, update_of_ne (by omega)]
      · intro x outside
        rw [finalSame x fun mem => outside (rearranged.perm.mem_iff.mp mem)]
        exact same x outside

end

theorem Filled.alone {x : Node} (filled : Filled cmp elements parts runs)
    (nodup : (gathered runs maxListLengthBits ++ [x]).Nodup)
    (inside : ∀ y ∈ gathered runs maxListLengthBits ++ [x], y ∈ elements) :
    Stock cmp elements { parts with links := parts.links.setNext x none } (some x) runs [x] := by
  refine ⟨?_, filled.stock.sorted, ⟨rfl, ?_⟩, pairwise_singleton _ _, filled.stock.beyond, nodup,
    inside⟩
  · intro lev
    refine (filled.stock.chains lev).frame ?_
    intro y mem
    refine update_of_ne ?_ _ _
    rintro rfl
    have level : lev < maxListLengthBits := by
      by_contra outside
      rw [filled.stock.beyond lev (not_lt.mp outside)] at mem
      cases mem
    exact (nodup_append.mp nodup).2.2 y (mem_gathered level mem) y mem_cons_self rfl
  · exact update_self _ _ _

theorem distribute_spec {fuel : ℕ} (preorder : PreorderOn (inOrder cmp) elements)
    (filled : Filled cmp elements parts runs) (path : Path parts.links.next list xs none)
    (nodup : (gathered runs maxListLengthBits ++ xs).Nodup)
    (inside : ∀ x ∈ gathered runs maxListLengthBits ++ xs, x ∈ elements)
    (enough : (gathered runs maxListLengthBits ++ xs).length ≤ limit) (more : xs.length ≤ fuel) :
    ∃ after newRuns, distribute cmp limit fuel parts list = some after ∧
      Filled cmp elements after newRuns ∧
      (xs ≠ [] ∨ runs parts.maxLev ≠ [] → newRuns after.maxLev ≠ []) ∧
      Rearranges (inOrder cmp) elements (gathered runs maxListLengthBits ++ xs)
        (gathered newRuns maxListLengthBits) := by
  induction xs generalizing parts runs list fuel with
  | nil =>
    obtain rfl : list = none := path
    refine ⟨parts, runs, by cases fuel <;> rfl, filled, ?_, ?_⟩
    · rintro (never | started)
      · exact absurd rfl never
      · exact started
    · rw [append_nil]
      exact .refl _
  | cons x xs ih =>
    obtain ⟨fuel, rfl⟩ : ∃ less, fuel = less + 1 :=
      ⟨fuel - 1, by simp only [length_cons] at more; omega⟩
    obtain rfl := path.1
    have whole : gathered runs maxListLengthBits ++ x :: xs =
        gathered runs maxListLengthBits ++ [x] ++ xs := by simp
    rw [whole] at nodup inside enough ⊢
    rcases nodup_append.mp nodup with ⟨firstNodup, _, apart⟩
    have alone := filled.alone firstNodup fun y mem =>
      inside y (mem_append_left _ mem)
    rcases propagate_spec preorder alone
      (fun j never => absurd never (Nat.not_lt_zero j))
      (show 0 + maxListLengthBits = maxListLengthBits from Nat.zero_add _) (by simp)
      (show _ ≤ limit by simp only [length_append] at enough ⊢; omega) with
      ⟨merged, cur, stop, midRuns, run, isPropagated, _, bound, empty, kept, isMax, isRun, stock,
        rearranged, same⟩
    have startedLevel : stop < merged.maxLev → midRuns merged.maxLev ≠ [] := by
      intro lower
      rw [isMax] at lower ⊢
      rw [kept parts.maxLev lower]
      rcases filled.started with nonempty | isZero
      · exact nonempty
      · simp only at lower
        omega
    have high : ∀ j, merged.maxLev < j → midRuns j = [] := by
      intro j beyond
      by_cases before : j ≤ stop
      · exact empty j before
      · rw [kept j (by omega)]
        exact filled.high j (isMax ▸ beyond)
    rcases store_spec stock bound empty (isMax ▸ filled.top) high isRun startedLevel with
      ⟨stored, isStarted, isGathered⟩
    rw [← isGathered] at rearranged
    have restPath : Path (store merged cur stop).links.next (parts.links.next x) xs none := by
      have isLinks : (store merged cur stop).links = merged.links := by rw [store_eq]
      rw [isLinks]
      refine path.2.frame ?_
      intro y mem
      have outside : y ∉ gathered runs maxListLengthBits ++ [x] :=
        fun inFirst => apart y inFirst y mem rfl
      rw [same y outside]
      refine update_of_ne ?_ _ _
      rintro rfl
      exact outside (mem_append_right _ mem_cons_self)
    have step := rearranged.append (Rearranges.refl xs)
    rcases ih stored restPath (step.perm.nodup_iff.mpr nodup)
      (fun y mem => inside y (step.perm.mem_iff.mp mem))
      (by rw [step.perm.length_eq]; exact enough)
      (Nat.le_of_succ_le_succ more) with
      ⟨after, newRuns, isDistributed, afterFilled, afterStarted, final⟩
    refine ⟨after, newRuns, ?_, afterFilled, fun _ => afterStarted (.inr isStarted),
      step.trans final⟩
    simp only [distribute, isPropagated]
    exact isDistributed

theorem gather_spec {part : ℕ → Option Node} {ys : List Node}
    (preorder : PreorderOn (inOrder cmp) elements)
    (chains : ∀ j, lev ≤ j → j < maxListLengthBits → Path links.next (part j) (runs j) none)
    (sorted : ∀ j, Sorted (inOrder cmp) (runs j)) (path : Path links.next list ys none)
    (listSorted : Sorted (inOrder cmp) ys)
    (rearranged : Rearranges (inOrder cmp) elements (gathered runs lev) ys)
    (bound : lev + rest < maxListLengthBits) (nodup : (gathered runs maxListLengthBits).Nodup)
    (inside : ∀ x ∈ gathered runs maxListLengthBits, x ∈ elements)
    (enough : (gathered runs maxListLengthBits).length ≤ limit) :
    ∃ after merged zs, gather cmp limit part rest lev links list = some (after, merged) ∧
      Path after.next merged zs none ∧ Sorted (inOrder cmp) zs ∧
      Path after.next (part (lev + rest)) (runs (lev + rest)) none ∧
      Rearranges (inOrder cmp) elements (gathered runs (lev + rest)) zs := by
  induction rest generalizing lev links list ys with
  | zero => exact ⟨links, list, ys, rfl, path, listSorted, chains lev le_rfl bound, rearranged⟩
  | succ rest ih =>
    have isRest : lev + (rest + 1) = lev + 1 + rest := by omega
    rw [isRest] at bound ⊢
    have level : lev < maxListLengthBits := by omega
    have upper : (gathered runs (lev + 1)).Sublist (gathered runs maxListLengthBits) :=
      (gathered_suffix level).sublist
    have chain := chains lev le_rfl level
    cases isPart : part lev with
    | none =>
      have isEmpty : runs lev = [] := by
        rw [isPart] at chain
        exact chain.of_none
      simp only [gather, isPart]
      refine ih (fun j later => chains j (by omega)) path listSorted ?_ bound
      rw [gathered, isEmpty]
      exact rearranged
    | some run =>
      rw [isPart] at chain
      have whole : Rearranges (inOrder cmp) elements (gathered runs (lev + 1))
          (runs lev ++ ys) := (Rearranges.refl (runs lev)).append rearranged
      have mergeNodup : (runs lev ++ ys).Nodup := whole.perm.nodup_iff.mpr (nodup.sublist upper)
      have isInside : ∀ x ∈ runs lev ++ ys, x ∈ elements := fun x mem =>
        inside x (upper.subset (whole.perm.mem_iff.mp mem))
      rcases @merge_spec _ _ cmp _ _ _ _ links limit mergeNodup chain path
        (by
          have isLength := whole.perm.length_eq
          have isShorter := upper.length_le
          rw [length_append] at isLength
          omega) with ⟨after, merged, isMerged, mergedPath, same⟩
      simp only [gather, isPart, isMerged]
      have later : ∀ j, lev + 1 ≤ j → j < maxListLengthBits →
          Path after.next (part j) (runs j) none := by
        intro j above within
        refine (chains j (by omega) within).frame ?_
        intro x mem
        refine same x fun inMerge => ?_
        have levelNodup : (runs j ++ gathered runs j).Nodup :=
          nodup.sublist (gathered_suffix within).sublist
        exact (nodup_append.mp levelNodup).2.2 x mem x
          ((gathered_suffix above).subset (whole.perm.mem_iff.mp inMerge)) rfl
      have leftInside : ∀ x ∈ runs lev, x ∈ elements := fun x mem =>
        isInside x (mem_append_left _ mem)
      have rightInside : ∀ x ∈ ys, x ∈ elements := fun x mem =>
        isInside x (mem_append_right _ mem)
      exact ih later mergedPath
        (sorted_merge preorder leftInside rightInside (sorted lev) listSorted)
        (whole.trans (rearranges_merge preorder leftInside rightInside (sorted lev))) bound

theorem Threaded.cut (threaded : Threaded links first xs) (nodup : (first :: xs).Nodup) :
    Path (links.setNext (lastOf first xs) none).next
      ((links.setNext (lastOf first xs) none).next first) xs none := by
  induction xs generalizing first with
  | nil => exact update_self _ _ _
  | cons x xs ih =>
    rcases nodup_cons.mp nodup with ⟨fresh, restNodup⟩
    rw [lastOf_cons]
    refine ⟨?_, ih threaded.2.2 restNodup⟩
    rw [← threaded.1]
    refine update_of_ne ?_ _ _
    rintro isLast
    exact fresh (isLast ▸ lastOf_mem x xs)

end Sorting

/-! ## Sorting a circular list -/

/-- `list_sort` sorts the list, keeps the order of equal nodes and restores all links. -/
theorem listSort_stable [DecidableEq Node] (cmp : Node → Node → ℤ) {links : Links Node}
    {head : Node} {xs : List Node} {fuel : ℕ} (circular : Circular links head xs)
    (preorder : PreorderOn (inOrder cmp) {x | x ∈ xs}) (enough : xs.length ≤ fuel) :
    ∃ after ys, listSort cmp fuel links head = some after ∧ Circular after head ys ∧
      Sorted (inOrder cmp) ys ∧ Rearranges (inOrder cmp) {x | x ∈ xs} xs ys := by
  by_cases isEmpty : xs = []
  · subst isEmpty
    refine ⟨links, [], ?_, circular, .nil, .refl _⟩
    exact if_pos circular.closed.1
  have isNext : links.next head ≠ some head := by
    cases xs with
    | nil => exact absurd rfl isEmpty
    | cons x xs =>
      rw [circular.threaded.1]
      rintro isHead
      obtain rfl := Option.some.inj isHead
      exact (nodup_cons.mp circular.nodup).1 mem_cons_self
  have noRuns : gathered (fun _ => ([] : List Node)) maxListLengthBits = [] :=
    gathered_eq_nil fun _ _ => rfl
  rcases distribute_spec preorder (filled_empty (links.setNext (lastOf head xs) none))
    (circular.threaded.cut circular.nodup)
    (by rw [noRuns]; exact (nodup_cons.mp circular.nodup).2)
    (by rw [noRuns]; exact fun _ mem => mem)
    (show _ ≤ fuel by rw [noRuns]; exact enough) enough with
    ⟨parts, runs, isDistributed, filled, isStarted, rearranged⟩
  have runsNodup : (gathered runs maxListLengthBits).Nodup :=
    rearranged.perm.nodup_iff.mpr (nodup_cons.mp circular.nodup).2
  have runsInside : ∀ x ∈ gathered runs maxListLengthBits, x ∈ xs :=
    fun x mem => rearranged.perm.mem_iff.mp mem
  have isLevel : 0 + parts.maxLev = parts.maxLev := Nat.zero_add _
  rcases gather_spec preorder (fun j _ _ => filled.stock.chains j) filled.stock.sorted
    (show Path parts.links.next none [] none from rfl) .nil (.refl _)
    (isLevel.symm ▸ filled.top) runsNodup runsInside
    (show _ ≤ fuel by rw [rearranged.perm.length_eq]; exact enough) with
    ⟨merged, list, zs, isGathered, path, sorted, topPath, gatheredAll⟩
  rw [isLevel] at topPath gatheredAll
  have topAll : Rearranges (inOrder cmp) {x | x ∈ xs} xs (runs parts.maxLev ++ zs) := by
    refine rearranged.trans ?_
    rw [gathered_high filled.top filled.high]
    exact (Rearranges.refl _).append gatheredAll
  have allNodup : (head :: ([] ++ (runs parts.maxLev ++ zs))).Nodup := by
    rw [nil_append, (topAll.perm.cons head).nodup_iff]
    exact circular.nodup
  have nonempty : runs parts.maxLev ++ zs ≠ [] := fun isNil =>
    isStarted (.inl isEmpty) (append_eq_nil_iff.mp isNil).1
  have leftInside : ∀ x ∈ runs parts.maxLev, x ∈ xs := fun x mem =>
    topAll.perm.mem_iff.mp (mem_append_left _ mem)
  have rightInside : ∀ x ∈ zs, x ∈ xs := fun x mem =>
    topAll.perm.mem_iff.mp (mem_append_right _ mem)
  rcases mergeAndRestoreBackLinks_spec (show Threaded merged head [] from trivial) allNodup topPath
    path nonempty
    (show _ ≤ fuel by rw [← length_append, topAll.perm.length_eq]; exact enough) with
    ⟨after, isAfter, isCircular⟩
  refine ⟨after, (runs parts.maxLev).merge zs (inOrder cmp), ?_, isCircular, ?_, ?_⟩
  · simp only [listSort, if_neg isNext, circular.closed.2, isDistributed, isGathered]
    exact isAfter
  · exact sorted_merge preorder leftInside rightInside (filled.stock.sorted _) sorted
  · exact topAll.trans
      (rearranges_merge preorder leftInside rightInside (filled.stock.sorted _))

def threeNodes : Links ℕ where
  next n := some ((n + 1) % 4)
  prev n := some ((n + 3) % 4)

/-- The odd nodes behind the even ones. -/
def evenFirst (a b : ℕ) : ℤ := (a % 2 : ℕ) - (b % 2 : ℕ)

theorem inOrder_evenFirst (a b : ℕ) : inOrder evenFirst a b = true ↔ a % 2 ≤ b % 2 := by
  unfold inOrder
  rw [decide_eq_true_iff]
  unfold evenFirst
  omega

theorem listSort_stable_threeNodes : Circular threeNodes 0 [1, 2, 3] ∧ ∃ after ys,
      listSort evenFirst 3 threeNodes 0 = some after ∧ Circular after 0 ys ∧
      Sorted (inOrder evenFirst) ys ∧
      Rearranges (inOrder evenFirst) {x | x ∈ [1, 2, 3]} [1, 2, 3] ys := by
  have circular : Circular threeNodes 0 [1, 2, 3] := by
    refine ⟨by decide, ?_, rfl, rfl⟩
    simp [Threaded, threeNodes]
  have preorder : PreorderOn (inOrder evenFirst) {x | x ∈ [1, 2, 3]} := by
    refine ⟨fun a _ b _ => ?_, fun a _ b _ c _ => ?_⟩
    · rw [inOrder_evenFirst, inOrder_evenFirst]
      omega
    · rw [inOrder_evenFirst, inOrder_evenFirst, inOrder_evenFirst]
      omega
  exact ⟨circular, listSort_stable evenFirst circular preorder le_rfl⟩

end StreakKernel.ListSort
