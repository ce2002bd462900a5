import Mathlib.Algebra.Group.Nat.Defs
import StreakKernel.ListSort.Sort

/-!
# The calls of `cmp`

The sort follows links from elements to elements and calls `cmp` on what it finds there. The tail
of the last merge is the head until that merge takes a node, so that all depends on whether the
merge gets two lists. The levels that hold lists are the digits of the number of nodes.
-/

namespace StreakKernel.ListSort

open Function

universe u

variable {Node : Type u} {nodes : Set Node} {links : Links Node} {parts : Parts Node}
  {a b cur list : Option Node}

def Within (nodes : Set Node) (pointer : Option Node) : Prop := ∀ x ∈ pointer, x ∈ nodes

def CallsWithin (nodes : Set Node) (links : Links Node) : Prop :=
  ∀ call ∈ links.calls, call.1 ∈ nodes ∧ call.2 ∈ nodes

structure Closed (nodes : Set Node) (links : Links Node) : Prop where
  next : ∀ x ∈ nodes, Within nodes (links.next x)
  calls : CallsWithin nodes links

structure Parts.Closed (nodes : Set Node) (parts : Parts Node) : Prop where
  links : ListSort.Closed nodes parts.links
  part : ∀ lev, Within nodes (parts.part lev)

theorem within_none : Within nodes none := nofun

theorem Closed.call {a b : Node} (closed : Closed nodes links) (left : a ∈ nodes)
    (right : b ∈ nodes) : Closed nodes (links.call a b) :=
  ⟨closed.next, List.forall_mem_cons.mpr ⟨⟨left, right⟩, closed.calls⟩⟩

theorem part_update (inside : ∀ lev, Within nodes (parts.part lev)) (isCur : Within nodes cur)
    (level : ℕ) : ∀ lev, Within nodes (update parts.part level cur lev) :=
  (forall_update_iff parts.part fun _ => Within nodes).mpr ⟨isCur, fun lev _ => inside lev⟩

section Digits

/-- From a level on, the levels with a list are the digits of `n`, with what is left over at the
last one. -/
def Counts (part : ℕ → Option Node) : ℕ → ℕ → ℕ → Prop
  | 0, lev, n => part lev = none ↔ n = 0
  | rest + 1, lev, n => (part lev = none ↔ n % 2 = 0) ∧ Counts part rest (lev + 1) (n / 2)

variable {part other : ℕ → Option Node} {n stop rest lev : ℕ}

theorem Counts.congr (counts : Counts part rest lev n) (same : ∀ j, lev ≤ j → other j = part j) :
    Counts other rest lev n := by
  induction rest generalizing lev n with
  | zero => rwa [Counts, same lev le_rfl]
  | succ rest ih =>
    refine ⟨by rw [same lev le_rfl]; exact counts.1, ih counts.2 fun j after => ?_⟩
    exact same j (by omega)

/-- A carry clears the levels with a list and sets the next one, or the last. -/
theorem Counts.carry (counts : Counts part rest lev n) (isCur : cur ≠ none) (reached : lev ≤ stop)
    (full : ∀ j, lev ≤ j → j < stop → part j ≠ none) (empty : part stop = none)
    (bound : stop ≤ lev + rest + 1) :
    Counts (update (fun j => if lev ≤ j ∧ j < stop then none else part j)
      (min stop (lev + rest)) cur) rest lev (n + 1) := by
  induction rest generalizing lev n with
  | zero =>
    have isLast : min stop (lev + 0) = lev := by omega
    rw [isLast, Counts, update_self]
    simp [isCur]
  | succ rest ih =>
    by_cases isStop : stop = lev
    · subst isStop
      have even := counts.1.mp empty
      have isLevel : min stop (stop + (rest + 1)) = stop := by omega
      rw [isLevel]
      refine ⟨by simp [isCur]; omega, ?_⟩
      rw [show (n + 1) / 2 = n / 2 by omega]
      refine counts.2.congr fun j after => ?_
      rw [update_of_ne (by omega), if_neg (by omega)]
    · have odd : ¬n % 2 = 0 := fun even => full lev le_rfl (by omega) (counts.1.mpr even)
      have later := ih counts.2 (by omega) (fun j after => full j (by omega)) (by omega)
      rw [← show (n + 1) / 2 = n / 2 + 1 by omega] at later
      refine ⟨?_, later.congr fun j after => ?_⟩
      · rw [update_of_ne (by omega), if_pos (by omega)]
        exact iff_of_true rfl (by omega)
      · rw [show min stop (lev + (rest + 1)) = min stop (lev + 1 + rest) by omega]
        simp only [update_apply]
        split_ifs <;> first | rfl | omega

theorem Counts.below_iff (counts : Counts part rest lev n) {levels : ℕ} (within : levels ≤ rest) :
    (∀ j, lev ≤ j → j < lev + levels → part j = none) ↔ n % 2 ^ levels = 0 := by
  induction levels generalizing rest lev n with
  | zero => simp [Nat.mod_one]; omega
  | succ levels ih =>
    obtain ⟨rest, rfl⟩ : ∃ less, rest = less + 1 := ⟨rest - 1, by omega⟩
    have later := ih counts.2 (Nat.le_of_succ_le_succ within)
    have digits : n % 2 ^ (levels + 1) = 0 ↔ n % 2 = 0 ∧ n / 2 % 2 ^ levels = 0 := by
      rw [Nat.pow_succ', Nat.mod_mul]
      have := Nat.mod_lt n (show 0 < 2 by decide)
      omega
    rw [digits, ← counts.1, ← later]
    refine ⟨fun all => ⟨all lev le_rfl (by omega),
        fun j after before => all j (by omega) (by omega)⟩,
      fun all j after before => ?_⟩
    by_cases isLevel : j = lev
    · exact isLevel ▸ all.1
    · exact all.2 j (by omega) (by omega)

theorem Counts.level (counts : Counts part rest lev n) {m : ℕ} (within : m ≤ rest) :
    part (lev + m) = none ↔ if m < rest then n / 2 ^ m % 2 = 0 else n / 2 ^ m = 0 := by
  induction m generalizing rest lev n with
  | zero =>
    cases rest with
    | zero => simpa [Counts] using counts
    | succ rest => simpa [Counts] using counts.1
  | succ m ih =>
    obtain ⟨rest, rfl⟩ : ∃ less, rest = less + 1 := ⟨rest - 1, by omega⟩
    have later := ih counts.2 (Nat.le_of_succ_le_succ within)
    rw [Nat.div_div_eq_div_mul, ← Nat.pow_succ'] at later
    simpa [Nat.add_assoc, Nat.add_comm 1] using later

/-- The digits above the highest list are zero. -/
theorem Counts.above (counts : Counts part 19 0 n) {m : ℕ} (within : m ≤ 19)
    (high : ∀ j, m ≤ j → part j = none) : n / 2 ^ m = 0 := by
  obtain ⟨rest, isRest⟩ := Nat.exists_eq_add_of_le within
  induction rest generalizing m with
  | zero =>
    obtain rfl : m = 19 := by omega
    simpa using (counts.level le_rfl).mp (high _ (by omega))
  | succ rest ih =>
    have isDigit := (counts.level within).mp (high _ (by omega))
    rw [if_pos (by omega)] at isDigit
    have higher := @ih (m + 1) (by omega) (fun j after => high j (by omega)) (by omega)
    rw [Nat.pow_succ, ← Nat.div_div_eq_div_mul] at higher
    omega

/-- All nodes are in one list before the last merge: the lists of a level have twice the nodes of
those below it, and the last level takes in all that come from there. -/
def OneList (length : ℕ) : Prop :=
  (∃ k < 19, length = 2 ^ k) ∨ length ≠ 0 ∧ 2 ^ 19 ∣ length

structure Tallied (parts : Parts Node) (n : ℕ) : Prop where
  counts : Counts parts.part 19 0 n
  high : ∀ lev, parts.maxLev < lev → parts.part lev = none
  top : parts.maxLev < maxListLengthBits
  started : parts.part parts.maxLev ≠ none ∨ n = 0 ∧ parts.maxLev = 0

theorem Tallied.oneList_iff (tallied : Tallied parts n) (pos : n ≠ 0) :
    (∀ lev < parts.maxLev, parts.part lev = none) ↔ OneList n := by
  have top : parts.maxLev ≤ 19 := Nat.le_of_lt_succ tallied.top
  have below := tallied.counts.below_iff top
  have isTop := tallied.started.resolve_right fun none => pos none.1
  have isLevel := tallied.counts.level top
  have above := @Counts.above _ _ _ tallied.counts (parts.maxLev + 1)
  simp only [Nat.zero_add, Nat.zero_le, true_imp_iff] at below isLevel
  rw [below]
  rw [Ne, isLevel] at isTop
  by_cases isLast : parts.maxLev = 19
  · rw [isLast, if_neg (by omega)] at isTop
    rw [isLast, ← Nat.dvd_iff_mod_eq_zero]
    refine ⟨fun divides => .inr ⟨pos, divides⟩, ?_⟩
    rintro (⟨k, small, rfl⟩ | ⟨_, divides⟩)
    · exact absurd (Nat.div_eq_of_lt (Nat.pow_lt_pow_right (by decide) small)) isTop
    · exact divides
  · rw [if_pos (by omega)] at isTop
    have isZero := above (by omega) fun j after => tallied.high j (by omega)
    have isOne : n / 2 ^ parts.maxLev = 1 := by
      rw [Nat.pow_succ, ← Nat.div_div_eq_div_mul] at isZero
      omega
    have split := Nat.div_add_mod n (2 ^ parts.maxLev)
    rw [isOne, Nat.mul_one] at split
    have lt := Nat.mod_lt n (Nat.two_pow_pos parts.maxLev)
    refine ⟨fun isPower => .inl ⟨parts.maxLev, by omega, by omega⟩, ?_⟩
    rintro (⟨k, small, rfl⟩ | ⟨_, divides⟩)
    · have lower := (Nat.pow_le_pow_iff_right (show 1 < 2 by decide)).mp
        (show 2 ^ parts.maxLev ≤ 2 ^ k by omega)
      have upper := (Nat.pow_lt_pow_iff_right (show 1 < 2 by decide)).mp
        (show 2 ^ k < 2 ^ (parts.maxLev + 1) by rw [Nat.pow_succ]; omega)
      rw [show k = parts.maxLev by omega, Nat.mod_self]
    · have large := Nat.le_of_dvd (by omega) divides
      have small := Nat.pow_le_pow_right (show 0 < 2 by decide)
        (show parts.maxLev + 1 ≤ 19 by omega)
      rw [Nat.pow_succ] at small
      omega

end Digits

variable [DecidableEq Node] {cmp : Node → Node → ℤ} {fuel limit rest lev : ℕ} {head tail : Node}
  {building : Building Node}

theorem Closed.setNext (closed : Closed nodes links) (inside : Within nodes a)
    (node : Node) : Closed nodes (links.setNext node a) :=
  ⟨fun x mem => (forall_update_iff links.next fun x y => x ∈ nodes → Within nodes y).mpr
    ⟨fun _ => inside, fun y _ => closed.next y⟩ x mem, closed.calls⟩

theorem Building.append_closed (closed : Closed nodes building.links)
    (first : Within nodes building.first) (isTail : Within nodes building.tail)
    (inside : Within nodes a) :
    Closed nodes (building.append a).links ∧ Within nodes (building.append a).first ∧
      ∀ x ∉ nodes, (building.append a).links.next x = building.links.next x := by
  unfold append
  split
  · exact ⟨closed, inside, fun _ _ => rfl⟩
  · rename_i node isNode
    refine ⟨closed.setNext inside _, first, fun x outside => update_of_ne ?_ _ _⟩
    rintro rfl
    exact outside (isTail x isNode)

theorem mergeLoop_closed (closed : Closed nodes building.links)
    (first : Within nodes building.first) (isTail : Within nodes building.tail)
    (left : Within nodes a) (right : Within nodes b) : ∀ result ∈ mergeLoop cmp fuel building a b,
      Closed nodes result.1 ∧ Within nodes result.2 ∧
        ∀ x ∉ nodes, result.1.next x = building.links.next x := by
  fun_induction mergeLoop cmp fuel building a b with
  | case1 fuel building a b called le longer ih =>
    rcases @Building.append_closed _ _ _ _ called (closed.call (left a rfl) (right b rfl)) first
      isTail left with ⟨appended, isFirst, kept⟩
    intro result isResult
    rcases ih appended isFirst left (appended.next a (left a rfl)) right result isResult with
      ⟨isClosed, inside, same⟩
    exact ⟨isClosed, inside, fun x outside => (same x outside).trans (kept x outside)⟩
  | case2 fuel building a b called gt longer ih =>
    rcases @Building.append_closed _ _ _ _ called (closed.call (left a rfl) (right b rfl)) first
      isTail right with ⟨appended, isFirst, kept⟩
    intro result isResult
    rcases ih appended isFirst right left (appended.next b (right b rfl)) result isResult with
      ⟨isClosed, inside, same⟩
    exact ⟨isClosed, inside, fun x outside => (same x outside).trans (kept x outside)⟩
  | case3 => simp
  | case4 | case5 =>
    rintro _ ⟨⟩
    exact Building.append_closed closed first isTail (by assumption)

theorem mergeLoop_ne_none (started : building.tail ≠ none → building.first ≠ none)
    (more : building.tail ≠ none ∨ a ≠ none ∨ b ≠ none) :
    ∀ result ∈ mergeLoop cmp fuel building a b, result.2 ≠ none := by
  have appended {building : Building Node} {a : Option Node}
      (started : building.tail ≠ none → building.first ≠ none)
      (more : building.tail ≠ none ∨ a ≠ none) : (building.append a).first ≠ none := by
    unfold Building.append
    split
    · rename_i isTail
      exact more.resolve_left (not_not.mpr isTail)
    · rename_i isTail
      exact started (by simp [isTail])
  fun_induction mergeLoop cmp fuel building a b with
  | case1 fuel building a b called le longer ih =>
    exact ih (fun _ => appended started (.inr (by simp))) (.inl (by simp))
  | case2 fuel building a b called gt longer ih =>
    exact ih (fun _ => appended started (.inr (by simp))) (.inl (by simp))
  | case3 => simp
  | case4 | case5 =>
    rintro _ ⟨⟩
    exact appended started (by simp_all)

theorem restoreBackLinks_calls (closed : Closed nodes links) (isElement : tail ∈ nodes) :
    ∀ after ∈ restoreBackLinks head fuel links tail, CallsWithin nodes after := by
  fun_induction restoreBackLinks head fuel links tail with
  | case1 | case2 => simp
  | case3 fuel links tail node isNext linked next isNode ih =>
    have called := closed.call isElement isElement
    exact ih ⟨called.next, called.calls⟩ (closed.next tail isElement node isNext)
  | case4 =>
    rintro _ ⟨⟩
    exact (closed.call isElement isElement).calls

/-- With two lists to merge, a node is taken before the first call on the tail. -/
theorem mergeAndRestoreBackLinks_calls (closed : Closed nodes links) (left : Within nodes a)
    (right : Within nodes b) (isTail : tail ∈ nodes ∨ a ≠ none ∧ b ≠ none) :
    ∀ after ∈ mergeAndRestoreBackLinks cmp head fuel links tail a b,
      CallsWithin nodes after := by
  fun_induction mergeAndRestoreBackLinks cmp head fuel links tail a b with
  | case1 fuel links tail a b le linked ih =>
    have appended := (closed.call (left a rfl) (right b rfl)).setNext left tail
    exact ih ⟨appended.next, appended.calls⟩ (appended.next a (left a rfl)) right
      (.inl (left a rfl))
  | case2 fuel links tail a b gt linked ih =>
    have appended := (closed.call (left a rfl) (right b rfl)).setNext right tail
    exact ih ⟨appended.next, appended.calls⟩ left (appended.next b (right b rfl))
      (.inl (right b rfl))
  | case3 => simp
  | case4 fuel links tail a =>
    exact restoreBackLinks_calls (closed.setNext left tail) (by simpa using isTail)
  | case5 fuel links tail b =>
    exact restoreBackLinks_calls (closed.setNext right tail) (by simpa using isTail)

/-- The merges at the levels below the first empty one leave other nodes alone. -/
theorem propagate_closed (closed : parts.Closed nodes) (isCur : Within nodes cur) :
    ∀ result ∈ propagate cmp limit rest lev parts cur,
      result.1.Closed nodes ∧ Within nodes result.2.1 ∧
        ∀ x ∉ nodes, result.1.links.next x = parts.links.next x := by
  fun_induction propagate cmp limit rest lev parts cur with
  | case1 | case3 => simp
  | case2 =>
    rintro _ ⟨⟩
    exact ⟨closed, isCur, fun _ _ => rfl⟩
  | case4 rest lev parts cur run isRun links merged isMerged ih =>
    rcases mergeLoop_closed closed.links within_none within_none (isRun ▸ closed.part lev) isCur _
      isMerged with ⟨mergedClosed, isList, same⟩
    intro result isResult
    rcases ih ⟨mergedClosed, part_update closed.part within_none lev⟩ isList result isResult with
      ⟨isClosed, inside, kept⟩
    exact ⟨isClosed, inside, fun x outside => (kept x outside).trans (same x outside)⟩

theorem gather_closed (inside : ∀ lev, Within nodes (parts.part lev))
    (closed : Closed nodes links) (isList : Within nodes list) :
    ∀ result ∈ gather cmp limit parts.part rest lev links list,
      Closed nodes result.1 ∧ Within nodes result.2 := by
  fun_induction gather cmp limit parts.part rest lev links list with
  | case1 =>
    rintro _ ⟨⟩
    exact ⟨closed, isList⟩
  | case2 _ _ _ _ _ ih => exact ih closed isList
  | case3 => simp
  | case4 rest lev links list run isRun merged longer isMerged ih =>
    rcases mergeLoop_closed closed within_none within_none (isRun ▸ inside lev) isList _ isMerged
      with ⟨mergedClosed, isLonger, _⟩
    exact ih mergedClosed isLonger

/-! ## Which levels hold lists -/

theorem propagate_levels (isCur : cur ≠ none) : ∀ result ∈ propagate cmp limit rest lev parts cur,
    lev ≤ result.2.2 ∧ parts.part result.2.2 = none ∧
      (∀ j, lev ≤ j → j < result.2.2 → parts.part j ≠ none) ∧
      (∀ j, result.1.part j = if lev ≤ j ∧ j < result.2.2 then none else parts.part j) ∧
      result.1.maxLev = parts.maxLev ∧ result.2.1 ≠ none := by
  fun_induction propagate cmp limit rest lev parts cur with
  | case1 | case3 => simp
  | case2 =>
    rintro _ ⟨⟩
    grind
  | case4 rest lev parts cur run isRun links merged isMerged ih =>
    have isList := mergeLoop_ne_none (by simp) (by simp) _ isMerged
    intro result isResult
    have levels := ih isList result isResult
    grind [update_apply]

theorem Tallied.store {n : ℕ} (tallied : Tallied parts n) (isCur : cur ≠ none)
    {result : Parts Node × Option Node × ℕ}
    (isResult : propagate cmp limit (maxListLengthBits + 1) 0 parts cur = some result) :
    Tallied (store result.1 result.2.1 result.2.2) (n + 1) := by
  rcases result with ⟨merged, run, stop⟩
  rcases propagate_levels isCur _ isResult with ⟨_, empty, full, isPart, isMax, isRun⟩
  dsimp only at *
  have high := tallied.high
  have top := tallied.top
  have bound : stop ≤ 20 := by
    by_contra beyond
    exact full 20 (by omega) (by omega) (high 20 top)
  have isLevel : storeLevel merged stop = min stop 19 := by
    unfold storeLevel maxListLengthBits at *
    split_ifs <;> omega
  have carried := tallied.counts.carry isRun (Nat.zero_le stop) full empty (by omega)
  rw [store_eq, isLevel]
  rw [show merged.part = fun j => if 0 ≤ j ∧ j < stop then none else parts.part j from
    funext isPart, isMax]
  refine ⟨by simpa using carried, ?_, ?_, .inl ?_⟩
  · intro lev above
    dsimp only at above ⊢
    simp only [update_apply]
    split_ifs at above ⊢ <;> first | rfl | omega | exact high lev (by omega)
  · dsimp only
    unfold maxListLengthBits at *
    split_ifs <;> omega
  · dsimp only
    by_cases isSet : (if parts.maxLev < stop then min stop 19 else parts.maxLev) = min stop 19
    · rw [isSet, update_self]
      exact isRun
    rw [update_of_ne isSet]
    have notBelow : ¬parts.maxLev < stop := fun before => isSet (if_pos before)
    rw [if_neg notBelow, if_neg (by omega)]
    refine tallied.started.resolve_right fun fresh => isSet ?_
    rw [if_neg notBelow]
    omega

theorem distribute_tallied {xs : List Node} {n : ℕ} (tallied : Tallied parts n)
    (closed : parts.Closed nodes) (path : Path parts.links.next list xs none) (nodup : xs.Nodup)
    (apart : ∀ x ∈ xs, x ∉ nodes) : ∀ after ∈ distribute cmp limit fuel parts list,
      Tallied after (n + xs.length) ∧ after.Closed (nodes ∪ {x | x ∈ xs}) := by
  induction xs generalizing parts nodes list fuel n with
  | nil =>
    obtain rfl : list = none := path
    have isAfter : distribute cmp limit fuel parts none = some parts := by cases fuel <;> rfl
    rw [isAfter]
    rintro _ ⟨⟩
    exact ⟨tallied, by simpa using closed⟩
  | cons x xs ih =>
    obtain ⟨fuel, rfl⟩ | rfl : (∃ less, fuel = less + 1) ∨ fuel = 0 := by
      cases fuel <;> simp
    swap
    · obtain rfl := path.1
      simp [distribute]
    obtain rfl := path.1
    rcases List.nodup_cons.mp nodup with ⟨fresh, restNodup⟩
    have outside := apart x List.mem_cons_self
    let alone : Parts Node := { parts with links := parts.links.setNext x none }
    have aloneClosed : alone.Closed (nodes ∪ {y | y = x}) := by
      refine ⟨⟨?_, ?_⟩, ?_⟩
      · rintro y (old | rfl)
        · have other : y ≠ x := fun same => outside (same ▸ old)
          intro z isNext
          exact .inl (closed.links.next y old z ((update_of_ne other _ _).symm.trans isNext))
        · simp [alone, Links.setNext, Within]
      · exact fun call mem =>
          ⟨.inl (closed.links.calls call mem).1, .inl (closed.links.calls call mem).2⟩
      · exact fun lev z isPart => .inl (closed.part lev z isPart)
    intro after isAfter
    simp only [distribute, Option.mem_def] at isAfter
    split at isAfter
    · cases isAfter
    rename_i merged run stop isPropagated
    have aloneTallied : Tallied alone n :=
      ⟨tallied.counts, tallied.high, tallied.top, tallied.started⟩
    have stored := aloneTallied.store (by simp) isPropagated
    rcases propagate_closed aloneClosed (fun y isY => .inr (Option.some.inj isY).symm) _
      isPropagated with ⟨mergedClosed, isRun, same⟩
    have storedClosed : (ListSort.store merged run stop).Closed (nodes ∪ {y | y = x}) := by
      rw [store_eq]
      exact ⟨mergedClosed.links, part_update mergedClosed.part isRun _⟩
    have restPath : Path (ListSort.store merged run stop).links.next (parts.links.next x) xs
        none := by
      refine path.2.frame fun y mem => ?_
      have other : y ≠ x := fun isX => fresh (isX ▸ mem)
      rw [store_eq]
      refine (same y ?_).trans (update_of_ne other _ _)
      rintro (old | isX)
      · exact apart y (List.mem_cons_of_mem _ mem) old
      · exact other isX
    rcases ih stored storedClosed restPath restNodup (by
      rintro y mem (old | rfl)
      · exact apart y (List.mem_cons_of_mem _ mem) old
      · exact fresh mem) after isAfter with ⟨isTallied, isClosed⟩
    refine ⟨by rwa [List.length_cons, Nat.add_comm xs.length, ← Nat.add_assoc], ?_⟩
    have isUnion : nodes ∪ {y | y ∈ x :: xs} = nodes ∪ {y | y = x} ∪ {y | y ∈ xs} := by
      ext y
      simp only [Set.mem_union, Set.mem_ofPred_eq, List.mem_cons, or_assoc]
    rwa [isUnion]

/-- With one list for the last merge, `cmp` is called on the head. -/
theorem restoreBackLinks_head : ∀ after ∈ restoreBackLinks head fuel links tail,
    links.calls ⊆ after.calls ∧ (tail, tail) ∈ after.calls := by
  fun_induction restoreBackLinks head fuel links tail with
  | case1 | case2 => simp
  | case3 fuel links tail node isNext linked next isNode ih =>
    intro after isAfter
    have later := (ih after isAfter).1
    exact ⟨fun call mem => later (.tail _ mem), later (.head _)⟩
  | case4 =>
    rintro _ ⟨⟩
    exact ⟨fun call mem => .tail _ mem, .head _⟩

theorem gather_none_iff {part : ℕ → Option Node} :
    ∀ result ∈ gather cmp limit part rest lev links list,
      (result.2 = none ↔ list = none ∧ ∀ j, lev ≤ j → j < lev + rest → part j = none) := by
  fun_induction gather cmp limit part rest lev links list with
  | case1 =>
    rintro _ ⟨⟩
    grind
  | case2 => grind
  | case3 => simp
  | case4 rest lev links list run isRun merged longer isMerged ih =>
    have isLonger := mergeLoop_ne_none (by simp) (by simp) _ isMerged
    grind

/-- `cmp` is called on elements only, just when the last merge gets two lists. -/
theorem listSort_calls_iff (cmp : Node → Node → ℤ) {xs : List Node} {after : Links Node}
    (circular : Circular links head xs) (unused : links.calls = [])
    (isAfter : listSort cmp fuel links head = some after) :
    (∀ call ∈ after.calls, call.1 ∈ xs ∧ call.2 ∈ xs) ↔ ¬OneList xs.length := by
  rcases List.nodup_cons.mp circular.nodup with ⟨notHead, nodup⟩
  unfold listSort at isAfter
  by_cases isEmpty : xs = []
  · subst isEmpty
    rw [if_pos (show links.next head = some head from circular.closed.1)] at isAfter
    cases isAfter
    refine iff_of_true (by simp [unused]) ?_
    rintro (⟨k, _, isPower⟩ | ⟨nonzero, _⟩)
    · exact absurd isPower.symm (Nat.two_pow_pos k).ne'
    · exact nonzero rfl
  have isNext : links.next head ≠ some head := by
    cases xs with
    | nil => exact absurd rfl isEmpty
    | cons x xs =>
      rw [circular.threaded.1]
      rintro isHead
      obtain rfl := Option.some.inj isHead
      exact notHead List.mem_cons_self
  simp only [if_neg isNext, circular.closed.2] at isAfter
  split at isAfter
  · cases isAfter
  rename_i parts isParts
  split at isAfter
  · cases isAfter
  rename_i merged list isGathered
  let fresh : Parts Node := ⟨links.setNext (lastOf head xs) none, fun _ => none, 0⟩
  have start : Tallied fresh 0 :=
    ⟨by simp [fresh, Counts], fun _ _ => rfl, Nat.succ_pos 19, .inr ⟨rfl, rfl⟩⟩
  have freshClosed : fresh.Closed ∅ :=
    ⟨⟨by simp, by simp [fresh, CallsWithin, Links.setNext, unused]⟩, fun _ => within_none⟩
  rcases distribute_tallied start freshClosed (circular.threaded.cut circular.nodup) nodup (by simp)
    parts isParts with ⟨tallied, closed⟩
  rw [Set.empty_union] at closed
  rw [Nat.zero_add] at tallied
  have nonzero : xs.length ≠ 0 := fun isZero => isEmpty (List.length_eq_zero_iff.mp isZero)
  have isTop := tallied.started.resolve_right fun none => nonzero none.1
  have isList := gather_none_iff _ isGathered
  simp only [true_and, Nat.zero_le, true_imp_iff, Nat.zero_add] at isList
  rw [← tallied.oneList_iff nonzero, ← isList]
  rcases gather_closed closed.part closed.links within_none _ isGathered with ⟨gathered, isWithin⟩
  refine ⟨fun all isNone => ?_, fun isSome =>
    mergeAndRestoreBackLinks_calls gathered (closed.part _) isWithin (.inr ⟨isTop, isSome⟩)
      after isAfter⟩
  obtain ⟨top, isTop⟩ := Option.ne_none_iff_exists'.mp isTop
  rw [isNone, isTop] at isAfter
  have isLast : mergeAndRestoreBackLinks cmp head fuel merged head (some top) none =
      restoreBackLinks head fuel (merged.setNext head (some top)) head := by cases fuel <;> rfl
  have onHead := (restoreBackLinks_head after (isLast ▸ isAfter)).2
  exact notHead (all _ onHead).1

theorem listSort_calls_threeNodes : ∃ after, listSort evenFirst 3 threeNodes 0 = some after ∧
    ∀ call ∈ after.calls, call.1 ∈ [1, 2, 3] ∧ call.2 ∈ [1, 2, 3] := by
  have isSome : (listSort evenFirst 3 threeNodes 0).isSome = true := by decide +kernel
  obtain ⟨after, isAfter⟩ := Option.isSome_iff_exists.mp isSome
  have circular : Circular threeNodes 0 [1, 2, 3] :=
    ⟨by decide, by simp [Threaded, threeNodes], rfl, rfl⟩
  refine ⟨after, isAfter, (listSort_calls_iff evenFirst circular rfl isAfter).mpr ?_⟩
  rintro (⟨k, _, isPower⟩ | ⟨_, divides⟩)
  · rcases k with - | - | k
    · exact absurd isPower (by decide)
    · exact absurd isPower (by decide)
    · simp only [List.length_cons, List.length_nil, Nat.pow_succ] at isPower
      omega
  · exact absurd (Nat.le_of_dvd (by decide) divides) (by decide)

/-- A list with one element: `cmp` gets the list head. -/
theorem listSort_calls_head : ∃ links : Links ℕ, Circular links 0 [1] ∧ links.calls = [] ∧
    (listSort evenFirst 1 links 0).map Links.calls = some [(0, 0)] :=
  ⟨⟨fun n => some (1 - n), fun n => some (1 - n), []⟩,
    ⟨by decide, ⟨rfl, rfl, trivial⟩, rfl, rfl⟩, rfl, by decide +kernel⟩

end StreakKernel.ListSort
