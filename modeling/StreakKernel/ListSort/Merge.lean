import Mathlib.Data.List.Nodup
import StreakKernel.Lib.StableMerge
import StreakKernel.ListSort.Basic

/-!
# Merging linked lists

A path follows `next` from one link to another. `merge` turns two paths that end in `NULL` into
one along the stable merge of their nodes, and `merge_and_restore_back_links` makes a
circular list of them.
-/

namespace StreakKernel.ListSort

open List Function StableMerge Links

universe u

variable {Node : Type u}

/-- Following `next` from `start` along the nodes ends at `stop`. -/
def Path (next : Node → Option Node) : Option Node → List Node → Option Node → Prop
  | start, [], stop => start = stop
  | start, x :: xs, stop => start = some x ∧ Path next (next x) xs stop

def Threaded (links : Links Node) : Node → List Node → Prop
  | _, [] => True
  | first, x :: xs =>
    links.next first = some x ∧ links.prev x = some first ∧ Threaded links x xs

def lastOf (first : Node) (nodes : List Node) : Node := nodes.getLastD first

structure Circular (links : Links Node) (head : Node) (nodes : List Node) : Prop where
  nodup : (head :: nodes).Nodup
  threaded : Threaded links head nodes
  closed : links.next (lastOf head nodes) = some head ∧ links.prev head = some (lastOf head nodes)

def inOrder (cmp : Node → Node → ℤ) (a b : Node) : Bool := decide (cmp a b ≤ 0)

section Paths

variable {next other : Node → Option Node} {start stop : Option Node} {xs ys : List Node}
  {links : Links Node} {first x : Node}

theorem Path.of_none (path : Path next none xs stop) : xs = [] := by
  cases xs with
  | nil => rfl
  | cons x xs => cases path.1

theorem Path.frame (path : Path next start xs stop) (agree : ∀ x ∈ xs, other x = next x) :
    Path other start xs stop := by
  induction xs generalizing start with
  | nil => exact path
  | cons x xs ih =>
    refine ⟨path.1, ?_⟩
    rw [agree x mem_cons_self]
    exact ih path.2 fun y mem => agree y (mem_cons_of_mem _ mem)

theorem Path.append {middle : Option Node} (path : Path next start xs middle)
    (rest : Path next middle ys stop) : Path next start (xs ++ ys) stop := by
  induction xs generalizing start with
  | nil =>
    obtain rfl : start = middle := path
    exact rest
  | cons x xs ih => exact ⟨path.1, ih path.2⟩

variable [DecidableEq Node]

theorem Path.extend (path : Path next start xs (some x)) (fresh : x ∉ xs) :
    Path (update next x stop) start (xs ++ [x]) stop := by
  refine Path.append (path.frame ?_) ⟨rfl, ?_⟩
  · intro y mem
    refine update_of_ne ?_ _ _
    rintro rfl
    exact fresh mem
  · rw [update_self]
    rfl

end Paths

theorem nodup_swap {done xs ys : List Node} (nodup : (done ++ (xs ++ ys)).Nodup) :
    (done ++ (ys ++ xs)).Nodup :=
  (perm_append_comm.append_left done).nodup_iff.mp nodup

theorem nodup_move {y : Node} {done xs ys : List Node} (nodup : (done ++ (xs ++ y :: ys)).Nodup) :
    (done ++ [y] ++ (xs ++ ys)).Nodup := by
  rw [append_assoc]
  exact ((@perm_middle _ y xs ys).append_left done).nodup_iff.mp nodup

section Merge

variable [DecidableEq Node] {cmp : Node → Node → ℤ} {building : Building Node}
  {done xs ys : List Node} {a b : Option Node}

def Built (building : Building Node) (done : List Node) : Prop :=
  match building.tail with
  | none => done = []
  | some node => ∃ init, done = init ++ [node] ∧
      Path building.links.next building.first init (some node)

section

variable (built : Built building done)
include built

theorem Built.append (nodup : done.Nodup) (target : Option Node) :
    Path (building.append target).links.next (building.append target).first done target ∧
      ∀ x, x ∉ done → (building.append target).links.next x = building.links.next x := by
  rcases building with ⟨links, first, tail⟩
  cases tail with
  | none =>
    obtain rfl : done = [] := built
    exact ⟨rfl, fun _ _ => rfl⟩
  | some node =>
    rcases built with ⟨init, rfl, path⟩
    have fresh : node ∉ init := by
      intro mem
      exact (nodup_append.mp nodup).2.2 node mem node mem_cons_self rfl
    refine ⟨path.extend fresh, ?_⟩
    intro x outside
    refine update_of_ne ?_ _ _
    rintro rfl
    exact outside (mem_append_right init mem_cons_self)

theorem Built.push (nodup : done.Nodup) (x : Node) :
    Built { building.append (some x) with tail := some x } (done ++ [x]) :=
  ⟨done, rfl, (built.append nodup (some x)).1⟩

theorem Built.finish (nodup : (done ++ xs).Nodup) (path : Path building.links.next a xs none) :
    Path (building.append a).links.next (building.append a).first (done ++ xs) none ∧
      ∀ x, x ∉ done ++ xs → (building.append a).links.next x = building.links.next x := by
  rcases nodup_append.mp nodup with ⟨doneNodup, _, apart⟩
  rcases built.append doneNodup a with ⟨reached, same⟩
  refine ⟨reached.append (path.frame ?_), ?_⟩
  · intro x mem
    exact same x fun inDone => apart x inDone x mem rfl
  · intro x outside
    exact same x fun inDone => outside (mem_append_left xs inDone)

end

theorem mergeLoop_none_left (fuel : ℕ) (building : Building Node) (b : Option Node) :
    mergeLoop cmp fuel building none b =
      some ((building.append b).links, (building.append b).first) := by
  cases fuel <;> cases b <;> rfl

theorem mergeLoop_none_right (fuel : ℕ) (building : Building Node) (a : Node) :
    mergeLoop cmp fuel building (some a) none =
      some ((building.append (some a)).links, (building.append (some a)).first) := by
  cases fuel <;> rfl

theorem Built.take {x : Node} (built : Built building done)
    (nodup : (done ++ (x :: xs ++ ys)).Nodup)
    (left : Path building.links.next (some x) (x :: xs) none)
    (right : Path building.links.next b ys none) :
    Path (building.append (some x)).links.next ((building.append (some x)).links.next x) xs none ∧
      Path (building.append (some x)).links.next b ys none := by
  rcases nodup_append.mp nodup with ⟨doneNodup, _, apart⟩
  have same : ∀ z ∈ x :: xs ++ ys,
      (building.append (some x)).links.next z = building.links.next z := by
    intro z mem
    exact (built.append doneNodup (some x)).2 z fun inDone => apart z inDone z mem rfl
  rw [same x mem_cons_self]
  constructor
  · exact left.2.frame fun z mem => same z (mem_cons_of_mem _ (mem_append_left ys mem))
  · exact right.frame fun z mem => same z (mem_append_right (x :: xs) mem)

theorem mergeLoop_spec {fuel : ℕ} (built : Built building done)
    (nodup : (done ++ (xs ++ ys)).Nodup) (left : Path building.links.next a xs none)
    (right : Path building.links.next b ys none) (enough : xs.length + ys.length ≤ fuel) :
    ∃ links first, mergeLoop cmp fuel building a b = some (links, first) ∧
      Path links.next first (done ++ xs.merge ys (inOrder cmp)) none ∧
      ∀ x, x ∉ done ++ (xs ++ ys) → links.next x = building.links.next x := by
  induction fuel generalizing building done xs ys a b with
  | zero =>
    obtain rfl : xs = [] := eq_nil_of_length_eq_zero (by omega)
    obtain rfl : a = none := left
    rw [nil_merge]
    exact ⟨_, _, mergeLoop_none_left 0 building b, built.finish nodup right⟩
  | succ fuel ih =>
    cases xs with
    | nil =>
      obtain rfl : a = none := left
      rw [nil_merge]
      exact ⟨_, _, mergeLoop_none_left (fuel + 1) building b, built.finish nodup right⟩
    | cons x xs =>
      obtain rfl := left.1
      cases ys with
      | nil =>
        obtain rfl : b = none := right
        rw [merge_right]
        rw [append_nil] at nodup ⊢
        exact ⟨_, _, mergeLoop_none_right (fuel + 1) building x, built.finish nodup left⟩
      | cons y ys =>
        obtain rfl := right.1
        have doneNodup := (nodup_append.mp nodup).1
        have called : Built { building with links := building.links.call x y } done := built
        rw [cons_merge_cons]
        by_cases first : cmp x y ≤ 0
        · have taken := called.take nodup left right
          have moved : (done ++ [x] ++ (xs ++ y :: ys)).Nodup := by simpa using nodup
          rcases ih (called.push doneNodup x) moved taken.1 taken.2
            (by simp only [length_cons] at enough ⊢; omega) with
            ⟨links, start, result, path, same⟩
          refine ⟨links, start, ?_, ?_, ?_⟩
          · simp only [mergeLoop, if_pos first]
            exact result
          · simpa [inOrder, first] using path
          · intro z outside
            rw [same z (by simpa using outside)]
            exact (called.append doneNodup (some x)).2 z
              fun inDone => outside (mem_append_left _ inDone)
        · have taken := called.take (nodup_swap nodup) right left
          rcases ih (called.push doneNodup y) (nodup_move nodup) taken.2 taken.1
            (by simp only [length_cons] at enough ⊢; omega) with
            ⟨links, start, result, path, same⟩
          refine ⟨links, start, ?_, ?_, ?_⟩
          · simp only [mergeLoop, if_neg first]
            exact result
          · simpa [inOrder, first] using path
          · intro z outside
            have elsewhere : z ∉ done ++ [y] ++ (x :: xs ++ ys) := by
              simp only [mem_append, mem_cons, not_mem_nil, or_false] at outside ⊢
              tauto
            rw [same z elsewhere]
            exact (called.append doneNodup (some y)).2 z
              fun inDone => outside (mem_append_left _ inDone)

theorem merge_spec {links : Links Node} {fuel : ℕ} (nodup : (xs ++ ys).Nodup)
    (left : Path links.next a xs none) (right : Path links.next b ys none)
    (enough : xs.length + ys.length ≤ fuel) :
    ∃ after first, merge cmp fuel links a b = some (after, first) ∧
      Path after.next first (xs.merge ys (inOrder cmp)) none ∧
      ∀ x, x ∉ xs ++ ys → after.next x = links.next x :=
  @mergeLoop_spec _ _ cmp ⟨links, none, none⟩ [] xs ys a b fuel rfl nodup left right enough

end Merge

/-! ## Restoring the back links -/

section Restore

variable {links other : Links Node} {first head tail x : Node} {xs ys done : List Node}
  {a b : Option Node}

theorem lastOf_cons (first x : Node) (xs : List Node) : lastOf first (x :: xs) = lastOf x xs :=
  getLastD_cons

theorem lastOf_mem (first : Node) (xs : List Node) : lastOf first xs ∈ first :: xs := by
  induction xs generalizing first with
  | nil => exact mem_cons_self
  | cons x xs ih =>
    rw [lastOf_cons]
    exact mem_cons_of_mem _ (ih x)

theorem lastOf_append (first x : Node) (xs : List Node) : lastOf first (xs ++ [x]) = x := by
  simp [lastOf]

theorem Threaded.frame (threaded : Threaded links first xs) (nodup : (first :: xs).Nodup)
    (sameNext : ∀ x ∈ first :: xs, x ≠ lastOf first xs → other.next x = links.next x)
    (samePrev : ∀ x ∈ xs, other.prev x = links.prev x) : Threaded other first xs := by
  induction xs generalizing first with
  | nil => trivial
  | cons x xs ih =>
    rcases nodup_cons.mp nodup with ⟨firstFresh, restNodup⟩
    rw [lastOf_cons] at sameNext
    have notLast : first ≠ lastOf x xs := by
      intro isLast
      exact firstFresh (isLast ▸ lastOf_mem x xs)
    refine ⟨?_, ?_, ih threaded.2.2 restNodup ?_ ?_⟩
    · rw [sameNext first mem_cons_self notLast]
      exact threaded.1
    · rw [samePrev x mem_cons_self]
      exact threaded.2.1
    · intro y mem ne
      exact sameNext y (mem_cons_of_mem _ mem) ne
    · intro y mem
      exact samePrev y (mem_cons_of_mem _ mem)

theorem Threaded.snoc (threaded : Threaded links first xs)
    (isNext : links.next (lastOf first xs) = some x)
    (isPrev : links.prev x = some (lastOf first xs)) : Threaded links first (xs ++ [x]) := by
  induction xs generalizing first with
  | nil => exact ⟨isNext, isPrev, trivial⟩
  | cons y ys ih =>
    rw [lastOf_cons] at isNext isPrev
    exact ⟨threaded.1, threaded.2.1, ih threaded.2.2 isNext isPrev⟩

theorem Threaded.push (threaded : Threaded links head done) (nodup : (head :: (done ++ [x])).Nodup)
    (sameNext : ∀ y ∈ head :: done, y ≠ lastOf head done → other.next y = links.next y)
    (samePrev : ∀ y ∈ done, other.prev y = links.prev y)
    (isNext : other.next (lastOf head done) = some x)
    (isPrev : other.prev x = some (lastOf head done)) : Threaded other head (done ++ [x]) := by
  have doneNodup : (head :: done).Nodup := by exact (nodup_append.mp nodup).1
  exact (threaded.frame doneNodup sameNext samePrev).snoc isNext isPrev

variable [DecidableEq Node]

variable {fuel : ℕ} {cmp : Node → Node → ℤ}

theorem restoreBackLinks_spec (threaded : Threaded links head done)
    (nodup : (head :: (done ++ x :: xs)).Nodup)
    (path : Path links.next (links.next (lastOf head done)) (x :: xs) none)
    (enough : xs.length < fuel) :
    ∃ after, restoreBackLinks head fuel links (lastOf head done) = some after ∧
      Circular after head (done ++ x :: xs) := by
  induction xs generalizing fuel links done x with
  | nil =>
    obtain ⟨fuel, rfl⟩ : ∃ more, fuel = more + 1 := ⟨fuel - 1, by omega⟩
    rcases path with ⟨isNext, isEnd⟩
    have ended : links.next x = none := isEnd
    have ne : ∀ y ∈ head :: done, y ≠ x := by
      rintro y mem rfl
      exact (nodup_append.mp nodup).2.2 y mem y mem_cons_self rfl
    refine ⟨(((links.call (lastOf head done) (lastOf head done)).setPrev x
      (some (lastOf head done))).setNext x (some head)).setPrev head (some x), ?_, nodup, ?_, ?_⟩
    · simp only [restoreBackLinks, isNext]
      simp [setPrev, call, ended]
    · refine threaded.push nodup ?_ ?_ ?_ ?_
      · intro y mem _
        exact update_of_ne (ne y mem) _ _
      · intro y mem
        have notHead : y ≠ head := by
          rintro rfl
          exact (nodup_cons.mp nodup).1 (mem_append_left _ mem)
        simp only [setPrev, setNext]
        rw [update_of_ne notHead, update_of_ne (ne y (mem_cons_of_mem _ mem))]
        rfl
      · simp only [setPrev, setNext]
        rw [update_of_ne (ne _ (lastOf_mem head done))]
        exact isNext
      · simp only [setPrev, setNext]
        rw [update_of_ne (ne head mem_cons_self).symm, update_self]
    · rw [lastOf_append]
      simp [setPrev, setNext]
  | cons y ys ih =>
    obtain ⟨fuel, rfl⟩ : ∃ more, fuel = more + 1 := ⟨fuel - 1, by omega⟩
    rcases path with ⟨isNext, rest⟩
    have isFollowing : links.next x = some y := rest.1
    have shorter : (head :: (done ++ [x])).Nodup := by
      refine List.Sublist.nodup ?_ nodup
      simp
    have linked : Threaded ((links.call (lastOf head done) (lastOf head done)).setPrev x
        (some (lastOf head done))) head (done ++ [x]) := by
      refine threaded.push shorter (fun _ _ _ => rfl) ?_ isNext ?_
      · intro z mem
        refine update_of_ne ?_ _ _
        rintro rfl
        exact (nodup_append.mp shorter).2.2 z (mem_cons_of_mem _ mem) z mem_cons_self rfl
      · exact update_self _ _ _
    have moved : (head :: (done ++ [x] ++ y :: ys)).Nodup := by
      rw [append_assoc]
      exact nodup
    rcases ih linked moved (by rw [lastOf_append]; exact rest)
      (show ys.length < fuel by simp only [length_cons] at enough; omega) with
      ⟨after, restored, circular⟩
    rw [lastOf_append] at restored
    refine ⟨after, ?_, ?_⟩
    · simp only [restoreBackLinks, isNext]
      simp only [setPrev, call, isFollowing]
      exact restored
    · rw [append_assoc] at circular
      exact circular

theorem mergeAndRestoreBackLinks_none_left (fuel : ℕ) (links : Links Node) (tail : Node)
    (b : Option Node) :
    mergeAndRestoreBackLinks cmp head fuel links tail none b =
      restoreBackLinks head fuel (links.setNext tail b) tail := by
  cases fuel <;> cases b <;> rfl

theorem mergeAndRestoreBackLinks_none_right (fuel : ℕ) (links : Links Node) (tail a : Node) :
    mergeAndRestoreBackLinks cmp head fuel links tail (some a) none =
      restoreBackLinks head fuel (links.setNext tail (some a)) tail := by
  cases fuel <;> rfl

theorem Threaded.restore (threaded : Threaded links head done)
    (nodup : (head :: (done ++ x :: xs)).Nodup) (path : Path links.next (some x) (x :: xs) none)
    (enough : xs.length < fuel) :
    ∃ after, restoreBackLinks head fuel (links.setNext (lastOf head done) (some x))
        (lastOf head done) = some after ∧ Circular after head (done ++ x :: xs) := by
  have apart : ∀ y ∈ x :: xs, y ≠ lastOf head done := by
    rintro y mem rfl
    exact (nodup_append.mp nodup).2.2 _ (lastOf_mem head done) _ mem rfl
  refine restoreBackLinks_spec ?_ nodup ?_ enough
  · refine threaded.frame (nodup_append.mp nodup).1 ?_ (fun _ _ => rfl)
    intro y _ notLast
    exact update_of_ne notLast _ _
  · simp only [setNext]
    rw [update_self]
    exact path.frame fun y mem => update_of_ne (apart y mem) _ _

theorem Threaded.take (threaded : Threaded links head done)
    (nodup : (head :: (done ++ (x :: xs ++ ys))).Nodup)
    (left : Path links.next (some x) (x :: xs) none) (right : Path links.next b ys none) :
    let linked := (links.setNext (lastOf head done) (some x)).setPrev x (some (lastOf head done))
    Threaded linked head (done ++ [x]) ∧ Path linked.next (linked.next x) xs none ∧
      Path linked.next b ys none := by
  have shorter : (head :: (done ++ [x])).Nodup := by
    refine List.Sublist.nodup ?_ nodup
    simp
  have apart : ∀ y ∈ x :: xs ++ ys, y ≠ lastOf head done := by
    rintro y mem rfl
    exact (nodup_append.mp nodup).2.2 _ (lastOf_mem head done) _ mem rfl
  have xFresh : ∀ y ∈ done, y ≠ x := by
    rintro y mem rfl
    exact (nodup_append.mp nodup).2.2 y (mem_cons_of_mem _ mem) y mem_cons_self rfl
  refine ⟨threaded.push shorter ?_ ?_ ?_ ?_, ?_, ?_⟩
  · intro y _ notLast
    exact update_of_ne notLast _ _
  · intro y mem
    exact update_of_ne (xFresh y mem) _ _
  · exact update_self _ _ _
  · exact update_self _ _ _
  · simp only [setNext, setPrev]
    rw [update_of_ne (apart x mem_cons_self)]
    exact left.2.frame fun y mem => update_of_ne
      (apart y (mem_cons_of_mem _ (mem_append_left ys mem))) _ _
  · exact right.frame fun y mem => update_of_ne
      (apart y (mem_append_right (x :: xs) mem)) _ _

theorem mergeAndRestoreBackLinks_spec (threaded : Threaded links head done)
    (nodup : (head :: (done ++ (xs ++ ys))).Nodup) (left : Path links.next a xs none)
    (right : Path links.next b ys none) (nonempty : xs ++ ys ≠ [])
    (enough : xs.length + ys.length ≤ fuel) :
    ∃ after, mergeAndRestoreBackLinks cmp head fuel links (lastOf head done) a b = some after ∧
      Circular after head (done ++ xs.merge ys (inOrder cmp)) := by
  induction fuel generalizing links done xs ys a b with
  | zero =>
    refine absurd ?_ nonempty
    exact eq_nil_of_length_eq_zero (by rw [length_append]; omega)
  | succ fuel ih =>
    cases xs with
    | nil =>
      obtain rfl : a = none := left
      rw [nil_merge, mergeAndRestoreBackLinks_none_left]
      cases ys with
      | nil => exact absurd rfl nonempty
      | cons y ys =>
        obtain rfl := right.1
        exact threaded.restore nodup right (by simp only [length_cons, length_nil] at enough; omega)
    | cons x xs =>
      obtain rfl := left.1
      cases ys with
      | nil =>
        obtain rfl : b = none := right
        rw [merge_right, mergeAndRestoreBackLinks_none_right]
        rw [append_nil] at nodup
        exact threaded.restore nodup left (by simp only [length_cons, length_nil] at enough; omega)
      | cons y ys =>
        obtain rfl := right.1
        have called : Threaded (links.call x y) head done :=
          threaded.frame (nodup_append.mp nodup).1 (fun _ _ _ => rfl) (fun _ _ => rfl)
        rw [cons_merge_cons]
        by_cases first : cmp x y ≤ 0
        · rcases called.take nodup left right with ⟨linked, restLeft, restRight⟩
          have moved : (head :: (done ++ [x] ++ (xs ++ y :: ys))).Nodup := by simpa using nodup
          rcases ih linked moved restLeft restRight (by simp)
            (by simp only [length_cons] at enough ⊢; omega) with
            ⟨after, result, circular⟩
          rw [lastOf_append] at result
          refine ⟨after, ?_, ?_⟩
          · simp only [mergeAndRestoreBackLinks, if_pos first]
            exact result
          · simpa [inOrder, first] using circular
        · rcases called.take (@nodup_swap _ (head :: done) _ _ nodup) right left with
            ⟨linked, restRight, restLeft⟩
          rcases ih linked (@nodup_move _ y (head :: done) _ _ nodup) restLeft restRight (by simp)
            (by simp only [length_cons] at enough ⊢; omega) with
            ⟨after, result, circular⟩
          rw [lastOf_append] at result
          refine ⟨after, ?_, ?_⟩
          · simp only [mergeAndRestoreBackLinks, if_neg first]
            exact result
          · simpa [inOrder, first] using circular

end Restore

end StreakKernel.ListSort
