import Mathlib.Data.Int.Basic

/-!
# Sorting a linked list

Shallow embedding of `lib/list_sort.c`. The nodes have any type, and `NULL` is `none`.
`merge` builds its list behind a local head, so its tail is a node or that head.

The loops run along links and have fuel; they have no result when it runs out, when they
dereference `NULL` or when they leave the array `part`. Every call of `cmp` is logged, also those
that only give the client a chance to reschedule.
-/

namespace StreakKernel.ListSort

universe u

variable {Node : Type u} [DecidableEq Node]

/-- The links of the nodes, and the calls of `cmp` so far, the last one first. -/
structure Links (Node : Type u) where
  next : Node → Option Node
  prev : Node → Option Node
  calls : List (Node × Node) := []

namespace Links

def setNext (links : Links Node) (node : Node) (target : Option Node) : Links Node :=
  { links with next := Function.update links.next node target }

def setPrev (links : Links Node) (node : Node) (target : Option Node) : Links Node :=
  { links with prev := Function.update links.prev node target }

/-- The call `cmp(priv, a, b)`. -/
def call (links : Links Node) (a b : Node) : Links Node :=
  { links with calls := (a, b) :: links.calls }

end Links

/-! ## Merging -/

/-- A list under construction: `head.next`, and the tail, which is the local head at first. -/
structure Building (Node : Type u) where
  links : Links Node
  first : Option Node
  tail : Option Node

/-- `tail->next = target`. -/
def Building.append (building : Building Node) (target : Option Node) : Building Node :=
  match building.tail with
  | none => { building with first := target }
  | some node => { building with links := building.links.setNext node target }

/-- The loop of `merge` and the line behind it. -/
def mergeLoop (cmp : Node → Node → ℤ) :
    ℕ → Building Node → Option Node → Option Node → Option (Links Node × Option Node)
  | fuel + 1, building, some a, some b =>
    let called := { building with links := building.links.call a b }
    if cmp a b ≤ 0 then
      let longer := called.append (some a)
      mergeLoop cmp fuel { longer with tail := some a } (longer.links.next a) (some b)
    else
      let longer := called.append (some b)
      mergeLoop cmp fuel { longer with tail := some b } (some a) (longer.links.next b)
  | 0, _, some _, some _ => none
  | _, building, some a, none =>
    some ((building.append (some a)).links, (building.append (some a)).first)
  | _, building, none, b => some ((building.append b).links, (building.append b).first)

def merge (cmp : Node → Node → ℤ) (fuel : ℕ) (links : Links Node) (a b : Option Node) :
    Option (Links Node × Option Node) :=
  mergeLoop cmp fuel ⟨links, none, none⟩ a b

/-- The second loop of `merge_and_restore_back_links` and the lines behind it. -/
def restoreBackLinks (head : Node) : ℕ → Links Node → Node → Option (Links Node)
  | 0, _, _ => none
  | fuel + 1, links, tail =>
    match links.next tail with
    | none => none
    | some node =>
      let linked := (links.call tail tail).setPrev node (some tail)
      match linked.next node with
      | some _ => restoreBackLinks head fuel linked node
      | none => some ((linked.setNext node (some head)).setPrev head (some node))

/-- `merge_and_restore_back_links`, from its first loop on. -/
def mergeAndRestoreBackLinks (cmp : Node → Node → ℤ) (head : Node) :
    ℕ → Links Node → Node → Option Node → Option Node → Option (Links Node)
  | fuel + 1, links, tail, some a, some b =>
    if cmp a b ≤ 0 then
      let linked := ((links.call a b).setNext tail (some a)).setPrev a (some tail)
      mergeAndRestoreBackLinks cmp head fuel linked a (linked.next a) (some b)
    else
      let linked := ((links.call a b).setNext tail (some b)).setPrev b (some tail)
      mergeAndRestoreBackLinks cmp head fuel linked b (some a) (linked.next b)
  | 0, _, _, some _, some _ => none
  | fuel, links, tail, some a, none =>
    restoreBackLinks head fuel (links.setNext tail (some a)) tail
  | fuel, links, tail, none, b => restoreBackLinks head fuel (links.setNext tail b) tail

/-! ## Sorting -/

def maxListLengthBits : ℕ := 20

structure Parts (Node : Type u) where
  links : Links Node
  part : ℕ → Option Node
  maxLev : ℕ

/-- The loop that merges `cur` with the levels from `lev` on, `rest` of them up to the end of the
array. -/
def propagate (cmp : Node → Node → ℤ) (fuel : ℕ) :
    ℕ → ℕ → Parts Node → Option Node → Option (Parts Node × Option Node × ℕ)
  | 0, _, _, _ => none
  | rest + 1, lev, parts, cur =>
    match parts.part lev with
    | none => some (parts, cur, lev)
    | some run =>
      match merge cmp fuel parts.links (some run) cur with
      | none => none
      | some (links, merged) =>
        propagate cmp fuel rest (lev + 1)
          { parts with links := links, part := Function.update parts.part lev none } merged

/-- Put a list into a level. The last slot stays empty. -/
def store (parts : Parts Node) (cur : Option Node) (lev : ℕ) : Parts Node :=
  if parts.maxLev < lev then
    let level := if maxListLengthBits ≤ lev then lev - 1 else lev
    { parts with part := Function.update parts.part level cur, maxLev := level }
  else { parts with part := Function.update parts.part lev cur }

/-- The loop over the list; `limit` is the fuel of each merge. -/
def distribute (cmp : Node → Node → ℤ) (limit : ℕ) :
    ℕ → Parts Node → Option Node → Option (Parts Node)
  | _, parts, none => some parts
  | 0, _, some _ => none
  | fuel + 1, parts, some cur =>
    let list := parts.links.next cur
    let alone := { parts with links := parts.links.setNext cur none }
    match propagate cmp limit (maxListLengthBits + 1) 0 alone (some cur) with
    | none => none
    | some (merged, run, lev) => distribute cmp limit fuel (store merged run lev) list

/-- The loop over the levels below the last, `rest` of them from `lev` on. -/
def gather (cmp : Node → Node → ℤ) (fuel : ℕ) (part : ℕ → Option Node) :
    ℕ → ℕ → Links Node → Option Node → Option (Links Node × Option Node)
  | 0, _, links, list => some (links, list)
  | rest + 1, lev, links, list =>
    match part lev with
    | none => gather cmp fuel part rest (lev + 1) links list
    | some run =>
      match merge cmp fuel links (some run) list with
      | none => none
      | some (merged, longer) => gather cmp fuel part rest (lev + 1) merged longer

def listSort (cmp : Node → Node → ℤ) (fuel : ℕ) (links : Links Node) (head : Node) :
    Option (Links Node) :=
  if links.next head = some head then some links
  else
    match links.prev head with
    | none => none
    | some last =>
      let ended := links.setNext last none
      match distribute cmp fuel fuel ⟨ended, fun _ => none, 0⟩ (ended.next head) with
      | none => none
      | some parts =>
        match gather cmp fuel parts.part parts.maxLev 0 parts.links none with
        | none => none
        | some (merged, list) =>
          mergeAndRestoreBackLinks cmp head fuel merged head (parts.part parts.maxLev) list

end StreakKernel.ListSort
