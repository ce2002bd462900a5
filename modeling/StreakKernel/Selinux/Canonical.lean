import Mathlib.Data.Set.Insert
import StreakKernel.Selinux.Sets

/-!
# Comparison of category sets

`ebitmap_set_bit` and `ebitmap_cpy` keep bitmaps canonical. `ebitmap_read` does so for a policy
without empty maps in which `highbit` is not beyond the node of the last map.
-/

namespace StreakKernel.Selinux

open Option Function Run EbitmapNode

/-- The maps of a bitmap in a policy are not zero, and `highbit` is where the node of the last one
ends. -/
def TightMaps (highbit : ℕ) : ℕ → ℕ → List UInt8 → Prop
  | 0, last, _ => last = highbit
  | count + 1, _, fp =>
    ∀ startbit ∈ nextEntry 4 fp, ∀ map ∈ nextEntry 8 startbit.2,
      map.1 ≠ 0 ∧ TightMaps highbit count (startbit.1 - startbit.1 % 192 + 192) map.2

instance TightMaps.decidable (highbit : ℕ) :
    ∀ count last fp, Decidable (TightMaps highbit count last fp)
  | 0, last, _ => inferInstanceAs (Decidable (last = highbit))
  | count + 1, _, fp =>
    haveI := TightMaps.decidable highbit count
    inferInstanceAs (Decidable (∀ startbit ∈ nextEntry 4 fp, ∀ map ∈ nextEntry 8 startbit.2,
      map.1 ≠ 0 ∧ TightMaps highbit count (startbit.1 - startbit.1 % 192 + 192) map.2))

/-- A policy from which `ebitmap_read` makes a canonical bitmap, if it makes one. -/
def Tight : Request → Prop
  | .read _ fp _ =>
    ∀ mapunit ∈ nextEntry 4 fp, ∀ highbit ∈ nextEntry 4 mapunit.2, ∀ count ∈ nextEntry 4 highbit.2,
        roundUp highbit.1 = 0 ∨ TightMaps (roundUp highbit.1) count.1 0 count.2
  | _ => True

instance Tight.decidable : ∀ request, Decidable (Tight request)
  | .read _ fp _ =>
    inferInstanceAs (Decidable (∀ mapunit ∈ nextEntry 4 fp, ∀ highbit ∈ nextEntry 4 mapunit.2,
      ∀ count ∈ nextEntry 4 highbit.2,
        roundUp highbit.1 = 0 ∨ TightMaps (roundUp highbit.1) count.1 0 count.2))
  | .setBit .. => isTrue trivial
  | .cpy .. => isTrue trivial

section Read

variable {node : EbitmapNode} {highbit below : ℕ} {fp : List UInt8}

theorem nextEntry_lt {size : ℕ} {result : ℕ × List UInt8} (read : nextEntry size fp = some result) :
    result.1 < 256 ^ size := by
  have bound : ∀ bytes : List UInt8,
      bytes.foldr (fun byte value => byte.toNat + 256 * value) 0 < 256 ^ bytes.length := by
    intro bytes
    induction bytes with
    | nil => simp
    | cons byte bytes ih =>
      have isByte := byte.toNat_lt
      simp only [List.foldr_cons, List.length_cons, Nat.pow_succ]
      omega
  unfold nextEntry at read
  split at read
  · cases read
  next long =>
    cases read
    have isBounded := bound (fp.take size)
    rwa [List.length_take_of_le (by omega)] at isBounded

theorem nonempty_setMap {index : Fin 6} {word : ℕ} (pos : 0 < word)
    (fits : word < 4294967296) : (node.setMap index (BitVec.ofNat 32 word)).Nonempty := by
  refine ⟨index, fun zero => ?_⟩
  have isZero := congrArg BitVec.toNat zero
  simp only [setMap, update_self, BitVec.toNat_ofNat] at isZero
  change word % 4294967296 = 0 at isZero
  omega

variable {index map : ℕ} {nodes : List EbitmapNode}

theorem nonempty_storeMap (nonzero : map ≠ 0) (fits : map < 256 ^ 8) :
    (node.storeMap index map).Nonempty := by
  unfold storeMap
  rw [if_neg nonzero]
  dsimp only
  split
  all_goals exact nonempty_setMap (by omega) (by omega)

theorem startbit_storeMap : (node.storeMap index map).startbit = node.startbit := by
  unfold storeMap
  dsimp only
  split
  · rfl
  · split <;> rfl

/-- The node that `ebitmap_read` is filling. -/
structure Filling (below highbit : ℕ) (node : EbitmapNode) : Prop where
  le : below ≤ node.startbit
  aligned : node.startbit % 192 = 0
  ends : node.startbit + 192 ≤ highbit
  nonempty : node.Nonempty

theorem Filling.stop_eq (filling : Filling below highbit node) (fits : highbit < 4294967296) :
    node.stop = node.startbit + 192 := by
  have ends := filling.ends
  exact Selinux.stop_eq filling.aligned (by omega)

theorem Filling.cons (filling : Filling below highbit node) (fits : highbit < 4294967296)
    {rest : List EbitmapNode} (canonical : Canonical (node.startbit + 192) highbit rest) :
    Canonical below highbit (node :: rest) := by
  have ends := filling.ends
  exact Canonical.cons filling.le filling.aligned (by omega) filling.nonempty canonical

theorem canonical_readNodes {alloc : ℕ → Bool} {count : ℕ} {last : Option EbitmapNode}
    (pos : 0 < highbit) (isRound : highbit % 192 = 0) (fits : highbit < 4294967296)
    (isBelow : below % 192 = 0) (isFirst : last = none → below = 0)
    (filling : ∀ node ∈ last, Filling below highbit node)
    (tight : TightMaps highbit count (lastEnd below last.toList) fp)
    (read : readNodes highbit alloc count last fp = some nodes) :
    Canonical below highbit nodes := by
  induction count generalizing below last fp nodes with
  | zero =>
    cases read
    cases last with
    | none => exact ⟨trivial, fun _ listed => (nomatch listed), tight.symm⟩
    | some node =>
      exact (filling node rfl).cons fits ⟨trivial, fun _ listed => (nomatch listed), tight.symm⟩
  | succ count ih =>
    rcases bind_eq_some_iff.mp read with ⟨⟨startbit, fp⟩, isStart, read⟩
    dsimp only at read
    split at read
    · cases read
    split at read
    · cases read
    next aligned within =>
    rw [Word.sub_eq (by omega) fits] at within
    split at read
    · next fresh =>
        split at read
        · cases read
        rcases bind_eq_some_iff.mp read with ⟨⟨map, fp⟩, isMap, read⟩
        rcases bind_eq_some_iff.mp read with ⟨rest, isRest, read⟩
        cases read
        rcases tight _ isStart _ isMap with ⟨nonzero, tightRest⟩
        have starts : ((newNode startbit).storeMap
            ((startbit - (newNode startbit).startbit) / 32) map).startbit =
              startbit - startbit % 192 := startbit_storeMap
        have nonempty := @nonempty_storeMap (newNode startbit)
          ((startbit - (newNode startbit).startbit) / 32) map nonzero (nextEntry_lt isMap)
        generalize storeMap _ _ _ = node at isRest starts nonempty
        have isEnd : lastEnd (lastEnd below last.toList) (some node).toList =
            startbit - startbit % 192 + 192 := congrArg (· + 192) starts
        rw [← isEnd] at tightRest
        cases last with
        | none =>
          have isZero := isFirst rfl
          refine ih isBelow ?_ ?_ tightRest isRest
          · exact fun isNone => (nomatch isNone)
          · rintro _ ⟨⟩
            exact ⟨by omega, by omega, by omega, nonempty⟩
        | some last =>
          have isLast := filling last rfl
          have isAligned := isLast.aligned
          have above : last.startbit + 192 ≤ startbit := by
            rw [← isLast.stop_eq fits]
            simpa using fresh
          refine isLast.cons fits (ih ?_ ?_ ?_ tightRest isRest)
          · exact (Nat.add_mod_right _ _).trans isAligned
          · exact fun isNone => (nomatch isNone)
          · rintro _ ⟨⟩
            exact ⟨by omega, by omega, by omega, nonempty⟩
    · split at read
      · cases read
      next inside later =>
      rcases bind_eq_some_iff.mp read with ⟨⟨map, fp⟩, isMap, read⟩
      rcases tight _ isStart _ isMap with ⟨nonzero, tightRest⟩
      cases last with
      | none => simp at inside
      | some last =>
        have isLast := filling last rfl
        have isAligned := isLast.aligned
        have ends : startbit < last.startbit + 192 := by
          rw [← isLast.stop_eq fits]
          simpa using inside
        have starts : last.startbit < startbit := by simpa using later
        have same := @startbit_storeMap last ((startbit - last.startbit) / 32) map
        refine ih isBelow ?_ ?_ ?_ read
        · exact fun isNone => (nomatch isNone)
        · rintro _ ⟨⟩
          refine ⟨?_, ?_, ?_, nonempty_storeMap nonzero (nextEntry_lt isMap)⟩
          all_goals
            rw [same]
          · exact isLast.le
          · exact isLast.aligned
          · exact isLast.ends
        have isEnd : startbit - startbit % 192 = last.startbit := by omega
        change TightMaps highbit count (startbit - startbit % 192 + 192) fp at tightRest
        rw [isEnd] at tightRest
        change TightMaps highbit count
          ((last.storeMap ((startbit - last.startbit) / 32) map).startbit + 192) fp
        rwa [same]

theorem lastEnd_le (placed : Placed below nodes) (nonempty : ∀ node ∈ nodes, node.Nonempty)
    (le : below ≤ highbit) (isRound : highbit % 192 = 0)
    (bounded : ∀ bit, getNodes bit nodes = true → bit < highbit) :
    lastEnd below nodes ≤ highbit := by
  induction nodes generalizing below with
  | nil => exact le
  | cons node rest ih =>
    rcases (nonempty node List.mem_cons_self).exists_bit with ⟨bit, covers, isSet⟩
    have lt := bounded bit (placed.getNodes_cons.mpr (.inl ⟨covers, isSet⟩))
    have aligned := placed.2.1
    have starts := covers.1
    refine ih placed.2.2.2 (List.forall_mem_cons.mp nonempty).2 (by omega) fun bit later => ?_
    exact bounded bit (placed.getNodes_cons.mpr (.inr later))

theorem lastEnd_mod (placed : Placed below nodes) (aligned : below % 192 = 0) :
    lastEnd below nodes % 192 = 0 := by
  induction nodes generalizing below with
  | nil => exact aligned
  | cons node rest ih => exact ih placed.2.2.2 ((Nat.add_mod_right _ _).trans placed.2.1)

end Read

namespace Ebitmap

variable {ebitmap first second : Ebitmap}

def Canonical (ebitmap : Ebitmap) : Prop := Selinux.Canonical 0 ebitmap.highbit ebitmap.nodes

theorem canonical_init : init.Canonical := ⟨trivial, fun _ listed => (nomatch listed), rfl⟩

theorem canonical_read {fp : List UInt8} {alloc : ℕ → Bool} {target : ℕ}
    (tight : Tight (.read target fp alloc)) (isRead : read fp alloc = some ebitmap) :
    ebitmap.Canonical := by
  rcases bind_eq_some_iff.mp isRead with ⟨⟨mapunit, fp⟩, isUnit, isRead⟩
  rcases bind_eq_some_iff.mp isRead with ⟨⟨highbit, fp⟩, isHigh, isRead⟩
  rcases bind_eq_some_iff.mp isRead with ⟨⟨count, fp⟩, isCount, isRead⟩
  dsimp only at isRead
  split at isRead
  · cases isRead
  split at isRead
  · cases isRead
    exact canonical_init
  next nonzero =>
  rcases bind_eq_some_iff.mp isRead with ⟨nodes, isNodes, isRead⟩
  cases isRead
  have isTight := (tight _ isUnit _ isHigh _ isCount).resolve_left nonzero
  have fits := Word.add_lt highbit 191
  have pos := Nat.pos_of_ne_zero nonzero
  refine canonical_readNodes pos ?_ ?_ rfl (fun _ => rfl) ?_ isTight isNodes
  · unfold roundUp
    dsimp only
    omega
  · unfold roundUp
    dsimp only
    omega
  · exact fun _ isNone => (nomatch isNone)

/-- The bits for which `ebitmap_get_bit` returns 1. -/
def bits (ebitmap : Ebitmap) : Set ℕ := {bit | ebitmap.getBit bit = true}

theorem Canonical.mem_bits (canonical : ebitmap.Canonical) {bit : ℕ} :
    bit ∈ ebitmap.bits ↔ getNodes bit ebitmap.nodes = true := by
  unfold bits getBit
  rw [Set.mem_ofPred_eq]
  split
  · next beyond =>
      refine ⟨fun isSet => (nomatch isSet), fun isSet => ?_⟩
      have lt := canonical.placed.lt_of_getNodes isSet
      have isEnd := canonical.tight
      omega
  · exact Iff.rfl

theorem Canonical.setBit (canonical : ebitmap.Canonical) {bit : Bit} {value alloc : Bool}
    {after : Ebitmap} (isSet : ebitmap.setBit bit value alloc = some after) :
    after.Canonical ∧
      after.bits = if value then insert bit.1 ebitmap.bits else ebitmap.bits \ {bit.1} := by
  rcases map_eq_some_iff.mp isSet with ⟨result, isResult, rfl⟩
  have changed := Selinux.Canonical.setNodes canonical rfl (Nat.zero_le _) bit.2 isResult
  have isCanonical : Canonical ⟨result.1, result.2⟩ := changed.1
  refine ⟨isCanonical, Set.ext fun position => ?_⟩
  rw [isCanonical.mem_bits, changed.2 position, ← canonical.mem_bits]
  cases value with
  | true =>
    simp only [if_true, Set.mem_insert_iff]
    tauto
  | false =>
    simp only [Bool.false_eq_true, if_false, Set.mem_sdiff, Set.mem_singleton_iff]
    tauto

section

variable (canonical : first.Canonical) (canonicalToo : second.Canonical)
include canonical canonicalToo

theorem Canonical.subset_iff :
    second.bits ⊆ first.bits ↔ containsNodes first.nodes second.nodes = true := by
  rw [containsNodes_iff canonical.placed canonicalToo.placed canonicalToo.nonempty]
  refine forall_congr' fun bit => ?_
  rw [canonical.mem_bits, canonicalToo.mem_bits]

/-- The last node of the smaller bitmap has a bit, so that a node of the larger one reaches as
far. -/
theorem Canonical.highbit_le (subset : second.bits ⊆ first.bits) :
    second.highbit ≤ first.highbit := by
  rw [canonicalToo.tight]
  refine lastEnd_le canonicalToo.placed canonicalToo.nonempty (Nat.zero_le _) ?_ fun bit isSet => ?_
  · rw [canonical.tight]
    exact lastEnd_mod canonical.placed rfl
  · have isFirst := canonical.mem_bits.mp (subset (canonicalToo.mem_bits.mpr isSet))
    rw [canonical.tight]
    exact canonical.placed.lt_of_getNodes isFirst

theorem Canonical.contains_iff : first.contains second = true ↔ second.bits ⊆ first.bits := by
  have ordered := canonical.highbit_le canonicalToo
  rw [canonical.subset_iff canonicalToo] at ordered ⊢
  unfold contains
  split
  · next less =>
      refine ⟨fun no => (nomatch no), fun contains => ?_⟩
      exact absurd less (Nat.not_lt.mpr (ordered contains))
  · exact Iff.rfl

end

theorem cmpNodes_iff (firsts seconds : List EbitmapNode) :
    cmpNodes firsts seconds = true ↔ firsts = seconds := by
  induction firsts generalizing seconds with
  | nil => cases seconds <;> simp [cmpNodes]
  | cons first firsts ih =>
    cases seconds with
    | nil => simp [cmpNodes]
    | cons second seconds =>
      rcases first with ⟨start, maps⟩
      rcases second with ⟨startToo, mapsToo⟩
      simp [cmpNodes, ih, funext_iff, and_assoc]

theorem Canonical.cmp_iff (canonical : first.Canonical) (canonicalToo : second.Canonical) :
    first.cmp second = true ↔ first.bits = second.bits := by
  rw [cmp, Bool.and_eq_true, beq_iff_eq, cmpNodes_iff]
  constructor
  · rintro ⟨sameHigh, sameNodes⟩
    rw [bits, bits]
    simp [getBit, sameHigh, sameNodes]
  intro same
  have le := canonicalToo.highbit_le canonical same.subset
  have ge := canonical.highbit_le canonicalToo same.superset
  refine ⟨le_antisymm le ge, eq_of_containsNodes ?_ ?_⟩
  · exact (canonical.subset_iff canonicalToo).mp same.superset
  · exact (canonicalToo.subset_iff canonical).mp same.subset

end Ebitmap

/-- `ebitmap_set_bit` adds or removes its bit, and bitmaps are compared as sets. -/
structure ComparedAsSets (table : ℕ → Ebitmap) : Prop where
  setBit : ∀ index (bit : Bit) value alloc after,
    (table index).setBit bit value alloc = some after →
      after.bits = if value then insert bit.1 (table index).bits else (table index).bits \ {bit.1}
  contains : ∀ first second,
    (table first).contains (table second) = true ↔ (table second).bits ⊆ (table first).bits
  cmp : ∀ first second,
    (table first).cmp (table second) = true ↔ (table first).bits = (table second).bits

def AllCanonical (table : ℕ → Ebitmap) : Prop := ∀ index, (table index).Canonical

theorem AllCanonical.update {table : ℕ → Ebitmap} (canonical : AllCanonical table)
    {ebitmap : Ebitmap} {target : ℕ} (isCanonical : ebitmap.Canonical) :
    AllCanonical (update table target ebitmap) :=
  (forall_update_iff table fun _ ebitmap => ebitmap.Canonical).mpr
    ⟨isCanonical, fun index _ => canonical index⟩

theorem AllCanonical.step {table : ℕ → Ebitmap} (canonical : AllCanonical table) {request : Request}
    (tight : Tight request) : AllCanonical (step table request) := by
  cases request with
  | setBit target bit value alloc =>
    refine canonical.update ?_
    cases isSet : (table target).setBit bit value alloc with
    | none => exact canonical target
    | some after => exact ((canonical target).setBit isSet).1
  | cpy dst src alloc =>
    have emptied := @AllCanonical.update _ canonical _ dst Ebitmap.canonical_init
    refine emptied.update ?_
    unfold Ebitmap.cpy
    split
    · exact emptied src
    · exact Ebitmap.canonical_init
  | read target fp alloc =>
    refine canonical.update ?_
    cases isRead : Ebitmap.read fp alloc with
    | none => exact Ebitmap.canonical_init
    | some ebitmap => exact Ebitmap.canonical_read tight isRead

theorem AllCanonical.comparedAsSets {table : ℕ → Ebitmap} (canonical : AllCanonical table) :
    ComparedAsSets table :=
  ⟨fun index _ _ _ _ isSet => ((canonical index).setBit isSet).2,
    fun first second => (canonical first).contains_iff (canonical second),
    fun first second => (canonical first).cmp_iff (canonical second)⟩

theorem comparedAsSets_of_tight (requests : List Request)
    (tight : Admits step (fun _ request => Tight request) (fun _ => .init) requests) :
    ComparedAsSets (run step (fun _ => .init) requests) :=
  (invariant_run AllCanonical (fun _ _ canonical meets => canonical.step meets)
    (fun _ => Ebitmap.canonical_init) tight).comparedAsSets

/-- A map of a policy, and a bit that is set and cleared in a copy of it. -/
theorem comparedAsSets_copy :
    let policy := [64, 0, 0, 0, 128, 0, 0, 0, 1, 0, 0, 0, 64, 0, 0, 0, 5, 0, 0, 0, 0, 0, 0, 0]
    ComparedAsSets (run step (fun _ => .init)
      [.read 0 policy fun _ => true, .cpy 1 0 fun _ => true, .setBit 1 700 true true,
        .setBit 1 700 false true]) :=
  comparedAsSets_of_tight _ (by decide +kernel)

/-- A policy may give an empty bitmap a `highbit`. -/
theorem not_comparedAsSets :
    let policy := [64, 0, 0, 0, 192, 0, 0, 0, 0, 0, 0, 0]
    ¬ComparedAsSets (run step (fun _ => .init) [.read 0 policy fun _ => true]) := by
  intro policy compared
  have same := (compared.cmp 0 1).mpr (Set.ext fun bit => by
    simp [run, step, policy, Ebitmap.bits, Ebitmap.getBit, Ebitmap.read, nextEntry, readNodes,
      getNodes, Ebitmap.init, roundUp, Word.add])
  revert same
  decide +kernel

end StreakKernel.Selinux
