import StreakKernel.Selinux.Ebitmap

/-!
# Bitmaps as sets

A bitmap is canonical when its nodes are aligned and in order, none of them is empty and `highbit`
is where the last one ends. Canonical bitmaps with the same bits are equal.
-/

namespace StreakKernel.Selinux

open List Run

namespace EbitmapNode

variable {node other : EbitmapNode} {bit : ℕ}

def Covers (node : EbitmapNode) (bit : ℕ) : Prop := node.startbit ≤ bit ∧ bit < node.startbit + 192

def Nonempty (node : EbitmapNode) : Prop := ∃ index, node.maps index ≠ 0

theorem offset_ne {pos : ℕ} (covers : node.Covers bit) (covered : node.Covers pos)
    (same : node.index pos = node.index bit) (ne : pos ≠ bit) :
    node.offset bit ≠ node.offset pos := by
  have starts := covers.1
  have ends := covers.2
  have startsToo := covered.1
  have endsToo := covered.2
  simp only [index, offset, Fin.ext_iff, Fin.val_ofNat] at same ⊢
  omega

theorem getBit_setMap (map : BitVec 32) (index : Fin 6) : (node.setMap index map).getBit bit =
      if node.index bit = index then map.getLsbD (node.offset bit) else node.getBit bit := by
  have sameIndex : (node.setMap index map).index bit = node.index bit := rfl
  have sameOffset : (node.setMap index map).offset bit = node.offset bit := rfl
  rw [getBit, sameIndex, sameOffset]
  by_cases same : node.index bit = index
  · simp [setMap, same]
  · simp [setMap, same, getBit]

theorem offset_lt : node.offset bit < 32 := Nat.mod_lt _ (by decide)

theorem getBit_setBit {pos : ℕ} (covers : node.Covers bit) (covered : node.Covers pos) :
    (node.setBit bit).getBit pos = (decide (pos = bit) || node.getBit pos) := by
  rw [setBit, getBit_setMap]
  by_cases same : node.index pos = node.index bit
  · rw [if_pos same, BitVec.getLsbD_or, BitVec.getLsbD_twoPow, getBit, same, Bool.or_comm]
    have inRange := @offset_lt node bit
    by_cases eq : pos = bit
    · simp [eq, inRange]
    · have differ := offset_ne covers covered same eq
      simp [eq, differ]
  · have ne : pos ≠ bit := fun eq => same (congrArg _ eq)
    simp [same, ne]

theorem getBit_clrBit {pos : ℕ} (covers : node.Covers bit) (covered : node.Covers pos) :
    (node.clrBit bit).getBit pos = (decide (pos ≠ bit) && node.getBit pos) := by
  rw [clrBit, getBit_setMap]
  by_cases same : node.index pos = node.index bit
  · have inRange := @offset_lt node bit
    have inRangeToo := @offset_lt node pos
    rw [if_pos same, BitVec.getLsbD_and, BitVec.getLsbD_not, BitVec.getLsbD_twoPow, getBit, same,
      Bool.and_comm]
    by_cases eq : pos = bit
    · simp [eq, inRange]
    · have differ := offset_ne covers covered same eq
      simp [eq, differ, inRangeToo]
  · have ne : pos ≠ bit := fun eq => same (congrArg _ eq)
    simp [same, ne]

theorem getBit_place (index : Fin 6) {offset : ℕ} (inRange : offset < 32) :
    node.getBit (node.startbit + 32 * index + offset) = (node.maps index).getLsbD offset := by
  have isIndex : node.index (node.startbit + 32 * index + offset) = index := by
    simp only [EbitmapNode.index, Fin.ext_iff, Fin.val_ofNat]
    omega
  have isOffset : node.offset (node.startbit + 32 * index + offset) = offset := by
    unfold EbitmapNode.offset
    omega
  rw [getBit, isIndex, isOffset]

theorem Nonempty.exists_bit (nonempty : node.Nonempty) :
    ∃ bit, node.Covers bit ∧ node.getBit bit = true := by
  rcases nonempty with ⟨index, nonzero⟩
  have exists_offset : ∃ offset < 32, (node.maps index).getLsbD offset = true := by
    by_contra none
    push Not at none
    refine nonzero (BitVec.eq_of_getLsbD_eq fun offset inRange => ?_)
    simpa using none offset inRange
  rcases exists_offset with ⟨offset, inRange, isSet⟩
  refine ⟨node.startbit + 32 * index + offset, ⟨by omega, by omega⟩, ?_⟩
  rwa [getBit_place index inRange]

theorem Nonempty.of_getBit (isSet : node.getBit bit = true) : node.Nonempty := by
  refine ⟨node.index bit, fun zero => ?_⟩
  simp [getBit, zero] at isSet

theorem maps_le_iff (aligned : node.startbit = other.startbit) :
    (∀ index, node.maps index &&& other.maps index = other.maps index) ↔
      ∀ bit, node.Covers bit → other.getBit bit = true → node.getBit bit = true := by
  constructor
  · intro contained bit _ isSet
    have sameIndex : node.index bit = other.index bit := by rw [index, index, aligned]
    have sameOffset : node.offset bit = other.offset bit := by rw [offset, offset, aligned]
    rw [getBit, ← contained, BitVec.getLsbD_and, ← sameIndex, ← sameOffset] at isSet
    exact ((Bool.and_eq_true _ _).mp isSet).1
  intro contained index
  refine BitVec.eq_of_getLsbD_eq fun offset inRange => ?_
  have isContained := contained (node.startbit + 32 * index + offset) ⟨by omega, by omega⟩
  rw [getBit_place index inRange, aligned, getBit_place index inRange] at isContained
  rw [BitVec.getLsbD_and]
  cases isSet : (other.maps index).getLsbD offset with
  | false => exact Bool.and_false _
  | true => rw [isContained isSet, Bool.and_true]

theorem anyBit_iff : node.anyBit = true ↔ node.Nonempty := decide_eq_true_iff

end EbitmapNode

/-- The nodes are aligned and in order from `below` on. -/
def Placed : ℕ → List EbitmapNode → Prop
  | _, [] => True
  | below, node :: rest =>
    below ≤ node.startbit ∧ node.startbit % 192 = 0 ∧ node.startbit < 4294967232 ∧
      Placed (node.startbit + 192) rest

def lastEnd : ℕ → List EbitmapNode → ℕ
  | below, [] => below
  | _, node :: rest => lastEnd (node.startbit + 192) rest

section Nodes

variable {node : EbitmapNode} {nodes rest firsts seconds : List EbitmapNode} {bit below : ℕ}
variable {above highbit pos : ℕ}

theorem Placed.mono (placed : Placed above nodes) (le : below ≤ above) :
    Placed below nodes := by
  cases nodes with
  | nil => trivial
  | cons node rest => exact ⟨le_trans le placed.1, placed.2⟩

theorem stop_eq (aligned : node.startbit % 192 = 0) (fits : node.startbit < 4294967232) :
    node.stop = node.startbit + 192 := Word.add_eq (by omega)

theorem Placed.stop_eq (placed : Placed below (node :: rest)) : node.stop = node.startbit + 192 :=
  Selinux.stop_eq placed.2.1 placed.2.2.1

theorem startbit_le_of_getNodes (isSet : getNodes bit (node :: rest) = true) :
    node.startbit ≤ bit := by
  unfold getNodes at isSet
  split at isSet
  · assumption
  · cases isSet

theorem Placed.le_of_getNodes (placed : Placed below nodes) (isSet : getNodes bit nodes = true) :
    below ≤ bit := by
  cases nodes with
  | nil => simp [getNodes] at isSet
  | cons node rest => exact le_trans placed.1 (startbit_le_of_getNodes isSet)

theorem Placed.getNodes_cons (placed : Placed below (node :: rest)) :
    getNodes bit (node :: rest) = true ↔
      node.Covers bit ∧ node.getBit bit = true ∨ getNodes bit rest = true := by
  have later := @le_of_getNodes rest bit _ placed.2.2.2
  rw [getNodes, placed.stop_eq]
  unfold EbitmapNode.Covers
  split
  · next starts =>
      split
      · next inside =>
          refine ⟨fun isSet => .inl ⟨⟨starts, inside⟩, isSet⟩, ?_⟩
          rintro (isSet | isSet)
          · exact isSet.2
          · have := later isSet
            omega
      · next outside => simp [starts, outside]
  next before =>
    simp only [Bool.false_eq_true, false_iff, not_or]
    refine ⟨fun isSet => before isSet.1.1, fun isSet => ?_⟩
    have := later isSet
    omega

theorem Placed.lt_of_getNodes (placed : Placed below nodes) (isSet : getNodes bit nodes = true) :
    bit < lastEnd below nodes := by
  induction nodes generalizing below with
  | nil => simp [getNodes] at isSet
  | cons node rest ih =>
    rcases placed.getNodes_cons.mp isSet with inside | later
    · exact lt_of_lt_of_le inside.1.2 (le_lastEnd placed.2.2.2)
    · exact ih placed.2.2.2 later
where
  le_lastEnd {below : ℕ} {nodes : List EbitmapNode} (placed : Placed below nodes) :
      below ≤ lastEnd below nodes := by
    induction nodes generalizing below with
    | nil => exact le_refl _
    | cons node rest ih =>
      have le := placed.1
      have rests := ih placed.2.2.2
      unfold lastEnd
      omega

theorem containsNodes_iff (placed : Placed below firsts) (placedToo : Placed above seconds)
    (nonempty : ∀ node ∈ seconds, node.Nonempty) :
    containsNodes firsts seconds = true ↔
      ∀ bit, getNodes bit seconds = true → getNodes bit firsts = true := by
  induction firsts generalizing below above seconds with
  | nil =>
    cases seconds with
    | nil => simp [containsNodes]
    | cons second seconds =>
      rcases (nonempty second mem_cons_self).exists_bit with ⟨bit, covers, isSet⟩
      have isMem := placedToo.getNodes_cons.mpr (.inl ⟨covers, isSet⟩)
      simp only [containsNodes, Bool.false_eq_true, false_iff]
      exact fun contained => by simpa [getNodes] using contained bit isMem
  | cons first firsts ih =>
    cases seconds with
    | nil => simp [containsNodes, getNodes]
    | cons second seconds =>
      have restNonempty := fun node listed => nonempty node (mem_cons_of_mem second listed)
      rcases (nonempty second mem_cons_self).exists_bit with ⟨bit, covers, isSet⟩
      have isMem := placedToo.getNodes_cons.mpr (.inl ⟨covers, isSet⟩)
      have alignedToo := placedToo.2.1
      have aligned := placed.2.1
      unfold containsNodes
      split
      · next before =>
          -- The first node ends before all bits of the second list.
          rw [ih placed.2.2.2 placedToo nonempty]
          refine forall_congr' fun bit => imp_congr_right fun isSecond => ?_
          rw [placed.getNodes_cons, or_iff_right]
          intro inside
          have := inside.1.2
          have starts := startbit_le_of_getNodes isSecond
          omega
      split
      · next notBefore same =>
          have window := EbitmapNode.maps_le_iff same
          have rests := ih placed.2.2.2 placedToo.2.2.2 restNonempty
          constructor
          · intro holds bit isSecond
            split at holds
            · next le =>
                rw [placed.getNodes_cons]
                rcases placedToo.getNodes_cons.mp isSecond with ⟨inside, isSet⟩ | later
                · have covers : first.Covers bit := by rwa [EbitmapNode.Covers, same]
                  exact .inl ⟨covers, window.mp le bit covers isSet⟩
                · exact .inr (rests.mp holds bit later)
            · cases holds
          intro contained
          rw [if_pos (window.mpr ?_), rests]
          · intro bit later
            have isFirst := contained bit (placedToo.getNodes_cons.mpr (.inr later))
            refine (placed.getNodes_cons.mp isFirst).resolve_left fun inside => ?_
            have ends := inside.1.2
            have starts := placedToo.2.2.2.le_of_getNodes later
            omega
          intro bit inside isSet
          have covers : second.Covers bit := by rwa [EbitmapNode.Covers, ← same]
          have isFirst := contained bit (placedToo.getNodes_cons.mpr (.inl ⟨covers, isSet⟩))
          refine ((placed.getNodes_cons.mp isFirst).resolve_right fun later => ?_).2
          have ends := inside.2
          have starts := placed.2.2.2.le_of_getNodes later
          omega
      · next notBefore notSame =>
          simp only [Bool.false_eq_true, false_iff]
          intro contained
          have starts := startbit_le_of_getNodes (contained bit isMem)
          have ends := covers.2
          omega

theorem eq_of_containsNodes (contains : containsNodes firsts seconds = true)
    (contained : containsNodes seconds firsts = true) : firsts = seconds := by
  induction firsts generalizing seconds with
  | nil =>
    cases seconds with
    | nil => rfl
    | cons second seconds => simp [containsNodes] at contains
  | cons first firsts ih =>
    cases seconds with
    | nil => simp [containsNodes] at contained
    | cons second seconds =>
      rcases first with ⟨start, maps⟩
      rcases second with ⟨startToo, mapsToo⟩
      simp only [containsNodes] at contains contained
      split at contains
      · next before =>
          rw [if_neg (by omega), if_neg (by omega)] at contained
          cases contained
      split at contains
      · next same =>
          rw [if_neg (by omega), if_pos same.symm] at contained
          split at contains
          · split at contained
            · next le ge =>
                rw [ih contains contained, same]
                have sameMaps : maps = mapsToo := by
                  funext index
                  exact (ge index).symm.trans ((BitVec.and_comm _ _).trans (le index))
                rw [sameMaps]
            · cases contained
          · cases contains
      · cases contains

structure Canonical (below highbit : ℕ) (nodes : List EbitmapNode) : Prop where
  placed : Placed below nodes
  nonempty : ∀ node ∈ nodes, node.Nonempty
  tight : highbit = lastEnd below nodes

theorem Canonical.cons {highbit : ℕ} (le : below ≤ node.startbit)
    (aligned : node.startbit % 192 = 0) (fits : node.startbit < 4294967232)
    (nonempty : node.Nonempty) (canonical : Canonical (node.startbit + 192) highbit rest) :
    Canonical below highbit (node :: rest) :=
  ⟨⟨le, aligned, fits, canonical.placed⟩,
    forall_mem_cons.mpr ⟨nonempty, canonical.nonempty⟩, canonical.tight⟩

theorem Canonical.tail (canonical : Canonical below highbit (node :: rest)) :
    Canonical (node.startbit + 192) highbit rest :=
  ⟨canonical.placed.2.2.2, (forall_mem_cons.mp canonical.nonempty).2, canonical.tight⟩

theorem newNode_covers (bit : ℕ) : (newNode bit).Covers bit := by
  unfold EbitmapNode.Covers newNode
  dsimp only
  omega

theorem getBit_newNode (bit pos : ℕ) : (newNode bit).getBit pos = false := by
  simp [EbitmapNode.getBit, newNode]

theorem nonempty_setBit (covers : node.Covers bit) : (node.setBit bit).Nonempty := by
  refine @EbitmapNode.Nonempty.of_getBit _ bit ?_
  simp [EbitmapNode.getBit_setBit covers covers]

theorem Placed.getNodes_setBit (placed : Placed below (node.setBit bit :: rest))
    (covers : node.Covers bit) :
    getNodes pos (node.setBit bit :: rest) = true ↔
      pos = bit ∨ getNodes pos (node :: rest) = true := by
  have unchanged : Placed below (node :: rest) := placed
  rw [placed.getNodes_cons, unchanged.getNodes_cons]
  by_cases covered : node.Covers pos
  · have same : (node.setBit bit).Covers pos := covered
    simp [same, covered, EbitmapNode.getBit_setBit covers covered, or_assoc]
  · have same : ¬(node.setBit bit).Covers pos := covered
    have differ : pos ≠ bit := fun eq => covered (eq ▸ covers)
    simp [same, covered, differ]

theorem Placed.getNodes_clrBit (placed : Placed below (node.clrBit bit :: rest))
    (covers : node.Covers bit) :
    getNodes pos (node.clrBit bit :: rest) = true ↔
      pos ≠ bit ∧ getNodes pos (node :: rest) = true := by
  have unchanged : Placed below (node :: rest) := placed
  rw [placed.getNodes_cons, unchanged.getNodes_cons]
  have later : getNodes pos rest = true → pos ≠ bit := by
    rintro isSet rfl
    have starts := unchanged.2.2.2.le_of_getNodes isSet
    have ends := covers.2
    omega
  by_cases covered : node.Covers pos
  · have same : (node.clrBit bit).Covers pos := covered
    simp only [same, covered, EbitmapNode.getBit_clrBit covers covered, Bool.and_eq_true,
      decide_eq_true_eq, true_and]
    tauto
  · have same : ¬(node.clrBit bit).Covers pos := covered
    tauto

theorem Canonical.insert {highbit : ℕ} (aligned : below % 192 = 0) (le : below ≤ bit)
    (fits : bit < 4294967232) (canonical : Canonical ((newNode bit).startbit + 192) highbit rest) :
    Canonical below highbit ((newNode bit).setBit bit :: rest) ∧
      ∀ pos, getNodes pos ((newNode bit).setBit bit :: rest) = true ↔
        pos = bit ∨ getNodes pos rest = true := by
  have starts : ((newNode bit).setBit bit).startbit = bit - bit % 192 := rfl
  have isCanonical : Canonical below highbit ((newNode bit).setBit bit :: rest) := by
    refine cons ?_ ?_ ?_ (nonempty_setBit (newNode_covers bit)) canonical
    all_goals omega
  refine ⟨isCanonical, fun pos => ?_⟩
  have unchanged : Placed below (newNode bit :: rest) := isCanonical.placed
  rw [isCanonical.placed.getNodes_setBit (newNode_covers bit), unchanged.getNodes_cons,
    getBit_newNode]
  simp

theorem Canonical.clear {highbit : ℕ} (canonical : Canonical below highbit (node :: rest))
    (covers : node.Covers bit) {result : List EbitmapNode × ℕ}
    (isClear : result = if (node.clrBit bit).anyBit then (node.clrBit bit :: rest, highbit)
      else (rest, if rest.isEmpty then below else highbit)) :
    Canonical below result.2 result.1 ∧ ∀ pos, getNodes pos result.1 = true ↔
        pos ≠ bit ∧ getNodes pos (node :: rest) = true := by
  have placed : Placed below (node.clrBit bit :: rest) := canonical.placed
  by_cases nonempty : (node.clrBit bit).anyBit
  · rw [if_pos nonempty] at isClear
    subst isClear
    refine ⟨Canonical.cons placed.1 placed.2.1 placed.2.2.1 (EbitmapNode.anyBit_iff.mp nonempty)
      canonical.tail, fun pos => placed.getNodes_clrBit covers⟩
  rw [if_neg nonempty] at isClear
  subst isClear
  have le : below ≤ node.startbit + 192 := le_trans canonical.placed.1 (Nat.le_add_right _ _)
  refine ⟨⟨canonical.tail.placed.mono le, canonical.tail.nonempty, ?_⟩, fun pos => ?_⟩
  · cases rest with
    | nil => rfl
    | cons next rest => exact canonical.tight
  · rw [← placed.getNodes_clrBit covers, placed.getNodes_cons, or_iff_right]
    rintro ⟨_, isSet⟩
    exact nonempty (EbitmapNode.anyBit_iff.mpr (EbitmapNode.Nonempty.of_getBit isSet))

theorem Canonical.setNodes {result : List EbitmapNode × ℕ} {value alloc : Bool}
    (canonical : Canonical below highbit nodes) (aligned : below % 192 = 0) (le : below ≤ bit)
    (fits : bit < 4294967232) (isSet : setNodes bit value alloc highbit below nodes = some result) :
    Canonical below result.2 result.1 ∧ ∀ pos, getNodes pos result.1 = true ↔
        pos = bit ∧ value = true ∨ pos ≠ bit ∧ getNodes pos nodes = true := by
  induction nodes generalizing below result with
  | nil =>
    unfold Selinux.setNodes at isSet
    cases value with
    | false =>
      cases isSet
      exact ⟨canonical, fun pos => by simp [getNodes]⟩
    | true =>
      cases alloc with
      | false => cases isSet
      | true =>
        cases isSet
        have ends : (newNode bit).stop = (newNode bit).startbit + 192 := by
          refine stop_eq ?_ ?_
          all_goals
            simp only [newNode]
            omega
        rw [ends]
        have inserted := @insert [] bit below _ aligned le fits
          ⟨trivial, fun _ listed => (nomatch listed), rfl⟩
        refine ⟨inserted.1, fun pos => (inserted.2 pos).trans ?_⟩
        simp [getNodes]
  | cons node rest ih =>
    have placed := canonical.placed
    have nodeAligned := placed.2.1
    unfold Selinux.setNodes at isSet
    rw [placed.stop_eq] at isSet
    split at isSet
    · next starts =>
        split at isSet
        · next ends =>
            have covers : node.Covers bit := ⟨starts, ends⟩
            cases value with
            | false =>
              have cleared := @clear _ _ _ _ _ canonical covers result (by
                simp only [Bool.false_eq_true, if_false] at isSet
                split at isSet <;> simp_all)
              refine ⟨cleared.1, fun pos => (cleared.2 pos).trans ?_⟩
              simp
            | true =>
              cases isSet
              have isCanonical : Canonical below highbit (node.setBit bit :: rest) :=
                Canonical.cons placed.1 placed.2.1 placed.2.2.1 (nonempty_setBit covers)
                  canonical.tail
              refine ⟨isCanonical, fun pos => ?_⟩
              rw [isCanonical.placed.getNodes_setBit covers]
              tauto
        · next ends =>
            rcases Option.map_eq_some_iff.mp isSet with ⟨after, isAfter, rfl⟩
            have changed := ih canonical.tail (by omega) (by omega) isAfter
            have isCanonical := Canonical.cons placed.1 placed.2.1 placed.2.2.1
                (canonical.nonempty node mem_cons_self) changed.1
            refine ⟨isCanonical, fun pos => ?_⟩
            rw [isCanonical.placed.getNodes_cons, placed.getNodes_cons, changed.2 pos]
            have before : node.Covers pos → pos ≠ bit := by
              rintro covers rfl
              exact ends covers.2
            tauto
    · next before =>
        have absent : getNodes bit (node :: rest) ≠ true := fun isSet =>
          before (startbit_le_of_getNodes isSet)
        cases value with
        | false =>
          cases isSet
          refine ⟨canonical, fun pos => ?_⟩
          by_cases same : pos = bit
          · subst same
            simpa using absent
          · simp [same]
        | true =>
          cases alloc with
          | false => cases isSet
          | true =>
            cases isSet
            have above : (newNode bit).startbit + 192 ≤ node.startbit := by
              simp only [newNode]
              omega
            have inserted := insert aligned le fits (Canonical.cons above placed.2.1
              placed.2.2.1 (canonical.nonempty node mem_cons_self) canonical.tail)
            refine ⟨inserted.1, fun pos => (inserted.2 pos).trans ?_⟩
            tauto

end Nodes

end StreakKernel.Selinux
