import Mathlib.Data.List.Basic

/-!
# Knuth, Morris and Pratt

The text search of `lib/ts_kmp.c`. The table is made by the loop that also reads the text: it reads
the pattern behind its first letter. So both are settled by one lemma about a letter that is read,
`PrefixTable.advance_longest`, where the text may be the pattern itself.
-/

namespace StreakKernel.TextSearch

open List

/-! ## The automaton -/

section Automaton

variable {Letter : Type} {pattern text : ℕ → Letter} {len low stop count bound q : ℕ}

/-- The first letters of the pattern end at a place of the text, and do not begin before `low`. -/
def Ends (pattern text : ℕ → Letter) (low stop count : ℕ) : Prop :=
  low + count ≤ stop ∧ ∀ i < count, text (stop - count + i) = pattern i

/-- The most letters of the pattern that end at a place. -/
structure Longest (pattern text : ℕ → Letter) (len low stop count : ℕ) : Prop where
  ends : Ends pattern text low stop count
  most : ∀ other ≤ len, Ends pattern text low stop other → other ≤ count

theorem ends_zero (above : low ≤ stop) : Ends pattern text low stop 0 :=
  ⟨above, fun i small => absurd small (Nat.not_lt_zero i)⟩

theorem ends_succ : Ends pattern text low (stop + 1) (count + 1) ↔
    Ends pattern text low stop count ∧ text stop = pattern count := by
  unfold Ends
  rw [Nat.add_sub_add_right]
  constructor
  · rintro ⟨above, same⟩
    refine ⟨⟨by omega, fun i small => same i (by omega)⟩, ?_⟩
    rw [← same count (by omega), Nat.sub_add_cancel (by omega)]
  rintro ⟨⟨above, same⟩, isLast⟩
  refine ⟨by omega, fun i small => ?_⟩
  rcases Nat.lt_succ_iff_lt_or_eq.mp small with before | rfl
  · exact same i before
  · rw [Nat.sub_add_cancel (by omega), isLast]

theorem Ends.inner {other : ℕ} (ends : Ends pattern text low stop q) (less : other < q) :
    Ends pattern text low stop other ↔ Ends pattern pattern 1 q other := by
  have above := ends.1
  have same : ∀ i < other, text (stop - other + i) = pattern (q - other + i) := by
    intro i small
    rw [← ends.2 (q - other + i) (by omega)]
    exact congrArg text (by omega)
  constructor
  · exact fun inText => ⟨by omega, fun i small => (same i small).symm.trans (inText.2 i small)⟩
  · exact fun inPattern => ⟨by omega, fun i small => (same i small).trans (inPattern.2 i small)⟩

theorem longest_zero : Longest pattern text len low low 0 :=
  ⟨ends_zero (Nat.le_refl low), fun other _ ends => by have := ends.1; omega⟩

/-- `prefix_tbl`. No entry is above its index. -/
structure PrefixTable where
  entry : ℕ → ℕ
  entry_le : ∀ index, entry index ≤ index

namespace PrefixTable

def zero : PrefixTable := ⟨fun _ => 0, Nat.zero_le⟩

def set (table : PrefixTable) (index k : ℕ) (small : k ≤ index) : PrefixTable where
  entry := Function.update table.entry index k
  entry_le other := by
    by_cases same : other = index
    · rw [same, Function.update_self]
      exact small
    · rw [Function.update_of_ne same]
      exact table.entry_le other

def Correct (table : PrefixTable) (pattern : ℕ → Letter) (len bound : ℕ) : Prop :=
  ∀ q, 0 < q → q < bound → Longest pattern pattern len 1 q (table.entry (q - 1))

variable [DecidableEq Letter] {table : PrefixTable}

/-- The inner loop of `compute_prefix_tbl` and `kmp_find`. -/
def fallback (table : PrefixTable) (pattern : ℕ → Letter) (letter : Letter) (q : ℕ) : ℕ :=
  if 0 < q ∧ pattern q ≠ letter then table.fallback pattern letter (table.entry (q - 1)) else q
termination_by q
decreasing_by
  have := table.entry_le (q - 1)
  omega

/-- The body of the loops: how many letters of the pattern have been read with one more letter. -/
def advance (table : PrefixTable) (pattern : ℕ → Letter) (letter : Letter) (q : ℕ) : ℕ :=
  let q := table.fallback pattern letter q
  if pattern q = letter then q + 1 else q

theorem advance_le (table : PrefixTable) (pattern : ℕ → Letter) (letter : Letter) (q : ℕ) :
    table.advance pattern letter q ≤ q + 1 := by
  have less : table.fallback pattern letter q ≤ q := by
    fun_induction fallback table pattern letter q with
    | case1 q _ ih =>
      have := table.entry_le (q - 1)
      omega
    | case2 q => exact Nat.le_refl q
  unfold advance
  dsimp only
  split_ifs <;> omega

/-- `compute_prefix_tbl` from an index on. -/
def computeFrom (pattern : ℕ → Letter) (len q k : ℕ) (small : k < q) (table : PrefixTable) :
    PrefixTable :=
  if q < len then
    have next := table.advance_le pattern (pattern q) k
    computeFrom pattern len (q + 1) (table.advance pattern (pattern q) k) (by omega)
      (table.set q (table.advance pattern (pattern q) k) (by omega))
  else table
termination_by len - q

section

variable (correct : table.Correct pattern len bound) (below : q < bound)
include correct below

theorem fallback_most (ends : Ends pattern text low stop q) (most : ∀ other < len,
      Ends pattern text low stop other → pattern other = text stop → other ≤ q) :
    let last := table.fallback pattern (text stop) q
    Ends pattern text low stop last ∧ (last = 0 ∨ pattern last = text stop) ∧
      ∀ other < len, Ends pattern text low stop other → pattern other = text stop →
        other ≤ last := by
  generalize text stop = letter at most ⊢
  fun_induction fallback table pattern letter q with
  | case1 q falls ih =>
    have entryLe := table.entry_le (q - 1)
    have inner := correct q falls.1 below
    refine ih (by omega) ((ends.inner (by omega)).mpr inner.ends) ?_
    intro other short otherEnds continues
    have less := most other short otherEnds continues
    have differs : other ≠ q := by
      rintro rfl
      exact falls.2 continues
    exact inner.most other (Nat.le_of_lt short) ((ends.inner (by omega)).mp otherEnds)
  | case2 q stops =>
    refine ⟨ends, ?_, most⟩
    by_cases isZero : q = 0
    · exact Or.inl isZero
    · exact Or.inr (not_not.mp fun differs => stops ⟨Nat.pos_of_ne_zero isZero, differs⟩)

theorem advance_longest (longest : Longest pattern text len low stop q) :
    Longest pattern text len low (stop + 1) (table.advance pattern (text stop) q) := by
  rcases table.fallback_most correct below longest.ends (fun other short ends _ =>
    longest.most other (Nat.le_of_lt short) ends) with ⟨ends, stops, most⟩
  have reaches : ∀ other < len, Ends pattern text low (stop + 1) (other + 1) →
      other ≤ table.fallback pattern (text stop) q ∧ pattern other = text stop := by
    intro other short both
    rcases ends_succ.mp both with ⟨otherEnds, isLast⟩
    exact ⟨most other short otherEnds isLast.symm, isLast.symm⟩
  unfold advance
  dsimp only
  split_ifs with continues
  · refine ⟨ends_succ.mpr ⟨ends, continues.symm⟩, ?_⟩
    rintro (_ | other) short both
    · exact Nat.zero_le _
    · exact Nat.succ_le_succ (reaches other short both).1
  have isZero := stops.resolve_right continues
  rw [isZero] at continues reaches ⊢
  refine ⟨ends_zero (Nat.le_succ_of_le (Nat.le_of_add_right_le longest.ends.1)), ?_⟩
  rintro (_ | other) short both
  · exact Nat.le_refl 0
  · rcases reaches other short both with ⟨none, isLetter⟩
    rw [Nat.le_zero.mp none] at isLetter
    exact absurd isLetter continues

end

theorem computeFrom_correct {k : ℕ} (small : k < q) (short : q ≤ len)
    (longest : Longest pattern pattern len 1 q k) (correct : table.Correct pattern len (q + 1)) :
    (computeFrom pattern len q k small table).Correct pattern len (len + 1) := by
  fun_induction computeFrom pattern len q k small table with
  | case1 q k small table more next ih =>
    have advanced := advance_longest correct (Nat.lt_succ_of_lt small) longest
    refine ih more advanced fun other pos below => ?_
    unfold set
    dsimp only
    rcases Nat.lt_succ_iff_lt_or_eq.mp below with before | rfl
    · rw [Function.update_of_ne (by omega)]
      exact correct other pos before
    · rw [Nat.add_sub_cancel, Function.update_self]
      exact advanced
  | case2 q k _ table last => exact fun other pos below => correct other pos (by omega)

end PrefixTable

end Automaton

/-! ## The search -/

/-- `toupper`, where the letters above 127 are those of Latin 1. -/
def toupper (c : UInt8) : UInt8 :=
  if 97 ≤ c ∧ c ≤ 122 ∨ 223 ≤ c ∧ c ≠ 247 then c - 32 else c

def fold (icase : Bool) (c : UInt8) : UInt8 := if icase then toupper c else c

def uintMax : ℕ := 4294967295

/-- `struct ts_config` with the `struct ts_kmp` behind it. -/
structure Conf where
  icase : Bool
  pattern : List UInt8
  prefixTbl : PrefixTable

/-- `kmp_init`, with memory for the configuration. -/
def kmpInit (pattern : List UInt8) (icase : Bool) : Conf where
  icase := icase
  pattern := pattern.map (fold icase)
  prefixTbl := .computeFrom (fun k => pattern[k]?.map (fold icase)) pattern.length 1 0
    Nat.zero_lt_one .zero

/-- A text whose places are of type `unsigned int`. -/
structure Text where
  bytes : List UInt8
  fits : bytes.length ≤ uintMax

/-- What `get_next_block` returns at each place: a block that is not empty, up to the end of the
text. -/
structure Division (text : Text) where
  textLen : ℕ → ℕ
  atEnd : ∀ consumed, textLen consumed = 0 ↔ text.bytes.length ≤ consumed
  inside : ∀ consumed, consumed < text.bytes.length →
    consumed + textLen consumed ≤ text.bytes.length

namespace Conf

variable (conf : Conf) (text : Text)

/-- The loop of `kmp_find` over a block: the end of the pattern, or the number of its letters that
have been read. -/
def scan (consumed textLen i q : ℕ) : ℕ ⊕ ℕ :=
  if i < textLen then
    let q := conf.prefixTbl.advance (fun k => conf.pattern[k]?)
      (text.bytes[consumed + i]?.map (fold conf.icase)) q
    if q = conf.pattern.length then .inl (consumed + i + 1) else scan consumed textLen (i + 1) q
  else .inr q
termination_by textLen - i

/-- The loop of `kmp_find` over the blocks: what is returned, and `state->offset`. -/
def findFrom (division : Division text) (offset consumed q : ℕ) : ℕ × ℕ :=
  if _isLast : division.textLen consumed = 0 then (uintMax, offset)
  else
    match conf.scan text consumed (division.textLen consumed) 0 q with
    | .inl stop => (stop - conf.pattern.length, stop)
    | .inr q => findFrom division offset (consumed + division.textLen consumed) q
termination_by text.bytes.length - consumed
decreasing_by
  have := division.inside consumed
  have := (division.atEnd consumed).not.mp _isLast
  omega

def kmpFind (division : Division text) (offset : ℕ) : ℕ × ℕ :=
  conf.findFrom text division offset offset 0

/-- What calls of `textsearch_next` return, each with its own division; `textsearch_find` is the
first, at the offset 0. -/
def searches : ℕ → List (Division text) → List ℕ
  | _, [] => []
  | offset, division :: rest =>
    (conf.kmpFind text division offset).1 :: searches (conf.kmpFind text division offset).2 rest

end Conf

def Occurs (pattern : List UInt8) (icase : Bool) (text : Text) (place : ℕ) : Prop :=
  ∀ i < pattern.length, text.bytes[place + i]?.map (fold icase) = pattern[i]?.map (fold icase)

/-- The first place from an offset on where the pattern stands, or `UINT_MAX` if there is none. -/
def Finds (pattern : List UInt8) (icase : Bool) (text : Text) (offset result : ℕ) : Prop :=
  result = uintMax ∧ (∀ place, offset ≤ place → ¬Occurs pattern icase text place) ∨
    result < uintMax ∧ offset ≤ result ∧ Occurs pattern icase text result ∧
      ∀ place, offset ≤ place → Occurs pattern icase text place → result ≤ place

/-- Each result is the first place behind the one before. -/
def Enumerates (pattern : List UInt8) (icase : Bool) (text : Text) : ℕ → List ℕ → Prop
  | _, [] => True
  | offset, result :: rest =>
    Finds pattern icase text offset result ∧ Enumerates pattern icase text
        (if result = uintMax then offset else result + pattern.length) rest

section Search

variable {pattern : List UInt8} {icase : Bool} {text : Text} {offset : ℕ}

def letters (pattern : List UInt8) (icase : Bool) (k : ℕ) : Option UInt8 :=
  pattern[k]?.map (fold icase)

/-- The most letters of the pattern that have been read. -/
abbrev Read (pattern : List UInt8) (icase : Bool) (text : Text) (offset stop q : ℕ) : Prop :=
  Longest (letters pattern icase) (letters text.bytes icase) pattern.length offset stop q

/-- The text up to a place has been read, and the pattern does not stand in it. -/
structure Reading (pattern : List UInt8) (icase : Bool) (text : Text) (offset stop q : ℕ) :
    Prop where
  read : Read pattern icase text offset stop q
  few : q < pattern.length
  absent : ∀ place, offset ≤ place → place + pattern.length ≤ stop →
    ¬Occurs pattern icase text place

theorem kmpInit_correct (nonempty : pattern ≠ []) :
    (kmpInit pattern icase).prefixTbl.Correct (letters pattern icase) pattern.length
      (pattern.length + 1) := by
  refine PrefixTable.computeFrom_correct _ (length_pos_iff.mpr nonempty) longest_zero ?_
  intro q pos below
  obtain rfl : q = 1 := by omega
  exact longest_zero

theorem kmpInit_pattern : (fun k => (kmpInit pattern icase).pattern[k]?) = letters pattern icase :=
  funext fun _ => getElem?_map

theorem length_kmpInit : (kmpInit pattern icase).pattern.length = pattern.length :=
  length_map _

theorem Occurs.add_le {place : ℕ} (occurs : Occurs pattern icase text place)
    (nonempty : pattern ≠ []) : place + pattern.length ≤ text.bytes.length := by
  have pos := length_pos_iff.mpr nonempty
  have isLast := occurs (pattern.length - 1) (by omega)
  by_contra beyond
  rw [getElem?_eq_none (by omega), getElem?_eq_getElem (by omega)] at isLast
  cases isLast

variable {consumed textLen i stop q : ℕ} {division : Division text}

section

variable (reading : Reading pattern icase text offset stop q)
include reading

theorem Reading.advance (nonempty : pattern ≠ []) :
    Read pattern icase text offset (stop + 1)
      ((kmpInit pattern icase).prefixTbl.advance (fun k => (kmpInit pattern icase).pattern[k]?)
        (text.bytes[stop]?.map (fold icase)) q) := by
  rw [kmpInit_pattern]
  exact PrefixTable.advance_longest (kmpInit_correct nonempty) (Nat.lt_succ_of_lt reading.few)
    reading.read

theorem Reading.finds (nonempty : pattern ≠ [])
    (read : Read pattern icase text offset (stop + 1) pattern.length) :
    pattern.length ≤ stop + 1 ∧ stop + 1 - pattern.length < uintMax ∧
      Finds pattern icase text offset (stop + 1 - pattern.length) := by
  rcases read.ends with ⟨above, stands⟩
  have occurs : Occurs pattern icase text (stop + 1 - pattern.length) := stands
  have := occurs.add_le nonempty
  have := text.fits
  have := length_pos_iff.mpr nonempty
  refine ⟨by omega, by omega, .inr ⟨by omega, by omega, occurs, fun other isAbove isOther => ?_⟩⟩
  by_contra before
  exact reading.absent other isAbove (by omega) isOther

theorem Reading.next {next : ℕ} (read : Read pattern icase text offset (stop + 1) next)
    (few : next < pattern.length) : Reading pattern icase text offset (stop + 1) next := by
  refine ⟨read, few, fun place above fits occurs => ?_⟩
  rcases Nat.lt_or_eq_of_le fits with before | isEnd
  · exact reading.absent place above (by omega) occurs
  · refine absurd (read.most pattern.length (Nat.le_refl _) ⟨by omega, ?_⟩) (Nat.not_le.mpr few)
    rw [← isEnd, Nat.add_sub_cancel]
    exact occurs

end

theorem Reading.scan (reading : Reading pattern icase text offset (consumed + i) q)
    (nonempty : pattern ≠ []) (inside : i ≤ textLen) :
    match (kmpInit pattern icase).scan text consumed textLen i q with
    | .inl stop => pattern.length ≤ stop ∧ stop - pattern.length < uintMax ∧
      Finds pattern icase text offset (stop - pattern.length)
    | .inr q => Reading pattern icase text offset (consumed + textLen) q := by
  fun_induction Conf.scan (kmpInit pattern icase) text consumed textLen i q with
  | case1 i q _ next full =>
    exact reading.finds nonempty (full.trans length_kmpInit ▸ reading.advance nonempty)
  | case2 i q _ next partly ih =>
    rw [length_kmpInit] at partly
    refine ih (reading.next (reading.advance nonempty) (Nat.lt_of_le_of_ne ?_ partly)) (by omega)
    exact Nat.le_trans (PrefixTable.advance_le _ _ _ q) reading.few
  | case3 i q last =>
    obtain rfl : i = textLen := by omega
    exact reading

theorem Reading.findFrom (reading : Reading pattern icase text offset consumed q)
    (nonempty : pattern ≠ []) :
    let result := (kmpInit pattern icase).findFrom text division offset consumed q
    Finds pattern icase text offset result.1 ∧
      result.2 = if result.1 = uintMax then offset else result.1 + pattern.length := by
  fun_induction Conf.findFrom (kmpInit pattern icase) text division offset consumed q with
  | case1 consumed q isLast =>
    refine ⟨.inl ⟨rfl, fun place isAbove occurs => ?_⟩, (if_pos rfl).symm⟩
    have := (division.atEnd consumed).mp isLast
    have := occurs.add_le nonempty
    exact reading.absent place isAbove (by omega) occurs
  | case2 consumed q _ stop isStop =>
    have scanned := reading.scan nonempty (Nat.zero_le (division.textLen consumed))
    rw [isStop] at scanned
    rw [length_kmpInit]
    refine ⟨scanned.2.2, ?_⟩
    rw [if_neg (Nat.ne_of_lt scanned.2.1), Nat.sub_add_cancel scanned.1]
  | case3 consumed q _ next isNext ih =>
    have scanned := reading.scan nonempty (Nat.zero_le (division.textLen consumed))
    rw [isNext] at scanned
    exact ih scanned

theorem kmpFind_spec (nonempty : pattern ≠ []) (division : Division text) (offset : ℕ) :
    let result := (kmpInit pattern icase).kmpFind text division offset
    Finds pattern icase text offset result.1 ∧
      result.2 = if result.1 = uintMax then offset else result.1 + pattern.length := by
  have pos := length_pos_iff.mpr nonempty
  have reading : Reading pattern icase text offset offset 0 :=
    ⟨longest_zero, pos, fun place above fits => by omega⟩
  exact reading.findFrom nonempty

/-- A search finds the first place where the pattern stands, and searches one after another find the
places behind each other, however the text is divided. -/
theorem kmpFind_leftmost (pattern : List UInt8) (nonempty : pattern ≠ []) (icase : Bool)
    (text : Text) :
    (∀ division offset,
      Finds pattern icase text offset ((kmpInit pattern icase).kmpFind text division offset).1) ∧
    ∀ divisions offset, Enumerates pattern icase text offset
      ((kmpInit pattern icase).searches text offset divisions) := by
  refine ⟨fun division offset => (kmpFind_spec nonempty division offset).1, fun divisions => ?_⟩
  induction divisions with
  | nil => exact fun _ => trivial
  | cons division rest ih =>
    intro offset
    rcases @kmpFind_spec pattern icase text nonempty division offset with ⟨finds, isNext⟩
    refine ⟨finds, ?_⟩
    rw [← isNext]
    exact ih _

/-- `aab` in `aaabAab`, in blocks of at most two letters. -/
theorem kmpFind_leftmost_letter : ∃ (text : Text) (division : Division text),
    text.bytes = [97, 97, 97, 98, 65, 97, 98] ∧ Enumerates [97, 97, 98] true text 0
      ((kmpInit [97, 97, 98] true).searches text 0 [division, division, division]) := by
  refine ⟨⟨[97, 97, 97, 98, 65, 97, 98], by decide⟩, ⟨fun consumed => min 2 (7 - consumed),
    fun consumed => ?_, fun consumed inside => ?_⟩, rfl,
    (kmpFind_leftmost [97, 97, 98] (by decide) true _).2 _ 0⟩
  · change min 2 (7 - consumed) = 0 ↔ 7 ≤ consumed
    omega
  · change consumed + min 2 (7 - consumed) ≤ 7
    change consumed < 7 at inside
    omega

end Search

end StreakKernel.TextSearch
