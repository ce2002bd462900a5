import StreakKernel.Lib.Word

/-!
# Loads of netlink attributes

The instructions `SKF_AD_NLATTR` and `SKF_AD_NLATTR_NEST` of `sk_run_filter` in
`net/core/filter.c`, on a linear packet and a little-endian machine. A load comes with the offsets
of the bytes that it reads.
-/

namespace StreakKernel.SocketFilter

open Word List

/-- The memory from `skb->data` on, of which `len` bytes are the packet. -/
structure Skb where
  data : ℕ → UInt8
  len : ℕ

namespace Skb

variable (skb : Skb) (a x : ℕ)

def u16 (offset : ℕ) : ℕ := (skb.data offset).toNat + 256 * (skb.data (offset + 1)).toNat

/-- `nla_find`; the condition is that of `nla_ok`. -/
def nlaFind (pos : ℕ) (rem : ℤ) : List ℕ × Option ℕ :=
  if rem < 4 then ([], none)
  else if skb.u16 pos < 4 ∨ rem < skb.u16 pos then ([pos, pos + 1], none)
  else if skb.u16 (pos + 2) % 16384 = x then ([pos, pos + 1, pos + 2, pos + 3], some pos)
  else
    -- `nla_next`
    let totlen := (skb.u16 pos + 3) / 4 * 4
    let rest := nlaFind (pos + totlen) (rem - totlen)
    ([pos, pos + 1, pos + 2, pos + 3] ++ rest.1, rest.2)
termination_by rem.toNat
decreasing_by omega

/-- `SKF_AD_NLATTR`: the new value of `A`, or none if the filter returns 0. -/
def nlattr : List ℕ × Option ℕ :=
  if sub skb.len 4 < a then ([], none)
  else
    let found := skb.nlaFind x a (toSigned (sub skb.len a))
    (found.1, some (found.2.getD 0))

def nlattrNest : List ℕ × Option ℕ :=
  if sub skb.len 4 < a then ([], none)
  else if sub a skb.len < skb.u16 a then ([a, a + 1], none)
  else
    let found := skb.nlaFind x (a + 4) ((skb.u16 a : ℤ) - 4)
    (a :: (a + 1) :: found.1, some (found.2.getD 0))

/-- Only the packet is read, and what is returned is an attribute between the two bounds. -/
def Inside (low stop : ℕ) (load : List ℕ × Option ℕ) : Prop :=
  (∀ offset ∈ load.1, offset < skb.len) ∧
    ∀ value ∈ load.2, value = 0 ∨ low ≤ value ∧ value + 4 ≤ stop ∧ value + skb.u16 value ≤ stop

variable {skb a x}

theorem nlaFind_inside (skb : Skb) (x : ℕ) {pos stop : ℕ} {rem : ℤ} (bound : pos + rem ≤ stop) :
    (∀ offset ∈ (skb.nlaFind x pos rem).1, offset < stop) ∧
      ∀ found ∈ (skb.nlaFind x pos rem).2,
        pos ≤ found ∧ found + 4 ≤ stop ∧ found + skb.u16 found ≤ stop := by
  fun_induction skb.nlaFind x pos rem with
  | case1 => simp
  | case2 pos rem long bad =>
    simp only [mem_cons, not_mem_nil, or_false, Option.not_mem_none]
    exact ⟨by omega, by simp⟩
  | case3 pos rem long good isType =>
    simp only [mem_cons, not_mem_nil, or_false, Option.mem_some_iff]
    exact ⟨by omega, by rintro _ rfl; omega⟩
  | case4 pos rem long good other totlen rest ih =>
    rcases ih (by omega) with ⟨reads, finds⟩
    simp only [mem_append, mem_cons, not_mem_nil, or_false]
    refine ⟨?_, fun found isFound => ?_⟩
    · rintro offset (isHere | isRest)
      · omega
      · exact reads offset isRest
    · have := finds found isFound
      omega

/-- From the attribute at an offset the walk comes to the one at another: those between are well
formed, within the bound, and of another type. -/
inductive Reaches (skb : Skb) (x stop : ℕ) : ℕ → ℕ → Prop
  | here (pos : ℕ) : Reaches skb x stop pos pos
  | next {pos last : ℕ} (room : pos + 4 ≤ stop) (large : 4 ≤ skb.u16 pos)
    (fits : pos + skb.u16 pos ≤ stop) (other : skb.u16 (pos + 2) % 16384 ≠ x)
    (reaches : Reaches skb x stop (pos + (skb.u16 pos + 3) / 4 * 4) last) :
    Reaches skb x stop pos last

/-- The packet has the length of every attribute that is reached, and the type of the well-formed
ones. -/
def Contains (skb : Skb) (x stop pos : ℕ) : Prop :=
  ∀ last, skb.Reaches x stop pos last → last + 4 ≤ stop → last + 2 ≤ skb.len ∧
    (4 ≤ skb.u16 last → last + skb.u16 last ≤ stop → last + 4 ≤ skb.len)

theorem Contains.next {pos stop : ℕ} (room : pos + 4 ≤ stop) (large : 4 ≤ skb.u16 pos)
    (fits : pos + skb.u16 pos ≤ stop) (other : skb.u16 (pos + 2) % 16384 ≠ x) :
    skb.Contains x stop pos ↔ pos + 4 ≤ skb.len ∧
      skb.Contains x stop (pos + (skb.u16 pos + 3) / 4 * 4) := by
  constructor
  · intro contains
    exact ⟨(contains pos (.here pos) room).2 large fits, fun last reaches =>
      contains last (.next room large fits other reaches)⟩
  · rintro ⟨here, rest⟩ last reaches
    cases reaches with
    | here => exact fun _ => ⟨by omega, fun _ _ => here⟩
    | next _ _ _ _ reaches => exact rest last reaches

theorem Contains.last {pos stop : ℕ} (ends : ∀ last, skb.Reaches x stop pos last → last = pos) :
    skb.Contains x stop pos ↔ (pos + 4 ≤ stop → pos + 2 ≤ skb.len ∧
      (4 ≤ skb.u16 pos → pos + skb.u16 pos ≤ stop → pos + 4 ≤ skb.len)) := by
  constructor
  · exact fun contains => contains pos (.here pos)
  · intro here last reaches
    rw [ends last reaches]
    exact here

theorem nlaFind_contains_iff {pos stop : ℕ} {rem : ℤ} (isStop : (pos : ℤ) + rem = stop) :
    (∀ offset ∈ (skb.nlaFind x pos rem).1, offset < skb.len) ↔ skb.Contains x stop pos := by
  fun_induction skb.nlaFind x pos rem with
  | case1 pos rem short =>
    rw [Contains.last]
    · exact iff_of_true (by simp) fun room => by omega
    · rintro last (_ | ⟨room, _⟩) <;> omega
  | case2 pos rem long bad =>
    rw [Contains.last]
    · simp only [mem_cons, not_mem_nil, or_false, forall_eq_or_imp, forall_eq]
      omega
    · rintro last (_ | ⟨_, large, fits, _⟩) <;> omega
  | case3 pos rem long good isType =>
    rw [Contains.last]
    · simp only [mem_cons, not_mem_nil, or_false, forall_eq_or_imp, forall_eq]
      omega
    · rintro last (_ | ⟨_, _, _, other, _⟩)
      · rfl
      · exact absurd isType other
  | case4 pos rem long good other totlen rest ih =>
    rw [Contains.next (by omega) (by omega) (by omega) other, ← ih (by omega)]
    simp only [mem_append, mem_cons, not_mem_nil, or_false, or_imp, forall_and, forall_eq]
    refine and_congr ?_ Iff.rfl
    omega

theorem Inside.of_find_iff {pos low stop : ℕ} {rem : ℤ} (first : List ℕ)
    (isStop : (pos : ℤ) + rem = stop) (isLow : low ≤ pos) :
    skb.Inside low stop (first ++ (skb.nlaFind x pos rem).1,
      some ((skb.nlaFind x pos rem).2.getD 0)) ↔
      (∀ offset ∈ first, offset < skb.len) ∧ skb.Contains x stop pos := by
  have finds := (nlaFind_inside skb x (Int.le_of_eq isStop)).2
  unfold Inside
  rw [and_iff_left]
  · rw [← nlaFind_contains_iff isStop]
    simp only [mem_append, or_imp, forall_and]
  · rintro _ ⟨⟩
    cases isFound : (skb.nlaFind x pos rem).2 with
    | none => exact .inl rfl
    | some found =>
      have := finds found isFound
      exact .inr ⟨Nat.le_trans isLow this.1, this.2⟩

theorem contains_packet {pos : ℕ} : skb.Contains x skb.len pos :=
  fun last _ room => ⟨by omega, fun _ _ => room⟩

theorem mem_nlaFind {pos : ℕ} {rem : ℤ} (long : 4 ≤ rem) : pos ∈ (skb.nlaFind x pos rem).1 := by
  rw [nlaFind, if_neg (Int.not_lt.mpr long)]
  split_ifs <;> simp

/-- An attribute of 12 bytes with two attributes in it, in a packet of `len` bytes. -/
def nested (len : ℕ) : Skb :=
  ⟨fun offset => [12, 0, 1, 0, 4, 0, 5, 0, 4, 0, 6, 0].getD offset 0, len⟩

end Skb

end StreakKernel.SocketFilter
