import Mathlib.Data.List.Pairwise
import Mathlib.Data.List.Perm.Basic
import StreakKernel.Binder.Alloc

/-!
# The buffer list as a tiling

A buffer reaches from its header to its successor. `extents` pairs every buffer of a list
with its end, and `Tiled` says that the extents cover an interval of addresses. `Focused`
says that an address identifies one buffer of the list.
-/

namespace StreakKernel.Binder

open List

structure Extent where
  buffer : Buffer
  stop : ℕ

def extents (stop : ℕ) : List Buffer → List Extent
  | [] => []
  | buffer :: rest => ⟨buffer, bufferEnd stop rest⟩ :: extents stop rest

/-- The buffers cover `[start, stop)` without gap or overlap. -/
structure Tiled (start stop : ℕ) (buffers : List Buffer) : Prop where
  head : bufferEnd stop buffers = start
  header_le : ∀ extent ∈ extents stop buffers, extent.buffer.addr + 40 ≤ extent.stop

theorem bufferEnd_cons (stop : ℕ) (next : Buffer) (rest : List Buffer) :
    bufferEnd stop (next :: rest) = next.addr := rfl

@[simp]
theorem bufferEnd_append (stop : ℕ) (left right : List Buffer) :
    bufferEnd stop (left ++ right) = bufferEnd (bufferEnd stop right) left := by
  cases left <;> rfl

@[simp]
theorem extents_append (stop : ℕ) (left right : List Buffer) :
    extents stop (left ++ right) = extents (bufferEnd stop right) left ++ extents stop right := by
  induction left with
  | nil => rfl
  | cons buffer rest ih => simp [extents, ih]

variable {stop start addr : ℕ} {buffers before after middle left newBuffers : List Buffer}
  {extent : Extent}

theorem mem_extents_iff : extent ∈ extents stop buffers ↔ ∃ before after,
      buffers = before ++ extent.buffer :: after ∧ extent.stop = bufferEnd stop after := by
  constructor
  · intro mem
    induction buffers with
    | nil => simp [extents] at mem
    | cons buffer rest ih =>
      simp only [extents, mem_cons] at mem
      rcases mem with rfl | inRest
      · exact ⟨[], rest, rfl, rfl⟩
      · rcases ih inRest with ⟨before, after, rfl, isStop⟩
        exact ⟨buffer :: before, after, rfl, isStop⟩
  · rintro ⟨before, after, rfl, isStop⟩
    simp [extents, ← isStop]

theorem mem_of_mem_extents (mem : extent ∈ extents stop buffers) : extent.buffer ∈ buffers := by
  rcases mem_extents_iff.mp mem with ⟨before, after, rfl, _⟩
  simp

namespace Tiled

variable {start stop : ℕ} {buffer : Buffer} {buffers left right : List Buffer}

theorem cons_iff : Tiled start stop (buffer :: buffers) ↔ buffer.addr = start ∧
    start + 40 ≤ bufferEnd stop buffers ∧ Tiled (bufferEnd stop buffers) stop buffers := by
  constructor
  · rintro ⟨head, headerLe⟩
    simp only [extents, mem_cons, forall_eq_or_imp, bufferEnd] at head headerLe
    exact ⟨head, head ▸ headerLe.1, rfl, headerLe.2⟩
  rintro ⟨rfl, le, tiled⟩
  refine ⟨rfl, ?_⟩
  simp only [extents, mem_cons, forall_eq_or_imp]
  exact ⟨le, tiled.header_le⟩

theorem append_iff : Tiled start stop (left ++ right) ↔
    Tiled start (bufferEnd stop right) left ∧ Tiled (bufferEnd stop right) stop right := by
  constructor
  · rintro ⟨head, headerLe⟩
    simp only [bufferEnd_append, extents_append, mem_append] at head headerLe
    exact ⟨⟨head, fun extent inLeft => headerLe extent (.inl inLeft)⟩, rfl,
      fun extent inRight => headerLe extent (.inr inRight)⟩
  rintro ⟨leftTiled, rightTiled⟩
  refine ⟨by simp [leftTiled.head], ?_⟩
  simp only [extents_append, mem_append]
  rintro extent (inLeft | inRight)
  · exact leftTiled.header_le extent inLeft
  · exact rightTiled.header_le extent inRight

theorem middle_iff : Tiled start stop (left ++ buffer :: right) ↔
    Tiled start buffer.addr left ∧ buffer.addr + 40 ≤ bufferEnd stop right ∧
      Tiled (bufferEnd stop right) stop right := by
  rw [append_iff, cons_iff]
  constructor
  · rintro ⟨leftTiled, _, le, rightTiled⟩
    exact ⟨leftTiled, le, rightTiled⟩
  · rintro ⟨leftTiled, le, rightTiled⟩
    exact ⟨leftTiled, rfl, le, rightTiled⟩

section Tiles

variable (tiled : Tiled start stop buffers)
include tiled

theorem start_le : start ≤ stop := by
  induction buffers generalizing start with
  | nil => exact le_of_eq tiled.head.symm
  | cons buffer rest ih =>
    rcases cons_iff.mp tiled with ⟨_, le, restTiled⟩
    have := ih restTiled
    omega

theorem extent_bounds {extent : Extent} (mem : extent ∈ extents stop buffers) :
    start ≤ extent.buffer.addr ∧ extent.buffer.addr + 40 ≤ extent.stop ∧ extent.stop ≤ stop := by
  induction buffers generalizing start with
  | nil => simp [extents] at mem
  | cons buffer rest ih =>
    rcases cons_iff.mp tiled with ⟨rfl, le, restTiled⟩
    have restLe := restTiled.start_le
    simp only [extents, mem_cons] at mem
    rcases mem with rfl | inRest
    · exact ⟨le_rfl, le, restLe⟩
    · have := ih restTiled inRest
      omega

theorem addr_bounds (mem : buffer ∈ buffers) : start ≤ buffer.addr ∧ buffer.addr + 40 ≤ stop := by
  rcases append_of_mem mem with ⟨before, after, rfl⟩
  rcases middle_iff.mp tiled with ⟨beforeTiled, le, afterTiled⟩
  have := beforeTiled.start_le
  have := afterTiled.start_le
  omega

theorem covers {byte : ℕ} (startLe : start ≤ byte) (ltStop : byte < stop) :
    ∃ extent ∈ extents stop buffers, (extent.buffer.addr ≤ byte ∧ byte < extent.stop) ∧
        ∀ other ∈ extents stop buffers, other.buffer.addr ≤ byte → byte < other.stop →
          other = extent := by
  induction buffers generalizing start with
  | nil =>
    have := tiled.head
    simp only [bufferEnd] at this
    omega
  | cons buffer rest ih =>
    rcases cons_iff.mp tiled with ⟨rfl, _, restTiled⟩
    simp only [extents, mem_cons]
    by_cases here : byte < bufferEnd stop rest
    · refine ⟨_, .inl rfl, ⟨startLe, here⟩, ?_⟩
      rintro other (rfl | inRest) addrLe _
      · rfl
      · have := (restTiled.extent_bounds inRest).1
        omega
    rcases ih restTiled (by omega) with ⟨extent, mem, contains, unique⟩
    refine ⟨extent, .inr mem, contains, ?_⟩
    rintro other (rfl | inRest) addrLe ltStop
    · exact absurd ltStop here
    · exact unique other inRest addrLe ltStop

theorem increasing : buffers.Pairwise fun first second => first.addr + 40 ≤ second.addr := by
  induction buffers generalizing start with
  | nil => exact List.Pairwise.nil
  | cons buffer rest ih =>
    rcases cons_iff.mp tiled with ⟨rfl, le, restTiled⟩
    refine pairwise_cons.mpr ⟨fun other mem => ?_, ih restTiled⟩
    exact le_trans le (restTiled.addr_bounds mem).1

theorem addrs_increasing : (buffers.map Buffer.addr).Pairwise (· < ·) := by
  refine pairwise_map.mpr (tiled.increasing.imp fun {first second} le => ?_)
  omega

end Tiles

end Tiled

/-! ## One buffer of a list -/

/-- `buffer` is the only buffer at `addr` in `before ++ buffer :: after`. -/
structure Focused (addr : ℕ) (before : List Buffer) (buffer : Buffer) (after : List Buffer) :
    Prop where
  here : buffer.addr = addr
  before_ne : ∀ other ∈ before, other.addr ≠ addr
  after_ne : ∀ other ∈ after, other.addr ≠ addr

theorem Tiled.focused {buffer : Buffer} (tiled : Tiled start stop (before ++ buffer :: after)) :
    Focused buffer.addr before buffer after := by
  rcases middle_iff.mp tiled with ⟨beforeTiled, le, afterTiled⟩
  refine ⟨rfl, ?_, ?_⟩
  · intro other mem
    have := (beforeTiled.addr_bounds mem).2
    omega
  · intro other mem
    have := (afterTiled.addr_bounds mem).1
    omega

namespace Focused

variable {addr stop : ℕ} {before after : List Buffer} {buffer : Buffer}

theorem find? (focused : Focused addr before buffer after) :
    (before ++ buffer :: after).find? (fun other => other.addr = addr) = some buffer := by
  have absent : before.find? (fun other => other.addr = addr) = none := by
    rw [find?_eq_none]
    intro other mem
    simpa using focused.before_ne other mem
  simp [find?_append, absent, focused.here]

section

variable {other : Buffer} (focused : Focused addr (other :: before) buffer after)
include focused

theorem tail : Focused addr before buffer after :=
  ⟨focused.here, fun next mem => focused.before_ne next (mem_cons_of_mem _ mem), focused.after_ne⟩

theorem head_ne : other.addr ≠ addr :=
  focused.before_ne other mem_cons_self

end

section Focus

variable (focused : Focused addr before buffer after)
include focused

theorem sizeIn_eq : sizeIn stop addr (before ++ buffer :: after) =
      Word.sub (bufferEnd stop after) (bufferData addr) := by
  induction before with
  | nil => simp [sizeIn, focused.here]
  | cons other rest ih =>
    simp only [cons_append, sizeIn, if_neg focused.head_ne]
    exact ih focused.tail

theorem nextIn_eq : nextIn addr (before ++ buffer :: after) = after.head? := by
  induction before with
  | nil => simp [nextIn, focused.here]
  | cons other rest ih =>
    simp only [cons_append, nextIn, if_neg focused.head_ne]
    exact ih focused.tail

theorem prevIn_eq : prevIn addr (before ++ buffer :: after) = before.getLast? := by
  induction before with
  | nil =>
    have absent : ∀ first, (∀ other ∈ after, other.addr ≠ addr) →
        prevIn addr (first :: after) = none := by
      induction after with
      | nil => simp [prevIn]
      | cons next rest ih =>
        intro first notAfter
        simp only [prevIn, if_neg (notAfter next mem_cons_self)]
        apply ih
        · exact ⟨focused.here, by simp, fun other mem =>
            notAfter other (mem_cons_of_mem _ mem)⟩
        · intro other mem
          exact notAfter other (mem_cons_of_mem _ mem)
    exact absent buffer focused.after_ne
  | cons other rest ih =>
    cases rest with
    | nil => simp [prevIn, focused.here]
    | cons next rest =>
      simp only [cons_append, prevIn, if_neg focused.tail.head_ne]
      exact ih focused.tail

theorem addAfter_eq {new : Buffer} :
    addAfter addr new (before ++ buffer :: after) = before ++ buffer :: new :: after := by
  induction before with
  | nil => simp [addAfter, focused.here]
  | cons other rest ih => simp [addAfter, if_neg focused.head_ne, ih focused.tail]

theorem modifyBuffer_eq {change : Buffer → Buffer} :
    modifyBuffer addr change (before ++ buffer :: after) = before ++ change buffer :: after := by
  have unchanged : ∀ part : List Buffer, (∀ other ∈ part, other.addr ≠ addr) →
      modifyBuffer addr change part = part := by
    intro part absent
    refine (map_congr_left fun other mem => ?_).trans (map_id part)
    exact if_neg (absent other mem)
  have split : modifyBuffer addr change (before ++ buffer :: after) =
      modifyBuffer addr change before ++ change buffer :: modifyBuffer addr change after := by
    simp [modifyBuffer, focused.here]
  rw [split, unchanged before focused.before_ne, unchanged after focused.after_ne]

theorem delBuffer_eq : delBuffer addr (before ++ buffer :: after) = before ++ after := by
  have kept : ∀ part : List Buffer, (∀ other ∈ part, other.addr ≠ addr) →
      delBuffer addr part = part := by
    intro part absent
    refine filter_eq_self.mpr fun other mem => ?_
    simpa using absent other mem
  have split : delBuffer addr (before ++ buffer :: after) =
      delBuffer addr before ++ delBuffer addr after := by
    simp [delBuffer, focused.here]
  rw [split, kept before focused.before_ne, kept after focused.after_ne]

end Focus

end Focused

theorem Tiled.middle_ne (tiled : Tiled start stop (before ++ (middle ++ after)))
    {outer inner : Buffer} (isOuter : outer ∈ before ++ after) (isInner : inner ∈ middle) :
    inner.addr ≠ outer.addr := by
  have increasing := tiled.increasing
  rw [pairwise_append, pairwise_append] at increasing
  rcases increasing with ⟨_, ⟨_, _, middleAfter⟩, beforeRest⟩
  rcases mem_append.mp isOuter with inBefore | inAfter
  · have := beforeRest outer inBefore inner (mem_append_left _ isInner)
    omega
  · have := middleAfter inner isInner outer inAfter
    omega

/-! ## Sizes -/

theorem sizeIn_append_of_mem (right : List Buffer) (mem : addr ∈ left.map Buffer.addr) :
    sizeIn stop addr (left ++ right) = sizeIn (bufferEnd stop right) addr left := by
  induction left with
  | nil => simp at mem
  | cons buffer rest ih =>
    simp only [cons_append, sizeIn, bufferEnd_append]
    split_ifs with here
    · rfl
    · apply ih
      simp only [map_cons, mem_cons] at mem
      exact mem.resolve_left (Ne.symm here)

theorem sizeIn_append_of_notMem (right : List Buffer) (absent : ∀ other ∈ left, other.addr ≠ addr) :
    sizeIn stop addr (left ++ right) = sizeIn stop addr right := by
  induction left with
  | nil => rfl
  | cons buffer rest ih =>
    simp only [cons_append, sizeIn, if_neg (absent buffer mem_cons_self)]
    exact ih fun other mem => absent other (mem_cons_of_mem _ mem)

theorem bufferEnd_congr (same : buffers.map Buffer.addr = newBuffers.map Buffer.addr) :
    bufferEnd stop buffers = bufferEnd stop newBuffers := by
  cases buffers <;> cases newBuffers <;> simp_all [bufferEnd]

theorem Tiled.congr (tiled : Tiled start stop buffers)
    (same : buffers.map Buffer.addr = newBuffers.map Buffer.addr) :
    Tiled start stop newBuffers := by
  induction buffers generalizing start newBuffers with
  | nil =>
    cases newBuffers with
    | nil => exact tiled
    | cons new rest => simp at same
  | cons buffer rest ih =>
    cases newBuffers with
    | nil => simp at same
    | cons new newRest =>
      simp only [map_cons, cons.injEq] at same
      rw [cons_iff, bufferEnd_congr same.2] at tiled
      rw [cons_iff, ← same.1]
      exact ⟨tiled.1, tiled.2.1, ih tiled.2.2 same.2⟩

theorem sizeIn_congr (same : buffers.map Buffer.addr = newBuffers.map Buffer.addr) :
    sizeIn stop addr buffers = sizeIn stop addr newBuffers := by
  induction buffers generalizing newBuffers with
  | nil =>
    cases newBuffers with
    | nil => rfl
    | cons new rest => simp at same
  | cons buffer rest ih =>
    cases newBuffers with
    | nil => simp at same
    | cons new newRest =>
      simp only [map_cons, cons.injEq] at same
      simp [sizeIn, same.1, bufferEnd_congr same.2, ih same.2]

theorem sizeIn_middle_congr {newMiddle : List Buffer}
    (sameStart : bufferEnd (bufferEnd stop after) middle = bufferEnd (bufferEnd stop after)
      newMiddle) (notMiddle : ∀ other ∈ middle, other.addr ≠ addr)
    (notNewMiddle : ∀ other ∈ newMiddle, other.addr ≠ addr) :
    sizeIn stop addr (before ++ (middle ++ after)) =
      sizeIn stop addr (before ++ (newMiddle ++ after)) := by
  by_cases inBefore : addr ∈ before.map Buffer.addr
  · rw [sizeIn_append_of_mem _ inBefore, sizeIn_append_of_mem _ inBefore, bufferEnd_append,
      bufferEnd_append, sameStart]
  have notBefore : ∀ other ∈ before, other.addr ≠ addr := by
    intro other mem same
    exact inBefore (mem_map.mpr ⟨other, mem, same⟩)
  rw [sizeIn_append_of_notMem _ notBefore, sizeIn_append_of_notMem _ notBefore,
    sizeIn_append_of_notMem _ notMiddle, sizeIn_append_of_notMem _ notNewMiddle]

end StreakKernel.Binder
