import StreakKernel.Lib.Places
import StreakKernel.Lib.TimingWheel
import StreakKernel.TimerWheel.Basic

/-!
# Where the timers of a wheel stand

Time is counted without wrapping by the number of the tick that is run next. In a vector,
the units that may hold timers form a window from the next unit that is to be cascaded.
-/

namespace StreakKernel.TimerWheel

open List Function Word TimingWheel Places Base Shape

universe u

variable {Timer : Type u}

def wheel : Shape := ⟨256, 64, by decide, by decide⟩

/-- How a timer was armed: before the tick `tick`, as the armed timer number `number`. -/
structure Arming where
  tick : ℕ
  expires : ℕ
  number : ℕ

namespace Arming

/-- The signed difference of the expiry to `timer_jiffies`. -/
def delay (arming : Arming) : ℤ := toSigned (sub arming.expires (arming.tick % 4294967296))

def deadline (arming : Arming) : ℕ :=
  if 0 ≤ arming.delay then arming.tick + arming.delay.toNat else arming.tick

/-- The timer was added to `tv1` when it was armed. -/
def Direct (arming : Arming) : Prop :=
  (bucketFor (arming.tick % 4294967296) arming.expires).1 = 0

theorem deadline_mod {arming : Arming} (fits : arming.expires < 4294967296)
    (future : 0 ≤ arming.delay) : arming.deadline % 4294967296 = arming.expires := by
  rw [deadline, if_pos future]
  unfold delay toSigned sub at *
  split_ifs at * <;> omega

theorem delay_lt (arming : Arming) : arming.delay < 2147483648 :=
  toSigned_lt (sub_lt _ _)

end Arming

/-! ## The bucket of a timer -/

section Bucket

variable {edge : ℕ → ℕ} {ticks : ℕ}

/-- The next units of the vectors while the tick `ticks` is next; the vectors may have been cascaded
for it. -/
structure Edges (edge : ℕ → ℕ) (ticks : ℕ) : Prop where
  root : edge 0 = ticks
  isEdge : ∀ lev, wheel.Edge lev ticks (edge lev)

theorem bucketFor_future {delay : ℕ} (edges : Edges edge ticks) (short : delay < 2147483648) :
    ∃ lev ≤ 4, bucketFor (ticks % 4294967296) ((ticks + delay) % 4294967296) =
        (lev, wheel.slotOf lev (ticks + delay)) ∧
      wheel.Within lev (edge lev) (ticks + delay) := by
  have isDelay : sub ((ticks + delay) % 4294967296) (ticks % 4294967296) = delay := by
    unfold sub
    omega
  have isSlot : ∀ lev ≤ 4, wheel.slotOf lev ((ticks + delay) % 4294967296) =
      wheel.slotOf lev (ticks + delay) :=
    fun lev level => slotOf_mod (wheel.unit_dvd (Nat.succ_le_succ level)) _
  unfold bucketFor
  simp only [isDelay]
  split_ifs with first second third fourth past
  · refine ⟨0, by omega, Prod.ext rfl ?_, ?_⟩
    · rw [← isSlot 0 (by omega)]
      simp [slotOf, Shape.unit, slots, wheel]
    · rw [edges.root]
      exact within_zero first
  · refine ⟨1, by omega, Prod.ext rfl (isSlot 1 (by omega)),
      (edges.isEdge 1).within (not_lt.mp first) second⟩
  · refine ⟨2, by omega, Prod.ext rfl (isSlot 2 (by omega)),
      (edges.isEdge 2).within (not_lt.mp second) third⟩
  · refine ⟨3, by omega, Prod.ext rfl (isSlot 3 (by omega)),
      (edges.isEdge 3).within (not_lt.mp third) fourth⟩
  · unfold toSigned at past
    omega
  · refine ⟨4, by omega, Prod.ext rfl (isSlot 4 (by omega)),
      (edges.isEdge 4).within (not_lt.mp fourth) ?_⟩
    exact lt_trans short (by decide)

theorem bucketFor_past {expires : ℕ} (edges : Edges edge ticks)
    (past : toSigned (sub expires (ticks % 4294967296)) < 0) :
    bucketFor (ticks % 4294967296) expires = (0, wheel.slotOf 0 ticks) ∧
      wheel.Within 0 (edge 0) ticks := by
  have large : 2147483648 ≤ sub expires (ticks % 4294967296) := by
    unfold toSigned at past
    split_ifs at past with small <;> omega
  refine ⟨?_, ?_⟩
  · unfold bucketFor
    rw [if_neg (by omega), if_neg (by omega), if_neg (by omega), if_neg (by omega), if_pos past]
    refine Prod.ext rfl ?_
    simp only [slotOf, Shape.unit, slots, wheel, Nat.div_one]
    omega
  · rw [edges.root]
    exact @Shape.within_zero wheel ticks 0 (by decide)

end Bucket

/-! ## The invariant -/

namespace Base

/-- The lists in which a timer may stand: the work list and the buckets. -/
def listAt (base : Base Timer) : Option (ℕ × ℕ) → List Timer
  | none => base.workList
  | some bucket => base.vec bucket.1 bucket.2

@[simp]
theorem listAt_setBucket (base : Base Timer) (lev slot : ℕ) (timers : List Timer) :
    (base.setBucket lev slot timers).listAt =
      update base.listAt (some (lev, slot)) timers := by
  funext place
  cases place with
  | none => rw [update_of_ne (Option.some_ne_none _).symm]; rfl
  | some bucket =>
    rcases bucket with ⟨otherLev, otherSlot⟩
    simp only [listAt, setBucket]
    by_cases sameLev : otherLev = lev
    · subst sameLev
      by_cases sameSlot : otherSlot = slot
      · subst sameSlot
        simp
      · simp [sameSlot, listAt]
    · simp [sameLev, listAt]

variable [DecidableEq Timer]

@[simp]
theorem listAt_addTail (base : Base Timer) (bucket : ℕ × ℕ) (timer : Timer) :
    (base.addTail bucket timer).listAt =
      update base.listAt (some bucket) (base.listAt (some bucket) ++ [timer]) :=
  base.listAt_setBucket bucket.1 bucket.2 _

@[simp]
theorem listAt_detachTimer (base : Base Timer) (timer : Timer) (clearPending : Bool) :
    (base.detachTimer timer clearPending).listAt =
      fun place => (base.listAt place).erase timer := by
  funext place
  cases place with
  | none => rfl
  | some bucket => rfl

end Base

abbrev Armed (Timer : Type u) := Timer → Option Arming

def Placed (base : Base Timer) (armed : Armed Timer) (ticks : ℕ) (edge : ℕ → ℕ) (timer : Timer) :
    Option (ℕ × ℕ) → Prop
  | none => ∃ arming, armed timer = some arming ∧ arming.deadline + 1 = ticks
  | some (lev, slot) => ∃ arming, armed timer = some arming ∧ lev ≤ 4 ∧
      slot = wheel.slotOf lev arming.deadline ∧ wheel.Within lev (edge lev) arming.deadline ∧
      (lev ≠ 0 → ¬arming.Direct ∧ base.expires timer = arming.deadline % 4294967296)

/-- Timers that were added to `tv1` directly stand in the order in which they were armed. -/
def InTurn (armed : Armed Timer) (first second : Timer) : Prop :=
  ∀ earlier later, armed first = some earlier → armed second = some later →
    earlier.Direct → later.Direct → earlier.number < later.number

/-- The timers of a base, apart from some that have been taken off their lists. -/
structure Loaded (base : Base Timer) (armed : Armed Timer) (ticks : ℕ) (edge : ℕ → ℕ)
    (loose : List Timer) : Prop where
  clock : base.timerJiffies = ticks % 4294967296
  edges : Edges edge ticks
  exclusive : Exclusive base.listAt
  placed : ∀ place, ∀ timer ∈ base.listAt place, Placed base armed ticks edge timer place
  absent : ∀ timer ∈ loose, ∀ place, timer ∉ base.listAt place
  present : ∀ timer, armed timer ≠ none → timer ∉ loose → ∃ place, timer ∈ base.listAt place
  pending : ∀ timer, timer ∉ loose → (base.pending timer = true ↔ armed timer ≠ none)
  inTurn : ∀ place, (base.listAt place).Pairwise (InTurn armed)

section Loaded

variable {base : Base Timer} {armed : Armed Timer} {ticks : ℕ} {edge : ℕ → ℕ}
  {loose : List Timer} {timer : Timer} {place : Option (ℕ × ℕ)}

theorem Placed.congr {other : Base Timer} {otherArmed : Armed Timer}
    (placed : Placed base armed ticks edge timer place)
    (sameExpires : other.expires timer = base.expires timer)
    (sameArmed : otherArmed timer = armed timer) :
    Placed other otherArmed ticks edge timer place := by
  cases place with
  | none =>
    rcases placed with ⟨arming, isArmed, rest⟩
    exact ⟨arming, sameArmed.trans isArmed, rest⟩
  | some bucket =>
    rcases placed with ⟨arming, isArmed, rest⟩
    exact ⟨arming, sameArmed.trans isArmed, sameExpires ▸ rest⟩

theorem Placed.isArmed (placed : Placed base armed ticks edge timer place) :
    armed timer ≠ none := by
  cases place with
  | none | some bucket =>
    rcases placed with ⟨arming, isArmed, _⟩
    simp [isArmed]

theorem Loaded.setNextTimer (loaded : Loaded base armed ticks edge loose) (next : ℕ) :
    Loaded { base with nextTimer := next } armed ticks edge loose :=
  ⟨loaded.clock, loaded.edges, loaded.exclusive, fun place timer mem =>
    (loaded.placed place timer mem).congr rfl rfl, loaded.absent, loaded.present,
    loaded.pending, loaded.inTurn⟩

theorem Loaded.clear {lev : ℕ} (loaded : Loaded base armed ticks edge [])
    (edges : Edges (update edge lev (edge lev + 1)) ticks) :
    Loaded (base.setBucket lev (edge lev % wheel.slots lev) []) armed ticks
      (update edge lev (edge lev + 1))
      (base.listAt (some (lev, edge lev % wheel.slots lev))) := by
  generalize isIndex : edge lev % wheel.slots lev = index
  have listed := base.listAt_setBucket lev index []
  refine ⟨loaded.clock, edges, ?_, ?_, ?_, ?_, ?_, ?_⟩
  · rw [listed]
    exact loaded.exclusive.clear
  · intro place x mem
    rw [listed, mem_update_nil] at mem
    rcases mem with ⟨old, other⟩
    have placed := loaded.placed place x old
    cases place with
    | none => exact placed
    | some bucket =>
      rcases bucket with ⟨otherLev, slot⟩
      rcases placed with ⟨arming, isArmed, level, isSlot, within, isFuture⟩
      refine ⟨arming, isArmed, level, isSlot, ?_, isFuture⟩
      by_cases same : otherLev = lev
      · subst same
        rw [update_self]
        refine within.succ ?_
        rw [← isSlot, isIndex]
        rintro rfl
        exact other rfl
      · rw [update_of_ne same]
        exact within
  · intro x taken place mem
    rw [listed, mem_update_nil] at mem
    exact mem.2 (loaded.exclusive.unique _ _ x mem.1 taken)
  · intro x isArmed outside
    rcases loaded.present x isArmed not_mem_nil with ⟨place, mem⟩
    refine ⟨place, ?_⟩
    rw [listed, mem_update_nil]
    refine ⟨mem, ?_⟩
    rintro rfl
    exact outside mem
  · intro x _
    exact loaded.pending x not_mem_nil
  · intro place
    rw [listed]
    by_cases same : place = some (lev, index)
    · subst same
      rw [update_self]
      exact List.Pairwise.nil
    · rw [update_of_ne same]
      exact loaded.inTurn place

theorem Loaded.loosen (loaded : Loaded base armed ticks edge []) (unarmed : armed timer = none) :
    Loaded base armed ticks edge [timer] := by
  refine ⟨loaded.clock, loaded.edges, loaded.exclusive, loaded.placed, ?_,
    fun x isArmed _ => loaded.present x isArmed not_mem_nil,
    fun x _ => loaded.pending x not_mem_nil, loaded.inTurn⟩
  intro x isTimer place mem
  rw [mem_singleton.mp isTimer] at mem
  exact (loaded.placed place timer mem).isArmed unarmed

theorem Loaded.forgetNext (loaded : Loaded base armed ticks edge loose) (timer : Timer) :
    Loaded (base.forgetNext timer) armed ticks edge loose := by
  rw [forgetNext_eq]
  exact loaded.setNextTimer _

theorem placed_bucketFor {arming : Arming} (edges : Edges edge arming.tick)
    (fits : arming.expires < 4294967296) (isArmed : armed timer = some arming)
    (isExpires : base.expires timer = arming.expires) :
    Placed base armed arming.tick edge timer
      (some (bucketFor (arming.tick % 4294967296) arming.expires)) := by
  by_cases future : 0 ≤ arming.delay
  · have isDeadline : arming.deadline = arming.tick + arming.delay.toNat := if_pos future
    have isMod := arming.deadline_mod fits future
    have short := arming.delay_lt
    rcases bucketFor_future edges (show arming.delay.toNat < 2147483648 by omega) with
      ⟨lev, level, isBucket, within⟩
    rw [← isDeadline, isMod] at isBucket
    rw [← isDeadline] at within
    rw [isBucket]
    refine ⟨arming, isArmed, level, rfl, within, fun isHigher => ⟨?_, ?_⟩⟩
    · unfold Arming.Direct
      rw [isBucket]
      exact isHigher
    · rw [isExpires, isMod]
  · have isDeadline : arming.deadline = arming.tick := if_neg future
    rcases bucketFor_past edges (not_le.mp future) with ⟨isBucket, within⟩
    rw [isBucket]
    refine ⟨arming, isArmed, Nat.zero_le 4, ?_, ?_, fun never => absurd rfl never⟩
    · rw [isDeadline]
    · rw [isDeadline]
      exact within

variable [DecidableEq Timer]

theorem Loaded.rearm (loaded : Loaded base armed ticks edge loose) (isLoose : timer ∈ loose)
    (arming : Option Arming) (expires : ℕ) :
    Loaded { base with expires := update base.expires timer expires }
      (update armed timer arming) ticks edge loose := by
  have other : ∀ place, ∀ x ∈ base.listAt place, x ≠ timer := by
    rintro place x mem rfl
    exact loaded.absent x isLoose place mem
  have notLoose : ∀ x, x ∉ loose → x ≠ timer := by
    rintro x outside rfl
    exact outside isLoose
  refine ⟨loaded.clock, loaded.edges, loaded.exclusive, ?_, loaded.absent, ?_, ?_, ?_⟩
  · intro place x mem
    exact (loaded.placed place x mem).congr (update_of_ne (other place x mem) _ _)
      (update_of_ne (other place x mem) _ _)
  · intro x isArmed outside
    rw [update_of_ne (notLoose x outside)] at isArmed
    exact loaded.present x isArmed outside
  · intro x outside
    rw [update_of_ne (notLoose x outside)]
    exact loaded.pending x outside
  · intro place
    refine (loaded.inTurn place).imp_of_mem ?_
    intro x y xMember yMember inTurn
    unfold InTurn
    rw [update_of_ne (other place x xMember), update_of_ne (other place y yMember)]
    exact inTurn

theorem Loaded.detachTimer (loaded : Loaded base armed ticks edge loose) (timer : Timer)
    (clearPending : Bool) :
    Loaded (base.detachTimer timer clearPending) armed ticks edge (timer :: loose) := by
  have listed : ∀ place, (base.detachTimer timer clearPending).listAt place =
      (base.listAt place).erase timer := fun place => by rw [Base.listAt_detachTimer]
  refine ⟨loaded.clock, loaded.edges, ?_, ?_, ?_, ?_, ?_, ?_⟩
  · rw [Base.listAt_detachTimer]
    exact loaded.exclusive.erase timer
  · intro place x mem
    rw [listed] at mem
    exact (loaded.placed place x (mem_of_mem_erase mem)).congr rfl rfl
  · intro x isLoose place mem
    rw [listed] at mem
    rcases mem_cons.mp isLoose with rfl | isOld
    · exact loaded.exclusive.notMem_erase mem
    · exact loaded.absent x isOld place (mem_of_mem_erase mem)
  · intro x isArmed outside
    rw [mem_cons, not_or] at outside
    rcases loaded.present x isArmed outside.2 with ⟨place, mem⟩
    refine ⟨place, ?_⟩
    rw [listed]
    exact (mem_erase_of_ne outside.1).mpr mem
  · intro x outside
    rw [mem_cons, not_or] at outside
    rw [← loaded.pending x outside.2]
    unfold Base.detachTimer
    cases clearPending with
    | false => rfl
    | true => simp [update_of_ne outside.1]
  · intro place
    rw [listed]
    exact (loaded.inTurn place).sublist erase_sublist

theorem Loaded.drop (loaded : Loaded base armed ticks edge (timer :: loose))
    (unarmed : armed timer = none) (notPending : base.pending timer = false) :
    Loaded base armed ticks edge loose := by
  refine ⟨loaded.clock, loaded.edges, loaded.exclusive, loaded.placed,
    fun x isLoose => loaded.absent x (mem_cons_of_mem _ isLoose), ?_, ?_, loaded.inTurn⟩
  · intro x isArmed outside
    refine loaded.present x isArmed ?_
    rw [mem_cons, not_or]
    refine ⟨?_, outside⟩
    rintro rfl
    exact isArmed unarmed
  intro x outside
  by_cases same : x = timer
  · subst same
    simp [unarmed, notPending]
  · exact loaded.pending x (by simp [same, outside])

theorem Loaded.insert (loaded : Loaded base armed ticks edge (timer :: loose))
    (fresh : timer ∉ loose) (placed : Placed base armed ticks edge timer
      (some (bucketFor base.timerJiffies (base.expires timer))))
    (last : ∀ x, x ≠ timer → InTurn armed x timer) :
    Loaded (base.internalAddTimer timer) armed ticks edge loose := by
  unfold internalAddTimer
  generalize bucketFor base.timerJiffies (base.expires timer) = bucket at placed ⊢
  have listed := base.listAt_addTail bucket timer
  have notListed := loaded.absent timer mem_cons_self
  refine ⟨loaded.clock, loaded.edges, ?_, ?_, ?_, ?_, ?_, ?_⟩
  · rw [listed]
    exact loaded.exclusive.append notListed
  · intro place x mem
    rw [listed, mem_update_append] at mem
    rcases mem with old | ⟨rfl, rfl⟩
    · exact (loaded.placed place x old).congr rfl rfl
    · exact placed.congr rfl rfl
  · intro x isLoose place mem
    rw [listed, mem_update_append] at mem
    rcases mem with old | ⟨rfl, _⟩
    · exact loaded.absent x (mem_cons_of_mem _ isLoose) place old
    · exact fresh isLoose
  · intro x isArmed outside
    by_cases same : x = timer
    · subst same
      refine ⟨some bucket, ?_⟩
      rw [listed, mem_update_append]
      exact .inr ⟨rfl, rfl⟩
    rcases loaded.present x isArmed (by simp [same, outside]) with ⟨place, mem⟩
    refine ⟨place, ?_⟩
    rw [listed, mem_update_append]
    exact .inl mem
  · intro x outside
    by_cases same : x = timer
    · subst same
      simp [addTail, placed.isArmed]
    · rw [← loaded.pending x (by simp [same, outside])]
      simp [addTail, update_of_ne same, Base.setBucket]
  · intro place
    rw [listed]
    by_cases same : place = some bucket
    · subst same
      rw [update_self, pairwise_append]
      refine ⟨loaded.inTurn _, pairwise_singleton _ _, ?_⟩
      intro x mem y isTimer
      rw [mem_singleton.mp isTimer]
      refine last x ?_
      rintro rfl
      exact notListed _ mem
    · rw [update_of_ne same]
      exact loaded.inTurn place

/-! ## Arming and disarming -/

theorem Loaded.enqueue {arming : Arming} (loaded : Loaded base armed arming.tick edge [timer])
    (fits : arming.expires < 4294967296)
    (last : ∀ x earlier, armed x = some earlier → earlier.number < arming.number) :
    Loaded (base.enqueue timer arming.expires) (update armed timer (some arming))
      arming.tick edge [] := by
  have rearmed := loaded.rearm (mem_singleton_self timer) (some arming) arming.expires
  have inTurn : ∀ x, x ≠ timer → InTurn (update armed timer (some arming)) x timer := by
    intro x other earlier later isEarlier isLater _ _
    rw [update_of_ne other] at isEarlier
    rw [update_self] at isLater
    obtain rfl := Option.some.inj isLater
    exact last x earlier isEarlier
  rw [enqueue_eq]
  refine (rearmed.setNextTimer _).insert not_mem_nil ?_ inTurn
  simp only [update_self, loaded.clock]
  exact placed_bucketFor loaded.edges fits (update_self _ _ _) (update_self _ _ _)

theorem Loaded.disarm (loaded : Loaded base armed ticks edge []) (timer : Timer) :
    Loaded (base.detachTimer timer true) (update armed timer none) ticks edge [] := by
  have detached := (loaded.detachTimer timer true).rearm mem_cons_self none (base.expires timer)
  have same : update (base.detachTimer timer true).expires timer (base.expires timer) =
      (base.detachTimer timer true).expires := update_eq_self _ _
  rw [same] at detached
  refine detached.drop (update_self _ _ _) ?_
  simp [Base.detachTimer]

/-! ## Cascading -/

/-- The timers that a cascade adds again: they were not added to `tv1` directly and do not lie in
the past. -/
def Sinking (base : Base Timer) (armed : Armed Timer) (ticks : ℕ) (timer : Timer) : Prop :=
  ∃ arming, armed timer = some arming ∧ ¬arming.Direct ∧
    base.expires timer = arming.deadline % 4294967296 ∧
    ticks ≤ arming.deadline ∧ arming.deadline < ticks + 2147483648

theorem Loaded.foldl_internalAddTimer {timers : List Timer}
    (loaded : Loaded base armed ticks edge timers) (nodup : timers.Nodup)
    (sinking : ∀ timer ∈ timers, Sinking base armed ticks timer) :
    Loaded (timers.foldl internalAddTimer base) armed ticks edge [] := by
  induction timers generalizing base with
  | nil => exact loaded
  | cons timer rest ih =>
    rcases nodup_cons.mp nodup with ⟨fresh, restNodup⟩
    rcases sinking timer mem_cons_self with
      ⟨arming, isArmed, notDirect, isExpires, late, soon⟩
    obtain ⟨delay, isDeadline⟩ := Nat.exists_eq_add_of_le late
    rcases bucketFor_future loaded.edges (show delay < 2147483648 by omega) with
      ⟨lev, level, isBucket, within⟩
    rw [← isDeadline] at isBucket within
    refine ih (loaded.insert fresh ?_ ?_) restNodup fun x mem => sinking x (mem_cons_of_mem _ mem)
    · rw [loaded.clock, isExpires, isBucket]
      exact ⟨arming, isArmed, level, rfl, within, fun _ => ⟨notDirect, isExpires⟩⟩
    · intro x _ earlier later _ isLater _ isDirect
      obtain rfl : arming = later := Option.some.inj (isArmed.symm.trans isLater)
      exact absurd isDirect notDirect

theorem Edges.succ {lev : ℕ} (edges : Edges edge ticks) (pos : lev ≠ 0)
    (aligned : edge lev * wheel.unit lev = ticks) :
    Edges (update edge lev (edge lev + 1)) ticks := by
  refine ⟨?_, ?_⟩
  · rw [update_of_ne pos.symm]
    exact edges.root
  intro other
  by_cases same : other = lev
  · subst same
    rw [update_self]
    refine ⟨?_, ?_⟩
    · rw [← aligned, Nat.mul_div_cancel _ (wheel.unit_pos other)]
    · rw [add_mul, aligned]
      exact Nat.le_add_right _ _
  · rw [update_of_ne same]
    exact edges.isEdge other

theorem Loaded.cascade {lev : ℕ} (loaded : Loaded base armed ticks edge [])
    (pos : lev ≠ 0) (aligned : edge lev * wheel.unit lev = ticks) :
    Loaded (base.cascade lev (edge lev % wheel.slots lev)) armed ticks
      (update edge lev (edge lev + 1)) [] := by
  refine (loaded.clear (loaded.edges.succ pos aligned)).foldl_internalAddTimer
    (loaded.exclusive.nodup _) ?_
  intro x mem
  rcases loaded.placed _ x mem with ⟨arming, isArmed, level, isSlot, within, isFuture⟩
  rcases isFuture pos with ⟨notDirect, isExpires⟩
  have isUnit := within.eq_of_slotOf isSlot.symm
  have isDeadline := Nat.div_add_mod arming.deadline (wheel.unit lev)
  rw [isUnit, mul_comm, aligned] at isDeadline
  have short := Nat.mod_lt arming.deadline (wheel.unit_pos lev)
  have bounded : wheel.unit lev ≤ 67108864 := Nat.le_of_dvd (by decide) (wheel.unit_dvd level)
  exact ⟨arming, isArmed, notDirect, isExpires, by omega, by omega⟩

theorem Loaded.cascades {rest lev : ℕ} (loaded : Loaded base armed ticks edge [])
    (isRest : rest + lev = 5) (pos : lev ≠ 0) (aligned : wheel.unit lev ∣ ticks)
    (done : ∀ k, k ≠ 0 → k < lev → edge k = ticks / wheel.unit k + 1)
    (ahead : ∀ k, lev ≤ k → edge k = wheel.upcoming ticks k) :
    ∃ newEdge, Loaded (Base.cascades rest lev (wheel.unit lev) base) armed ticks newEdge [] ∧
      ∀ k, k ≠ 0 → k ≤ 4 → newEdge k = ticks / wheel.unit k + 1 := by
  induction rest generalizing base lev edge with
  | zero => exact ⟨edge, loaded, fun k isHigher level => done k isHigher (by omega)⟩
  | succ rest ih =>
    obtain ⟨units, isTicks⟩ := aligned
    rw [mul_comm] at isTicks
    have isEdge : edge lev = units := by rw [ahead lev le_rfl, isTicks, upcoming_mul]
    have isUnits : ticks / wheel.unit lev = units := by
      rw [isTicks, Nat.mul_div_cancel _ (wheel.unit_pos lev)]
    have isSlots : wheel.slots lev = 64 := by
      cases lev with
      | zero => exact absurd rfl pos
      | succ lev => rfl
    have isIndex : base.timerJiffies / wheel.unit lev % 64 = edge lev % wheel.slots lev := by
      rw [loaded.clock, isEdge, ← isUnits, ← isSlots]
      exact @Shape.slotOf_mod wheel lev _ (wheel.unit_dvd (show lev + 1 ≤ 5 by omega)) ticks
    have cascaded := loaded.cascade pos (isEdge ▸ isTicks.symm)
    have doneNext : ∀ k, k ≠ 0 → k < lev + 1 →
        update edge lev (edge lev + 1) k = ticks / wheel.unit k + 1 := by
      intro k isHigher before
      by_cases same : k = lev
      · subst same
        rw [update_self, isEdge, isUnits]
      · rw [update_of_ne same]
        exact done k isHigher (by omega)
    have aheadNext : ∀ k, lev + 1 ≤ k →
        update edge lev (edge lev + 1) k = wheel.upcoming ticks k := by
      intro k after
      rw [update_of_ne (by omega)]
      exact ahead k (by omega)
    rw [Base.cascades]
    simp only [isIndex]
    have isNext : wheel.unit (lev + 1) = wheel.unit lev * 64 := by rw [Shape.unit, isSlots]
    have nextDvd : wheel.unit (lev + 1) ∣ ticks ↔ edge lev % wheel.slots lev = 0 := by
      rw [Shape.unit, isTicks, isEdge, ← Nat.dvd_iff_mod_eq_zero, mul_comm units]
      exact Nat.mul_dvd_mul_iff_left (wheel.unit_pos lev)
    split_ifs with isZero
    · rw [← isNext]
      exact ih cascaded (by omega) (Nat.succ_ne_zero lev) (nextDvd.mpr isZero) doneNext aheadNext
    refine ⟨_, cascaded, ?_⟩
    intro k isHigher _
    by_cases before : k < lev + 1
    · exact doneNext k isHigher before
    · rw [aheadNext k (by omega)]
      refine upcoming_of_not_dvd fun dvd => isZero (nextDvd.mp ?_)
      exact dvd_trans (wheel.unit_dvd (by omega)) dvd

theorem kept_cascades {α : Type*} (field : Base Timer → α)
    (keptAdd : ∀ base timer, field (base.internalAddTimer timer) = field base)
    (keptClear : ∀ base lev slot, field (base.setBucket lev slot []) = field base)
    (rest lev unit : ℕ) (base : Base Timer) :
    field (Base.cascades rest lev unit base) = field base := by
  have keptFold : ∀ (timers : List Timer) (base : Base Timer),
      field (timers.foldl internalAddTimer base) = field base := by
    intro timers
    induction timers with
    | nil => exact fun base => rfl
    | cons timer rest ih => exact fun base => (ih _).trans (keptAdd base timer)
  have keptCascade : ∀ (base : Base Timer) lev index,
      field (base.cascade lev index) = field base :=
    fun base lev index => (keptFold _ _).trans (keptClear base lev index)
  induction rest generalizing lev unit base with
  | zero => rfl
  | succ rest ih =>
    rw [Base.cascades]
    split_ifs with isZero
    · rw [ih, keptCascade]
    · rw [keptCascade]

theorem edges_upcoming (ticks : ℕ) : Edges (wheel.upcoming ticks) ticks :=
  ⟨wheel.upcoming_zero ticks, wheel.edge_upcoming ticks⟩

section

variable (loaded : Loaded base armed ticks (wheel.upcoming ticks) [])
include loaded

theorem Loaded.cascaded : ∃ newEdge,
      Loaded (if base.timerJiffies % 256 = 0 then Base.cascades 4 1 256 base else base) armed ticks
        newEdge [] ∧
      ∀ k, k ≠ 0 → k ≤ 4 → newEdge k = ticks / wheel.unit k + 1 := by
  have isRoot : base.timerJiffies % 256 = 0 ↔ wheel.unit 1 ∣ ticks := by
    have isUnit : wheel.unit 1 = 256 := rfl
    rw [loaded.clock, isUnit]
    omega
  split_ifs with isZero
  · refine loaded.cascades (show 4 + 1 = 5 from rfl) one_ne_zero (isRoot.mp isZero) ?_
      fun k _ => rfl
    intro k isHigher before
    omega
  refine ⟨_, loaded, ?_⟩
  intro k isHigher _
  refine upcoming_of_not_dvd fun dvd => isZero (isRoot.mpr ?_)
  exact dvd_trans (wheel.unit_dvd (by omega)) dvd

theorem Loaded.beginTick (idle : base.workList = []) :
    Loaded base.beginTick armed (ticks + 1) (wheel.upcoming (ticks + 1)) [] := by
  rcases loaded.cascaded with ⟨edge, cascaded, isEdge⟩
  have isIdle : (if base.timerJiffies % 256 = 0 then Base.cascades 4 1 256 base
      else base).workList = [] := by
    split_ifs with isZero
    · rw [kept_cascades Base.workList (fun _ _ => rfl) fun _ _ _ => rfl, idle]
    · exact idle
  have isIndex : base.timerJiffies % 256 = edge 0 % wheel.slots 0 := by
    have isSlots : wheel.slots 0 = 256 := rfl
    rw [loaded.clock, cascaded.edges.root, isSlots]
    omega
  unfold Base.beginTick
  simp only
  generalize (if base.timerJiffies % 256 = 0 then Base.cascades 4 1 256 base else base) = after
    at cascaded isIdle
  generalize isSlot : base.timerJiffies % 256 = index at isIndex ⊢
  have listed : ({ after.setBucket 0 index [] with
      timerJiffies := add after.timerJiffies 1, workList := after.vec 0 index }).listAt =
      move after.listAt (some (0, index)) none := by
    funext place
    cases place with
    | none => simp [move, Base.listAt]
    | some bucket =>
      rw [move, update_of_ne (Option.some_ne_none _), ← Base.listAt_setBucket]
      rfl
  have empty : after.listAt none = [] := isIdle
  refine ⟨?_, edges_upcoming _, ?_, ?_, ?_, ?_, ?_, ?_⟩
  · simp only [cascaded.clock]
    unfold add
    omega
  · rw [listed]
    exact cascaded.exclusive.move empty
  · intro place x mem
    rw [listed, mem_move empty] at mem
    rcases mem with ⟨taken, rfl⟩ | ⟨old, other⟩
    · rcases cascaded.placed _ x taken with ⟨arming, isArmed, _, isPlace, within, _⟩
      have isUnit := within.eq_of_slotOf (isPlace.symm.trans isIndex)
      rw [Shape.unit, Nat.div_one, cascaded.edges.root] at isUnit
      exact ⟨arming, isArmed, by rw [isUnit]⟩
    have placed := cascaded.placed place x old
    cases place with
    | none =>
      rw [empty] at old
      exact absurd old not_mem_nil
    | some bucket =>
      rcases bucket with ⟨lev, slot⟩
      rcases placed with ⟨arming, isArmed, level, isPlace, within, isFuture⟩
      refine ⟨arming, isArmed, level, isPlace, ?_, isFuture⟩
      by_cases isRoot : lev = 0
      · subst isRoot
        rw [upcoming_zero, ← cascaded.edges.root]
        refine within.succ ?_
        rw [← isPlace, ← isIndex]
        rintro rfl
        exact other rfl
      · rw [upcoming_succ, ← isEdge lev isRoot level]
        exact within
  · exact fun x never => absurd never not_mem_nil
  · intro x isArmed _
    rcases cascaded.present x isArmed not_mem_nil with ⟨place, mem⟩
    by_cases isTaken : place = some (0, index)
    · subst isTaken
      exact ⟨none, by rw [listed, mem_move empty]; exact .inl ⟨mem, rfl⟩⟩
    · exact ⟨place, by rw [listed, mem_move empty]; exact .inr ⟨mem, isTaken⟩⟩
  · exact cascaded.pending
  · intro place
    rw [listed, move]
    by_cases isWork : place = none
    · subst isWork
      rw [update_self]
      exact cascaded.inTurn _
    rw [update_of_ne isWork]
    by_cases isTaken : place = some (0, index)
    · subst isTaken
      rw [update_self]
      exact List.Pairwise.nil
    · rw [update_of_ne isTaken]
      exact cascaded.inTurn place

end

end Loaded

end StreakKernel.TimerWheel
