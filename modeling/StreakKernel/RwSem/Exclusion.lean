import Mathlib.Data.Fintype.Card
import StreakKernel.Lib.Run
import StreakKernel.RwSem.Basic

/-!
# Exclusion and fairness of reader/writer semaphores

As the waiters that were woken are among its owners, the field `activity` counts the owners of the
semaphore, and `__up_read` may take the first waiter for a writer.
-/

namespace StreakKernel.RwSem

open List Function RwSem.System RwSemaphore
open Fintype (card)

variable {Task : Type}

/-- What a task owns: a waiter that was woken owns the semaphore before it runs. -/
def Phase.owns : Phase → Option Kind
  | .outside => none
  | .waiting _ => none
  | .woken kind => some kind
  | .holding kind => some kind

theorem wrap_eq {value : ℤ} (low : -2147483648 ≤ value) (high : value < 2147483648) :
    wrap value = value := by
  unfold wrap Word.toSigned Word.ofSigned
  split_ifs <;> omega

/-! ## Owners -/

/-- `activity` counts the readers or marks the writer. -/
inductive Balanced : ℤ → Finset Task → Finset Task → Prop
  | reading (readers : Finset Task) : Balanced readers.card readers ∅
  | writing (task : Task) : Balanced (-1) ∅ {task}

variable {activity : ℤ} {readers writers : Finset Task} {task : Task}

section

variable (balanced : Balanced activity readers writers)
include balanced

theorem Balanced.activity_eq :
    (activity = -1 ↔ writers.card = 1) ∧ (activity ≠ -1 → activity = readers.card) := by
  cases balanced with
  | reading => simp
  | writing task => simp

theorem Balanced.reading_of_nonneg (nonneg : 0 ≤ activity) :
    activity = readers.card ∧ writers = ∅ := by
  cases balanced with
  | reading => exact ⟨rfl, rfl⟩
  | writing task => omega

theorem Balanced.reading_of_mem (mem : task ∈ readers) : activity = readers.card ∧ writers = ∅ := by
  cases balanced with
  | reading => exact ⟨rfl, rfl⟩
  | writing other => simp at mem

theorem Balanced.writing_of_mem (mem : task ∈ writers) : readers = ∅ ∧ writers = {task} := by
  cases balanced with
  | reading => simp at mem
  | writing other =>
    rw [Finset.mem_singleton] at mem
    exact ⟨rfl, by rw [mem]⟩

end

theorem Balanced.ofEmpty : Balanced 0 (∅ : Finset Task) ∅ := by
  have counted := reading (∅ : Finset Task)
  rwa [Finset.card_empty] at counted

section Owners

variable [Fintype Task]

def owners (phase : Task → Phase) (kind : Kind) : Finset Task :=
  Finset.univ.filter fun task => (phase task).owns = some kind

variable {phase : Task → Phase} {task : Task} {kind : Kind}

theorem mem_owners : task ∈ owners phase kind ↔ (phase task).owns = some kind := by
  simp [owners]

variable [DecidableEq Task]

theorem owners_update (next : Phase) : owners (update phase task next) kind =
    if next.owns = some kind then insert task (owners phase kind)
    else (owners phase kind).erase task := by
  ext other
  split_ifs with owns
  · rw [Finset.mem_insert, mem_owners, mem_owners]
    by_cases same : other = task
    · subst same
      simp [owns]
    · simp [same]
  rw [Finset.mem_erase, mem_owners, mem_owners]
  by_cases same : other = task
  · subst same
    simp [owns]
  · simp [same]

theorem owners_update_none {next : Phase} (before : (phase task).owns = none)
    (after : next.owns = none) :
    owners (update phase task next) kind = owners phase kind := by
  rw [owners_update, if_neg (by simp [after]), Finset.erase_eq_of_notMem]
  simp [mem_owners, before]

theorem owners_update_same {next : Phase} (same : next.owns = (phase task).owns) :
    owners (update phase task next) kind = owners phase kind := by
  rw [owners_update, same]
  split_ifs with owns
  · exact Finset.insert_eq_of_mem (mem_owners.mpr owns)
  · exact Finset.erase_eq_of_notMem fun mem => owns (mem_owners.mp mem)

end Owners

/-! ## Waking -/

section Waking

theorem wakeReaders_split (waiters : List (Waiter Task)) :
    waiters = (wakeReaders waiters).1 ++ (wakeReaders waiters).2 := by
  induction waiters with
  | nil => rfl
  | cons waiter rest ih =>
    unfold wakeReaders
    split_ifs with isReader
    · exact congrArg (waiter :: ·) ih
    · rfl

variable {waiters : List (Waiter Task)} {waiter : Waiter Task}

theorem wakeReaders_readers (mem : waiter ∈ (wakeReaders waiters).1) : waiter.kind = .read := by
  induction waiters with
  | nil => simp [wakeReaders] at mem
  | cons first rest ih =>
    unfold wakeReaders at mem
    split_ifs at mem with isReader
    · rcases mem_cons.mp mem with rfl | inRest
      · exact isReader
      · exact ih inRest
    · simp at mem

theorem wakeReaders_front {rest : List (Waiter Task)}
    (isLeft : (wakeReaders waiters).2 = waiter :: rest) : waiter.kind = .write := by
  induction waiters with
  | nil => simp [wakeReaders] at isLeft
  | cons first others ih =>
    unfold wakeReaders at isLeft
    split_ifs at isLeft with isReader
    · exact ih isLeft
    rw [cons.injEq] at isLeft
    rw [← isLeft.1]
    cases isKind : first.kind with
    | read => exact absurd isKind isReader
    | write => rfl

variable [DecidableEq Task] {phase : Task → Phase} {woken : List (Waiter Task)} {task : Task}

theorem wake_of_notMem (notWoken : ∀ waiter ∈ woken, waiter.task ≠ task) :
    wake phase woken task = phase task := by
  induction woken generalizing phase with
  | nil => rfl
  | cons waiter rest ih =>
    have ne : task ≠ waiter.task := (notWoken waiter mem_cons_self).symm
    have inRest := @ih (update phase waiter.task (.woken waiter.kind))
      fun other mem => notWoken other (mem_cons_of_mem _ mem)
    rw [update_of_ne ne] at inRest
    exact inRest

theorem wake_of_mem (distinct : (woken.map Waiter.task).Nodup) (mem : waiter ∈ woken) :
    wake phase woken waiter.task = .woken waiter.kind := by
  induction woken generalizing phase with
  | nil => simp at mem
  | cons first rest ih =>
    rw [map_cons, nodup_cons] at distinct
    rcases mem_cons.mp mem with rfl | inRest
    · have notWoken : ∀ other ∈ rest, other.task ≠ waiter.task := by
        intro other inRest same
        exact distinct.1 (same ▸ mem_map_of_mem inRest)
      have kept := @wake_of_notMem Task _ (update phase waiter.task (.woken waiter.kind))
        rest waiter.task notWoken
      rw [update_self] at kept
      exact kept
    · exact ih distinct.2 inRest

end Waking

/-! ## The invariant -/

section Invariant

variable [Fintype Task]

/-- The list has the waiting tasks, and `activity` fits the owners. -/
structure Consistent (sem : RwSemaphore Task) (phase : Task → Phase) : Prop where
  listed : ∀ task kind, ⟨task, kind⟩ ∈ sem.waitList ↔ phase task = .waiting kind
  distinct : (sem.waitList.map Waiter.task).Nodup
  balanced : Balanced sem.activity (owners phase .read) (owners phase .write)

/-- Nobody waits for a free semaphore, and behind readers a writer is the first to wait. -/
structure Waits (sem : RwSemaphore Task) : Prop where
  busy : sem.waitList ≠ [] → sem.activity ≠ 0
  front : 0 < sem.activity → ∀ waiter rest, sem.waitList = waiter :: rest → waiter.kind = .write

variable {sem : RwSemaphore Task} {phase : Task → Phase} {woken left : List (Waiter Task)}

variable {waiter : Waiter Task} {next : Phase} {kind : Kind}

theorem Consistent.owns_none (consistent : Consistent sem phase) (mem : waiter ∈ sem.waitList) :
    (phase waiter.task).owns = none := by
  rw [(consistent.listed waiter.task waiter.kind).mp mem]
  rfl

variable [DecidableEq Task]

theorem Consistent.listed_wake (consistent : Consistent ⟨activity, woken ++ left⟩ phase)
    (task : Task) (kind : Kind) : ⟨task, kind⟩ ∈ left ↔ wake phase woken task = .waiting kind := by
  have distinct := consistent.distinct
  rw [map_append, nodup_append] at distinct
  constructor
  · intro mem
    rw [wake_of_notMem, ← consistent.listed task kind]
    · exact mem_append_right _ mem
    · intro waiter inWoken same
      exact distinct.2.2 _ (mem_map_of_mem inWoken) _ (mem_map_of_mem mem) same
  intro isWaiting
  by_cases inWoken : ∃ waiter ∈ woken, waiter.task = task
  · rcases inWoken with ⟨waiter, mem, rfl⟩
    rw [wake_of_mem distinct.1 mem] at isWaiting
    cases isWaiting
  have notWoken : ∀ waiter ∈ woken, waiter.task ≠ task :=
    fun waiter mem same => inWoken ⟨waiter, mem, same⟩
  rw [wake_of_notMem notWoken, ← consistent.listed task kind] at isWaiting
  rcases mem_append.mp isWaiting with inWoken | inLeft
  · exact absurd rfl (notWoken _ inWoken)
  · exact inLeft

theorem owners_wake_readers (distinct : (woken.map Waiter.task).Nodup)
    (areReaders : ∀ waiter ∈ woken, waiter.kind = .read)
    (ownNothing : ∀ waiter ∈ woken, (phase waiter.task).owns = none) :
    (owners (wake phase woken) .read).card = (owners phase .read).card + woken.length ∧
      owners (wake phase woken) .write = owners phase .write := by
  induction woken generalizing phase with
  | nil => exact ⟨rfl, rfl⟩
  | cons waiter rest ih =>
    rw [map_cons, nodup_cons] at distinct
    have isReader := areReaders waiter mem_cons_self
    have ownsNothing := ownNothing waiter mem_cons_self
    have restNothing : ∀ other ∈ rest,
        (update phase waiter.task (.woken waiter.kind) other.task).owns = none := by
      intro other mem
      have ne : other.task ≠ waiter.task := fun same => distinct.1 (same ▸ mem_map_of_mem mem)
      rw [update_of_ne ne]
      exact ownNothing other (mem_cons_of_mem _ mem)
    rcases ih distinct.2 (fun other mem => areReaders other (mem_cons_of_mem _ mem))
      restNothing with ⟨readers, writers⟩
    have notOwner : ∀ kind, waiter.task ∉ owners phase kind := by
      intro kind mem
      rw [mem_owners, ownsNothing] at mem
      cases mem
    constructor
    · have isWake : wake phase (waiter :: rest) =
          wake (update phase waiter.task (.woken waiter.kind)) rest := rfl
      rw [isWake, readers, owners_update, if_pos (by simp [Phase.owns, isReader]),
        Finset.card_insert_of_notMem (notOwner .read), length_cons]
      omega
    · refine writers.trans ?_
      rw [owners_update, if_neg (by simp [Phase.owns, isReader]),
        Finset.erase_eq_of_notMem (notOwner .write)]

theorem Consistent.wake_readers (few : card Task < 2147483648)
    (consistent : Consistent ⟨activity, woken ++ left⟩ phase) (nonneg : 0 ≤ activity)
    (areReaders : ∀ waiter ∈ woken, waiter.kind = .read) :
    wrap (activity + woken.length) = activity + woken.length ∧
      Consistent ⟨wrap (activity + woken.length), left⟩ (wake phase woken) := by
  have distinct := consistent.distinct
  rw [map_append, nodup_append] at distinct
  rcases owners_wake_readers distinct.1 areReaders fun waiter mem =>
    consistent.owns_none (mem_append_left _ mem) with ⟨readers, writers⟩
  rcases consistent.balanced.reading_of_nonneg nonneg with ⟨isCount, noWriter⟩
  have bound := Finset.card_le_univ (owners (wake phase woken) .read)
  simp only at isCount
  have isSum : wrap (activity + woken.length) = activity + woken.length :=
    wrap_eq (by omega) (by omega)
  refine ⟨isSum, fun task kind => consistent.listed_wake task kind, distinct.2.1, ?_⟩
  have isActivity : wrap (activity + woken.length) =
      ((owners (wake phase woken) .read).card : ℤ) := by
    rw [isSum, readers, isCount]
    push_cast
    rfl
  rw [isActivity, writers, noWriter]
  exact .reading _

theorem Consistent.wake_writer (consistent : Consistent ⟨0, waiter :: left⟩ phase)
    (isWriter : waiter.kind = .write) : Consistent ⟨-1, left⟩ (wake phase [waiter]) := by
  have distinct := consistent.distinct
  rw [map_cons, nodup_cons] at distinct
  rcases consistent.balanced.reading_of_nonneg le_rfl with ⟨isCount, noWriter⟩
  have noReader : owners phase .read = ∅ := by
    have isZero : (0 : ℤ) = (owners phase .read).card := isCount
    rw [← Finset.card_eq_zero]
    omega
  refine ⟨fun task kind => @listed_wake Task 0 _ phase [waiter] left _ consistent task
    kind, distinct.2, ?_⟩
  have isWake : wake phase [waiter] = update phase waiter.task (.woken waiter.kind) := rfl
  rw [isWake, owners_update, owners_update, if_neg (by simp [Phase.owns, isWriter]),
    if_pos (by simp [Phase.owns, isWriter]), noReader, noWriter]
  exact .writing waiter.task

/-- `__rwsem_do_wake` after the writer has left, or has become the only reader. -/
theorem Consistent.rwsemDoWake (few : card Task < 2147483648) (wakewrite : Bool)
    (consistent : Consistent sem phase) (isActivity : sem.activity = if wakewrite then 0 else 1)
    (waits : sem.waitList ≠ []) :
    Consistent (rwsemDoWake sem wakewrite).1 (wake phase (rwsemDoWake sem wakewrite).2) ∧
      Waits (rwsemDoWake sem wakewrite).1 := by
  rcases sem with ⟨activity, waitList⟩
  cases waitList with
  | nil => exact absurd rfl waits
  | cons waiter rest =>
    simp only at isActivity
    unfold RwSem.rwsemDoWake
    simp only
    split_ifs with isWriter mayWrite
    · rw [if_pos mayWrite] at isActivity
      subst isActivity
      exact ⟨consistent.wake_writer isWriter, fun _ => by simp, fun pos => by simp at pos⟩
    · rw [if_neg mayWrite] at isActivity
      subst isActivity
      refine ⟨consistent, fun _ => by simp, ?_⟩
      rintro _ _ _ ⟨⟩
      exact isWriter
    have nonneg : 0 ≤ activity := by
      rw [isActivity]
      split_ifs <;> omega
    have isSplit := wakeReaders_split (waiter :: rest)
    have notEmpty : (wakeReaders (waiter :: rest)).1 ≠ [] := by
      unfold wakeReaders
      rw [if_pos (by cases isKind : waiter.kind with
        | read => rfl
        | write => exact absurd isKind isWriter)]
      simp
    rw [isSplit] at consistent
    rcases consistent.wake_readers few nonneg fun _ mem => wakeReaders_readers mem with
      ⟨isSum, woken⟩
    refine ⟨woken, ?_, fun _ _ _ isLeft => wakeReaders_front isLeft⟩
    intro _
    have pos := length_pos_iff.mpr notEmpty
    simp only [isSum]
    omega

theorem Consistent.listed_update (consistent : Consistent sem phase)
    (before : ∀ kind, phase task ≠ .waiting kind) (after : ∀ kind, next ≠ .waiting kind)
    (other : Task) (kind : Kind) :
    ⟨other, kind⟩ ∈ sem.waitList ↔ update phase task next other = .waiting kind := by
  rw [consistent.listed]
  by_cases same : other = task
  · subst same
    rw [update_self]
    exact ⟨fun isWaiting => absurd isWaiting (before kind),
      fun isWaiting => absurd isWaiting (after kind)⟩
  · rw [update_of_ne same]

theorem Consistent.grant (few : card Task < 2147483648) (consistent : Consistent sem phase)
    (isFree : sem.free kind = true) (isOutside : phase task = .outside) :
    Consistent (sem.grant kind) (update phase task (.holding kind)) ∧
      (sem.grant kind).waitList = [] ∧ sem.waitList = [] := by
  have notWaiting : ∀ kind, phase task ≠ .waiting kind := by simp [isOutside]
  have notOwner : ∀ kind, task ∉ owners phase kind := by simp [mem_owners, isOutside, Phase.owns]
  have listed := consistent.listed_update notWaiting
    (fun other => (by simp : Phase.holding kind ≠ .waiting other))
  cases kind with
  | read =>
    simp only [free, Bool.and_eq_true, decide_eq_true_eq, List.isEmpty_iff] at isFree
    rcases isFree with ⟨nonneg, isEmpty⟩
    rcases consistent.balanced.reading_of_nonneg nonneg with ⟨isCount, noWriter⟩
    have readers : owners (update phase task (.holding .read)) .read =
        insert task (owners phase .read) := by
      rw [owners_update, if_pos (by rfl)]
    have writers : owners (update phase task (.holding .read)) .write = ∅ := by
      rw [owners_update, if_neg (by simp [Phase.owns]), noWriter, Finset.erase_empty]
    have isCard := Finset.card_insert_of_notMem (notOwner .read)
    have bound := Finset.card_le_univ (insert task (owners phase .read))
    have isActivity : wrap (sem.activity + 1) =
        ((owners (update phase task (.holding .read)) .read).card : ℤ) := by
      rw [wrap_eq (by omega) (by omega), readers]
      omega
    refine ⟨⟨listed, consistent.distinct, ?_⟩, isEmpty, isEmpty⟩
    simp only [grant]
    rw [isActivity, writers]
    exact .reading _
  | write =>
    simp only [free, Bool.and_eq_true, decide_eq_true_eq, List.isEmpty_iff] at isFree
    rcases isFree with ⟨isZero, isEmpty⟩
    rcases consistent.balanced.reading_of_nonneg isZero.ge with ⟨isCount, noWriter⟩
    have noReader : owners phase .read = ∅ := by
      rw [← Finset.card_eq_zero]
      omega
    refine ⟨⟨listed, consistent.distinct, ?_⟩, isEmpty, isEmpty⟩
    rw [owners_update, owners_update, if_neg (by simp [Phase.owns]), if_pos (by rfl), noReader,
      noWriter]
    exact .writing task

theorem Consistent.append (consistent : Consistent sem phase) (waits : Waits sem)
    (notFree : sem.free kind = false) (isOutside : phase task = .outside) :
    Consistent { sem with waitList := sem.waitList ++ [⟨task, kind⟩] }
        (update phase task (.waiting kind)) ∧
      Waits { sem with waitList := sem.waitList ++ [⟨task, kind⟩] } := by
  have notListed : ∀ other, (⟨task, other⟩ : Waiter Task) ∉ sem.waitList := by
    intro other mem
    rw [consistent.listed, isOutside] at mem
    cases mem
  refine ⟨⟨?_, ?_, ?_⟩, ?_, ?_⟩
  · intro other otherKind
    simp only [mem_append, mem_singleton, Waiter.mk.injEq]
    by_cases same : other = task
    · subst same
      simp [notListed, eq_comm]
    · rw [update_of_ne same, consistent.listed]
      simp [same]
  · rw [map_append, nodup_append]
    refine ⟨consistent.distinct, by simp, ?_⟩
    intro other mem last isLast same
    rcases mem_map.mp mem with ⟨waiter, inList, rfl⟩
    obtain rfl : last = task := by simpa using isLast
    subst same
    exact notListed waiter.kind inList
  · have nothing : (Phase.waiting kind).owns = none := rfl
    rw [owners_update_none (by simp [isOutside, Phase.owns]) nothing,
      owners_update_none (by simp [isOutside, Phase.owns]) nothing]
    exact consistent.balanced
  · intro _
    by_cases isEmpty : sem.waitList = []
    · intro isZero
      cases kind <;> simp_all [free]
    · exact waits.busy isEmpty
  · intro pos waiter rest isFront
    cases isList : sem.waitList with
    | nil =>
      have isNew : waiter = ⟨task, kind⟩ := by
        simp only [isList, nil_append, cons.injEq] at isFront
        exact isFront.1.symm
      have nonneg : 0 ≤ sem.activity := le_of_lt pos
      cases kind with
      | read => simp [free, isList, nonneg] at notFree
      | write => rw [isNew]
    | cons first others =>
      have isFirst : waiter = first := by
        simp only [isList, cons_append, cons.injEq] at isFront
        exact isFront.1.symm
      rw [isFirst]
      exact waits.front pos first others isList

theorem Consistent.leave (consistent : Consistent sem phase)
    (isHolding : phase task = .holding kind) (after : ∀ kind, next ≠ .waiting kind) {activity : ℤ}
    (balanced : Balanced activity (owners (update phase task next) .read)
      (owners (update phase task next) .write)) :
    Consistent ⟨activity, sem.waitList⟩ (update phase task next) :=
  ⟨consistent.listed_update (by simp [isHolding]) after, consistent.distinct, balanced⟩

section Releases

variable (few : card Task < 2147483648) (consistent : Consistent sem phase)
include few consistent

theorem Consistent.upRead (waits : Waits sem) (isHolding : phase task = .holding .read) :
    Consistent (upRead sem).1 (wake (update phase task .outside) (upRead sem).2) ∧
      Waits (upRead sem).1 := by
  have isOwner : task ∈ owners phase .read := by simp [mem_owners, isHolding, Phase.owns]
  rcases consistent.balanced.reading_of_mem isOwner with ⟨isCount, noWriter⟩
  have isCard := Finset.card_erase_add_one isOwner
  have bound := Finset.card_le_univ (owners phase .read)
  have isLess : wrap (sem.activity - 1) = (((owners phase .read).erase task).card : ℤ) := by
    rw [wrap_eq (by omega) (by omega)]
    omega
  have left : Consistent ⟨wrap (sem.activity - 1), sem.waitList⟩
      (update phase task .outside) := by
    refine consistent.leave isHolding (by simp) ?_
    rw [owners_update, owners_update, if_neg (by simp [Phase.owns]), if_neg (by simp [Phase.owns]),
      noWriter, isLess, Finset.erase_empty]
    exact .reading _
  unfold RwSem.upRead
  simp only
  split_ifs with wakes
  · rcases wakes with ⟨isZero, notEmpty⟩
    cases isList : sem.waitList with
    | nil => simp [isList] at notEmpty
    | cons waiter rest =>
      have isWriter := waits.front (by omega) waiter rest isList
      rw [isZero, isList] at left
      simp only [rwsemWakeOneWriter]
      exact ⟨left.wake_writer isWriter, fun _ => by simp, fun pos => by simp at pos⟩
  refine ⟨left, ?_, ?_⟩
  · intro notEmpty isZero
    exact wakes ⟨isZero, by simpa using notEmpty⟩
  · intro _
    exact waits.front (by omega)

theorem Consistent.upWrite (isHolding : phase task = .holding .write) :
    Consistent (upWrite sem).1 (wake (update phase task .outside) (upWrite sem).2) ∧
      Waits (upWrite sem).1 := by
  have isOwner : task ∈ owners phase .write := by simp [mem_owners, isHolding, Phase.owns]
  rcases consistent.balanced.writing_of_mem isOwner with ⟨noReader, isWriter⟩
  have left : Consistent ⟨0, sem.waitList⟩ (update phase task .outside) := by
    refine consistent.leave isHolding (by simp) ?_
    rw [owners_update, owners_update, if_neg (by simp [Phase.owns]), if_neg (by simp [Phase.owns]),
      noReader, isWriter, Finset.erase_empty, Finset.erase_singleton]
    exact .ofEmpty
  unfold RwSem.upWrite
  simp only
  split_ifs with wakes
  · exact left.rwsemDoWake few true rfl (by simpa using wakes)
  · have isEmpty : sem.waitList = [] := by simpa using wakes
    exact ⟨left, fun notEmpty => absurd isEmpty notEmpty, fun pos => by simp at pos⟩

theorem Consistent.downgradeWrite (isHolding : phase task = .holding .write) :
    Consistent (downgradeWrite sem).1
        (wake (update phase task (.holding .read)) (downgradeWrite sem).2) ∧
      Waits (downgradeWrite sem).1 := by
  have isOwner : task ∈ owners phase .write := by simp [mem_owners, isHolding, Phase.owns]
  rcases consistent.balanced.writing_of_mem isOwner with ⟨noReader, isWriter⟩
  have left : Consistent ⟨1, sem.waitList⟩ (update phase task (.holding .read)) := by
    refine consistent.leave isHolding (by simp) ?_
    rw [owners_update, owners_update, if_pos (by rfl), if_neg (by simp [Phase.owns]), noReader,
      isWriter, Finset.erase_singleton]
    exact .reading {task}
  unfold RwSem.downgradeWrite
  simp only
  split_ifs with wakes
  · exact left.rwsemDoWake few false rfl (by simpa using wakes)
  have isEmpty : sem.waitList = [] := by simpa using wakes
  refine ⟨left, fun _ => by simp, ?_⟩
  intro _ waiter rest isFront
  simp [isEmpty] at isFront

end Releases

end Invariant

/-! ## Whole runs -/

/-- The waiters that are granted the semaphore together: one, or readers only. -/
def Batch (woken : List (Waiter Task)) : Prop :=
  woken.length ≤ 1 ∨ ∀ waiter ∈ woken, waiter.kind = .read

def TakesFront (sem : RwSemaphore Task) (result : RwSemaphore Task × List (Waiter Task)) : Prop :=
  sem.waitList = result.2 ++ result.1.waitList ∧ Batch result.2

section

variable (sem : RwSemaphore Task)
include sem

theorem takesFront_nil (activity : ℤ) :
    TakesFront sem (⟨activity, sem.waitList⟩, []) := ⟨rfl, Or.inl (Nat.zero_le 1)⟩

theorem takesFront_rwsemDoWake (activity : ℤ) (wakewrite : Bool) :
    TakesFront sem (rwsemDoWake ⟨activity, sem.waitList⟩ wakewrite) := by
  rcases sem with ⟨before, waitList⟩
  cases waitList with
  | nil => exact takesFront_nil ⟨before, []⟩ activity
  | cons waiter rest =>
    simp only [rwsemDoWake]
    split_ifs with isWriter mayWrite
    · exact ⟨rfl, .inl (le_refl 1)⟩
    · exact takesFront_nil ⟨before, waiter :: rest⟩ activity
    · exact ⟨wakeReaders_split (waiter :: rest), .inr fun _ mem => wakeReaders_readers mem⟩

theorem takesFront_upRead : TakesFront sem (upRead sem) := by
  unfold upRead
  simp only
  split_ifs with wakes
  · rcases sem with ⟨activity, waitList⟩
    cases waitList with
    | nil => simp at wakes
    | cons waiter rest => exact ⟨rfl, .inl (le_refl 1)⟩
  · exact takesFront_nil sem _

theorem takesFront_upWrite : TakesFront sem (upWrite sem) := by
  unfold upWrite
  simp only
  split_ifs
  · exact takesFront_rwsemDoWake sem 0 true
  · exact takesFront_nil sem 0

theorem takesFront_downgradeWrite : TakesFront sem (downgradeWrite sem) := by
  unfold downgradeWrite
  simp only
  split_ifs
  · exact takesFront_rwsemDoWake sem 1 false
  · exact takesFront_nil sem 1

end

inductive System.Stepped [DecidableEq Task] (system : System Task) (task : Task) :
    System Task → Prop
  | enter (kind : Kind) (isOutside : system.phase task = .outside) :
      Stepped system task (system.enter task kind (down kind))
  | tryEnter (kind : Kind) (isOutside : system.phase task = .outside) :
      Stepped system task (system.tryEnter task kind (downTrylock kind))
  | look (kind : Kind) (isWoken : system.phase task = .woken kind) : Stepped system task
        { system with phase := Function.update system.phase task (.holding kind) }
  | upRead (isHolding : system.phase task = .holding .read) :
      Stepped system task (system.leave task .outside upRead)
  | upWrite (isHolding : system.phase task = .holding .write) :
      Stepped system task (system.leave task .outside upWrite)
  | downgradeWrite (isHolding : system.phase task = .holding .write) :
      Stepped system task (system.leave task (.holding .read) downgradeWrite)
  | idle : Stepped system task system

theorem System.stepped [DecidableEq Task] (system : System Task) (event : Task × Call) :
    system.Stepped event.1 (system.step event) := by
  rcases event with ⟨task, call⟩
  unfold step
  simp only
  split
  case h_1 isOutside => exact .enter .read isOutside
  case h_2 isOutside => exact .tryEnter .read isOutside
  case h_3 isOutside => exact .enter .write isOutside
  case h_4 isOutside => exact .tryEnter .write isOutside
  case h_5 kind isWoken => exact .look kind isWoken
  case h_6 isHolding => exact .upRead isHolding
  case h_7 isHolding => exact .upWrite isHolding
  case h_8 isHolding => exact .downgradeWrite isHolding
  case h_9 => exact .idle

section Runs

variable [Fintype Task]

structure System.Sound (system : System Task) : Prop where
  consistent : Consistent system.sem system.phase
  waits : Waits system.sem
  order : system.arrived = system.granted ++ system.sem.waitList

variable {system : System Task} {task : Task}

theorem System.sound_initial : (System.initial : System Task).Sound := by
  have nobody : ∀ kind, owners (fun _ : Task => Phase.outside) kind = ∅ := by
    intro kind
    simp [owners, Phase.owns]
  refine ⟨⟨fun task kind => by simp [initial, initRwsem], by simp [initial, initRwsem], ?_⟩,
    ⟨fun notEmpty => absurd rfl notEmpty, fun pos => ?_⟩, rfl⟩
  · simp only [initial, initRwsem, nobody]
    exact .ofEmpty
  · simp [initial, initRwsem] at pos

variable [DecidableEq Task]

section

variable (few : card Task < 2147483648) (sound : system.Sound)
include few sound

theorem System.Sound.grant {kind : Kind} (isFree : system.sem.free kind = true)
    (isOutside : system.phase task = .outside) :
    ({ system with
      sem := system.sem.grant kind
      phase := update system.phase task (.holding kind) } : System Task).Sound := by
  rcases sound.consistent.grant few isFree isOutside with ⟨granted, isEmpty, wasEmpty⟩
  refine ⟨granted, ⟨fun notEmpty => absurd isEmpty notEmpty, ?_⟩, ?_⟩
  · intro _ waiter rest isFront
    simp only [isEmpty] at isFront
    cases isFront
  · simp only [isEmpty]
    rw [sound.order, wasEmpty]

theorem System.Sound.enter (kind : Kind) (isOutside : system.phase task = .outside) :
    (system.enter task kind (down kind)).Sound := by
  unfold System.enter down
  cases isFree : system.sem.free kind with
  | true => exact sound.grant few isFree isOutside
  | false =>
    rcases sound.consistent.append sound.waits isFree isOutside with ⟨appended, waits⟩
    refine ⟨appended, waits, ?_⟩
    simp [sound.order]

theorem System.Sound.tryEnter (kind : Kind) (isOutside : system.phase task = .outside) :
    (system.tryEnter task kind (downTrylock kind)).Sound := by
  unfold System.tryEnter downTrylock
  cases isFree : system.sem.free kind with
  | true => exact sound.grant few isFree isOutside
  | false => exact sound

end

theorem System.Sound.leave (sound : system.Sound) {next : Phase}
    {locked : RwSemaphore Task → RwSemaphore Task × List (Waiter Task)}
    (takes : TakesFront system.sem (locked system.sem)) (left : Consistent (locked system.sem).1
        (wake (update system.phase task next) (locked system.sem).2) ∧
      Waits (locked system.sem).1) : (system.leave task next locked).Sound := by
  refine ⟨left.1, left.2, ?_⟩
  simp only [System.leave]
  rw [sound.order, append_assoc, ← takes.1]

theorem System.Sound.step (few : card Task < 2147483648) (sound : system.Sound)
    (event : Task × Call) : (system.step event).Sound := by
  have stepped := system.stepped event
  generalize system.step event = next at stepped ⊢
  cases stepped with
  | enter kind isOutside => exact sound.enter few kind isOutside
  | tryEnter kind isOutside => exact sound.tryEnter few kind isOutside
  | look kind isWoken =>
    have sameOwns : (Phase.holding kind).owns = (system.phase event.1).owns := by
      rw [isWoken]
      rfl
    refine ⟨⟨?_, sound.consistent.distinct, ?_⟩, sound.waits, sound.order⟩
    · exact sound.consistent.listed_update (by simp [isWoken]) (by simp)
    · rw [owners_update_same sameOwns, owners_update_same sameOwns]
      exact sound.consistent.balanced
  | upRead isHolding =>
    exact sound.leave (takesFront_upRead _) (sound.consistent.upRead few sound.waits isHolding)
  | upWrite isHolding =>
    exact sound.leave (takesFront_upWrite _) (sound.consistent.upWrite few isHolding)
  | downgradeWrite isHolding =>
    exact sound.leave (takesFront_downgradeWrite _) (sound.consistent.downgradeWrite few isHolding)
  | idle => exact sound

theorem System.sound_run (few : card Task < 2147483648) (events : List (Task × Call)) :
    (Run.run step initial events : System Task).Sound :=
  Run.invariant_always System.Sound (fun _ event sound => sound.step few event) sound_initial
    events

end Runs

/-! ## Order -/

section Order

theorem waitList_of_free {sem : RwSemaphore Task} {kind : Kind} (isFree : sem.free kind = true) :
    sem.waitList = [] := by
  cases kind <;> simp_all [free]

variable [DecidableEq Task]

/-- A step grants at most one batch, and a task that asks for the semaphore does not pass those
who wait. -/
structure System.Fair (system : System Task) (task : Task) (next : System Task) : Prop where
  batch : ∃ woken, next.granted = system.granted ++ woken ∧ Batch woken
  noPassing : system.phase task = .outside → (next.phase task).owns ≠ none →
    system.sem.waitList = []

theorem System.fair_step (system : System Task) (event : Task × Call) :
    system.Fair event.1 (system.step event) := by
  have nothing : ∃ woken, system.granted = system.granted ++ woken ∧ Batch woken :=
    ⟨[], (append_nil _).symm, Or.inl (Nat.zero_le 1)⟩
  have stepped := system.stepped event
  generalize system.step event = next at stepped ⊢
  cases stepped with
  | enter kind isOutside =>
    unfold System.enter down
    cases isFree : system.sem.free kind with
    | true => exact ⟨nothing, fun _ _ => waitList_of_free isFree⟩
    | false => exact ⟨nothing, fun _ owns => absurd (by simp [Phase.owns]) owns⟩
  | tryEnter kind isOutside =>
    unfold System.tryEnter downTrylock
    cases isFree : system.sem.free kind with
    | true => exact ⟨nothing, fun _ _ => waitList_of_free isFree⟩
    | false => exact ⟨nothing, fun _ owns => absurd (by simp [isOutside, Phase.owns]) owns⟩
  | look kind isWoken => exact ⟨nothing, fun isOutside => by simp [isWoken] at isOutside⟩
  | upRead isHolding =>
    exact ⟨⟨_, rfl, (takesFront_upRead _).2⟩, fun isOutside => by simp [isHolding] at isOutside⟩
  | upWrite isHolding =>
    exact ⟨⟨_, rfl, (takesFront_upWrite _).2⟩, fun isOutside => by simp [isHolding] at isOutside⟩
  | downgradeWrite isHolding =>
    exact ⟨⟨_, rfl, (takesFront_downgradeWrite _).2⟩,
      fun isOutside => by simp [isHolding] at isOutside⟩
  | idle => exact ⟨nothing, fun isOutside owns => absurd (by simp [isOutside, Phase.owns]) owns⟩

end Order

/-! ## Kernel tasks -/

/-- A pointer to a `task_struct`, which is aligned to words. -/
def TaskPointer : Type := {address : Fin 4294967296 // address.val % 4 = 0}

instance : DecidableEq TaskPointer :=
  inferInstanceAs (DecidableEq {address : Fin 4294967296 // address.val % 4 = 0})

instance : Fintype TaskPointer :=
  inferInstanceAs (Fintype {address : Fin 4294967296 // address.val % 4 = 0})

theorem card_taskPointer : card TaskPointer < 2147483648 := by
  have injective : Function.Injective fun task : TaskPointer =>
      (⟨task.val.val / 4, by have := task.val.isLt; omega⟩ : Fin 1073741824) := by
    rintro ⟨first, firstAligned⟩ ⟨second, secondAligned⟩ same
    simp only [Fin.mk.injEq] at same
    apply Subtype.ext
    apply Fin.ext
    change first.val = second.val
    omega
  have bound := Fintype.card_le_of_injective _ injective
  rw [Fintype.card_fin] at bound
  omega

/-- In every run, `activity` counts the owners, with the waiters that were woken; a writer is the
only owner; nobody waits for a free semaphore, and behind readers a writer is the first to wait.
The waiters are woken in the order of their arrival, one writer or some readers at a time, and
nobody passes them. -/
theorem System.exclusive_run (events : List (TaskPointer × Call)) :
    let system : System TaskPointer := Run.run step initial events
    (system.sem.activity = -1 ↔ (owners system.phase .write).card = 1) ∧
    (system.sem.activity ≠ -1 → system.sem.activity = (owners system.phase .read).card) ∧
    (∀ writer ∈ owners system.phase .write, owners system.phase .write = {writer} ∧
      owners system.phase .read = ∅) ∧
    (∀ task kind, system.phase task = .woken kind → task ∈ owners system.phase kind) ∧
    (∀ waiter rest, system.sem.waitList = waiter :: rest →
      system.sem.activity ≠ 0 ∧ (0 < system.sem.activity → waiter.kind = .write)) ∧
    system.arrived = system.granted ++ system.sem.waitList ∧
    ∀ event, system.Fair event.1 (system.step event) := by
  intro system
  have sound : system.Sound := sound_run card_taskPointer events
  have balanced := sound.consistent.balanced
  refine ⟨balanced.activity_eq.1, balanced.activity_eq.2, ?_, ?_, ?_, sound.order,
    system.fair_step⟩
  · intro writer mem
    rcases balanced.writing_of_mem mem with ⟨noReader, isWriter⟩
    exact ⟨isWriter, noReader⟩
  · intro task kind isWoken
    rw [mem_owners, isWoken]
    rfl
  · intro waiter rest isFront
    exact ⟨sound.waits.busy (by simp [isFront]), fun pos =>
      sound.waits.front pos waiter rest isFront⟩

end StreakKernel.RwSem
