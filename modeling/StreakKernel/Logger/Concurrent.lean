import StreakKernel.Lib.Run
import StreakKernel.Logger.Entries

/-!
# Concurrent writers

A writer reads the write offset before it waits for the mutex, and a write that fails puts
that offset back. Another writer may have added an entry in between, which is then cut
off.
-/

namespace StreakKernel.Logger

open List

/-- What the threads may do next. A write is two events. -/
inductive Event where
  | enter (writer : ℕ) (request : WriteRequest)
  | finish (writer : ℕ)
  | openReader
  | read (reader count : ℕ) (fault : Bool)

/-- A log, the writers between their two events with the offset read, and the entries that were
written. -/
structure Race where
  system : System
  waiting : ℕ → Option (ℕ × WriteRequest)
  written : List (List UInt8)

namespace Race

def initial (size : ℕ) : Race := ⟨System.initial size, fun _ => none, []⟩

/-- An empty write returns at once, and a writer that waits cannot begin again. -/
def enter (race : Race) (writer : ℕ) (request : WriteRequest) : Race :=
  if request.payloadLen = 0 ∨ race.waiting writer ≠ none then race
  else
    let pending := some (race.system.log.wOff, request)
    { race with waiting := Function.update race.waiting writer pending }

def finish (race : Race) (writer : ℕ) : Race :=
  match race.waiting writer with
  | none => race
  | some (orig, request) =>
    let result := loggerAioWriteLocked race.system orig request
    { system := result.1
      waiting := Function.update race.waiting writer none
      written := race.written ++ request.added result.2 }

def step (race : Race) : Event → Race
  | .enter writer request => race.enter writer request
  | .finish writer => race.finish writer
  | .openReader => { race with system := loggerOpen race.system }
  | .read reader count fault =>
    { race with system := (loggerRead race.system reader count fault).1 }

def after (size : ℕ) (events : List Event) : Race := Run.run step (initial size) events

end Race

/-- Every entry that has left the log has been lapped: from its start on, more bytes were written
than the ring has. -/
structure Retained (size : ℕ) (race : Race) : Prop where
  size_eq : race.system.log.size = size
  entries : ∃ lapped entries, race.written = lapped ++ entries ∧
    (∀ index < lapped.length, size < (race.written.drop index).flatten.length) ∧
    Holds race.system.log race.system.log.head entries ∧
    ∀ (reader off : ℕ), race.system.readers[reader]? = some off →
      ∃ unread, unread <:+ entries ∧ Holds race.system.log off unread

def Log.reaches (log : Log) (len off : ℕ) : Bool :=
  clockInterval log.wOff (log.offset (log.wOff + len)) off

/-- A copy of `count` bytes faults, with `room` bytes up to the end of the ring. -/
def Segment.faults (segment : Segment) (count room : ℕ) : Bool :=
  decide (min count room ≠ 0 ∧ segment.firstFault ≠ none ∨
    count ≠ min count room ∧ segment.secondFault ≠ none)

/-- A copy of the segments faults, `ret` bytes of `len` having been copied. -/
def segmentsFault (size len : ℕ) : List Segment → ℕ → ℕ → Bool
  | [], _, _ => false
  | segment :: rest, ret, off =>
    let count := min segment.bytes.length (len - ret)
    segment.faults count (size - off) ||
      segmentsFault size len rest (ret + count) (off + count &&& size - 1)

def WriteRequest.faults (request : WriteRequest) (log : Log) : Bool :=
  segmentsFault log.size request.payloadLen request.segments 0
    (log.offset (log.wOff + headerSize))

/-- A write with a copy that faults has read the current write offset, and does not reach the head.
If another one reaches it, no entry begins in the last `free` of the `len` bytes from the head. -/
def OrderlyWrite (system : System) (orig : ℕ) (request : WriteRequest) : Prop :=
  let log := system.log
  let len := request.entry.length
  let free := (log.head + log.size - log.wOff) % log.size
  if request.faults log then orig = log.wOff ∧ log.reaches len log.head = false
  else log.reaches len log.head = true →
    ∀ distance ∈ entryDistances log log.head len 0, free + distance < len
  deriving Decidable

def Orderly (race : Race) : Event → Prop
  | .finish writer => ∀ pending ∈ race.waiting writer, OrderlyWrite race.system pending.1 pending.2
  | _ => True

instance Orderly.decidable (race : Race) : ∀ event, Decidable (Orderly race event)
  | .finish _ => inferInstanceAs (Decidable (∀ pending ∈ _, _))
  | .enter _ _ => isTrue trivial
  | .openReader => isTrue trivial
  | .read _ _ _ => isTrue trivial

theorem retained_initial {size : ℕ} (pos : 0 < size) : Retained size (Race.initial size) := by
  refine ⟨rfl, [], [], rfl, by simp, ?_, ?_⟩
  · exact ⟨pos, by simp, rfl, Nat.zero_mod _, pos⟩
  · intro reader off isReader
    simp [Race.initial, System.initial] at isReader

section Steps

variable {size : ℕ} {race : Race}

theorem Retained.openReader (retained : Retained size race) :
    Retained size (race.step .openReader) := by
  rcases retained.entries with ⟨lapped, entries, split, overwritten, holds, readers⟩
  refine ⟨retained.size_eq, lapped, entries, split, overwritten, holds, ?_⟩
  intro reader off isReader
  simp only [Race.step, loggerOpen, getElem?_append] at isReader
  split_ifs at isReader with old
  · exact readers reader off isReader
  rw [getElem?_singleton] at isReader
  split_ifs at isReader
  simp only [Option.some.injEq] at isReader
  subst isReader
  exact ⟨entries, suffix_rfl, holds⟩

theorem Retained.read (valid : ValidSize size) (retained : Retained size race)
    (reader count : ℕ) (fault : Bool) : Retained size (race.step (.read reader count fault)) := by
  have logValid : ValidSize race.system.log.size := by rwa [retained.size_eq]
  rcases retained.entries with ⟨lapped, entries, split, overwritten, holds, readers⟩
  cases isReader : race.system.readers[reader]? with
  | none =>
    have unchanged : race.step (.read reader count fault) = race := by
      simp [Race.step, loggerRead, isReader]
    rw [unchanged]
    exact retained
  | some off =>
    rcases readers reader off isReader with ⟨unread, isSuffix, unreadHolds⟩
    rcases (unreadHolds.readsOldest logValid isReader).cases count fault with
      ⟨result, _, same⟩ | ⟨oldest, rest, next, rfl, nextHolds, advanced⟩
    · have unchanged : race.step (.read reader count fault) = race := by
        simp [Race.step, same]
      rw [unchanged]
      exact retained
    refine ⟨by simpa [Race.step, advanced] using retained.size_eq, lapped, entries, split,
      overwritten, by simpa [Race.step, advanced] using holds, ?_⟩
    intro other otherOff isOther
    simp only [Race.step, advanced] at isOther ⊢
    rw [getElem?_set] at isOther
    split_ifs at isOther with isSame inRange
    · simp only [Option.some.injEq] at isOther
      subst isOther
      exact ⟨rest, (suffix_cons oldest rest).trans isSuffix, nextHolds⟩
    · exact readers other otherOff isOther

theorem Retained.enter (retained : Retained size race) (writer : ℕ) (request : WriteRequest) :
    Retained size (race.step (.enter writer request)) := by
  simp only [Race.step, Race.enter]
  split_ifs
  · exact retained
  · exact ⟨retained.size_eq, retained.entries⟩

variable {short entries : List (List UInt8)} {system : System}

theorem length_flatten_le_of_suffix {long : List (List UInt8)} (isSuffix : short <:+ long) :
    short.flatten.length ≤ long.flatten.length := by
  rcases isSuffix with ⟨front, rfl⟩
  simp

theorem suffix_of_length_flatten_lt {kept whole : List (List UInt8)} {last : List UInt8}
    (isSuffix : short <:+ whole) (keptSuffix : (last :: kept) <:+ whole)
    (less : short.flatten.length < (last :: kept).flatten.length) : short <:+ kept := by
  rcases suffix_or_suffix_of_suffix isSuffix keptSuffix with within | beyond
  · rcases suffix_cons_iff.mp within with same | inside
    · rw [same] at less
      exact absurd less (lt_irrefl _)
    · exact inside
  · exact absurd (length_flatten_le_of_suffix beyond) (Nat.not_le_of_lt less)

theorem Holds.distance {log : Log} {off : ℕ} (holds : Holds log off entries)
    (pos : 0 < entries.flatten.length) :
    (off + log.size - log.wOff) % log.size = log.size - entries.flatten.length := by
  have inside := holds.inside
  have room := holds.room
  have ends := holds.ends
  rcases lt_or_ge (off + entries.flatten.length) log.size with lower | upper
  · rw [Nat.mod_eq_of_lt lower] at ends
    rw [Nat.mod_eq_of_lt (by omega)]
    omega
  · rw [Nat.mod_eq_sub_mod upper, Nat.mod_eq_of_lt (by omega)] at ends
    rw [show off + log.size - log.wOff = log.size - entries.flatten.length + log.size by omega,
      Nat.add_mod_right, Nat.mod_eq_of_lt (by omega)]

/-- A write drops entries that it laps, and no offset is left on one of those. -/
structure Drops (system : System) (len : ℕ) (added dropped kept : List (List UInt8)) : Prop where
  room : kept.flatten.length + len < system.log.size
  holds : Holds system.log (fixUp system.log len system.log.head) kept
  overwritten : ∀ index < dropped.length,
    system.log.size < ((dropped ++ kept ++ added).drop index).flatten.length
  spared : ∀ unread, unread <:+ dropped ++ kept →
    unread.flatten.length + len < system.log.size → unread <:+ kept

theorem Holds.drops_nil {len : ℕ} {added : List (List UInt8)} (valid : ValidSize system.log.size)
    (pos : 0 < len) (most : len ≤ entryMaxLen) (holds : Holds system.log system.log.head entries)
    (fits : entries.flatten.length + len < system.log.size) :
    Drops system len added [] entries := by
  refine ⟨fits, ?_, by simp, fun unread isSuffix _ => isSuffix⟩
  rw [holds.fixUp_of_lt valid pos most fits]
  exact holds

theorem doWriteLogFromUser_faults (log : Log) (segment : Segment) {count : ℕ}
    (le : count ≤ segment.bytes.length) :
    if segment.faults count (log.size - log.wOff) then
      (doWriteLogFromUser log segment count).2 = false
    else doWriteLogFromUser log segment count =
      (doWriteLog log (segment.bytes.take count), true) := by
  have isCount : (segment.bytes.take count).length = count := length_take_of_le le
  unfold doWriteLogFromUser Segment.faults
  dsimp only
  rw [isCount]
  by_cases first : min count (log.size - log.wOff) ≠ 0 ∧ segment.firstFault ≠ none
  · rw [if_pos (decide_eq_true (.inl first)), if_pos first]
  rw [if_neg first]
  by_cases second : count ≠ min count (log.size - log.wOff) ∧ segment.secondFault ≠ none
  · rw [if_pos (decide_eq_true (.inr second)), if_pos second]
  · rw [if_neg second, if_neg fun faults => (of_decide_eq_true faults).elim first second]

theorem writeSegments_eq_none_iff (len : ℕ) (segments : List Segment) (ret : ℕ) (log : Log) :
    (writeSegments len segments ret log).2 = none ↔
      segmentsFault log.size len segments ret log.wOff = true := by
  induction segments generalizing ret log with
  | nil => simp [writeSegments, segmentsFault]
  | cons segment rest ih =>
    have le := Nat.min_le_left segment.bytes.length (len - ret)
    have isCount : (segment.bytes.take (min segment.bytes.length (len - ret))).length =
        min segment.bytes.length (len - ret) := length_take_of_le le
    have copied := doWriteLogFromUser_faults log segment le
    unfold writeSegments segmentsFault
    dsimp only
    generalize min segment.bytes.length (len - ret) = count at copied isCount ⊢
    split_ifs at copied with faults
    · rcases isResult : doWriteLogFromUser log segment count with ⟨after, done⟩
      rw [isResult] at copied
      dsimp only at copied
      simp [copied, faults]
    · rw [copied]
      dsimp only
      rw [ih, doWriteLog]
      dsimp only
      rw [isCount]
      simp [faults, Log.offset]

theorem loggerAioWriteLocked_eq_none_iff (system : System) (orig : ℕ) (request : WriteRequest) :
    (loggerAioWriteLocked system orig request).2 = none ↔
      request.faults system.log = true := by
  have isFault := writeSegments_eq_none_iff request.payloadLen request.segments 0
    (doWriteLog (fixUpReaders system (headerSize + request.payloadLen)).log request.header)
  have isOffset : (doWriteLog (fixUpReaders system (headerSize + request.payloadLen)).log
      request.header).wOff = system.log.offset (system.log.wOff + headerSize) := by
    simp [doWriteLog, fixUpReaders, Log.offset, request.length_header]
  rw [isOffset] at isFault
  refine Iff.trans ?_ isFault
  unfold loggerAioWriteLocked
  dsimp only
  split
  · next written => simp [written]
  · next written => simp [written]

theorem Holds.orderly_write {orig : ℕ} {request : WriteRequest}
    (valid : ValidSize system.log.size) (holds : Holds system.log system.log.head entries)
    (orderly : OrderlyWrite system orig request) :
    ((loggerAioWriteLocked system orig request).2 = none → orig = system.log.wOff) ∧
    ∃ dropped kept, entries = dropped ++ kept ∧ Drops system request.entry.length
      (request.added (loggerAioWriteLocked system orig request).2) dropped kept := by
  have pos := request.length_entry_pos
  have most := request.isEntry.most
  have crossed := holds.crossed_iff valid pos most
  simp only [OrderlyWrite, Log.reaches] at orderly
  rw [loggerAioWriteLocked_eq_none_iff]
  split_ifs at orderly with failed
  · refine ⟨fun _ => orderly.1, [], entries, rfl, holds.drops_nil valid pos most ?_⟩
    apply Nat.lt_of_not_le
    rw [← crossed, orderly.2]
    exact Bool.false_ne_true
  refine ⟨fun fails => absurd fails failed, ?_⟩
  rcases lt_or_ge (entries.flatten.length + request.entry.length) system.log.size with
    fits | full
  · exact ⟨[], entries, rfl, holds.drops_nil valid pos most fits⟩
  rcases holds.fixUp_of_le valid pos most full with
    ⟨skipped, last, kept, rfl, keptHolds, mem, upper⟩
  have least := (holds.isEntry last (by simp)).least
  have isLength : (skipped ++ last :: kept).flatten.length =
      skipped.flatten.length + (last :: kept).flatten.length := by
    rw [flatten_append, length_append]
  have isLast : (last :: kept).flatten.length = last.length + kept.flatten.length := by
    rw [flatten_cons, length_append]
  have overwrites := orderly (crossed.mpr full) _ mem
  simp only [headerSize] at least
  rw [holds.distance (by omega)] at overwrites
  have lastSuffix : (last :: kept) <:+ (skipped ++ last :: kept) := suffix_append _ _
  have room := holds.room
  simp only [flatten_append, length_append] at room
  have again : skipped ++ [last] ++ kept = skipped ++ last :: kept := by simp
  refine ⟨skipped ++ [last], kept, again.symm, ?_, keptHolds, ?_, ?_⟩
  · simp only [flatten_cons, length_append] at room
    omega
  · intro index bound
    cases succeeded : (loggerAioWriteLocked system orig request).2 with
    | none => exact absurd ((loggerAioWriteLocked_eq_none_iff _ _ _).mp succeeded) failed
    | some ret =>
      have early : index ≤ skipped.length := by
        rw [length_append, length_singleton] at bound
        omega
      have tail : ((last :: kept) ++ [request.entry]) <:+
          ((skipped ++ last :: kept ++ [request.entry]).drop index) := by
        rw [append_assoc, drop_append_of_le_length early]
        exact suffix_append _ _
      have more := length_flatten_le_of_suffix tail
      rw [flatten_append, length_append, flatten_singleton] at more
      rw [again]
      simp only [WriteRequest.added]
      omega
  · rw [again]
    intro unread isSuffix unreadRoom
    exact suffix_of_length_flatten_lt isSuffix lastSuffix (by omega)

theorem Retained.finish (valid : ValidSize size) (retained : Retained size race) (writer : ℕ)
    (orderly : Orderly race (.finish writer)) : Retained size (race.step (.finish writer)) := by
  have logValid : ValidSize race.system.log.size := by rwa [retained.size_eq]
  simp only [Race.step, Race.finish]
  cases waits : race.waiting writer with
  | none => exact retained
  | some pending =>
    rcases pending with ⟨orig, request⟩
    rcases retained.entries with ⟨lapped, entries, split, overwritten, holds, readers⟩
    have inside := holds.wOff_lt
    rcases holds.orderly_write logValid (orderly _ waits) with
      ⟨restores, dropped, kept, rfl, drops⟩
    rcases @loggerAioWriteLocked_offsets race.system orig request logValid inside with
      ⟨sameReaders, sameHead, sameSize⟩
    refine ⟨sameSize.trans retained.size_eq, lapped ++ dropped, _, ?_, ?_,
      sameHead ▸ drops.holds.write_kept logValid inside restores drops.room, ?_⟩
    · simp [split]
    · intro index bound
      rw [length_append] at bound
      simp only
      rcases lt_or_ge index lapped.length with old | new
      · apply lt_of_lt_of_le (overwritten index old)
        rw [drop_append_of_le_length]
        · simp
        · rw [split, length_append]
          omega
      · have newly := drops.overwritten (index - lapped.length) (by omega)
        rw [split, append_assoc, drop_append, drop_of_length_le new, nil_append, ← retained.size_eq]
        exact newly
    · intro reader off isReader
      simp only [sameReaders, getElem?_map, Option.map_eq_some_iff] at isReader
      rcases isReader with ⟨old, isOld, rfl⟩
      rcases readers reader old isOld with ⟨unread, isSuffix, unreadHolds⟩
      rcases unreadHolds.write logValid inside restores with
        ⟨passed, left, rfl, leftRoom, leftHolds⟩
      refine ⟨_, ?_, leftHolds⟩
      rcases drops.spared left ((suffix_append passed left).trans isSuffix) leftRoom with
        ⟨front, isKept⟩
      exact ⟨front, by rw [← isKept, append_assoc]⟩

theorem Retained.step (valid : ValidSize size) (retained : Retained size race) (event : Event)
    (orderly : Orderly race event) : Retained size (race.step event) := by
  cases event with
  | enter writer request => exact retained.enter writer request
  | finish writer => exact retained.finish valid writer orderly
  | openReader => exact retained.openReader
  | read reader count fault => exact retained.read valid reader count fault

end Steps

/-- In every interleaving whose writes are orderly, only lapped entries are removed. -/
theorem retained_after (exponent : ℕ) (large : entryMaxLen < 2 ^ exponent) (events : List Event)
    (orderly : Run.Admits Race.step Orderly (Race.initial (2 ^ exponent)) events) :
    Retained (2 ^ exponent) (Race.after (2 ^ exponent) events) := by
  have valid : ValidSize (2 ^ exponent) := ⟨⟨exponent, rfl⟩, large⟩
  apply Run.invariant_run (Retained (2 ^ exponent)) ?_ ?_ orderly
  · exact fun race event retained meets => retained.step valid event meets
  · exact retained_initial (Nat.zero_lt_of_lt large)

/-- Two writers wait, the first one succeeds and the second one fails after it. -/
theorem retained_after_two_writers : entryMaxLen < 2 ^ 13 ∧ Retained (2 ^ 13) (Race.after (2 ^ 13)
      [.openReader, .enter 0 (WriteRequest.short none), .finish 0,
        .enter 1 (WriteRequest.short (some [])), .enter 2 (WriteRequest.short none),
        .finish 1, .finish 2, .read 0 entryMaxLen false]) :=
  ⟨by decide, retained_after 13 (by decide) _ (by decide +kernel)⟩

/-- A writer that fails cuts off the entry that another one has added meanwhile. -/
theorem not_retained_after_rollback : ¬ Retained (2 ^ 13) (Race.after (2 ^ 13)
      [.enter 0 (WriteRequest.short (some [])), .enter 1 (WriteRequest.short none),
        .finish 1, .finish 0]) := by
  intro retained
  rcases retained.entries with ⟨lapped, entries, split, overwritten, holds, _⟩
  cases entries with
  | nil =>
    have isLapped : lapped = [(WriteRequest.short none).entry] :=
      ((append_nil lapped).symm.trans split.symm).trans (by rfl)
    have bytes := overwritten 0 (by rw [isLapped, length_singleton]; omega)
    exact absurd bytes (by decide)
  | cons entry rest => exact holds.wOff_ne (by rfl)

end StreakKernel.Logger
