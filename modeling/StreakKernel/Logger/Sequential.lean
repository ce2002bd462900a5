import StreakKernel.Lib.Run
import StreakKernel.Logger.Entries

/-!
# Whole operations on a log

Runs of complete operations. A history records the entries whose writes succeeded
and, for each reader, the entries it has been given.
-/

namespace StreakKernel.Logger

open List

inductive Operation where
  | openReader
  | read (reader count : ℕ) (fault : Bool)
  | write (request : WriteRequest)
  | flush

structure History where
  system : System
  written : List (List UInt8)
  taken : List (List (List UInt8))

namespace History

def initial (size : ℕ) : History := ⟨System.initial size, [], []⟩

def recordRead (taken : List (List (List UInt8))) (reader : ℕ) :
    ReadResult → List (List (List UInt8))
  | .entry bytes => taken.modify reader (· ++ [bytes])
  | _ => taken

/-- What has been written after one more `logger_aio_write`; an empty one writes nothing. -/
def recordWrite (written : List (List UInt8)) (request : WriteRequest) (result : Option ℕ) :
    List (List UInt8) :=
  if request.payloadLen = 0 then written else written ++ request.added result

def step (history : History) : Operation → History
  | .openReader => { history with
      system := loggerOpen history.system
      taken := history.taken ++ [[]] }
  | .read reader count fault =>
    let result := loggerRead history.system reader count fault
    { history with system := result.1, taken := recordRead history.taken reader result.2 }
  | .write request =>
    let result := loggerAioWrite history.system request
    { history with system := result.1, written := recordWrite history.written request result.2 }
  | .flush => { history with system := loggerFlushLog history.system }

end History

/-- Every offset is followed by a suffix of what has been written. -/
structure Faithful (size : ℕ) (history : History) : Prop where
  size_eq : history.system.log.size = size
  head : ∃ entries, entries <:+ history.written ∧
    Holds history.system.log history.system.log.head entries
  length_taken : history.taken.length = history.system.readers.length
  readers : ∀ (reader off : ℕ) (taken : List (List UInt8)),
    history.system.readers[reader]? = some off → history.taken[reader]? = some taken →
      ∃ past entries, history.written = past ++ entries ∧
      Holds history.system.log off entries ∧ List.Sublist taken past

theorem faithful_initial {size : ℕ} (valid : ValidSize size) :
    Faithful size (History.initial size) := by
  have pos : 0 < size := Nat.zero_lt_of_lt valid.large
  refine ⟨rfl, ⟨[], nil_suffix, ?_⟩, rfl, ?_⟩
  · exact ⟨pos, by simp, rfl, Nat.zero_mod _, pos⟩
  · intro reader off taken isReader
    simp [History.initial, System.initial] at isReader

section Steps

variable {size : ℕ} {history : History}

namespace Faithful

theorem openReader (faithful : Faithful size history) :
    Faithful size (history.step .openReader) := by
  have length := faithful.length_taken
  refine ⟨faithful.size_eq, faithful.head, ?_, ?_⟩
  · simp [History.step, loggerOpen, length]
  intro reader off taken isReader isTaken
  simp only [History.step, loggerOpen, getElem?_append, length] at isReader isTaken
  split_ifs at isReader isTaken with old
  · exact faithful.readers reader off taken isReader isTaken
  rcases faithful.head with ⟨entries, ⟨past, isSuffix⟩, holds⟩
  rw [getElem?_singleton] at isReader isTaken
  split_ifs at isReader isTaken
  simp only [Option.some.injEq] at isReader isTaken
  subst isReader isTaken
  exact ⟨past, entries, isSuffix.symm, holds, nil_sublist _⟩

theorem flush (faithful : Faithful size history) :
    Faithful size (history.step .flush) := by
  have empty : Holds (loggerFlushLog history.system).log history.system.log.wOff [] := by
    rcases faithful.head with ⟨entries, _, holds⟩
    have inside := holds.wOff_lt
    exact ⟨inside, by simp, rfl, Nat.mod_eq_of_lt inside, Nat.zero_lt_of_lt inside⟩
  refine ⟨faithful.size_eq, ⟨[], nil_suffix, empty⟩, ?_, ?_⟩
  · simpa [History.step, loggerFlushLog] using faithful.length_taken
  intro reader off taken isReader isTaken
  simp only [History.step, loggerFlushLog, getElem?_map, Option.map_eq_some_iff] at isReader
  rcases isReader with ⟨old, isOld, rfl⟩
  rcases faithful.readers reader old taken isOld isTaken with ⟨past, entries, split, _, given⟩
  refine ⟨past ++ entries, [], ?_, empty, given.trans (sublist_append_left past entries)⟩
  rw [append_nil]
  exact split

theorem read (valid : ValidSize size) (faithful : Faithful size history) (reader count : ℕ)
    (fault : Bool) : Faithful size (history.step (.read reader count fault)) := by
  cases isReader : history.system.readers[reader]? with
  | none =>
    have unchanged : history.step (.read reader count fault) = history := by
      simp [History.step, loggerRead, isReader, History.recordRead]
    rw [unchanged]
    exact faithful
  | some off =>
    have inTaken : reader < history.taken.length := by
      rw [faithful.length_taken]
      exact (List.getElem?_eq_some_iff.mp isReader).1
    rcases faithful.readers reader off _ isReader (List.getElem?_eq_getElem inTaken) with
      ⟨past, entries, split, holds, given⟩
    have oldest := holds.readsOldest (by rwa [faithful.size_eq]) isReader
    rcases oldest.cases count fault with
      ⟨result, notEntry, same⟩ | ⟨entry, rest, next, rfl, nextHolds, result⟩
    · have unchanged : history.step (.read reader count fault) = history := by
        simp only [History.step, same]
        cases result with
        | entry bytes => exact absurd rfl (notEntry bytes)
        | _ => rfl
      rw [unchanged]
      exact faithful
    simp only [History.step, result, History.recordRead]
    refine ⟨faithful.size_eq, faithful.head, ?_, ?_⟩
    · simpa using faithful.length_taken
    intro other off taken isOther isTaken
    rw [getElem?_set] at isOther
    rw [getElem?_modify] at isTaken
    split_ifs at isOther with isSame inRange
    · subst isSame
      simp only [Option.some.injEq] at isOther
      subst isOther
      simp only [if_true, getElem?_eq_getElem inTaken, Option.map_eq_map,
        Option.map_some, Option.some.injEq] at isTaken
      subst isTaken
      refine ⟨past ++ [entry], rest, by simpa using split, nextHolds, ?_⟩
      exact given.append (List.Sublist.refl [entry])
    · simp only [isSame, if_false, Option.map_eq_map, Option.map_id'] at isTaken
      exact faithful.readers other off taken isOther isTaken

theorem write (valid : ValidSize size) (faithful : Faithful size history)
    (request : WriteRequest) : Faithful size (history.step (.write request)) := by
  by_cases empty : request.payloadLen = 0
  · have unchanged : history.step (.write request) = history := by
      simp [History.step, loggerAioWrite, empty, History.recordWrite]
    rw [unchanged]
    exact faithful
  have logValid : ValidSize history.system.log.size := by rwa [faithful.size_eq]
  rcases faithful.head with ⟨oldest, ⟨before, split⟩, headHolds⟩
  have inside := headHolds.wOff_lt
  have whole : history.step (.write request) = { history with
      system := (loggerAioWriteLocked history.system history.system.log.wOff request).1
      written := history.written ++ request.added
        (loggerAioWriteLocked history.system history.system.log.wOff request).2 } := by
    simp [History.step, loggerAioWrite, empty, History.recordWrite]
  rcases @loggerAioWriteLocked_offsets history.system history.system.log.wOff request logValid
    inside with ⟨sameReaders, sameHead, sameSize⟩
  rw [faithful.size_eq] at sameSize
  rw [whole]
  refine ⟨sameSize, ?_, ?_, ?_⟩
  · rcases headHolds.write logValid inside (fun _ => rfl) with ⟨dropped, kept, rfl, _, nextHolds⟩
    refine ⟨_, ⟨before ++ dropped, ?_⟩, sameHead ▸ nextHolds⟩
    simp [← split]
  · rw [sameReaders, length_map]
    exact faithful.length_taken
  intro reader off taken isReader isTaken
  simp only [sameReaders, getElem?_map, Option.map_eq_some_iff] at isReader
  rcases isReader with ⟨old, isOld, rfl⟩
  rcases faithful.readers reader old taken isOld isTaken with
    ⟨past, entries, split, holds, given⟩
  rcases holds.write logValid inside (fun _ => rfl) with ⟨dropped, kept, rfl, _, nextHolds⟩
  refine ⟨past ++ dropped, _, ?_, nextHolds, given.trans (sublist_append_left past dropped)⟩
  simp [split]

theorem step (valid : ValidSize size) (faithful : Faithful size history)
    (operation : Operation) : Faithful size (history.step operation) := by
  cases operation with
  | openReader => exact faithful.openReader
  | read reader count fault => exact faithful.read valid reader count fault
  | write request => exact faithful.write valid request
  | flush => exact faithful.flush

end Faithful

end Steps

def History.after (size : ℕ) (operations : List Operation) : History :=
  Run.run step (initial size) operations

theorem faithful_after {size : ℕ} (valid : ValidSize size) (operations : List Operation) :
    Faithful size (History.after size operations) :=
  Run.invariant_always (Faithful size) (fun _ operation faithful => faithful.step valid operation)
    (faithful_initial valid) operations

/-- Every offset is on an entry boundary, and a reader got entries from before its suffix, none
twice and in order. -/
def WholeEntries (history : History) : Prop :=
  (∃ entries, entries <:+ history.written ∧
    Holds history.system.log history.system.log.head entries) ∧
  ∀ (reader off : ℕ), history.system.readers[reader]? = some off →
    ∃ past entries, history.written = past ++ entries ∧ Holds history.system.log off entries ∧
      ReadsOldest history.system reader entries ∧
      ∃ taken : List (List UInt8), history.taken[reader]? = some taken ∧ List.Sublist taken past

theorem wholeEntries_after (exponent : ℕ) (large : entryMaxLen < 2 ^ exponent)
    (operations : List Operation) : WholeEntries (History.after (2 ^ exponent) operations) := by
  have valid : ValidSize (2 ^ exponent) := ⟨⟨exponent, rfl⟩, large⟩
  have faithful := faithful_after valid operations
  refine ⟨faithful.head, ?_⟩
  intro reader off isReader
  have inTaken : reader < (History.after (2 ^ exponent) operations).taken.length := by
    rw [faithful.length_taken]
    exact (List.getElem?_eq_some_iff.mp isReader).1
  have isTaken := List.getElem?_eq_getElem inTaken
  rcases faithful.readers reader off _ isReader isTaken with ⟨past, entries, split, holds, given⟩
  have logValid : ValidSize (History.after (2 ^ exponent) operations).system.log.size := by
    rw [faithful.size_eq]
    exact valid
  exact ⟨past, entries, split, holds, holds.readsOldest logValid isReader, _, isTaken, given⟩

/-- The main log, with a reader that has read one of two entries. -/
theorem wholeEntries_after_main : entryMaxLen < 2 ^ 16 ∧
    WholeEntries (History.after (2 ^ 16) [.openReader, .write (WriteRequest.short none),
      .write (WriteRequest.short none), .read 0 entryMaxLen false]) :=
  ⟨by decide, wholeEntries_after 16 (by decide) _⟩

end StreakKernel.Logger
