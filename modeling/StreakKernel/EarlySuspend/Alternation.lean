import Mathlib.Data.List.Nodup
import StreakKernel.EarlySuspend.Basic

/-!
# The latest request wins

The two bits of `state` differ only while the work that makes them equal is pending or about to
look at them. The bit `SUSPENDED` says of every handler, between two calls of handlers, whether its
last callback was `suspend`.
-/

namespace StreakKernel.EarlySuspend

open List EarlySuspend.System

def Alternates (calls : List Call) : Prop :=
  ∀ index call, calls[index]? = some call → (call = .suspend ↔ index % 2 = 0)

/-- The log of a handler that alternates and is, or is not, suspended at its end. -/
def Logged (calls : List Call) (asleep : Prop) : Prop :=

  Alternates calls ∧ (calls.length % 2 = 1 ↔ asleep)
variable {calls : List Call} {asleep : Prop}

theorem Logged.append (logged : Logged calls asleep) {kind : Call}
    (due : kind = .suspend ↔ ¬ asleep) :
    Logged (calls ++ [kind]) (kind = .suspend) := by
  rcases logged with ⟨alternates, parity⟩
  have length : kind = .suspend ↔ calls.length % 2 = 0 := by
    rw [due, ← parity]
    omega
  refine ⟨?_, ?_⟩
  · intro index call isCall
    rcases Nat.lt_trichotomy index calls.length with before | rfl | behind
    · rw [getElem?_append_left before] at isCall
      exact alternates index call isCall
    · simp only [getElem?_concat_length, Option.some.injEq] at isCall
      rwa [← isCall]
    · rw [getElem?_eq_none (by simp; omega)] at isCall
      cases isCall
  · rw [length, length_append, length_singleton]
    omega

theorem Logged.getLast (logged : Logged calls asleep) :
    calls.getLast? = some .suspend ↔ asleep := by
  rcases logged with ⟨alternates, parity⟩
  rw [← parity, getLast?_eq_getElem?]
  constructor
  · intro isLast
    have even := (alternates _ _ isLast).mp rfl
    have nonempty := (List.getElem?_eq_some_iff.mp isLast).1
    omega
  intro odd
  have within : calls.length - 1 < calls.length := by omega
  rw [getElem?_eq_getElem within]
  have isCall := getElem?_eq_getElem within
  rw [(alternates _ _ isCall).mpr (by omega)]

theorem mem_queueWork {queue : List Work} {work queued : Work} :
    work ∈ queueWork queue queued ↔ work = queued ∨ work ∈ queue := by
  unfold queueWork
  split
  · next pending => exact ⟨.inr, fun mem => mem.elim (fun same => same ▸ pending) id⟩
  · simp [or_comm]

def Work.changes : Work → Flags
  | earlySuspend => ⟨true, false⟩
  | lateResume => ⟨false, true⟩

def Worker.rest : Worker → List Handler
  | calling _ rest => rest
  | _ => []

namespace System

variable {system : System} {handler : Handler}

/-- The last callback of the handler was `suspend`: what the bit says, unless the turn of the
handler is still to come. -/
def Asleep (system : System) (handler : Handler) : Prop :=
  system.state.suspended = true ↔ handler ∉ system.worker.rest

structure Sound (system : System) : Prop where
  nodup : system.handlers.Nodup
  restNodup : system.worker.rest.Nodup
  kind : ∀ kind rest, system.worker = .calling kind rest →
    (kind = .suspend ↔ system.state.suspended = true)
  logged : ∀ handler ∈ system.handlers, (∀ kind, handler.has kind = true) →
    Logged (system.calls handler) (system.Asleep handler)
  wakeLock : system.mainWakeLock = false → system.state.requested = true
  pending : ∀ work : Work, system.state = work.changes →
    work ∈ system.queue ∨ system.worker = .entering work

theorem sound_initial : initial.Sound := by
  constructor <;> simp [initial, Worker.rest]
  intro work
  cases work <;> simp [Work.changes]

/-! ## The steps -/

section

variable (sound : system.Sound)
include sound

theorem Sound.requestSuspendState (newState : ℤ) : (system.requestSuspendState newState).Sound := by
  rcases sound with ⟨nodup, restNodup, kind, logged, wakeLock, pending⟩
  unfold System.requestSuspendState
  split
  · next asks =>
      refine ⟨nodup, restNodup, kind, logged, fun _ => rfl, ?_⟩
      intro work isState
      cases work with
      | earlySuspend => exact .inl (mem_queueWork.mpr (.inl rfl))
      | lateResume => cases congrArg Flags.requested isState
  split
  · next asks =>
      refine ⟨nodup, restNodup, kind, logged, by simp, ?_⟩
      intro work isState
      cases work with
      | earlySuspend => cases congrArg Flags.requested isState
      | lateResume => exact .inl (mem_queueWork.mpr (.inl rfl))
  · exact ⟨nodup, restNodup, kind, logged, wakeLock, pending⟩

theorem Sound.logged_of_unlocked (noRest : system.worker.rest = [])
    (listed : handler ∈ system.handlers) (complete : ∀ kind, handler.has kind = true) :
    Logged (system.calls handler) (system.state.suspended = true) := by
  simpa [Asleep, noRest] using sound.logged handler listed complete

theorem Sound.goOn (noRest : system.worker.rest = []) {held : Bool} {worker : Worker}
    {queue : List Work} (unlocked : worker.locked = false)
    (released : held = false → system.state.requested = true)
    (pending : ∀ work : Work, system.state = work.changes →
      work ∈ queue ∨ worker = .entering work) :
    Sound { system with mainWakeLock := held, worker := worker, queue := queue } := by
  have restNil : worker.rest = [] := by cases worker <;> simp_all [Worker.rest, Worker.locked]
  refine ⟨sound.nodup, by simp [restNil], ?_, ?_, released, pending⟩
  · rintro kind rest rfl
    cases unlocked
  · intro handler listed complete
    have logged := sound.logged_of_unlocked noRest listed complete
    simpa [Asleep, restNil] using logged

theorem Sound.runWorkqueue : system.runWorkqueue.Sound := by
  unfold System.runWorkqueue
  split
  · next next rest isIdle isQueue =>
      refine sound.goOn (by simp [isIdle, Worker.rest]) rfl sound.wakeLock ?_
      intro work isState
      have pending := sound.pending work isState
      simp only [isQueue, mem_cons, isIdle, reduceCtorEq, or_false] at pending
      exact pending.symm.imp id fun same => congrArg Worker.entering same.symm
  · exact sound

end

variable {other : Handler} {handlers rest : List Handler} {kind : Call}

theorem mem_insertByLevel :
    other ∈ insertByLevel handler handlers ↔ other = handler ∨ other ∈ handlers := by
  induction handlers with
  | nil => simp [insertByLevel]
  | cons entry rest ih =>
    unfold insertByLevel
    split
    · simp
    · simp only [mem_cons, ih]
      tauto

theorem nodup_insertByLevel (nodup : handlers.Nodup) (fresh : handler ∉ handlers) :
    (insertByLevel handler handlers).Nodup := by
  induction handlers with
  | nil => simp [insertByLevel]
  | cons entry rest ih =>
    rw [nodup_cons] at nodup
    rw [mem_cons, not_or] at fresh
    unfold insertByLevel
    split
    · simp_all
    · refine nodup_cons.mpr ⟨?_, ih nodup.2 fresh.2⟩
      rw [mem_insertByLevel, not_or]
      exact ⟨fun same => fresh.1 same.symm, nodup.1⟩

theorem callback_of_ne {calls : Handler → List Call} (ne : other ≠ handler) (kind : Call) :
    callback calls handler kind other = calls other := by
  unfold callback
  split <;> simp [ne]

section

variable (sound : system.Sound)
include sound

theorem Sound.registerEarlySuspend : (system.registerEarlySuspend handler).Sound := by
  unfold System.registerEarlySuspend
  split
  · exact sound
  next allowed =>
    rw [not_or] at allowed
    have noRest : system.worker.rest = [] := by
      cases isWorker : system.worker <;> simp_all [Worker.rest, Worker.locked]
    refine ⟨nodup_insertByLevel sound.nodup allowed.2, sound.restNodup, sound.kind, ?_,
      sound.wakeLock, sound.pending⟩
    intro other listed complete
    simp only [Asleep, noRest, not_mem_nil, not_false_eq_true, iff_true]
    rcases mem_insertByLevel.mp listed with rfl | listed
    · have empty : Logged [] False := ⟨fun index call isCall => by simp at isCall, by simp⟩
      have called : Logged ([] ++ [Call.suspend]) _ := empty.append (by simp)
      split
      · next isSuspended => simpa [callback, complete, isSuspended] using called
      · next notSuspended => simpa [notSuspended] using empty
    · have ne : other ≠ handler := fun same => allowed.2 (same ▸ listed)
      have logged := sound.logged_of_unlocked noRest listed complete
      split <;> simpa [callback_of_ne, ne] using logged

theorem Sound.unregisterEarlySuspend : (system.unregisterEarlySuspend handler).Sound := by
  unfold System.unregisterEarlySuspend
  split
  · exact sound
  refine ⟨sound.nodup.erase handler, sound.restNodup, sound.kind, ?_, sound.wakeLock,
    sound.pending⟩
  intro other listed
  exact sound.logged other (mem_of_mem_erase listed)

theorem Sound.beginCalls (noRest : system.worker.rest = []) {suspended : Bool}
    (isState : system.state = ⟨suspended, !suspended⟩) (isKind : kind = .suspend ↔ suspended = true)
    (listed : ∀ handler, handler ∈ rest ↔ handler ∈ system.handlers) (restNodup : rest.Nodup) :
    Sound { system with state.suspended := suspended, worker := .calling kind rest } := by
  refine ⟨sound.nodup, restNodup, ?_, ?_, sound.wakeLock, ?_⟩
  · intro other others same
    cases same
    exact isKind
  · intro handler mem complete
    have logged := sound.logged_of_unlocked noRest mem complete
    rw [isState] at logged
    simp only [Asleep, Worker.rest, listed, mem]
    cases suspended <;> simpa using logged
  · intro work
    cases work <;> cases suspended <;> simp [isState, Work.changes]

theorem Sound.callback (isWorker : system.worker = .calling kind (handler :: rest)) :
    Sound { system with
      calls := callback system.calls handler kind
      worker := .calling kind rest } := by
  have due := sound.kind _ _ isWorker
  have restNodup := sound.restNodup
  simp only [isWorker, Worker.rest, nodup_cons] at restNodup
  refine ⟨sound.nodup, restNodup.2, ?_, ?_, sound.wakeLock, ?_⟩
  · intro other others same
    cases same
    exact due
  · intro other listed complete
    have logged := sound.logged other listed complete
    simp only [Asleep, isWorker, Worker.rest, mem_cons, not_or] at logged
    simp only [Asleep, Worker.rest]
    by_cases same : other = handler
    · subst same
      have called : Logged (system.calls other ++ [kind]) _ := logged.append (by simp [due])
      simpa [EarlySuspend.callback, complete, restNodup.1, ← due] using called
    · rw [callback_of_ne same]
      simpa [same] using logged
  · simpa [isWorker] using sound.pending

theorem Sound.advance : system.advance.Sound := by
  unfold System.advance
  split
  · exact sound
  · next isWorker =>
      have noRest : system.worker.rest = [] := by simp [isWorker, Worker.rest]
      split
      · next isState => exact sound.beginCalls noRest isState (by simp) (by simp) sound.nodup
      next notState =>
        refine sound.goOn noRest rfl sound.wakeLock fun work isState => ?_
        have pending := sound.pending work isState
        cases work <;> simp_all [Work.changes]
  · next isWorker =>
      have noRest : system.worker.rest = [] := by simp [isWorker, Worker.rest]
      split
      · next isState =>
          exact sound.beginCalls noRest isState (by simp) (by simp) (nodup_reverse.mpr sound.nodup)
      next notState =>
        refine sound.goOn noRest rfl sound.wakeLock fun work isState => ?_
        have pending := sound.pending work isState
        cases work <;> simp_all [Work.changes]
  · next isWorker => exact sound.callback isWorker
  · next isWorker =>
      refine sound.goOn (by simp [isWorker, Worker.rest]) rfl sound.wakeLock ?_
      simpa [isWorker] using sound.pending
  · next isWorker =>
      refine sound.goOn (by simp [isWorker, Worker.rest]) rfl sound.wakeLock ?_
      simpa [isWorker] using sound.pending
  · next isWorker =>
      refine sound.goOn (by simp [isWorker, Worker.rest]) rfl ?_ ?_
      · intro released
        rcases Bool.and_eq_false_iff.mp released with already | now
        · exact sound.wakeLock already
        · have isBoth : system.state = Flags.both := by simpa using now
          rw [isBoth]
          rfl
      · simpa [isWorker] using sound.pending

end

theorem Sound.step (sound : system.Sound) (action : Action) : (system.step action).Sound := by
  cases action with
  | requestSuspendState newState => exact sound.requestSuspendState newState
  | registerEarlySuspend handler => exact sound.registerEarlySuspend
  | unregisterEarlySuspend handler => exact sound.unregisterEarlySuspend
  | runWorkqueue => exact sound.runWorkqueue
  | advance => exact sound.advance

theorem step_releases {action : Action} (held : system.mainWakeLock = true) :
    (system.step action).mainWakeLock = false →
      system.state = Flags.both ∧ (system.step action).state = Flags.both := by
  cases action with
  | requestSuspendState newState =>
    simp only [step, System.requestSuspendState]
    split_ifs <;> simp [held]
  | registerEarlySuspend handler =>
    simp only [step, System.registerEarlySuspend]
    split <;> simp [held]
  | unregisterEarlySuspend handler =>
    simp only [step, System.unregisterEarlySuspend]
    split <;> simp [held]
  | runWorkqueue =>
    simp only [step, System.runWorkqueue]
    split <;> simp [held]
  | advance =>
    simp only [step, System.advance]
    repeat' split
    all_goals simp [held]

/-- The state that was requested last, or `last` if none was. -/
def lastRequest (last : ℤ) : List Action → ℤ
  | [] => last
  | .requestSuspendState newState :: rest => lastRequest newState rest
  | _ :: rest => lastRequest last rest

theorem requested_run (actions : List Action) {last : ℤ}
    (isLast : system.state.requested = true ↔ last ≠ pmSuspendOn) :
    (Run.run step system actions).state.requested = true ↔
      lastRequest last actions ≠ pmSuspendOn := by
  induction actions generalizing system last with
  | nil => exact isLast
  | cons action rest ih =>
    cases action with
    | requestSuspendState newState =>
      refine ih ?_
      simp only [step, System.requestSuspendState]
      cases isRequested : system.state.requested <;> split_ifs <;> simp_all
    | registerEarlySuspend handler =>
      refine ih ?_
      simp only [step, System.registerEarlySuspend]
      split_ifs <;> exact isLast
    | unregisterEarlySuspend handler =>
      refine ih ?_
      simp only [step, System.unregisterEarlySuspend]
      split_ifs <;> exact isLast
    | runWorkqueue =>
      refine ih ?_
      simp only [step, System.runWorkqueue]
      split <;> exact isLast
    | advance =>
      refine ih ?_
      simp only [step, System.advance]
      repeat' split
      all_goals exact isLast

/-- A handler is suspended when its last callback was `suspend`. -/
def Suspended (system : System) (handler : Handler) : Prop :=
  (system.calls handler).getLast? = some .suspend

/-- Every handler with both callbacks sees them alternately; `main_wake_lock` is released only while
a suspend is requested and done, and is held after a request to wake up; and with no work left the
handlers are suspended exactly if the last request was to sleep. -/
theorem latest_request_wins (actions : List Action) :
    let system := Run.run step initial actions
    (∀ handler ∈ system.handlers, (∀ kind, handler.has kind = true) →
        Alternates (system.calls handler)) ∧
      (∀ action, system.mainWakeLock = true → (system.step action).mainWakeLock = false →
        system.state = Flags.both ∧ (system.step action).state = Flags.both) ∧
      (lastRequest pmSuspendOn actions = pmSuspendOn → system.mainWakeLock = true) ∧
      (system.queue = [] → system.worker = .idle → ∀ handler ∈ system.handlers,
        (∀ kind, handler.has kind = true) →
          (system.Suspended handler ↔ lastRequest pmSuspendOn actions ≠ pmSuspendOn)) := by
  intro system
  have sound : system.Sound :=
    Run.invariant_always Sound (fun _ action sound => sound.step action) sound_initial actions
  have last : system.state.requested = true ↔ lastRequest pmSuspendOn actions ≠ pmSuspendOn :=
    requested_run actions (by simp [initial])
  refine ⟨fun handler listed complete => (sound.logged handler listed complete).1,
    fun action => step_releases, ?_, ?_⟩
  · intro wakes
    by_contra released
    exact last.mp (sound.wakeLock (by simpa using released)) wakes
  intro noWork isIdle handler listed complete
  have logged := sound.logged_of_unlocked (by simp [isIdle, Worker.rest]) listed complete
  rw [Suspended, logged.getLast, ← last]
  have noEarly := sound.pending .earlySuspend
  have noLate := sound.pending .lateResume
  simp only [noWork, isIdle, not_mem_nil, reduceCtorEq, or_self, imp_false,
    Work.changes] at noEarly noLate
  rcases isState : system.state with ⟨requested, suspended⟩
  cases requested <;> cases suspended <;> simp_all

/-! ## Levels -/

/-- The handlers stand by level, and those still to be called end the list, or its reverse when the
system resumes. -/
structure Leveled (system : System) : Prop where
  sorted : system.handlers.Pairwise (·.level ≤ ·.level)
  order : ∀ kind rest, system.worker = .calling kind rest →
    rest <:+ if kind = .suspend then system.handlers else system.handlers.reverse

theorem pairwise_insertByLevel (sorted : handlers.Pairwise (·.level ≤ ·.level)) :
    (insertByLevel handler handlers).Pairwise (·.level ≤ ·.level) := by
  induction handlers with
  | nil => exact pairwise_singleton _ _
  | cons entry rest ih =>
    rw [pairwise_cons] at sorted
    unfold insertByLevel
    split_ifs with above
    · refine pairwise_cons.mpr ⟨?_, pairwise_cons.mpr sorted⟩
      grind
    · refine pairwise_cons.mpr ⟨?_, ih sorted.2⟩
      grind [mem_insertByLevel]

theorem Leveled.step (leveled : system.Leveled) (action : Action) :
    (system.step action).Leveled := by
  rcases leveled with ⟨sorted, order⟩
  cases action with
  | requestSuspendState newState =>
    simp only [System.step, System.requestSuspendState]
    split_ifs <;> exact ⟨sorted, order⟩
  | registerEarlySuspend handler =>
    simp only [System.step, System.registerEarlySuspend]
    split
    · exact ⟨sorted, order⟩
    · exact ⟨pairwise_insertByLevel sorted, by grind [Worker.locked]⟩
  | unregisterEarlySuspend handler =>
    simp only [System.step, System.unregisterEarlySuspend]
    split
    · exact ⟨sorted, order⟩
    · exact ⟨sorted.sublist erase_sublist, by grind [Worker.locked]⟩
  | runWorkqueue =>
    simp only [System.step, System.runWorkqueue]
    split
    · exact ⟨sorted, nofun⟩
    · exact ⟨sorted, order⟩
  | advance =>
    refine ⟨?_, fun kind rest isWorker => ?_⟩
    · simp only [System.step, System.advance]
      repeat' split
      all_goals exact sorted
    · simp only [System.step, System.advance] at isWorker ⊢
      repeat' split at isWorker
      all_goals grind [suffix_cons]

/-- In every state, handlers are called by ascending levels to suspend and by descending levels to
resume. -/
theorem leveled_run (actions : List Action) : (Run.run step initial actions).Leveled :=
  Run.invariant_always Leveled (fun _ action leveled => leveled.step action)
    ⟨.nil, fun _ _ isWorker => by simp [initial] at isWorker⟩ actions

end System

end StreakKernel.EarlySuspend
