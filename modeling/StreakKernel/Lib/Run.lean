import Mathlib.Data.List.Basic

/-!
# Runs of a transition function

`run` folds a list of requests, `Admits` says that every request of the list meets a
condition in the state it finds, and `invariant_run` is the induction over runs.
-/

namespace StreakKernel.Run

universe u v w

variable {State : Type u} {Request : Type v}

def run (step : State → Request → State) (state : State) (requests : List Request) : State :=
  requests.foldl step state

/-- Every request of the list meets `condition` in the state it is issued in. -/
def Admits (step : State → Request → State) (condition : State → Request → Prop) :
    State → List Request → Prop
  | _, [] => True
  | state, request :: rest =>
    condition state request ∧ Admits step condition (step state request) rest

instance Admits.decidable {step : State → Request → State} {condition : State → Request → Prop}
    [∀ state request, Decidable (condition state request)] :
    ∀ state requests, Decidable (Admits step condition state requests)
  | _, [] => isTrue trivial
  | state, request :: rest =>
    haveI : Decidable (Admits step condition (step state request) rest) :=
      Admits.decidable (step state request) rest
    inferInstanceAs (Decidable (_ ∧ _))

section

variable (step : State → Request → State) (state : State)
include step state

@[simp]
theorem run_nil :
    run step state [] = state := rfl

@[simp]
theorem run_cons (request : Request) (rest : List Request) :
    run step state (request :: rest) = run step (step state request) rest := rfl

theorem run_append (first second : List Request) :
    run step state (first ++ second) = run step (run step state first) second :=
  List.foldl_append

end

variable {step : State → Request → State} {condition : State → Request → Prop} {state : State}

/-- An invariant kept by every admitted step holds after every admitted run. -/
theorem invariant_run (invariant : State → Prop)
    (preserved : ∀ state request, invariant state → condition state request →
      invariant (step state request)) (initially : invariant state) {requests : List Request}
    (admitted : Admits step condition state requests) : invariant (run step state requests) := by
  induction requests generalizing state with
  | nil => exact initially
  | cons request rest ih =>
    rcases admitted with ⟨meets, restAdmitted⟩
    exact ih (preserved state request initially meets) restAdmitted

theorem invariant_always (invariant : State → Prop)
    (preserved : ∀ state request, invariant state → invariant (step state request))
    (initially : invariant state) (requests : List Request) :
    invariant (run step state requests) := by
  induction requests generalizing state with
  | nil => exact initially
  | cons request _ ih => exact ih (preserved state request initially)

theorem admits_append {first second : List Request} :
    Admits step condition state (first ++ second) ↔ Admits step condition state first ∧
        Admits step condition (run step state first) second := by
  induction first generalizing state with
  | nil => simp [Admits]
  | cons request rest ih => simp [Admits, ih, and_assoc]

/-! ## Steps that may fail -/

section Failing

variable {Failure : Type u}

/-- The outcome of a list of requests, the first failure ending the run. -/
def tryRun (step : State → Request → Except Failure State) (state : State)
    (requests : List Request) : Except Failure State :=
  requests.foldlM step state

/-- If no step fails from a state with the invariant, and all keep it, then no run fails. -/
theorem tryRun_ok {step : State → Request → Except Failure State} (invariant : State → Prop)
    (preserved : ∀ state request, invariant state →
      ∃ next, step state request = .ok next ∧ invariant next)
    {state : State} (initially : invariant state) (requests : List Request) :
    ∃ final, tryRun step state requests = .ok final ∧ invariant final := by
  induction requests generalizing state with
  | nil => exact ⟨state, rfl, initially⟩
  | cons request rest ih =>
    rcases preserved state request initially with ⟨next, stepped, nextHolds⟩
    rcases ih nextHolds with ⟨final, ran, finalHolds⟩
    refine ⟨final, ?_, finalHolds⟩
    simpa only [tryRun, List.foldlM_cons, stepped, bind, Except.bind] using ran

end Failing

end StreakKernel.Run
