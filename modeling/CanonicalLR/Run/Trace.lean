import CanonicalLR.Run.Configuration
import CanonicalLR.Run.Tokens

/-!
# Recorded runs

A run records each configuration with the action taken from it. A table may
drive a run for ever, so a run is given a number of steps within which to end.
-/

namespace CanonicalLR

structure Step where
  index : Nat
  configuration : Configuration
  action : StepAction
deriving DecidableEq

structure ParseResult where
  accepted : Bool
  steps : List Step
  error : Option Rejection
  input : List Nat
deriving DecidableEq

namespace Configuration

/-- The steps of a run that ends within `fuel` steps, counted from `index`. -/
def trace (g : Grammar) (table : Table) : Nat → Nat → Configuration → Option (List Step)
  | 0, _, _ => none
  | fuel + 1, index, c =>
    match c.action? g table with
    | none => none
    | some action =>
      let step : Step := ⟨index, c, action⟩
      match c.after? g action with
      | none => some [step]
      | some next => (trace g table fuel (index + 1) next).map (step :: ·)

end Configuration

namespace ParseResult

def ofSteps (input : List Nat) (steps : List Step) : ParseResult :=
  let error := steps.getLast?.bind fun step => step.action.rejection?
  ⟨error.isNone, steps, error, input⟩

/-- The productions of the reductions, the last one first. -/
def rightmostDerivation (result : ParseResult) : List Nat :=
  (result.steps.filterMap fun step => step.action.production?).reverse

end ParseResult

namespace Table

/-- Drive a table over terminals for at most `fuel` steps. -/
def run (g : Grammar) (table : Table) (fuel : Nat) (input : List Nat) : Option ParseResult :=
  ((Configuration.initial input).trace g table fuel 1).map (ParseResult.ofSteps input)

/-- Drive a table over tokens, unless one of them is unknown. -/
def simulate (g : Grammar) (table : Table) (fuel : Nat) (tokens : List String) :
    Except UnknownToken (Option ParseResult) :=
  (g.tokenize tokens).map (table.run g fuel)

/-- More steps than the memory of a machine holds. -/
def stepBudget : Nat := 1 <<< 40

end Table

end CanonicalLR
