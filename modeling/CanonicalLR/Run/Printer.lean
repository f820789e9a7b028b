import CanonicalLR.Run.Trace

/-!
# Written runs

A step shows its number, the stacks, the unread input and the action; a result
shows the input, all steps and how the run ended.
-/

namespace CanonicalLR

namespace Rejection

def text? (g : Grammar) : Rejection → Option String
  | .noAction s t => do
    let terminal ← g.terminalName? t
    return s!"no action in state {s} on `{terminal}'"
  | .conflict s t kind => do
    let terminal ← g.terminalName? t
    return s!"{kind.name} conflict in state {s} on `{terminal}'"
  | .missingGoto s n => do
    let nonterminal ← g.nonterminalName? n
    return s!"no goto in state {s} on `{nonterminal}'"
  | .stackUnderflow p => some s!"the stack is too shallow to reduce by production {p}"

end Rejection

namespace StepAction

def text? (g : Grammar) : StepAction → Option String
  | .shift next => some s!"shift {next}"
  | .reduce p _ => do
    let production ← g.production? p
    let text ← production.text? g
    return s!"reduce {text}"
  | .accept => some "accept"
  | .error rejection => do
    let text ← rejection.text? g
    return s!"error: {text}"

end StepAction

namespace Step

def text? (g : Grammar) (step : Step) : Option String := do
  let symbols ← step.configuration.symbols.mapM g.symbolName?
  let remaining ← step.configuration.remaining.mapM g.terminalName?
  let action ← step.action.text? g
  return " | ".intercalate
    [Text.padded 3 step.index, Text.spaced (step.configuration.states.map toString),
      Text.spaced symbols, Text.spaced remaining, action]

end Step

namespace ParseResult

def verdict? (g : Grammar) (result : ParseResult) : Option String :=
  match result.error with
  | none => some s!"## accepted after {result.steps.length} step(s)"
  | some rejection => do
    let text ← rejection.text? g
    return s!"## rejected after {result.steps.length} step(s): {text}"

def text? (g : Grammar) (result : ParseResult) : Option String := do
  let input ← result.input.mapM g.terminalName?
  let steps ← result.steps.mapM fun step => step.text? g
  let verdict ← result.verdict? g
  return String.join (
    Text.line s!"## input: {Text.spaced input} ({result.input.length} token(s))" ::
    "## trace:\n" :: steps.map Text.line ++ [Text.line verdict])

end ParseResult

end CanonicalLR
