import CanonicalLR.Automaton.Basic
import CanonicalLR.Automaton.Limits
import CanonicalLR.Item.Closure

/-!
# The canonical collection

The automaton whose states are the item sets reachable from the closure of the
start item, explored breadth first. The exploration halts before a state that
would exceed a limit.
-/

namespace CanonicalLR

/-- An exploration cut short, with the limit that stood in the way. -/
structure Halted where
  limit : Limit
  bound : Nat
  automaton : Automaton
deriving DecidableEq

namespace Automaton

/-- The largest number of states that have an id of their own. -/
def stateIdCount : Nat := 4294967296

/-- Add a state unless a limit forbids it, or there is no id left for it. -/
def enter (limits : Limits) (a : Automaton) (state : State) : Except Halted Automaton :=
  if limits.states ≤ a.states.size then .error ⟨.states, limits.states, a⟩
  else if limits.items < a.itemCount + state.items.size then .error ⟨.items, limits.items, a⟩
  else if stateIdCount ≤ a.states.size then .error ⟨.states, limits.states, a⟩
  else .ok (a.addState state)

/-- Follow a symbol from the items of a source state, entering the target if it is new. -/
def follow (rules : ClosureRules) (limits : Limits) (source : Nat) (items : ItemSet)
    (a : Automaton) (symbol : Symbol) : Except Halted Automaton :=
  let kernel := items.gotoKernel rules.grammar symbol
  let goto := rules.close kernel.toList
  match a.find? goto with
  | some target => .ok (a.addTransition ⟨source, symbol, target⟩)
  | none =>
    let target := a.states.size
    match a.enter limits ⟨kernel, goto, some symbol⟩ with
    | .ok a => .ok (a.addTransition ⟨source, symbol, target⟩)
    | .error halted => .error halted

/-- Follow every symbol that stands after a dot in a state. -/
def visit (rules : ClosureRules) (limits : Limits) (a : Automaton) (source : Nat)
    (items : ItemSet) : Except Halted Automaton :=
  (items.symbolsAfterDot rules.grammar).foldlM (follow rules limits source items) a

/-- Visit the states from a source on, at most `fuel` of them. -/
def explore (rules : ClosureRules) (limits : Limits) :
    Nat → Nat → Automaton → Except Halted Automaton
  | 0, _, a => .ok a
  | fuel + 1, source, a =>
    match a.states[source]? with
    | none => .ok a
    | some state =>
      match a.visit rules limits source state.items with
      | .ok a => explore rules limits fuel (source + 1) a
      | .error halted => .error halted

/-- There are no more states to visit than the limit lets in. -/
def collect (rules : ClosureRules) (limits : Limits) : Except Halted Automaton :=
  let start : State := ⟨ItemSet.ofList [.start], rules.close [.start], none⟩
  match empty.enter limits start with
  | .ok a => explore rules limits limits.states initialState a
  | .error halted => .error halted

end Automaton

namespace Grammar

/-- The canonical LR(1) automaton of a grammar. -/
def automaton (g : Grammar) (first : FirstSets) (limits : Limits) : Except Halted Automaton :=
  Automaton.collect (ClosureRules.ofGrammar g first) limits

end Grammar

end CanonicalLR
