import CanonicalLR.Automaton.Basic
import CanonicalLR.Item.Printer

/-!
# Written automata

Each state with its kernel, its closure and the transitions that leave it, with
an empty line between two states.
-/

namespace CanonicalLR

def stateTag (s : Nat) : String :=
  "S#" ++ Text.zeroPadded 3 s

def stateHeading (s : Nat) : String :=
  "#### State " ++ Text.zeroPadded 2 s

namespace Transition

def text? (g : Grammar) (transition : Transition) : Option String := do
  let symbol ← g.symbolName? transition.symbol
  return Text.line s!"- {symbol} => {Text.zeroPadded 2 transition.target}"

end Transition

namespace State

def heading? (g : Grammar) (s : Nat) (state : State) : Option String := do
  let reached ← match state.accessing with
    | none => pure ""
    | some symbol => (g.symbolName? symbol).map fun name => s!" (goto on {name})"
  let accept := if state.isAccept then " (accept)" else ""
  return Text.line (stateHeading s ++ reached ++ accept)

end State

namespace Automaton

def stateText? (g : Grammar) (a : Automaton) (s : Nat) : Option String := do
  let state ← a.state? s
  let heading ← state.heading? g s
  let kernel ← state.kernel.text? g
  let closure ← state.items.text? g
  let transitions ← (a.outgoing s).mapM fun transition => transition.text? g
  let listing := if transitions.isEmpty then transitions else "## transitions\n" :: transitions
  return String.join (heading :: "## kernel\n" :: kernel :: "## closure\n" :: closure :: listing)

def text? (g : Grammar) (a : Automaton) : Option String := do
  let states ← (List.range a.states.size).mapM (stateText? g a)
  return "\n".intercalate states

end Automaton

end CanonicalLR
