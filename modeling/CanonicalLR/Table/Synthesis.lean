import CanonicalLR.Automaton.Basic
import CanonicalLR.Table.Basic

/-!
# Synthesis of parse tables

A cell collects the moves that the items of its state demand on its terminal:
the shift over the terminal, the acceptance, and the reductions of complete
items in ascending order. More than one move leaves a conflict in the cell.
-/

namespace CanonicalLR

namespace State

/-- The shift that the items with their dot before a terminal demand. -/
def shifts (g : Grammar) (state : State) (outgoing : List Transition) (t : Nat) : List Move :=
  if state.items.toList.any fun item => item.next? g = some (.terminal t) then
    (Automaton.target? outgoing (.terminal t)).toList.map Move.shift
  else []

/-- The items with nothing after their dot and a given lookahead. -/
def completed (g : Grammar) (state : State) (t : Nat) : List Item :=
  state.items.toList.filter fun item => item.lookahead = t ∧ item.next? g = none

def acceptances (g : Grammar) (state : State) (t : Nat) : List Move :=
  if (state.completed g t).any fun item => item.production = augmentedProduction then [.accept]
  else []

def reductions (g : Grammar) (state : State) (t : Nat) : List Move :=
  ((state.completed g t).filterMap fun item =>
    if item.production = augmentedProduction then none else some (.reduce item.production)).eraseDups

def demanded (g : Grammar) (state : State) (outgoing : List Transition) (t : Nat) : List Move :=
  state.shifts g outgoing t ++ state.acceptances g t ++ state.reductions g t

def action? (g : Grammar) (state : State) (outgoing : List Transition) (t : Nat) : Option Action :=
  Action.ofMoves (state.demanded g outgoing t)

def row (g : Grammar) (state : State) (outgoing : List Transition) : Row where
  actions := ⟨g.terminalIds.filterMap fun t =>
    (state.action? g outgoing t).map fun action => (t, action)⟩
  gotos := ⟨g.nonterminalIds.filterMap fun n =>
    (Automaton.target? outgoing (.nonterminal n)).map fun next => (n, next)⟩

/-- The terminals on which the items of a state demand a move, in order of their first item. -/
def demandedTerminals (g : Grammar) (state : State) : List Nat :=
  (state.items.toList.filterMap fun item =>
    match item.next? g with
    | some (.terminal t) => some t
    | some (.nonterminal _) => none
    | none => some item.lookahead).eraseDups

end State

namespace Automaton

def rowOf (g : Grammar) (a : Automaton) (s : Nat) : Option (Nat × Row) :=
  (a.state? s).map fun state => (s, state.row g (a.outgoing s))

/-- The parse table of an automaton, with one row per state. -/
def table (g : Grammar) (a : Automaton) : Table :=
  ⟨⟨(List.range a.states.size).filterMap (rowOf g a)⟩⟩

/-- The conflicts of a state in the order in which its items run into them. -/
def foundConflicts (table : Table) (g : Grammar) (a : Automaton) (s : Nat) : List ConflictCell :=
  ((a.state? s).map (State.demandedTerminals g)).getD [] |>.filterMap fun t =>
    ((table.action? s t).bind Action.conflict?).map fun conflict => ⟨s, t, conflict⟩

end Automaton

end CanonicalLR
