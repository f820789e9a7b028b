import CanonicalLR.Grammar.Basic

/-!
# Actions

The moves that compete for a cell of a parse table, and the action that results:
the only move, or a conflict that lists all of them.
-/

namespace CanonicalLR

inductive Move where
  | shift (next : Nat)
  | accept
  | reduce (p : Nat)
deriving DecidableEq

namespace Move

def isShift : Move → Bool
  | .shift _ => true
  | _ => false

def text? (g : Grammar) : Move → Option String
  | .shift next => some s!"shift({next})"
  | .accept => some "accept"
  | .reduce p => do
    let production ← g.production? p
    let text ← production.text? g
    return s!"reduce({text})"

end Move

inductive ConflictKind where
  | shiftReduce
  | reduceReduce
deriving DecidableEq

namespace ConflictKind

def name : ConflictKind → String
  | .shiftReduce => "shift/reduce"
  | .reduceReduce => "reduce/reduce"

end ConflictKind

/-- At least two moves for one cell; the first of them is preferred. -/
structure Conflict where
  preferred : Move
  second : Move
  others : List Move
deriving DecidableEq

namespace Conflict

def candidates (conflict : Conflict) : List Move :=
  conflict.preferred :: conflict.second :: conflict.others

def kind (conflict : Conflict) : ConflictKind :=
  if conflict.preferred.isShift then .shiftReduce else .reduceReduce

def text? (g : Grammar) (conflict : Conflict) : Option String := do
  let candidates ← conflict.candidates.mapM (Move.text? g)
  return s!"conflict({conflict.kind.name}: " ++ " | ".intercalate candidates ++ ")"

end Conflict

inductive Action where
  | decided (move : Move)
  | undecided (conflict : Conflict)
deriving DecidableEq

namespace Action

/-- The action of a cell that the given moves are demanded in. -/
def ofMoves : List Move → Option Action
  | [] => none
  | [move] => some (.decided move)
  | first :: second :: others => some (.undecided ⟨first, second, others⟩)

def candidates : Action → List Move
  | .decided move => [move]
  | .undecided conflict => conflict.candidates

def conflict? : Action → Option Conflict
  | .decided _ => none
  | .undecided conflict => some conflict

def text? (g : Grammar) : Action → Option String
  | .decided move => move.text? g
  | .undecided conflict => conflict.text? g

theorem ofMoves_eq_none {moves : List Move} : ofMoves moves = none ↔ moves = [] := by
  match moves with
  | [] => simp [ofMoves]
  | [_] => simp [ofMoves]
  | _ :: _ :: _ => simp [ofMoves]

theorem candidates_of_ofMoves {moves : List Move} {action : Action}
    (found : ofMoves moves = some action) : action.candidates = moves := by
  match moves, found with
  | [_], rfl => rfl
  | _ :: _ :: _, rfl => rfl

end Action

end CanonicalLR
