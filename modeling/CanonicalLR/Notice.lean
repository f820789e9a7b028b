import CanonicalLR.Analysis
import CanonicalLR.Grammar.Definition
import CanonicalLR.Grammar.Reachability

/-!
# Notices

What is worth telling about a grammar, its analysis and a run, beside their
results: warnings about suspicious declarations, and accounts of what was done.
-/

namespace CanonicalLR

inductive Level where
  | warning
  | account
deriving DecidableEq

inductive Notice where
  | duplicateProduction (left : String)
  | unreachable (nonterminal : String)
  | setsComputed
  | constructionAborted (states bound : Nat) (limit : Limit)
  | automatonBuilt (states transitions items : Nat)
  | conflictFound (kind : ConflictKind) (state : Nat) (terminal : String)
  | tableSynthesized (rows conflicts : Nat)
  | simulated (accepted : Bool) (steps : Nat)
deriving DecidableEq

namespace Notice

def level : Notice → Level
  | .duplicateProduction _ => .warning
  | .unreachable _ => .warning
  | _ => .account

def text : Notice → String
  | .duplicateProduction left =>
      s!"duplicate production for `{left}'; it will surface as a reduce/reduce conflict"
  | .unreachable nonterminal =>
      s!"nonterminal `{nonterminal}' is not reachable from the start symbol"
  | .setsComputed => "computed FIRST/FOLLOW sets"
  | .constructionAborted states bound limit =>
      s!"automaton construction aborted after {states} state(s): more than {bound} {limit.name}"
  | .automatonBuilt states transitions items =>
      s!"built {states} state(s), {transitions} transition(s), {items} item(s)"
  | .conflictFound kind state terminal =>
      s!"{kind.name} conflict in state {state} on `{terminal}'"
  | .tableSynthesized rows conflicts =>
      s!"synthesized parse table: {rows} row(s), {conflicts} conflict(s)"
  | .simulated accepted steps =>
      let verdict := if accepted then "accepted" else "rejected"
      s!"simulation {verdict} after {steps} step(s)"

end Notice

/-- The members of a list that also occur earlier in it. -/
def repeated {α : Type} [DecidableEq α] (earlier : List α) : List α → List α
  | [] => []
  | value :: rest =>
      if value ∈ earlier then value :: repeated earlier rest
      else repeated (value :: earlier) rest

namespace Definition

/-- One notice for every production that an earlier one equals. -/
def notices (d : Definition) : List Notice :=
  (repeated [] d.productions.toList).map fun production =>
    .duplicateProduction (d.nonterminalName production.left)

end Definition

namespace Grammar

def duplicateNotices (g : Grammar) : List Notice :=
  (repeated [] g.productions.toList).filterMap fun production =>
    (g.nonterminalName? production.left).map .duplicateProduction

def unreachableNotices (g : Grammar) : List Notice :=
  g.unreachable.filterMap fun n => (g.nonterminalName? n).map .unreachable

/-- What the definition of a grammar tells. -/
def notices (g : Grammar) : List Notice :=
  g.duplicateNotices ++ g.unreachableNotices

end Grammar

namespace Analysis

def conflictNotices (g : Grammar) (analysis : Analysis) : List Notice :=
  (List.range analysis.automaton.states.size).flatMap fun s =>
    (analysis.automaton.foundConflicts analysis.table g s).filterMap fun cell =>
      (g.terminalName? cell.terminal).map (.conflictFound cell.conflict.kind cell.state)

def notices (g : Grammar) (analysis : Analysis) : List Notice :=
  let automaton := analysis.automaton
  .setsComputed ::
    .automatonBuilt automaton.states.size automaton.transitions.size automaton.itemCount ::
    analysis.conflictNotices g ++
    [.tableSynthesized analysis.table.rows.entries.length analysis.table.conflicts.length]

end Analysis

namespace AnalysisError

def notices : AnalysisError → List Notice
  | .limitExceeded .productions _ _ _ => []
  | .limitExceeded limit bound built _ =>
      [.setsComputed, .constructionAborted built bound limit]
  | .cancelled => []

end AnalysisError

namespace ParseResult

def notice (result : ParseResult) : Notice :=
  .simulated result.accepted result.steps.length

end ParseResult

end CanonicalLR
