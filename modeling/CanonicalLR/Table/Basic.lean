import CanonicalLR.Cells
import CanonicalLR.Table.Action

/-!
# Parse tables

A row for each state, with the action on each terminal and the next state on
each nonterminal. Rows and cells can be put and erased one by one.
-/

namespace CanonicalLR

structure Row where
  actions : Cells Action
  gotos : Cells Nat
deriving DecidableEq

namespace Row

def empty : Row :=
  ⟨.empty, .empty⟩

end Row

structure ConflictCell where
  state : Nat
  terminal : Nat
  conflict : Conflict
deriving DecidableEq

structure Table where
  rows : Cells Row
deriving DecidableEq

namespace Table

def action? (table : Table) (s t : Nat) : Option Action :=
  (table.rows.get? s).bind fun row => row.actions.get? t

def goto? (table : Table) (s n : Nat) : Option Nat :=
  (table.rows.get? s).bind fun row => row.gotos.get? n

def rowConflicts (entry : Nat × Row) : List ConflictCell :=
  entry.2.actions.entries.filterMap fun (t, action) =>
    action.conflict?.map fun conflict => ⟨entry.1, t, conflict⟩

def conflicts (table : Table) : List ConflictCell :=
  table.rows.entries.flatMap rowConflicts

def hasConflicts (table : Table) : Bool :=
  !table.conflicts.isEmpty

/-- The terminals in the order of the column headers: the end marker last. -/
def actionColumns (g : Grammar) : List Nat :=
  g.userTerminals ++ [endMarker]

def gotoColumns (g : Grammar) : List Nat :=
  g.userNonterminals

/-- Change the row of a state; a state without one gets an empty row at the end first. -/
def updateRow (table : Table) (s : Nat) (change : Row → Row) : Table :=
  ⟨table.rows.put s (change ((table.rows.get? s).getD .empty))⟩

/-- Give a state a row, an empty one at the end if it has none. -/
def addRow (table : Table) (s : Nat) : Table :=
  table.updateRow s id

def putAction (table : Table) (s t : Nat) (action : Action) : Table :=
  table.updateRow s fun row => { row with actions := row.actions.put t action }

def eraseAction (table : Table) (s t : Nat) : Table :=
  table.updateRow s fun row => { row with actions := row.actions.erase t }

def putGoto (table : Table) (s n next : Nat) : Table :=
  table.updateRow s fun row => { row with gotos := row.gotos.put n next }

def eraseGoto (table : Table) (s n : Nat) : Table :=
  table.updateRow s fun row => { row with gotos := row.gotos.erase n }

def eraseRow (table : Table) (s : Nat) : Table :=
  ⟨table.rows.erase s⟩

theorem rows_updateRow (table : Table) (s other : Nat) (change : Row → Row) :
    (table.updateRow s change).rows.get? other =
      if other = s then some (change ((table.rows.get? s).getD .empty))
      else table.rows.get? other :=
  Cells.get?_put ..

end Table

end CanonicalLR
