import CanonicalLR.Automaton.Printer
import CanonicalLR.Table.Basic

/-!
# Written parse tables

Each row with its actions and gotos; below a conflict stands the move that is
preferred. An empty line separates two rows.
-/

namespace CanonicalLR

namespace Row

def actionLines? (g : Grammar) (t : Nat) (action : Action) : Option String := do
  let name ← g.terminalName? t
  let text ← action.text? g
  let preferred ← match action.conflict? with
    | none => pure ""
    | some conflict =>
      (conflict.preferred.text? g).map fun move => Text.line s!"  (default: {move})"
  return Text.line s!"- {name} => {text}" ++ preferred

def gotoLine? (g : Grammar) (n next : Nat) : Option String := do
  let name ← g.nonterminalName? n
  return Text.line s!"- {name} => goto({next})"

def text? (g : Grammar) (s : Nat) (row : Row) : Option String := do
  let actions ← row.actions.entries.mapM fun (t, action) => actionLines? g t action
  let gotos ← row.gotos.entries.mapM fun (n, next) => gotoLine? g n next
  let listing := if gotos.isEmpty then gotos else "## gotos\n" :: gotos
  return String.join (Text.line (stateHeading s) :: "## actions\n" :: actions ++ listing)

end Row

namespace Table

def text? (g : Grammar) (table : Table) : Option String := do
  let rows ← table.rows.entries.mapM fun (s, row) => row.text? g s
  return "\n".intercalate rows

end Table

end CanonicalLR
