import CanonicalLR.Flow
import CanonicalLR.Grammar.Basic

/-!
# Reachable nonterminals

A mark put on the augmented start symbol flows from the left-hand side of a
production to the nonterminals on its right-hand side. Reachable are the
nonterminals that the mark comes to.
-/

namespace CanonicalLR.Grammar

def mark : Nat := 0

def reachFlows (g : Grammar) : List Flow :=
  g.productions.toList.flatMap fun production =>
    (production.right.filterMap Symbol.nonterminal?).map (Flow.copy production.left)

def reachSeeds (g : Grammar) : IdSets :=
  IdSets.add (Array.replicate g.nonterminals.size ∅) augmentedStart (IdSet.ofList [mark])

def marks (g : Grammar) : IdSets :=
  IdSets.saturate 1 g.reachFlows g.reachSeeds

/-- The declared nonterminals that the start symbol never derives, in order. -/
def unreachable (g : Grammar) : List Nat :=
  let marks := g.marks
  g.userNonterminals.filter fun n => mark ∉ marks.setAt n

end CanonicalLR.Grammar
