import CanonicalLR.Item.Set
import CanonicalLR.Sets.First

/-!
# Closure of item sets

An item with its dot before a nonterminal demands that nonterminal with every
terminal that may come after it. Demands flow from a left-hand side to the
nonterminal that begins a right-hand side; the closure has the items of the
kernel and, for every demand, the productions of the nonterminal.
-/

namespace CanonicalLR

/-- The flow of demands through a production that begins with a nonterminal. -/
def demandFlow? (first : FirstSets) (production : Production) : Option Flow :=
  match production.right with
  | .nonterminal n :: rest =>
      some ⟨production.left, n, first.firstOf rest, first.vanishes rest⟩
  | _ => none

/-- What the closures over one grammar have in common. -/
structure ClosureRules where
  grammar : Grammar
  first : FirstSets
  flows : List Flow

namespace ClosureRules

def ofGrammar (g : Grammar) (first : FirstSets) : ClosureRules :=
  ⟨g, first, g.productions.toList.filterMap (demandFlow? first)⟩

/-- The lookaheads with which an item itself demands the nonterminal after its dot. -/
def addDemand (rules : ClosureRules) (demands : IdSets) (item : Item) : IdSets :=
  match item.next? rules.grammar with
  | some (.nonterminal n) =>
      IdSets.add demands n (rules.first.firstBefore (item.rest rules.grammar) item.lookahead)
  | _ => demands

def demands (rules : ClosureRules) (kernel : List Item) : IdSets :=
  let none : IdSets := Array.replicate rules.grammar.nonterminals.size ∅
  IdSets.saturate rules.grammar.terminals.size rules.flows
    (kernel.foldl rules.addDemand none)

/-- The items that begin a production of a demanded nonterminal, in canonical order. -/
def predicted (rules : ClosureRules) (demands : IdSets) : List Item :=
  let lookaheads := demands.map IdSet.toList
  (rules.grammar.productions.toList.mapIdx fun p production =>
    (lookaheads.getD production.left []).map fun t => Item.mk p 0 t).flatten

def close (rules : ClosureRules) (kernel : List Item) : ItemSet :=
  (ItemSet.ofList (rules.predicted (rules.demands kernel))).addAll kernel

end ClosureRules

def closure (g : Grammar) (first : FirstSets) (kernel : List Item) : ItemSet :=
  (ClosureRules.ofGrammar g first).close kernel

namespace ItemSet

def goto (g : Grammar) (first : FirstSets) (set : ItemSet) (symbol : Symbol) : ItemSet :=
  closure g first (set.gotoKernel g symbol).toList

end ItemSet

end CanonicalLR
