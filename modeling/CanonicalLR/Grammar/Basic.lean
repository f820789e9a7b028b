import CanonicalLR.Symbol
import CanonicalLR.Text.Padded

/-!
# Augmented grammars

A grammar lists its terminals, nonterminals and productions by id. Entry zero
of each list is reserved: the end marker, the augmented start symbol and the
production that derives the start symbol from it.
-/

namespace CanonicalLR

structure Grammar where
  terminals : Array String
  nonterminals : Array String
  productions : Array Production
  start : Nat
deriving DecidableEq

def endMarkerName : String := "$"

namespace Grammar

def production? (g : Grammar) (p : Nat) : Option Production :=
  g.productions[p]?

def terminalName? (g : Grammar) (t : Nat) : Option String :=
  g.terminals[t]?

def nonterminalName? (g : Grammar) (n : Nat) : Option String :=
  g.nonterminals[n]?

def symbolName? (g : Grammar) : Symbol → Option String
  | .terminal t => g.terminalName? t
  | .nonterminal n => g.nonterminalName? n

/-- The terminal of a name; the end marker has one too. -/
def terminal? (g : Grammar) (name : String) : Option Nat :=
  g.terminals.idxOf? name

/-- The declared nonterminal of a name; the augmented start symbol is not looked up. -/
def nonterminal? (g : Grammar) (name : String) : Option Nat :=
  ((g.nonterminals.toList.drop 1).idxOf? name).map (· + 1)

def terminalIds (g : Grammar) : List Nat :=
  List.range g.terminals.size

def nonterminalIds (g : Grammar) : List Nat :=
  List.range g.nonterminals.size

def productionIds (g : Grammar) : List Nat :=
  List.range g.productions.size

/-- The terminals that the grammar's author declared. -/
def userTerminals (g : Grammar) : List Nat :=
  g.terminalIds.drop 1

def userNonterminals (g : Grammar) : List Nat :=
  g.nonterminalIds.drop 1

/-- The productions with a given left-hand side, in ascending order. -/
def productionsOf (g : Grammar) (n : Nat) : List Nat :=
  g.productionIds.filter fun p => (g.production? p).any (·.left == n)

/-- A terminal that is looked up by a name has that name. -/
theorem terminalName?_of_terminal? {g : Grammar} {name : String} {t : Nat}
    (found : g.terminal? name = some t) : g.terminalName? t = some name := by
  rw [terminal?, Array.idxOf?_eq_map_finIdxOf?_val] at found
  obtain ⟨index, here, rfl⟩ := Option.map_eq_some_iff.mp found
  have same := (Array.finIdxOf?_eq_some_iff.mp here).1
  exact Array.getElem?_eq_some_iff.mpr ⟨index.isLt, same⟩

theorem mem_productionsOf {g : Grammar} {n : Nat} {p : Nat} :
    p ∈ g.productionsOf n ↔ ∃ production, g.production? p = some production ∧
      production.left = n := by
  simp only [productionsOf, productionIds, List.mem_filter, List.mem_range, Option.any_eq_true,
    beq_iff_eq, and_iff_right_iff_imp, forall_exists_index, and_imp]
  intro production found _
  exact (Array.getElem?_eq_some_iff.mp found).1

theorem productionsOf_pairwise (g : Grammar) (n : Nat) :
    (g.productionsOf n).Pairwise (· < ·) :=
  List.pairwise_lt_range.filter _

end Grammar

namespace Production

/-- `A -> x y`, and `A -> ε` for an empty right-hand side. -/
def text? (g : Grammar) (production : Production) : Option String := do
  let left ← g.nonterminalName? production.left
  let right ← production.right.mapM g.symbolName?
  return Text.spaced (left :: "->" :: if right.isEmpty then ["ε"] else right)

end Production

end CanonicalLR
