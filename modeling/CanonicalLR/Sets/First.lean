import CanonicalLR.Sets.Nullable

/-!
# FIRST sets

The terminals that the strings derived from a nonterminal begin with. The empty
string is not a member of a set; it is recorded by the nullable nonterminals.
-/

namespace CanonicalLR

structure FirstSets where
  nullable : IdSet
  sets : IdSets
deriving DecidableEq

namespace Grammar

/-- The terminals that may begin a right-hand side, at its left-hand side. -/
def firstSeeds (g : Grammar) (nullable : IdSet) : IdSets :=
  g.productions.toList.foldl
    (fun sets production =>
      let starters := (leading nullable production.right).filterMap Symbol.terminal?
      IdSets.add sets production.left (IdSet.ofList starters))
    (Array.replicate g.nonterminals.size ∅)

/-- Flows from the nonterminals that may begin a right-hand side to its left-hand side. -/
def firstFlows (g : Grammar) (nullable : IdSet) : List Flow :=
  g.productions.toList.flatMap fun production =>
    ((leading nullable production.right).filterMap Symbol.nonterminal?).map
      (Flow.copy · production.left)

def firstSets (g : Grammar) : FirstSets :=
  let nullable := g.nullable
  ⟨nullable, IdSets.saturate g.terminals.size (g.firstFlows nullable) (g.firstSeeds nullable)⟩

end Grammar

namespace FirstSets

def first (sets : FirstSets) (n : Nat) : IdSet :=
  sets.sets.setAt n

def isNullable (sets : FirstSets) (n : Nat) : Bool :=
  n ∈ sets.nullable

def firstSymbol (sets : FirstSets) : Symbol → IdSet
  | .terminal t => IdSet.ofList [t]
  | .nonterminal n => sets.first n

/-- The terminals that the strings derived from a symbol string begin with. -/
def firstOf (sets : FirstSets) (symbols : List Symbol) : IdSet :=
  (leading sets.nullable symbols).foldl (fun found symbol => found ∪ sets.firstSymbol symbol) ∅

def vanishes (sets : FirstSets) (symbols : List Symbol) : Bool :=
  CanonicalLR.vanishes sets.nullable symbols

/-- The terminals that begin a derived string followed by a lookahead. -/
def firstBefore (sets : FirstSets) (symbols : List Symbol) (lookahead : Nat) : IdSet :=
  if sets.vanishes symbols then (sets.firstOf symbols).insert lookahead
  else sets.firstOf symbols

theorem mem_foldl_firstSymbol {sets : FirstSets} {symbols : List Symbol} {found : IdSet}
    {t : Nat} :
    t ∈ symbols.foldl (fun found symbol => found ∪ sets.firstSymbol symbol) found ↔
      t ∈ found ∨ ∃ symbol ∈ symbols, t ∈ sets.firstSymbol symbol := by
  induction symbols generalizing found with
  | nil => simp
  | cons head tail ih => simp [ih, or_assoc]

theorem mem_firstOf {sets : FirstSets} {symbols : List Symbol} {t : Nat} :
    t ∈ sets.firstOf symbols ↔
      ∃ symbol ∈ leading sets.nullable symbols, t ∈ sets.firstSymbol symbol := by
  simp [firstOf, mem_foldl_firstSymbol]

theorem mem_firstBefore {sets : FirstSets} {symbols : List Symbol} {lookahead t : Nat} :
    t ∈ sets.firstBefore symbols lookahead ↔
      t ∈ sets.firstOf symbols ∨ sets.vanishes symbols = true ∧ t = lookahead := by
  unfold firstBefore
  split <;> simp_all [or_comm]

end FirstSets

end CanonicalLR
