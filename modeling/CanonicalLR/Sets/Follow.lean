import CanonicalLR.Sets.First

/-!
# FOLLOW sets

The terminals that come right after a nonterminal in derived strings, the end
marker included.
-/

namespace CanonicalLR

/-- The nonterminals of a symbol string, each with the symbols after it. -/
def occurrences : List Symbol → List (Nat × List Symbol)
  | [] => []
  | .terminal _ :: rest => occurrences rest
  | .nonterminal n :: rest => (n, rest) :: occurrences rest

theorem mem_occurrences {symbols rest : List Symbol} {n : Nat} :
    (n, rest) ∈ occurrences symbols ↔ ∃ before, symbols = before ++ .nonterminal n :: rest := by
  induction symbols with
  | nil => simp [occurrences]
  | cons head tail ih =>
    have shift : (∃ before, head :: tail = before ++ .nonterminal n :: rest) ↔
        head = .nonterminal n ∧ tail = rest ∨
          ∃ before, tail = before ++ .nonterminal n :: rest := by
      constructor
      · rintro ⟨_ | ⟨first, before⟩, split⟩
        · exact .inl (List.cons.inj split)
        · exact .inr ⟨before, (List.cons.inj split).2⟩
      · rintro (⟨rfl, rfl⟩ | ⟨before, rfl⟩)
        · exact ⟨[], rfl⟩
        · exact ⟨head :: before, rfl⟩
    rw [shift, ← ih]
    cases head with
    | terminal t => simp [occurrences]
    | nonterminal m => simp [occurrences, eq_comm]

structure FollowSets where
  sets : IdSets
deriving DecidableEq

namespace Grammar

def followBases (g : Grammar) : IdSets :=
  let none : IdSets := Array.replicate g.nonterminals.size ∅
  let marker := IdSet.ofList [endMarker]
  (none.add augmentedStart marker).add g.start marker

/-- What begins the strings after an occurrence, at the nonterminal that occurs. -/
def followSeeds (g : Grammar) (first : FirstSets) : IdSets :=
  g.productions.toList.foldl
    (fun sets production =>
      (occurrences production.right).foldl
        (fun sets (n, rest) => IdSets.add sets n (first.firstOf rest)) sets)
    g.followBases

/-- Flows from a left-hand side to the nonterminals that only vanishing symbols follow. -/
def followFlows (g : Grammar) (first : FirstSets) : List Flow :=
  g.productions.toList.flatMap fun production =>
    ((occurrences production.right).filter (first.vanishes ·.2)).map
      (Flow.copy production.left ·.1)

def followSets (g : Grammar) (first : FirstSets) : FollowSets :=
  ⟨IdSets.saturate g.terminals.size (g.followFlows first) (g.followSeeds first)⟩

end Grammar

namespace FollowSets

def follow (sets : FollowSets) (n : Nat) : IdSet :=
  sets.sets.setAt n

end FollowSets

structure FirstFollow where
  first : FirstSets
  follow : FollowSets
deriving DecidableEq

namespace Grammar

def firstFollow (g : Grammar) : FirstFollow :=
  let first := g.firstSets
  ⟨first, g.followSets first⟩

end Grammar

end CanonicalLR
