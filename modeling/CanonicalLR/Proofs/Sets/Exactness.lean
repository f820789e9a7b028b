import CanonicalLR.Proofs.Sets.First

/-!
# FIRST sets and nullability are exact

The fixed points are reached, by the repetitions that have no fuel as well, and
what they say of a symbol string is said in terms of derivations.
-/

namespace CanonicalLR

namespace FirstSets

/-- The set of a nonterminal is that of the string of it alone. -/
theorem firstOf_nonterminal (sets : FirstSets) (n : Nat) :
    sets.firstOf [.nonterminal n] = sets.first n := by
  have alone : leading sets.nullable [.nonterminal n] = [.nonterminal n] := by
    unfold leading
    split <;> rfl
  ext t
  rw [mem_firstOf, alone]
  simp [firstSymbol]

theorem vanishes_nonterminal (sets : FirstSets) (n : Nat) :
    sets.vanishes [.nonterminal n] = sets.isNullable n := by
  simp [vanishes, CanonicalLR.vanishes, Symbol.isNullable, isNullable]

end FirstSets

namespace Grammar

variable {g : Grammar}

/-- Copies of a set to itself are not followed, and the passes over the others still end at the
FIRST sets. -/
theorem firstSets_converges (wellFormed : g.WellFormed) :
    Converges
      (IdSets.pass ((g.firstFlows g.nullable).filter fun flow => flow.source ≠ flow.target))
      (g.firstSeeds g.nullable) g.firstSets.sets := by
  have copies : ∀ flow ∈ g.firstFlows g.nullable, ∃ source target, flow = .copy source target := by
    intro flow listed
    obtain ⟨p, production, n, -, -, same⟩ := mem_firstFlows.mp listed
    exact ⟨n, production.left, same⟩
  rw [IdSets.pass_filter_copies copies]
  exact converges_stabilize
    (IdSets.pass_saturate (below_firstSeeds wellFormed) lt_of_mem_gain_firstFlows)

/-- The computation of FIRST sets ends, and its results are exact: the set of a symbol string has
the terminals that the strings derived from it begin with, and the flag is set exactly for the
strings that derive the empty string. -/
theorem first_exact {calls : List Call} (defined : Grammar.ofCalls calls = .ok g) :
    ((∀ known, known ⊆ g.nullable → Converges g.nullablePass known g.nullable) ∧
      Converges
        (IdSets.pass ((g.firstFlows g.nullable).filter fun flow => flow.source ≠ flow.target))
        (g.firstSeeds g.nullable) g.firstSets.sets) ∧
    (∀ symbols,
      (∀ t, t ∈ g.firstSets.firstOf symbols ↔
        ∃ rest, g.Derives symbols (.terminal t :: rest)) ∧
      (g.firstSets.vanishes symbols = true ↔ g.Derives symbols []) ∧
      ∀ lookahead t, t ∈ g.firstSets.firstBefore symbols lookahead ↔
        (∃ rest, g.Derives symbols (.terminal t :: rest)) ∨
          g.Derives symbols [] ∧ t = lookahead) ∧
    ∀ n, g.firstSets.first n = g.firstSets.firstOf [.nonterminal n] ∧
      g.firstSets.isNullable n = g.firstSets.vanishes [.nonterminal n] := by
  have wellFormed := wellFormed_ofCalls defined
  have flag (symbols : List Symbol) :
      g.firstSets.vanishes symbols = true ↔ g.Derives symbols [] :=
    (vanishes_nullable_iff wellFormed).trans erases_iff_derives
  have starts (symbols : List Symbol) (t : Nat) :
      t ∈ g.firstSets.firstOf symbols ↔ ∃ rest, g.Derives symbols (.terminal t :: rest) :=
    (mem_firstOf_iff wellFormed).trans begins_iff_derives
  refine ⟨⟨fun _ within => nullablePass_converges wellFormed within,
    firstSets_converges wellFormed⟩, fun symbols => ⟨starts symbols, flag symbols, ?_⟩, ?_⟩
  · intro lookahead t
    rw [FirstSets.mem_firstBefore, starts, flag]
  · intro n
    exact ⟨(FirstSets.firstOf_nonterminal ..).symm, (FirstSets.vanishes_nonterminal ..).symm⟩

/-- Sums `E` of products `T` of factors `F`, without left recursion: `E -> T R`,
`R -> + T R | ε`, `T -> F U`, `U -> * F U | ε`, `F -> ( E ) | id`. -/
def expressions : Grammar where
  terminals := #["$", "+", "*", "(", ")", "id"]
  nonterminals := #["E'", "E", "R", "T", "U", "F"]
  productions := #[⟨0, [.nonterminal 1]⟩, ⟨1, [.nonterminal 3, .nonterminal 2]⟩,
    ⟨2, [.terminal 1, .nonterminal 3, .nonterminal 2]⟩, ⟨2, []⟩,
    ⟨3, [.nonterminal 5, .nonterminal 4]⟩,
    ⟨4, [.terminal 2, .nonterminal 5, .nonterminal 4]⟩, ⟨4, []⟩,
    ⟨5, [.terminal 3, .nonterminal 1, .terminal 4]⟩, ⟨5, [.terminal 5]⟩]
  start := 1

def expressionsCalls : List Call :=
  [.terminal "+", .terminal "*", .terminal "(", .terminal ")", .terminal "id",
    .nonterminal "E", .nonterminal "R", .nonterminal "T", .nonterminal "U", .nonterminal "F",
    .production 1 [.nonterminal 3, .nonterminal 2],
    .production 2 [.terminal 1, .nonterminal 3, .nonterminal 2], .production 2 [],
    .production 3 [.nonterminal 5, .nonterminal 4],
    .production 4 [.terminal 2, .nonterminal 5, .nonterminal 4], .production 4 [],
    .production 5 [.terminal 3, .nonterminal 1, .terminal 4], .production 5 [.terminal 5]]

theorem ofCalls_expressions : Grammar.ofCalls expressionsCalls = .ok expressions := by
  decide +kernel

/-- What is left of a sum after a factor begins with `*` or `+`, or is nothing; a sum begins with
`(` or `id`. -/
theorem expressions_begin :
    (∀ t, (∃ rest, expressions.Derives [.nonterminal 4, .nonterminal 2] (.terminal t :: rest)) ↔
      t = 1 ∨ t = 2) ∧
    expressions.Derives [.nonterminal 4, .nonterminal 2] [] ∧
    (∀ t, (∃ rest, expressions.Derives [.nonterminal augmentedStart] (.terminal t :: rest)) ↔
      t = 3 ∨ t = 5) ∧
    ¬ expressions.Derives [.nonterminal augmentedStart] [] := by
  obtain ⟨-, exact, -⟩ := first_exact ofCalls_expressions
  have after := exact [.nonterminal 4, .nonterminal 2]
  have whole := exact [.nonterminal augmentedStart]
  have afterFirst : expressions.firstSets.firstOf [.nonterminal 4, .nonterminal 2] =
      IdSet.ofList [1, 2] := by decide +kernel
  have wholeFirst : expressions.firstSets.firstOf [.nonterminal augmentedStart] =
      IdSet.ofList [3, 5] := by decide +kernel
  have afterEmpty : expressions.firstSets.vanishes [.nonterminal 4, .nonterminal 2] = true := by
    decide +kernel
  have wholeEmpty : expressions.firstSets.vanishes [.nonterminal augmentedStart] = false := by
    decide +kernel
  refine ⟨fun t => ?_, after.2.1.mp afterEmpty, fun t => ?_, fun empty => ?_⟩
  · rw [← after.1, afterFirst]
    simp
  · rw [← whole.1, wholeFirst]
    simp
  · rw [← whole.2.1, wholeEmpty] at empty
    cases empty

end Grammar

end CanonicalLR
