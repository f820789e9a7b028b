import CanonicalLR.Proofs.Renaming.Orders
import CanonicalLR.Proofs.Renaming.Run

/-!
# The order of declarations does not matter

Grammars that declare the same symbols and productions in different orders are
analyzed alike: both or neither, with corresponding sets, states, tables and
runs.
-/

namespace CanonicalLR

/-- Everything that an analysis of one grammar tells corresponds to what an analysis of the other
tells. -/
structure Corresponds (r : Renumbering) (g h : Grammar) (analysis other : Analysis) : Prop where
  nullable : ∀ n, other.sets.first.isNullable (r.nonterminals n) =
    analysis.sets.first.isNullable n
  first : ∀ n t, r.terminals t ∈ other.sets.first.first (r.nonterminals n) ↔
    t ∈ analysis.sets.first.first n
  follow : ∀ n t, r.terminals t ∈ other.sets.follow.follow (r.nonterminals n) ↔
    t ∈ analysis.sets.follow.follow n
  initial : r.states initialState = initialState
  states : ∀ s, other.automaton.state? (r.states s) = (analysis.automaton.state? s).map r.state
  accepting : ∀ s, (other.automaton.state? (r.states s)).map State.isAccept =
    (analysis.automaton.state? s).map State.isAccept
  transitions : (analysis.automaton.transitions.toList.map r.transition).Perm
    other.automaton.transitions.toList
  moves : ∀ s symbol, other.automaton.transition? (r.states s) (r.symbol symbol) =
    (analysis.automaton.transition? s symbol).map r.states
  cells : ∀ s t, Alike r.move (analysis.table.action? s t)
    (other.table.action? (r.states s) (r.terminals t))
  gotos : ∀ s n, other.table.goto? (r.states s) (r.nonterminals n) =
    (analysis.table.goto? s n).map r.states
  tokens : ∀ tokens, h.tokenize tokens = (g.tokenize tokens).map (List.map r.terminals)
  steps : ∀ count input, (Configuration.initial (input.map r.terminals)).firstSteps h other.table
    count 1 = ((Configuration.initial input).firstSteps g analysis.table count 1).map r.step
  simulations : ∀ fuel tokens, other.simulate h fuel tokens =
    (analysis.simulate g fuel tokens).map (Option.map r.result)

namespace Grammar

variable {g h : Grammar} {settings : Settings} {analysis other : Analysis}

theorem Reorders.userProductionCount_eq (reorders : g.Reorders h) :
    g.userProductionCount = h.userProductionCount := by
  have lengths := reorders.productions.length_eq
  simpa [userProductionCount] using lengths

theorem Reorders.symm (reorders : g.Reorders h) : h.Reorders g :=
  ⟨reorders.terminals.symm, reorders.nonterminals.symm, reorders.productions.symm,
    reorders.start.symm⟩

/-- What succeeds for one order succeeds for the other. -/
theorem Reorders.exists_analysis (reorders : g.Reorders h) {r : Renaming}
    (renames : Renames r g h) (left : g.WellFormed) (right : h.WellFormed)
    (analyzed : g.analyze settings = .ok analysis) : ∃ other, h.analyze settings = .ok other := by
  obtain ⟨few, running, built, -⟩ := analyze_eq_ok_iff.mp analyzed
  obtain ⟨b, otherBuilt⟩ := renames.exists_automaton left right built
  exact ⟨⟨h.firstFollow, b, b.table h⟩, analyze_eq_ok_iff.mpr
    ⟨reorders.userProductionCount_eq ▸ few, running, otherBuilt, rfl⟩⟩

end Grammar

theorem Renumbers.corresponds {r : Renumbering} {g h : Grammar} {limits : Limits}
    {a b : Automaton} (renumbers : Renumbers r g h a b) (left : g.WellFormed)
    (right : h.WellFormed) (leftNamed : g.Named) (rightNamed : h.Named)
    (builtLeft : g.automaton g.firstSets limits = .ok a)
    (builtRight : h.automaton h.firstSets limits = .ok b) :
    Corresponds r g h ⟨g.firstFollow, a, a.table g⟩ ⟨h.firstFollow, b, b.table h⟩ where
  nullable _ := decide_eq_decide.mpr (renumbers.mem_nullable_iff left right)
  first _ _ := renumbers.mem_first_iff left right
  follow _ _ := renumbers.mem_follow_iff left right
  initial := renumbers.initial
  states := renumbers.state?
  accepting s := by
    rw [renumbers.state?, Option.map_map]
    exact congrArg (Option.map · _) (funext fun state => renumbers.isAccept state)
  transitions := renumbers.transitions_perm (Automaton.settled_of_collect builtLeft).1
    (Automaton.settled_of_collect builtRight).1
  moves := renumbers.transition?
  cells := renumbers.action?
  gotos := renumbers.goto?
  tokens tokens := renumbers.tokenizeFrom leftNamed rightNamed 0 (inputBody tokens)
  steps count input := renumbers.mirrors.firstSteps count 1 (.initial input)
  simulations := renumbers.mirrors.simulate
    fun tokens => renumbers.tokenizeFrom leftNamed rightNamed 0 (inputBody tokens)

namespace Analysis

/-- In whichever order the same names and productions are declared, the analysis succeeds for both
orders or for neither, and all that it tells corresponds under a renumbering. -/
theorem declaration_order_immaterial {calls others : List Call} {g h : Grammar}
    (defined : Grammar.ofCalls calls = .ok g) (redefined : Grammar.ofCalls others = .ok h)
    (reorders : g.Reorders h) :
    ∃ r : Renaming, Renames r g h ∧ ∀ settings : Settings,
      ((∃ analysis, g.analyze settings = .ok analysis) ↔
        ∃ other, h.analyze settings = .ok other) ∧
      ∀ analysis other, g.analyze settings = .ok analysis → h.analyze settings = .ok other →
        ∃ states : Equiv.Perm Nat, Corresponds ⟨r, states⟩ g h analysis other := by
  have left := Grammar.wellFormed_ofCalls defined
  have right := Grammar.wellFormed_ofCalls redefined
  have leftNamed := Grammar.named_ofCalls defined
  have rightNamed := Grammar.named_ofCalls redefined
  obtain ⟨r, renames⟩ := reorders.exists_renames left right leftNamed rightNamed
  refine ⟨r, renames, fun settings => ⟨⟨?_, ?_⟩, ?_⟩⟩
  · rintro ⟨analysis, analyzed⟩
    exact reorders.exists_analysis renames left right analyzed
  · rintro ⟨other, analyzed⟩
    exact reorders.symm.exists_analysis renames.inverse right left analyzed
  · intro analysis other analyzed reanalyzed
    obtain ⟨-, -, builtLeft, leftSame⟩ := Grammar.analyze_eq_ok_iff.mp analyzed
    obtain ⟨-, -, builtRight, rightSame⟩ := Grammar.analyze_eq_ok_iff.mp reanalyzed
    obtain ⟨states, renumbers⟩ := renames.exists_renumbers
      (Automaton.settled_of_collect builtLeft).1 (Automaton.settled_of_collect builtRight).1
      left right
    refine ⟨states, ?_⟩
    rw [leftSame, rightSame]
    exact renumbers.corresponds left right leftNamed rightNamed builtLeft builtRight

end Analysis

namespace Grammar

/-- The grammar `doubled` with all of its declarations turned round. -/
def doubledBackwards : Grammar where
  terminals := #["$", "d", "c"]
  nonterminals := #["S'", "C", "S"]
  productions := #[⟨0, [.nonterminal 2]⟩, ⟨1, [.terminal 1]⟩,
    ⟨1, [.terminal 2, .nonterminal 1]⟩, ⟨2, [.nonterminal 1, .nonterminal 1]⟩]
  start := 2

def doubledBackwardsCalls : List Call :=
  [.terminal "d", .terminal "c", .nonterminal "C", .nonterminal "S", .start 2,
    .production 1 [.terminal 1], .production 1 [.terminal 2, .nonterminal 1],
    .production 2 [.nonterminal 1, .nonterminal 1]]

theorem ofCalls_doubledBackwards :
    Grammar.ofCalls doubledBackwardsCalls = .ok doubledBackwards := rfl

theorem doubled_reorders_backwards : doubled.Reorders doubledBackwards where
  terminals := by decide
  nonterminals := by decide
  productions := by decide
  start := by decide

end Grammar

namespace Analysis

theorem doubled_corresponds_backwards : ∃ r : Renumbering, ∃ analysis other,
    Grammar.doubled.analyze {} = .ok analysis ∧
      Grammar.doubledBackwards.analyze {} = .ok other ∧
      Renames r.toRenaming Grammar.doubled Grammar.doubledBackwards ∧
      Corresponds r Grammar.doubled Grammar.doubledBackwards analysis other := by
  obtain ⟨r, renames, alike⟩ := declaration_order_immaterial Grammar.ofCalls_doubled
    Grammar.ofCalls_doubledBackwards Grammar.doubled_reorders_backwards
  have evaluated : (Grammar.doubled.analyze {}).toOption.map (fun analysis =>
      analysis.automaton.states.toList.length) = some 10 := by decide +kernel
  obtain ⟨analysis, analyzed, -⟩ := Grammar.exists_of_toOption evaluated
  obtain ⟨succeeds, corresponds⟩ := alike {}
  obtain ⟨other, reanalyzed⟩ := succeeds.mp ⟨analysis, analyzed⟩
  obtain ⟨states, same⟩ := corresponds analysis other analyzed reanalyzed
  exact ⟨⟨r, states⟩, analysis, other, analyzed, reanalyzed, renames, same⟩

end Analysis

end CanonicalLR
