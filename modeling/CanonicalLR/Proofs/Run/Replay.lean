import CanonicalLR.Proofs.Run.Ambiguity
import CanonicalLR.Proofs.Run.Postorder

/-!
# The replayed tree tells the whole run

Nothing is recorded after an acceptance, so that the reductions which tell the
tree of a replay are all reductions of the run. An accepted run builds the only
parse tree of its input.
-/

namespace CanonicalLR

namespace Configuration

variable {g : Grammar} {table : Table} {c : Configuration} {index : Nat}

/-- Nothing is recorded after an acceptance. -/
theorem Traces.eq_nil_of_accept {earlier later : List Step} {last : Step}
    (traces : Traces g table index c (earlier ++ last :: later)) (accepts : last.action = .accept) :
    later = [] := by
  cases later with
  | nil => rfl
  | cons following rest =>
    have goes := traces.next_step
    rw [accepts] at goes
    cases goes

/-- The tree that a recorded run builds is derived by the reductions of the run, the last first. -/
theorem Traces.rightmostDerivation_replay {steps : List Step} {tree : ParseTree}
    (traces : Traces g table index c steps)
    (replayed : ParseTree.replay? g [] steps = some tree) :
    tree.rightmostDerivation = (steps.filterMap fun step => step.action.production?).reverse := by
  obtain ⟨-, told⟩ := ParseTree.replay?_nil_iff_toldBy.mp replayed
  obtain ⟨earlier, last, later, rfl, accepts, -, -, derived⟩ := told.tells
  obtain rfl := traces.eq_nil_of_accept accepts
  rw [derived]
  simp [accepts, StepAction.production?]

end Configuration

/-- A tree below a nonterminal is a node, and its production has the nonterminal on the left. -/
theorem Grammar.Forest.exists_node {g : Grammar} {n : Nat} {tree : ParseTree}
    (forest : g.Forest [.nonterminal n] [tree]) : ∃ p production children,
      tree = .node p children ∧ g.production? p = some production ∧ production.left = n ∧
        g.Forest production.right children := by
  generalize root : [Symbol.nonterminal n] = symbols at forest
  cases forest with
  | leaf t rest => cases root
  | node found below rest =>
    obtain ⟨same, -⟩ := List.cons.inj root
    exact ⟨_, _, _, rfl, found, (Symbol.nonterminal.inj same).symm, below⟩

namespace Analysis

/-- An accepted run replays to a tree over the start symbol, in which the children of every node
match its production. The leaves of the tree are the input, and both ways to list its productions
list the reductions of the run backwards. -/
theorem accepted_replays {calls : List Call} {g : Grammar} {settings : Settings}
    {analysis : Analysis} {tokens : List String} {fuel : Nat} {result : ParseResult}
    (defined : Grammar.ofCalls calls = .ok g) (analyzed : g.analyze settings = .ok analysis)
    (simulated : analysis.simulate g fuel tokens = .ok (some result))
    (accepted : result.accepted = true) :
    g.tokenize tokens = .ok result.input ∧ ∃ tree, result.tree? g = some tree ∧
      (∃ p production children, tree = .node p children ∧ g.production? p = some production ∧
        production.left = g.start) ∧
      g.Forest [.nonterminal g.start] [tree] ∧
      tree.frontier = result.input ∧
      tree.rightmostDerivation = result.rightmostDerivation ∧
      ParseTree.walk [tree] = result.rightmostDerivation := by
  have wellFormed := Grammar.wellFormed_ofCalls defined
  obtain ⟨canonical, table⟩ := Grammar.analyze_eq_ok analyzed
  obtain ⟨input, tokenized, run⟩ := Grammar.simulate_eq_ok.mp simulated
  obtain ⟨⟨steps, traces, rfl⟩, -⟩ := Table.run_eq_some_iff.mp run
  rw [table] at traces
  have unrejected := Option.isNone_iff_eq_none.mp accepted
  have generated : g.Generates input := (traces.derivesRightmost wellFormed canonical .nil
    (Grammar.ne_endMarker_of_tokenize tokenized) unrejected).derives
  obtain ⟨tree, parses⟩ := generated.exists_parses
  have replayed := parses.replay_eq wellFormed canonical traces unrejected
  have derived := traces.rightmostDerivation_replay replayed
  refine ⟨tokenized, tree, ?_, ?_, parses.1, parses.2, derived, ?_⟩
  · rw [ParseResult.tree?, if_pos accepted]
    exact replayed
  · obtain ⟨p, production, children, rfl, found, left, -⟩ := parses.1.exists_node
    exact ⟨p, production, children, rfl, found, left⟩
  · rw [ParseTree.walk_singleton]
    exact derived

theorem nested_parentheses_replay : ∃ analysis result tree,
    Grammar.parentheses.analyze {} = .ok analysis ∧
    analysis.simulate Grammar.parentheses 16 ["(", "(", ")", ")"] = .ok (some result) ∧
    result.tree? Grammar.parentheses = some tree ∧ tree.frontier = [1, 1, 2, 2] ∧
    ParseTree.walk [tree] = [1, 1, 2] := by
  have seen : (Grammar.parentheses.analyze {}).toOption.map (fun analysis =>
      (analysis.simulate Grammar.parentheses 16 ["(", "(", ")", ")"]).toOption.map fun ended =>
        ended.map fun result => (result.accepted, result.input, result.rightmostDerivation)) =
      some (some (some (true, [1, 1, 2, 2], [1, 1, 2]))) := by decide +kernel
  obtain ⟨analysis, analyzed, seen⟩ := Grammar.exists_of_toOption seen
  obtain ⟨ended, simulated, seen⟩ := Grammar.exists_of_toOption seen
  obtain ⟨result, rfl, same⟩ := Option.map_eq_some_iff.mp seen
  obtain ⟨accepted, input, productions⟩ := by simpa only [Prod.mk.injEq] using same
  obtain ⟨-, tree, built, -, -, leaves, -, walked⟩ :=
    accepted_replays Grammar.ofCalls_parentheses analyzed simulated accepted
  exact ⟨analysis, result, tree, analyzed, simulated, built, leaves.trans input,
    walked.trans productions⟩

end Analysis

end CanonicalLR
