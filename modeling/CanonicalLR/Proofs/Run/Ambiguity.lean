import CanonicalLR.Proofs.Run.Soundness
import CanonicalLR.Proofs.Run.Completeness
import CanonicalLR.Proofs.Table.Clashes

/-!
# Accepted inputs have one parse tree

Each parse tree of an input drives the run over it. A run that accepts has met
no conflict on its way, so that it has built every parse tree of its input; but
its replay builds only one.
-/

namespace CanonicalLR

open CanonicalLR.Configuration

namespace Grammar

/-- A parse tree over the start symbol, with the word at its leaves. -/
def Parses (g : Grammar) (tree : ParseTree) (word : List Nat) : Prop :=
  g.Forest [.nonterminal g.start] [tree] ∧ tree.frontier = word

variable {g : Grammar} {tree : ParseTree} {word : List Nat}

theorem frontiers_singleton (tree : ParseTree) : ParseTree.frontiers [tree] = tree.frontier :=
  List.append_nil _

theorem Generates.exists_parses (generated : g.Generates word) : ∃ tree, g.Parses tree word := by
  obtain ⟨trees, forest, rfl⟩ := exists_forest_of_derives generated
  obtain ⟨tree, rfl⟩ := List.length_eq_one_iff.mp forest.length_eq
  exact ⟨tree, forest, (frontiers_singleton tree).symm⟩

section

variable {a : Automaton} (wellFormed : g.WellFormed) (canonical : a.Canonical g)
include wellFormed canonical

theorem Parses.grows (parses : g.Parses tree word) :
    MeetsConflict g (a.table g) (initial word) ∨ ∃ last,
      Grows g (a.table g) (initial word, []) (last, [tree]) ∧
      last.action? g (a.table g) = some .accept := by
  obtain ⟨forest, rfl⟩ := parses
  rw [← frontiers_singleton]
  exact forest.grows_to_accept wellFormed canonical

/-- The replay of a run that comes to accept builds whatever parse tree its input has. -/
theorem Parses.replay_eq {index : Nat} {steps : List Step} (parses : g.Parses tree word)
    (traces : Traces g (a.table g) index (initial word) steps)
    (accepted : (steps.getLast?.bind fun step => step.action.rejection?) = none) :
    ParseTree.replay? g [] steps = some tree := by
  rcases parses.grows wellFormed canonical with ⟨later, reached, kind, conflict⟩ |
    ⟨last, grows, accepts⟩
  · obtain ⟨earlier, final, rfl⟩ := traces.exists_last
    obtain ⟨toEnd, acts⟩ := traces.reaches
    have stopped := last_action_unique reached conflict rfl toEnd acts traces.ends
    simp [← stopped, StepAction.rejection?] at accepted
  · obtain ⟨number, rest, traces, same⟩ := grows.replay traces
    rw [same]
    cases traces with
    | last acts ends =>
      obtain rfl := Option.some.inj (acts.symm.trans accepts)
      rfl
    | next acts goes _ =>
      obtain rfl := Option.some.inj (acts.symm.trans accepts)
      cases goes

/-- Without conflicts the run over the leaves of a tree ends, and accepts. -/
theorem Parses.exists_traces (parses : g.Parses tree word)
    (clean : (a.table g).hasConflicts = false) : ∃ steps,
      Traces g (a.table g) 1 (initial word) steps ∧
      (steps.getLast?.bind fun step => step.action.rejection?) = none := by
  rcases parses.grows wellFormed canonical with ⟨later, -, conflicted⟩ | ⟨last, grows, accepts⟩
  · exact absurd conflicted.hasConflicts (by simp [clean])
  · obtain ⟨earlier, final, traces, -, action⟩ := grows.reaches.exists_traces accepts rfl 1
    exact ⟨_, traces, by simp [action, StepAction.rejection?]⟩

end

end Grammar

namespace Analysis

/-- An accepted input has exactly one parse tree, the one that its run builds. Without conflicts no
word has two. -/
theorem accepted_one_parse {calls : List Call} {g : Grammar} {settings : Settings}
    {analysis : Analysis} (defined : Grammar.ofCalls calls = .ok g)
    (analyzed : g.analyze settings = .ok analysis) :
    (∀ tokens fuel result, analysis.simulate g fuel tokens = .ok (some result) →
      result.accepted = true → g.tokenize tokens = .ok result.input ∧
      ∃ tree, result.tree? g = some tree ∧
        ∀ other, g.Parses other result.input ↔ other = tree) ∧
    (analysis.table.hasConflicts = false → ∀ word first second,
      g.Parses first word → g.Parses second word → first = second) := by
  have wellFormed := Grammar.wellFormed_ofCalls defined
  obtain ⟨canonical, table⟩ := Grammar.analyze_eq_ok analyzed
  constructor
  · intro tokens fuel result simulated accepted
    obtain ⟨input, tokenized, run⟩ := Grammar.simulate_eq_ok.mp simulated
    obtain ⟨⟨steps, traces, rfl⟩, -⟩ := Table.run_eq_some_iff.mp run
    rw [table] at traces
    have unrejected := Option.isNone_iff_eq_none.mp accepted
    have built : ∀ other, g.Parses other input →
        (ParseResult.ofSteps input steps).tree? g = some other := by
      intro other parses
      rw [ParseResult.tree?, if_pos accepted]
      exact parses.replay_eq wellFormed canonical traces unrejected
    have derived := traces.derivesRightmost wellFormed canonical .nil
      (Grammar.ne_endMarker_of_tokenize tokenized) unrejected
    have generated : g.Generates input := derived.derives
    obtain ⟨tree, parses⟩ := generated.exists_parses
    refine ⟨tokenized, tree, built tree parses, fun other => ⟨fun others => ?_, ?_⟩⟩
    · exact Option.some.inj ((built other others).symm.trans (built tree parses))
    · rintro rfl
      exact parses
  · intro clean word first second left right
    rw [table] at clean
    obtain ⟨steps, traces, accepted⟩ := left.exists_traces wellFormed canonical clean
    have built := left.replay_eq wellFormed canonical traces accepted
    rw [right.replay_eq wellFormed canonical traces accepted] at built
    exact (Option.some.inj built).symm

/-- `i x` has one parse tree although the table has conflicts, and without conflicts no row of
parentheses has two. -/
theorem dangling_accepts_one_parse : (∃ analysis result,
    Grammar.dangling.analyze {} = .ok analysis ∧ analysis.table.hasConflicts = true ∧
    analysis.simulate Grammar.dangling 8 ["i", "x"] = .ok (some result) ∧
    result.tree? Grammar.dangling = some (.node 1 [.leaf 1, .node 3 [.leaf 3]]) ∧
    ∀ other, Grammar.dangling.Parses other [1, 3] ↔
      other = .node 1 [.leaf 1, .node 3 [.leaf 3]]) ∧
    ∀ word first second, Grammar.parentheses.Parses first word →
      Grammar.parentheses.Parses second word → first = second := by
  have seen : (Grammar.dangling.analyze {}).toOption.map (fun analysis =>
      (analysis.table.hasConflicts,
        (analysis.simulate Grammar.dangling 8 ["i", "x"]).toOption.map fun ended =>
          ended.map fun result => (result.accepted, result.input))) =
      some (true, some (some (true, [1, 3]))) := by decide +kernel
  obtain ⟨analysis, analyzed, seen⟩ := Grammar.exists_of_toOption seen
  obtain ⟨conflicts, seen⟩ := Prod.mk.inj seen
  obtain ⟨ended, simulated, seen⟩ := Grammar.exists_of_toOption seen
  obtain ⟨result, rfl, same⟩ := Option.map_eq_some_iff.mp seen
  obtain ⟨accepted, input⟩ := Prod.mk.inj same
  obtain ⟨-, tree, built, only⟩ :=
    (accepted_one_parse Grammar.ofCalls_dangling analyzed).1 _ _ _ simulated accepted
  rw [input] at only
  have single : Grammar.dangling.production? 3 = some ⟨1, [.terminal 3]⟩ := rfl
  have nested : Grammar.dangling.production? 1 = some ⟨1, [.terminal 1, .nonterminal 1]⟩ := rfl
  have inside : Grammar.dangling.Forest [.terminal 1, .nonterminal 1]
      [.leaf 1, .node 3 [.leaf 3]] := .leaf 1 (.single single (.leaf 3 .nil))
  obtain rfl := (only _).mp ⟨.single nested inside, rfl⟩
  refine ⟨⟨analysis, result, analyzed, conflicts, simulated, built, only⟩, ?_⟩
  obtain ⟨other, analyzedToo, clean⟩ := Grammar.exists_analysis_parentheses
  exact (accepted_one_parse Grammar.ofCalls_parentheses analyzedToo).2 clean

end Analysis

end CanonicalLR
