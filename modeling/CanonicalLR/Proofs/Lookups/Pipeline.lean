import CanonicalLR.Proofs.Automaton.Cut
import CanonicalLR.Proofs.Lookups.Texts

/-!
# No look-up misses

What a sequence of calls defines can be written, analyzed, run and written again,
and every look-up on the way finds its entry: names by id, productions, FIRST and
FOLLOW sets, states, candidates and stack entries. No length is exceeded by what
is taken from it, and no dot leaves its range.
-/

namespace CanonicalLR.Grammar

/-- The checked forms of the analysis, of every run and of every tree come to the results of the
plain ones, and everything that results has a text. -/
theorem lookups_found {calls : List Call} {g : Grammar} (defined : Grammar.ofCalls calls = .ok g)
    (settings : Settings) :
    g.text?.isSome ∧
    g.analyze? settings = some (g.analyze settings) ∧
    (∀ limit bound built a,
      g.analyze settings = .error (.limitExceeded limit bound built (some a)) →
        (a.text? g).isSome) ∧
    ∀ analysis, g.analyze settings = .ok analysis →
      ((analysis.sets.text? g).isSome ∧ (analysis.automaton.text? g).isSome ∧
        (analysis.table.text? g).isSome) ∧
      (∀ n ∈ g.nonterminalIds, (analysis.sets.first.sets.setAt? n).isSome ∧
        (analysis.sets.follow.sets.setAt? n).isSome) ∧
      (∀ cell ∈ analysis.table.conflicts,
        cell.conflict.candidates[0]? = some cell.conflict.preferred) ∧
      ∀ fuel tokens,
        analysis.table.simulate? g fuel tokens = some (analysis.simulate g fuel tokens) ∧
        ∀ result, analysis.simulate g fuel tokens = .ok (some result) →
          (result.text? g).isSome ∧ result.checkedTree? g = some (result.tree? g) ∧
            ∀ tree, result.tree? g = some tree → (tree.text? g).isSome := by
  have wellFormed := wellFormed_ofCalls defined
  refine ⟨wellFormed.isSome_text?, analyze?_eq_some wellFormed settings, ?_, ?_⟩
  · intro limit bound built a analyzed
    obtain ⟨halted, collected, rfl⟩ := exists_halted_of_analyze analyzed
    exact (Automaton.stocked_of_halted wellFormed collected).isSome_text? wellFormed
  · intro analysis analyzed
    obtain ⟨-, -, collected, same⟩ := analyze_eq_ok_iff.mp analyzed
    have automaton := Automaton.stocked_of_collect wellFormed collected
    have sets : analysis.sets = g.firstFollow := by rw [same]
    have table : analysis.table.Stocked g := by
      rw [same]
      exact Automaton.stocked_table automaton
    refine ⟨⟨sets ▸ wellFormed.isSome_setsText?, automaton.isSome_text? wellFormed,
      table.isSome_text? wellFormed⟩, ?_, fun _ _ => rfl, ?_⟩
    · intro n listed
      have inside := List.mem_range.mp listed
      have first : n < g.firstFollow.first.sets.size := size_firstSets.symm ▸ inside
      have follow : n < g.firstFollow.follow.sets.size := size_followSets.symm ▸ inside
      rw [sets, IdSets.setAt?_eq_some first, IdSets.setAt?_eq_some follow]
      exact ⟨rfl, rfl⟩
    · intro fuel tokens
      refine ⟨Table.simulate?_eq_some wellFormed table fuel tokens, fun result simulated => ?_⟩
      obtain ⟨input, tokenized, run⟩ := simulate_eq_ok.mp simulated
      obtain ⟨ends, -⟩ := Table.run_eq_some_iff.mp run
      have dictated := ends.dictated wellFormed tokenized
      exact ⟨ends.isSome_text? wellFormed tokenized, ParseResult.checkedTree?_eq_some dictated,
        fun tree built => ParseResult.isSome_treeText? wellFormed dictated built⟩

theorem parentheses_lookups_found : ∃ analysis result tree,
    parentheses.analyze? {} = some (.ok analysis) ∧
    analysis.table.simulate? parentheses 20 ["(", ")"] = some (.ok (some result)) ∧
    result.checkedTree? parentheses = some (some tree) ∧
    (analysis.table.text? parentheses).isSome ∧ (result.text? parentheses).isSome ∧
    (tree.text? parentheses).isSome := by
  have seen : (parentheses.analyze {}).toOption.map (fun analysis =>
      (analysis.simulate parentheses 20 ["(", ")"]).toOption.map fun ended =>
        ended.map fun result => (result.tree? parentheses).isSome) =
      some (some (some true)) := by decide +kernel
  obtain ⟨analysis, analyzed, seen⟩ := exists_of_toOption seen
  obtain ⟨ended, simulated, seen⟩ := exists_of_toOption seen
  obtain ⟨result, rfl, parsed⟩ := Option.map_eq_some_iff.mp seen
  obtain ⟨tree, built⟩ := Option.isSome_iff_exists.mp parsed
  obtain ⟨-, checked, -, found⟩ := lookups_found ofCalls_parentheses {}
  obtain ⟨⟨-, -, table⟩, -, -, runs⟩ := found analysis analyzed
  obtain ⟨ran, results⟩ := runs 20 ["(", ")"]
  obtain ⟨text, replayed, trees⟩ := results result simulated
  exact ⟨analysis, result, tree, analyzed ▸ checked, simulated ▸ ran, built ▸ replayed, table, text,
    trees tree built⟩

end CanonicalLR.Grammar
