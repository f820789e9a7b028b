import CanonicalLR.Proofs.Run.Tokens

/-!
# What is accepted has been derived

Read backwards, the reductions of an accepting run derive what has been read and
what has not been read yet from the start symbol, each by the last nonterminal.
-/

namespace CanonicalLR

open CanonicalLR.Configuration

section

variable {g : Grammar} {a : Automaton} (wellFormed : g.WellFormed) (canonical : a.Canonical g)
include wellFormed canonical

namespace Configuration

/-- What a configuration has read and is to read, its accepting run derives from the start. -/
theorem Traces.derivesRightmost {index : Nat} {c : Configuration} {steps : List Step}
    (traces : Traces g (a.table g) index c steps) (path : a.Path c.stack)
    (unmarked : ∀ t ∈ c.input, t ≠ endMarker)
    (accepted : (steps.getLast?.bind fun step => step.action.rejection?) = none) :
    g.DerivesRightmost (steps.filterMap fun step => step.action.production?).reverse
      [.nonterminal g.start] (readSymbols c.stack ++ spelled c.input) := by
  induction traces with
  | @last index c action acts ends =>
    cases path.turn_of_action? wellFormed canonical acts with
    | noAction | conflict => cases accepted
    | shift => cases ends
    | reduce found => simp [after?, found] at ends
    | accept read done =>
      have empty : c.input = [] := by
        by_contra more
        obtain ⟨t, rest, input⟩ := List.exists_cons_of_ne_nil more
        rw [lookahead, input, List.headD_cons] at done
        exact unmarked t (by simp [input]) done
      rw [read, empty]
      exact .refl _
  | @next index c later action steps acts goes rest ih =>
    have continued : (steps.getLast?.bind fun step => step.action.rejection?) = none := by
      obtain ⟨earlier, last, rfl⟩ := rest.exists_last
      rw [← List.cons_append, List.getLast?_concat] at accepted
      rw [List.getLast?_concat]
      exact accepted
    have onward : a.Path later.stack :=
      path.step wellFormed canonical (next?_eq_some.mpr ⟨action, acts, goes⟩)
    cases path.turn_of_action? wellFormed canonical acts with
    | noAction | conflict | accept => cases goes
    | @shift t next remaining input step =>
      obtain rfl := Option.some.inj goes
      have fewer : ∀ other ∈ (c.shifted next).input, other ≠ endMarker :=
        fun other member => unmarked other (List.mem_of_mem_tail member)
      have derived := ih onward fewer continued
      rw [List.filterMap_cons_none rfl]
      simpa [shifted, lookahead, input] using derived
    | @reduce p next before production found _ _ read _ =>
      simp only [after?, found, Option.map_some] at goes
      obtain rfl := Option.some.inj goes
      have derived := ih onward unmarked continued
      have exposed := (readSymbols_drop read).2
      rw [reduced, readSymbols_cons, exposed, List.append_assoc, List.singleton_append] at derived
      have step := Grammar.RewritesLast.replace found before c.input
      rw [read]
      have extended := derived.tail step
      rw [← List.reverse_cons] at extended
      exact extended

end Configuration

end

namespace Analysis

/-- The productions of an accepted run are a rightmost derivation of its input. -/
theorem accepted_derivesRightmost {calls : List Call} {g : Grammar} {settings : Settings}
    {analysis : Analysis} {tokens : List String} {fuel : Nat} {result : ParseResult}
    (defined : Grammar.ofCalls calls = .ok g) (analyzed : g.analyze settings = .ok analysis)
    (simulated : analysis.simulate g fuel tokens = .ok (some result))
    (accepted : result.accepted = true) :
    g.tokenize tokens = .ok result.input ∧
      g.DerivesRightmost result.rightmostDerivation [.nonterminal g.start]
        (spelled result.input) ∧
      g.Generates result.input := by
  have wellFormed := Grammar.wellFormed_ofCalls defined
  obtain ⟨canonical, table⟩ := Grammar.analyze_eq_ok analyzed
  obtain ⟨input, tokenized, run⟩ := Grammar.simulate_eq_ok.mp simulated
  obtain ⟨⟨steps, traces, rfl⟩, -⟩ := Table.run_eq_some_iff.mp run
  rw [table] at traces
  have derived := traces.derivesRightmost wellFormed canonical .nil
    (Grammar.ne_endMarker_of_tokenize tokenized) (Option.isNone_iff_eq_none.mp accepted)
  exact ⟨tokenized, derived, derived.derives⟩

theorem parentheses_pair_derivesRightmost : ∃ analysis result,
    Grammar.parentheses.analyze {} = .ok analysis ∧
    analysis.simulate Grammar.parentheses 8 ["(", ")"] = .ok (some result) ∧
    Grammar.parentheses.DerivesRightmost [1, 2] [.nonterminal 1] (spelled [1, 2]) := by
  have seen : (Grammar.parentheses.analyze {}).toOption.map (fun analysis =>
      (analysis.simulate Grammar.parentheses 8 ["(", ")"]).toOption.map fun ended =>
        ended.map fun result => (result.accepted, result.rightmostDerivation, result.input)) =
      some (some (some (true, [1, 2], [1, 2]))) := by decide +kernel
  obtain ⟨analysis, analyzed, seen⟩ := Grammar.exists_of_toOption seen
  obtain ⟨ended, simulated, seen⟩ := Grammar.exists_of_toOption seen
  obtain ⟨result, rfl, same⟩ := Option.map_eq_some_iff.mp seen
  obtain ⟨accepted, productions, input⟩ := by simpa only [Prod.mk.injEq] using same
  obtain ⟨-, derived, -⟩ := accepted_derivesRightmost Grammar.ofCalls_parentheses analyzed
    simulated accepted
  rw [productions, input] at derived
  exact ⟨analysis, result, analyzed, simulated, derived⟩

end Analysis

end CanonicalLR
