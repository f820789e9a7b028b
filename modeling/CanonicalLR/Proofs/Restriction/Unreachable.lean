import CanonicalLR.Proofs.Restriction.Calls
import CanonicalLR.Proofs.Restriction.Run

/-!
# Unreachable nonterminals do no harm

Whether unreachable nonterminals and their productions are declared or not makes no
difference to the automaton, the table and the runs of a grammar, but for the ids of
the nonterminals and productions declared after them.
-/

namespace CanonicalLR

namespace Grammar.Restores

variable {g : Grammar} {r : Renaming} (restores : g.Restores r)
include restores

/-- The nonterminals that are not unreachable are those of the reachable part. -/
theorem not_unreachable_iff {n : Nat} (inside : n < g.nonterminals.size) :
    n ∉ g.unreachable ↔ ∃ m < g.reachablePart.nonterminals.size, r.nonterminals m = n := by
  constructor
  · intro reached
    refine ⟨g.rank n, ?_, restores.rank inside reached⟩
    have kept := getElem?_keptNonterminals_rank (Array.getElem?_eq_getElem inside) reached
    simpa [reachablePart] using (List.getElem?_eq_some_iff.mp kept).1
  · rintro ⟨m, within, rfl⟩
    exact restores.not_unreachable within

/-- A state that comes from the reachable part has no items of productions that it lacks. -/
theorem not_unreachable_of_item (wellFormed : g.WellFormed)
    (partFormed : g.reachablePart.WellFormed) {item : Item} (has : g.reachablePart.HasItem item)
    {production : Production} (found : g.production? (r.item item).production = some production) :
    production.left ∉ g.unreachable := by
  obtain ⟨source, listed, -⟩ := has.production
  have carried := (restores.embeds wellFormed).production?_of listed
  obtain rfl := Option.some.inj (carried.symm.trans found)
  exact restores.not_unreachable (partFormed.left_lt listed)

end Grammar.Restores

namespace Analysis

/-- If a grammar can be analyzed, so can the grammar that is declared by the same calls but for
those about nonterminals that the augmented start symbol does not come to. No state has an item of a
production of these. The other grammar has the same states under the same numbers, the same
transitions in the same order, the same table, and for all tokens the same runs, up to a renaming
that keeps the nonterminals and the productions in their order. -/
theorem unreachable_parts_harmless {calls : List Call} {g : Grammar} {settings : Settings}
    {analysis : Analysis} (defined : Grammar.ofCalls calls = .ok g)
    (analyzed : g.analyze settings = .ok analysis) :
    (∀ n, n ∈ g.unreachable ↔ n ∈ g.userNonterminals ∧ ¬ g.Occurs n) ∧
    Grammar.define (g.keptCalls (Definition.carriedOut {} calls)) = .ok g.reachablePart ∧
    (∀ state ∈ analysis.automaton.states, ∀ item ∈ state.items, ∀ production,
      g.production? item.production = some production → production.left ∉ g.unreachable) ∧
    ∃ r other, Embeds r g.reachablePart g ∧
      (∀ n < g.nonterminals.size, n ∉ g.unreachable ↔
        ∃ m < g.reachablePart.nonterminals.size, r.nonterminals m = n) ∧
      g.reachablePart.analyze settings = .ok other ∧
      Retells r g.reachablePart g other analysis := by
  have wellFormed := Grammar.wellFormed_ofCalls defined
  have declared := Grammar.define_keptCalls defined
  have partFormed := Grammar.wellFormed_ofCalls (Grammar.ofCalls_of_define declared)
  obtain ⟨r, restores⟩ := g.exists_restores
  have embeds := restores.embeds wellFormed
  obtain ⟨other, succeeds, retells⟩ := embeds.exists_analysis partFormed wellFormed analyzed
  refine ⟨fun n => Grammar.mem_unreachable wellFormed, declared, ?_, r, other, embeds,
    fun n => restores.not_unreachable_iff, succeeds, retells⟩
  obtain ⟨-, -, built, -⟩ := Grammar.analyze_eq_ok_iff.mp succeeds
  intro state member item listed production found
  obtain ⟨s, numbered⟩ := Array.mem_iff_getElem?.mp member
  rw [← Automaton.state?, retells.automaton, r.state?_automaton] at numbered
  obtain ⟨source, here, rfl⟩ := Option.map_eq_some_iff.mp numbered
  obtain ⟨origin, inside, rfl⟩ := r.mem_itemSet.mp listed
  have has := (Automaton.settled_of_collect built).1.hasItem partFormed here origin inside
  exact restores.not_unreachable_of_item wellFormed partFormed has found

end Analysis

namespace Grammar

/-- What is left of `island`. -/
def mainlandCalls : List Call :=
  [.terminal "a", .nonterminal "S", .nonterminal "A", .start 1,
    .production 1 [.terminal 1, .nonterminal 2], .production 2 [.nonterminal 2],
    .production 2 [], .production 2 []]

def mainland : Grammar where
  terminals := #["$", "a"]
  nonterminals := #["S'", "S", "A"]
  productions := #[⟨0, [.nonterminal 1]⟩, ⟨1, [.terminal 1, .nonterminal 2]⟩,
    ⟨2, [.nonterminal 2]⟩, ⟨2, []⟩, ⟨2, []⟩]
  start := 1

theorem keptCalls_island :
    island.keptCalls (Definition.carriedOut {} islandCalls) = mainlandCalls := by decide +kernel

theorem reachablePart_island : island.reachablePart = mainland := by decide +kernel

end Grammar

namespace Analysis

theorem island_told_by_mainland : ∃ r analysis other,
    Grammar.island.analyze {} = .ok analysis ∧
      Grammar.define Grammar.mainlandCalls = .ok Grammar.mainland ∧
      Grammar.mainland.analyze {} = .ok other ∧
      Embeds r Grammar.mainland Grammar.island ∧
      Retells r Grammar.mainland Grammar.island other analysis := by
  have evaluated : (Grammar.island.analyze {}).toOption.map (fun analysis =>
      analysis.automaton.states.toList.length) = some 4 := by decide +kernel
  obtain ⟨analysis, analyzed, -⟩ := Grammar.exists_of_toOption evaluated
  obtain ⟨-, declared, -, r, other, embeds, -, succeeds, retells⟩ :=
    unreachable_parts_harmless Grammar.ofCalls_island analyzed
  rw [Grammar.keptCalls_island] at declared
  rw [Grammar.reachablePart_island] at declared embeds succeeds retells
  exact ⟨r, analysis, other, analyzed, declared, succeeds, embeds, retells⟩

end Analysis

end CanonicalLR
