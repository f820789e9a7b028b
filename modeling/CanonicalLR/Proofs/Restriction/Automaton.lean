import CanonicalLR.Proofs.Renaming.States
import CanonicalLR.Proofs.Restriction.Items

/-!
# Automata of parts

The construction for the whole keeps step with the construction for a part. The
states come under the same numbers and the transitions in the same order, and
only the ids within them differ.
-/

namespace CanonicalLR

namespace Renaming

variable (r : Renaming)

/-- The renumbering under which every state keeps its number. -/
def inPlace : Renumbering :=
  ⟨r, .refl Nat⟩

/-- An automaton with its states and transitions renamed where they stand. -/
def automaton (a : Automaton) : Automaton where
  states := a.states.map r.state
  transitions := a.transitions.map r.inPlace.transition
  itemCount := a.itemCount
  itemCount_eq := by rw [a.itemCount_eq, Array.toList_map, itemTotal_map]

variable (a : Automaton)

@[simp] theorem size_states_automaton : (r.automaton a).states.size = a.states.size :=
  Array.size_map

@[simp] theorem state?_automaton (s : Nat) :
    (r.automaton a).state? s = (a.state? s).map r.state :=
  Array.getElem?_map

theorem automaton_empty : r.automaton .empty = .empty := by
  simp [automaton, Automaton.empty]

theorem find?_automaton (items : ItemSet) :
    (r.automaton a).find? (r.itemSet items) = a.find? items := by
  have same (state : State) : ((r.state state).items = r.itemSet items) = (state.items = items) :=
    propext r.itemSet_injective.eq_iff
  simp only [Automaton.find?, automaton, Array.findIdx?_map, Function.comp_def, same]

theorem addState_automaton (state : State) :
    (r.automaton a).addState (r.state state) = r.automaton (a.addState state) := by
  simp [Automaton.addState, automaton, Renaming.state]

theorem addTransition_automaton (transition : Transition) :
    (r.automaton a).addTransition (r.inPlace.transition transition) =
      r.automaton (a.addTransition transition) := by
  simp [Automaton.addTransition, automaton]

theorem outgoing_automaton (s : Nat) :
    (r.automaton a).outgoing s = (a.outgoing s).map r.inPlace.transition := by
  simp only [Automaton.outgoing, automaton, Array.toList_filter, Array.toList_map, List.filter_map]
  rfl

theorem target?_map (outgoing : List Transition) (symbol : Symbol) :
    Automaton.target? (outgoing.map r.inPlace.transition) (r.symbol symbol) =
      Automaton.target? outgoing symbol := by
  have same (transition : Transition) :
      ((r.inPlace.transition transition).symbol = r.symbol symbol) = (transition.symbol = symbol) :=
    propext r.symbol_injective.eq_iff
  simp only [Automaton.target?, List.find?_map, Function.comp_def, same, Option.map_map]
  rfl

end Renaming

namespace Embeds

open Automaton

variable {r : Renaming} {part whole : Grammar} (embeds : Embeds r part whole)
include embeds

theorem itemSet_start : r.itemSet (ItemSet.ofList [.start]) = ItemSet.ofList [.start] := by
  rw [r.itemSet_ofList, List.map_singleton, embeds.item_start]

section

variable (partFormed : part.WellFormed) (wholeFormed : whole.WellFormed)
include partFormed wholeFormed

theorem closure_start : CanonicalLR.closure whole whole.firstSets [.start] =
    r.itemSet (CanonicalLR.closure part part.firstSets [.start]) := by
  have carried := embeds.closure partFormed wholeFormed (Grammar.hasItem_ofList_start partFormed)
  rwa [embeds.itemSet_start] at carried

theorem goto {items : ItemSet} (all : ∀ item ∈ items, part.HasItem item) (symbol : Symbol) :
    (r.itemSet items).goto whole whole.firstSets (r.symbol symbol) =
      r.itemSet (items.goto part part.firstSets symbol) := by
  rw [ItemSet.goto, embeds.gotoKernel all]
  exact embeds.closure partFormed wholeFormed (Grammar.hasItem_gotoKernel all symbol)

/-- Following a symbol finds the same state, or none in either. -/
theorem followFreely (s : Nat) {items : ItemSet} (all : ∀ item ∈ items, part.HasItem item)
    (a : Automaton) (symbol : Symbol) :
    followFreely (.ofGrammar whole whole.firstSets) s (r.itemSet items) (r.automaton a)
        (r.symbol symbol) =
      r.automaton (followFreely (.ofGrammar part part.firstSets) s items a symbol) := by
  have moved := embeds.goto partFormed wholeFormed all symbol
  have entered : (⟨(r.itemSet items).gotoKernel whole (r.symbol symbol),
      (r.itemSet items).goto whole whole.firstSets (r.symbol symbol),
      some (r.symbol symbol)⟩ : State) =
        r.state ⟨items.gotoKernel part symbol, items.goto part part.firstSets symbol,
          some symbol⟩ := by
    rw [moved, embeds.gotoKernel all]
    rfl
  have sought : (r.automaton a).find?
      ((r.itemSet items).goto whole whole.firstSets (r.symbol symbol)) =
        a.find? (items.goto part part.firstSets symbol) := by
    rw [moved, r.find?_automaton]
  rcases followFreely_cases (.ofGrammar whole whole.firstSets) s (r.itemSet items)
    (r.automaton a) (r.symbol symbol) with ⟨target, found, there⟩ | ⟨missing, there⟩
  · rcases followFreely_cases (.ofGrammar part part.firstSets) s items a symbol with
      ⟨other, known, here⟩ | ⟨unknown, -⟩
    · obtain rfl := Option.some.inj (found.symm.trans (sought.trans known))
      rw [there, here, ← r.addTransition_automaton]
      rfl
    · cases found.symm.trans (sought.trans unknown)
  · rcases followFreely_cases (.ofGrammar part part.firstSets) s items a symbol with
      ⟨other, known, -⟩ | ⟨-, here⟩
    · cases missing.symm.trans (sought.trans known)
    · rw [there, here, ← r.addTransition_automaton, ← r.addState_automaton,
        r.size_states_automaton]
      exact congrArg (fun state => ((r.automaton a).addState state).addTransition _) entered

theorem visitFreely (s : Nat) {items : ItemSet} (all : ∀ item ∈ items, part.HasItem item)
    (a : Automaton) :
    (r.automaton a).visitFreely (.ofGrammar whole whole.firstSets) s (r.itemSet items) =
      r.automaton (a.visitFreely (.ofGrammar part part.firstSets) s items) := by
  have symbols : (r.itemSet items).symbolsAfterDot
      (ClosureRules.ofGrammar whole whole.firstSets).grammar =
        (items.symbolsAfterDot (ClosureRules.ofGrammar part part.firstSets).grammar).map r.symbol :=
    embeds.symbolsAfterDot all
  rw [Automaton.visitFreely, Automaton.visitFreely, symbols, List.foldl_map]
  generalize items.symbolsAfterDot _ = symbols
  induction symbols generalizing a with
  | nil => rfl
  | cons symbol rest ih =>
    rw [List.foldl_cons, List.foldl_cons, embeds.followFreely partFormed wholeFormed s all, ih]

/-- However many states have been visited, the one automaton is the other renamed. -/
theorem grown (n : Nat) : grown (.ofGrammar whole whole.firstSets) n =
    r.automaton (grown (.ofGrammar part part.firstSets) n) := by
  induction n with
  | zero =>
    have start : r.state ⟨ItemSet.ofList [.start],
        CanonicalLR.closure part part.firstSets [.start], none⟩ =
          ⟨ItemSet.ofList [.start], CanonicalLR.closure whole whole.firstSets [.start], none⟩ := by
      rw [Renaming.state, embeds.itemSet_start, ← embeds.closure_start partFormed wholeFormed]
      rfl
    rw [Automaton.grown, Automaton.grown, ← r.addState_automaton, r.automaton_empty]
    exact congrArg Automaton.empty.addState start.symm
  | succ n ih =>
    cases found : (Automaton.grown (.ofGrammar part part.firstSets) n).state? n with
    | none =>
      have visited := Array.getElem?_eq_none_iff.mp found
      rw [grown_succ_of_size_le visited, grown_succ_of_size_le, ih]
      rwa [ih, r.size_states_automaton]
    | some state =>
      have there : (Automaton.grown (.ofGrammar whole whole.firstSets) n).state? n =
          some (r.state state) := by
        rw [ih, r.state?_automaton, found, Option.map_some]
      have all := (enters_grown part n found).collected.hasItem partFormed
      rw [grown_succ_of_state? found, grown_succ_of_state? there, ih]
      exact embeds.visitFreely partFormed wholeFormed n all _

/-- The whole construction of the part, renamed, is that of the whole. -/
theorem settled {a : Automaton} (settled : a.Settled (.ofGrammar part part.firstSets)) :
    (r.automaton a).Settled (.ofGrammar whole whole.firstSets) := by
  obtain ⟨enough, all⟩ := settled
  exact ⟨enough, fun n later => (embeds.grown partFormed wholeFormed n).trans
    (congrArg r.automaton (all n later))⟩

/-- Limits that have room for the automaton of the whole have room for that of the part, which has
the same states and transitions up to the renaming. -/
theorem exists_automaton {limits : Limits} {a : Automaton}
    (built : whole.automaton whole.firstSets limits = .ok a) :
    ∃ b, part.automaton part.firstSets limits = .ok b ∧ a = r.automaton b := by
  obtain ⟨wholeSettled, fits⟩ := settled_of_collect built
  obtain ⟨b, partSettled⟩ := exists_settled partFormed
  obtain rfl := wholeSettled.unique (embeds.settled partFormed wholeFormed partSettled)
  have size := r.size_states_automaton b
  have room : b.Fits limits :=
    ⟨size ▸ fits.states, fits.items, size ▸ fits.ids, partSettled.inside⟩
  exact ⟨b, collect_eq_ok partSettled room.ids fun k exceeds =>
    room.not_exceeds exceeds.1 exceeds.2, rfl⟩

end

end Embeds

end CanonicalLR
