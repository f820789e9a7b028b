import CanonicalLR.Proofs.Automaton.Entered
import CanonicalLR.Proofs.Lookups.Items

/-!
# What is stored in an automaton

The states and the transitions of an automaton have nothing but items and symbols
of its grammar, whether it is whole or a limit has cut it.
-/

namespace CanonicalLR

/-- All items of a state have their production, dot and lookahead in range, and its symbol is
declared. -/
structure State.Stocked (g : Grammar) (state : State) : Prop where
  kernel : ∀ item ∈ state.kernel, g.HasItem item
  items : ∀ item ∈ state.items, g.HasItem item
  accessing : ∀ symbol, state.accessing = some symbol →
    symbol.Declared g.terminals.size g.nonterminals.size

namespace Automaton

open Grammar

variable {g : Grammar} {limits : Limits} {a later : Automaton}

structure Stocked (g : Grammar) (a : Automaton) : Prop where
  states : ∀ state ∈ a.states.toList, state.Stocked g
  transitions : ∀ transition ∈ a.transitions.toList,
    transition.symbol.Declared g.terminals.size g.nonterminals.size

theorem Stocked.state (stocked : a.Stocked g) {s : Nat} {state : State}
    (found : a.state? s = some state) : state.Stocked g :=
  stocked.states state (List.mem_of_getElem? (Array.getElem?_toList.trans found))

theorem Stocked.of_precedes (stocked : later.Stocked g) (precedes : a.Precedes later) :
    a.Stocked g where
  states state member := stocked.states state (precedes.states.subset member)
  transitions transition member :=
    stocked.transitions transition (precedes.transitions.subset member)

theorem Awaits.earlier {state : State} (awaits : a.Awaits state later) : a.Precedes later where
  states := (List.prefix_append ..).trans awaits.states
  transitions := by
    rcases awaits.transitions with rfl | ⟨s, symbol, ahead⟩
    · exact List.nil_prefix
    · exact (List.prefix_append ..).trans ahead

theorem automaton_of_enter {state : State} {halted : Halted}
    (refused : a.enter limits state = .error halted) : halted.automaton = a := by
  unfold enter at refused
  split at refused
  · exact Except.error.inj refused ▸ rfl
  · split at refused
    · exact Except.error.inj refused ▸ rfl
    · split at refused
      · exact Except.error.inj refused ▸ rfl
      · cases refused

theorem follow_of_known {rules : ClosureRules} {source target : Nat} {items : ItemSet}
    {symbol : Symbol}
    (known : a.find? (rules.close (items.gotoKernel rules.grammar symbol).toList) = some target) :
    follow rules limits source items a symbol =
      .ok (a.addTransition ⟨source, symbol, target⟩) := by
  unfold follow
  simp only [known]

theorem follow_of_unknown {rules : ClosureRules} {source : Nat} {items : ItemSet}
    {symbol : Symbol}
    (unknown : a.find? (rules.close (items.gotoKernel rules.grammar symbol).toList) = none) :
    follow rules limits source items a symbol =
      (a.enter limits ⟨items.gotoKernel rules.grammar symbol,
        rules.close (items.gotoKernel rules.grammar symbol).toList, some symbol⟩).map
          (·.addTransition ⟨source, symbol, a.states.size⟩) := by
  unfold follow
  simp only [unknown]
  cases a.enter limits ⟨items.gotoKernel rules.grammar symbol,
    rules.close (items.gotoKernel rules.grammar symbol).toList, some symbol⟩ <;> rfl

theorem collect_eq_bind (rules : ClosureRules) (limits : Limits) :
    collect rules limits =
      (empty.enter limits ⟨ItemSet.ofList [.start], rules.close [.start], none⟩).bind
        (explore rules limits limits.states initialState) := by
  unfold collect
  dsimp only
  cases empty.enter limits ⟨ItemSet.ofList [.start], rules.close [.start], none⟩ <;> rfl

theorem stocked_empty (g : Grammar) : empty.Stocked g where
  states _ none := absurd none List.not_mem_nil
  transitions _ none := absurd none List.not_mem_nil

theorem Stocked.addState (stocked : a.Stocked g) {state : State} (stock : state.Stocked g) :
    (a.addState state).Stocked g where
  states other member := by
    rw [Automaton.addState, Array.toList_push] at member
    rcases List.mem_append.mp member with old | new
    · exact stocked.states other old
    · exact List.mem_singleton.mp new ▸ stock
  transitions := stocked.transitions

theorem Stocked.addTransition (stocked : a.Stocked g) {transition : Transition}
    (declared : transition.symbol.Declared g.terminals.size g.nonterminals.size) :
    (a.addTransition transition).Stocked g where
  states := stocked.states
  transitions other member := by
    rw [Automaton.addTransition, Array.toList_push] at member
    rcases List.mem_append.mp member with old | new
    · exact stocked.transitions other old
    · exact List.mem_singleton.mp new ▸ declared

section

variable (wellFormed : g.WellFormed)
include wellFormed

theorem stocked_start : State.Stocked g
    ⟨ItemSet.ofList [.start], closure g g.firstSets [.start], none⟩ := by
  have all : ∀ item ∈ [Item.start], g.HasItem item := fun item listed =>
    List.mem_singleton.mp listed ▸ hasItem_start wellFormed
  exact ⟨fun item member => all item (ItemSet.mem_ofList.mp member),
    fun item member => hasItem_closure wellFormed all member, fun symbol none => nomatch none⟩

theorem Stocked.followFreely (stocked : a.Stocked g) {s : Nat} {items : ItemSet}
    (all : ∀ item ∈ items, g.HasItem item) {symbol : Symbol}
    (after : symbol ∈ items.symbolsAfterDot g) :
    (followFreely (.ofGrammar g g.firstSets) s items a symbol).Stocked g := by
  obtain ⟨item, member, next⟩ := ItemSet.mem_symbolsAfterDot.mp after
  have declared := Item.declared_of_next? wellFormed next
  rcases followFreely_cases (.ofGrammar g g.firstSets) s items a symbol with
    ⟨target, -, same⟩ | ⟨-, same⟩
  · rw [same]
    exact stocked.addTransition declared
  · have kernel := hasItem_gotoKernel all symbol
    have entered : State.Stocked g ⟨items.gotoKernel g symbol,
        closure g g.firstSets (items.gotoKernel g symbol).toList, some symbol⟩ :=
      ⟨kernel, fun item member => hasItem_closure wellFormed kernel member,
        fun _ same => Option.some.inj same ▸ declared⟩
    rw [same]
    exact (stocked.addState entered).addTransition declared

theorem stocked_grown (n : Nat) : (grown (.ofGrammar g g.firstSets) n).Stocked g := by
  refine grown_induction (fun _ _ a => a.Stocked g) ?_ (fun before _ => before)
    (fun before _ => before) ((stocked_empty g).addState (stocked_start wellFormed)) n
  intro s source done rest symbol a before found split
  have after : symbol ∈ source.items.symbolsAfterDot g :=
    split ▸ List.mem_append_right done List.mem_cons_self
  exact before.followFreely wellFormed (before.state found).items after

theorem stocked_of_collect (collected : collect (.ofGrammar g g.firstSets) limits = .ok a) :
    a.Stocked g := by
  have outcome := collect_outcome_grown (.ofGrammar g g.firstSets) limits
  rw [collected] at outcome
  cases outcome with
  | whole fits => exact stocked_grown wellFormed _

/-- What a limit leaves of an automaton is as well stocked as the automaton. -/
theorem stocked_of_halted {halted : Halted}
    (collected : collect (.ofGrammar g g.firstSets) limits = .error halted) :
    halted.automaton.Stocked g := by
  have outcome := collect_outcome_grown (.ofGrammar g g.firstSets) limits
  rw [collected] at outcome
  cases outcome with
  | cut fits awaits refused =>
    rw [automaton_of_enter refused]
    exact (stocked_grown wellFormed _).of_precedes awaits.earlier

end

end Automaton

end CanonicalLR
