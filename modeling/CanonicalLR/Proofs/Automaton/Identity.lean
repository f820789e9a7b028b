import CanonicalLR.Proofs.Automaton.Entered
import CanonicalLR.Proofs.Automaton.ViablePrefix

/-!
# States whichever transition leads to them

A state is looked up by its items, and its kernel and accessing symbol stay those
of the transition that entered it. All other transitions into it would have
entered the same state, so what it keeps is right for them as well.
-/

namespace CanonicalLR

namespace Grammar

variable {g : Grammar} {state : State} {item : Item}

/-! ## What is kept of a state when it is entered -/

theorem Enters.items_eq (enters : g.Enters state) :
    state.items = closure g g.firstSets state.kernel.toList := by
  cases enters <;> rfl

/-- No symbol leads to the state that the construction starts with. -/
theorem Enters.eq_start_of_accessing (enters : g.Enters state)
    (accessing : state.accessing = none) :
    state = ⟨ItemSet.ofList [.start], closure g g.firstSets [.start], none⟩ := by
  cases enters with
  | start => rfl
  | goto => cases accessing

section

variable (wellFormed : g.WellFormed)
include wellFormed

theorem Enters.mem_kernel_iff (enters : g.Enters state) (later : state.accessing ≠ none) :
    item ∈ state.kernel ↔ item ∈ state.items ∧ item.dot ≠ 0 := by
  cases enters with
  | start => exact absurd rfl later
  | goto collected => exact collected.mem_gotoKernel_iff wellFormed

/-- Two states with the items of one goto are one state, with its kernel and its symbol. -/
theorem Enters.eq_goto {source : State} {symbol : Symbol} (enters : g.Enters state)
    (left : g.Enters source) (after : symbol ∈ source.items.symbolsAfterDot g)
    (items : state.items = source.items.goto g g.firstSets symbol) :
    source.items.gotoKernel g symbol = state.kernel ∧ state.accessing = some symbol := by
  have again := Enters.goto left.collected after
  obtain rfl := enters.eq_of_items wellFormed again items
  exact ⟨rfl, rfl⟩

/-! ## Where the augmented production is complete -/

theorem valid_augmented {read : List Symbol} {t : Nat} :
    g.Valid read ⟨augmentedProduction, 1, t⟩ ↔ read = [.nonterminal g.start] ∧ t = endMarker := by
  constructor
  · rintro ⟨before, production, opens, found, -, rfl⟩
    obtain rfl := Option.some.inj (found.symm.trans wellFormed.augmented)
    obtain ⟨rfl, ahead⟩ := opens.augmented wellFormed
    exact ⟨rfl, ahead⟩
  · rintro ⟨rfl, rfl⟩
    exact ⟨[], _, .start, wellFormed.augmented, Nat.le_refl 1, rfl⟩

end

end Grammar

namespace Automaton

variable {g : Grammar} {a : Automaton} {limits : Limits} {s t : Nat} {state : State}

theorem Settled.find?_items (settled : a.Settled (.ofGrammar g g.firstSets))
    (found : a.state? s = some state) : a.find? state.items = some s := by
  cases known : a.find? state.items with
  | none =>
    have listed := mem_found_itemGraph.mpr ⟨s, state, found, rfl⟩
    exact absurd listed (find?_eq_none.mp known)
  | some r =>
    obtain ⟨other, otherFound, items⟩ := find?_eq_some known
    rw [eq_of_items settled.reached.sound.nodup otherFound found items]

theorem Settled.state?_initial (settled : a.Settled (.ofGrammar g g.firstSets)) :
    a.state? initialState =
      some ⟨ItemSet.ofList [.start], closure g g.firstSets [.start], none⟩ := by
  obtain ⟨rest, states⟩ := settled.first
  rw [state?, ← Array.getElem?_toList, states]
  rfl

theorem Settled.accessing_eq_none_iff (settled : a.Settled (.ofGrammar g g.firstSets))
    (found : a.state? s = some state) : state.accessing = none ↔ s = initialState := by
  have initial := settled.state?_initial
  constructor
  · intro accessing
    obtain rfl := (settled.enters found).eq_start_of_accessing accessing
    exact eq_of_items settled.reached.sound.nodup found initial rfl
  · rintro rfl
    obtain rfl := Option.some.inj (found.symm.trans initial)
    rfl

theorem Settled.transition?_iff (settled : a.Settled (.ofGrammar g g.firstSets))
    {symbol : Symbol} : a.transition? s symbol = some t ↔ ⟨s, symbol, t⟩ ∈ a.transitions :=
  transition?_eq_some_iff (origins_nodup settled.reached.sound.once)

/-- Every transition moves the dots of its source to the kernel of its target. -/
theorem Settled.kernel_of_transition (settled : a.Settled (.ofGrammar g g.firstSets))
    (wellFormed : g.WellFormed) {symbol : Symbol} (step : a.transition? s symbol = some t) :
    ∃ source target, a.state? s = some source ∧ a.state? t = some target ∧
      source.items.gotoKernel g symbol = target.kernel ∧ target.accessing = some symbol := by
  obtain ⟨source, target, sourceFound, targetFound, asked, items⟩ := settled.canonical.linked step
  have after := ItemSet.mem_symbolsAfterDot.mpr asked
  obtain ⟨kernel, accessing⟩ := (settled.enters targetFound).eq_goto wellFormed
    (settled.enters sourceFound) after items
  exact ⟨source, target, sourceFound, targetFound, kernel, accessing⟩

theorem mem_acceptStates :
    s ∈ a.acceptStates ↔ ∃ state, a.state? s = some state ∧ state.isAccept = true := by
  rw [acceptStates, List.mem_filter, List.mem_range, Option.any_eq_true, and_iff_right_iff_imp]
  rintro ⟨state, found, -⟩
  exact (Array.getElem?_eq_some_iff.mp found).1

section

variable (wellFormed : g.WellFormed)
include wellFormed

theorem Canonical.exists_start_transition (canonical : a.Canonical g) :
    ∃ s, a.transition? initialState (.nonterminal g.start) = some s := by
  obtain ⟨state, found, items⟩ := canonical.start
  have member : Item.start ∈ state.items := items ▸ Grammar.start_mem_closure wellFormed
  apply canonical.followed found member
  exact Item.next?_eq_some.mpr ⟨_, wellFormed.augmented, rfl⟩

/-- The augmented production is complete only where the start symbol has been read, and only before
the end marker. -/
theorem accepts_iff (built : g.automaton g.firstSets limits = .ok a)
    (found : a.state? s = some state) :
    (⟨augmentedProduction, 1, t⟩ : Item) ∈ state.items ↔
      a.transition? initialState (.nonterminal g.start) = some s ∧ t = endMarker := by
  have canonical := canonical_of_collect built
  constructor
  · intro member
    obtain ⟨stack, path, rfl⟩ := exists_path_of_state? built found
    obtain ⟨same, sameFound, meaning⟩ := path.mem_items_iff wellFormed canonical
    obtain rfl := Option.some.inj (found.symm.trans sameFound)
    obtain ⟨read, ahead⟩ := (Grammar.valid_augmented wellFormed).mp ((meaning _).mp member)
    cases path with
    | nil => cases read
    | @cons r symbol stack step below =>
      -- Nothing but the start symbol has been read, so the path has no further step.
      rw [readSymbols_cons] at read
      obtain ⟨empty, last⟩ := List.append_inj' (read.trans (List.nil_append _).symm) rfl
      have bottom : stack = [] := by
        rw [← List.length_eq_zero_iff, ← length_readSymbols, empty, List.length_nil]
      obtain rfl := bottom
      obtain rfl := List.singleton_inj.mp last
      exact ⟨step, ahead⟩
  · rintro ⟨step, rfl⟩
    have path : a.Path [(s, .nonterminal g.start)] := .cons step .nil
    obtain ⟨same, sameFound, meaning⟩ := path.mem_items_iff wellFormed canonical
    obtain rfl := Option.some.inj (found.symm.trans sameFound)
    exact (meaning _).mpr ((Grammar.valid_augmented wellFormed).mpr ⟨rfl, rfl⟩)

theorem exists_acceptStates (built : g.automaton g.firstSets limits = .ok a) :
    ∃ s, a.transition? initialState (.nonterminal g.start) = some s ∧ a.acceptStates = [s] := by
  have canonical := canonical_of_collect built
  obtain ⟨s, step⟩ := canonical.exists_start_transition wellFormed
  obtain ⟨-, target, -, found, -⟩ := canonical.linked step
  have only (r : Nat) : r ∈ a.acceptStates ↔ r ∈ [s] := by
    rw [mem_acceptStates, List.mem_singleton]
    constructor
    · rintro ⟨state, listed, accepts⟩
      obtain ⟨again, -⟩ := (accepts_iff wellFormed built listed).mp (of_decide_eq_true accepts)
      exact Option.some.inj (again.symm.trans step)
    · rintro rfl
      have member := (accepts_iff wellFormed built found).mpr ⟨step, rfl⟩
      exact ⟨target, found, decide_eq_true member⟩
  have once : a.acceptStates.Nodup := List.nodup_range.filter _
  have same := (List.perm_ext_iff_of_nodup once (List.nodup_singleton s)).mpr only
  exact ⟨s, step, List.perm_singleton.mp same⟩

end

/-! ## Whole automata -/

/-- The states of an automaton are what each transition into them makes them. -/
structure Identified (g : Grammar) (a : Automaton) : Prop where
  /-- A state is found by its items under the number that it was entered with. -/
  numbered : ∀ s state, a.state? s = some state →
    a.find? state.items = some s ∧ s < stateIdCount
  closed : ∀ s state, a.state? s = some state →
    state.items = closure g g.firstSets state.kernel.toList
  /-- This is so for all transitions, not only for those that entered their target. -/
  entered : ∀ s symbol t, ⟨s, symbol, t⟩ ∈ a.transitions → ∃ source target,
    a.state? s = some source ∧ a.state? t = some target ∧
      source.items.gotoKernel g symbol = target.kernel ∧ target.accessing = some symbol
  moved : ∀ s state, a.state? s = some state → s ≠ initialState →
    ∀ item, item ∈ state.kernel ↔ item ∈ state.items ∧ 0 < item.dot
  initial : ∀ transition ∈ a.transitions, transition.target ≠ initialState
  accessed : ∀ s state, a.state? s = some state → (state.accessing = none ↔ s = initialState)
  within : ∀ s state item, a.state? s = some state → item ∈ state.items →
    ∃ production, g.production? item.production = some production ∧
      item.dot ≤ production.right.length
  accepting : ∃ s, a.transition? initialState (.nonterminal g.start) = some s ∧
    a.acceptStates = [s]

theorem identified_of_automaton {calls : List Call} (defined : Grammar.ofCalls calls = .ok g)
    (built : g.automaton g.firstSets limits = .ok a) : a.Identified g := by
  have wellFormed := Grammar.wellFormed_ofCalls defined
  obtain ⟨settled, fits⟩ := settled_of_collect built
  have entered {s t : Nat} {symbol : Symbol} (recorded : ⟨s, symbol, t⟩ ∈ a.transitions) :=
    settled.kernel_of_transition wellFormed (settled.transition?_iff.mpr recorded)
  constructor
  case numbered =>
    intro s state found
    have inside : s < a.states.size := (Array.getElem?_eq_some_iff.mp found).1
    exact ⟨settled.find?_items found, Nat.lt_of_lt_of_le inside fits.ids⟩
  case closed =>
    exact fun s state found => (settled.enters found).items_eq
  case entered =>
    exact fun s symbol t recorded => entered recorded
  case moved =>
    intro s state found later item
    have accessed := mt (settled.accessing_eq_none_iff found).mp later
    rw [(settled.enters found).mem_kernel_iff wellFormed accessed, Nat.pos_iff_ne_zero]
  case initial =>
    intro transition recorded
    obtain ⟨-, target, -, found, -, accessing⟩ := entered recorded
    rw [Ne, ← settled.accessing_eq_none_iff found, accessing]
    exact Option.some_ne_none _
  case accessed =>
    exact fun s state found => settled.accessing_eq_none_iff found
  case within =>
    intro s state item found member
    exact ((settled.enters found).collected.hasItem wellFormed item member).production
  case accepting =>
    exact exists_acceptStates wellFormed built

end Automaton

namespace Grammar

/-- Transitions lead to state 3 from the initial state, which enters it, and from itself. -/
theorem doubled_identified : ∃ a, doubled.automaton doubled.firstSets {} = .ok a ∧
    a.Identified doubled ∧ (⟨0, .terminal 1, 3⟩ : Transition) ∈ a.transitions ∧
      (⟨3, .terminal 1, 3⟩ : Transition) ∈ a.transitions := by
  have seen : (doubled.automaton doubled.firstSets {}).toOption.map (fun a =>
      ((⟨0, .terminal 1, 3⟩ : Transition) ∈ a.transitions : Bool) &&
        ((⟨3, .terminal 1, 3⟩ : Transition) ∈ a.transitions : Bool)) = some true := by
    decide +kernel
  obtain ⟨a, built, both⟩ := exists_of_toOption seen
  obtain ⟨entering, again⟩ := (Bool.and_eq_true _ _).mp both
  exact ⟨a, built, Automaton.identified_of_automaton ofCalls_doubled built,
    of_decide_eq_true entering, of_decide_eq_true again⟩

end Grammar

end CanonicalLR
