import CanonicalLR.Proofs.Automaton.Cut
import CanonicalLR.Proofs.Renaming.Items

/-!
# Renumbered automata

The states of the two automata are the same up to a renaming, in another order.
Their numbers correspond by a bijection under which the transitions correspond
as well, and there is room for the one automaton wherever there is room for the
other.
-/

namespace CanonicalLR

/-- A renaming of ids together with new numbers for the states. -/
structure Renumbering extends Renaming where
  states : Equiv.Perm Nat

def Renumbering.transition (r : Renumbering) (transition : Transition) : Transition :=
  ⟨r.states transition.source, r.symbol transition.symbol, r.states transition.target⟩

theorem Renumbering.transition_injective (r : Renumbering) : Function.Injective r.transition := by
  intro first second same
  obtain ⟨source, symbol, target⟩ := Transition.mk.inj same
  cases first
  cases second
  simp only [Transition.mk.injEq]
  exact ⟨r.states.injective source, r.symbol_injective symbol, r.states.injective target⟩

/-- A renumbering leads from the states of one automaton to those of the other. -/
structure Renumbers (r : Renumbering) (g h : Grammar) (a b : Automaton) : Prop
    extends Renames r.toRenaming g h where
  initial : r.states initialState = initialState
  state? : ∀ s, b.state? (r.states s) = (a.state? s).map r.state
  transition? : ∀ s symbol,
    b.transition? (r.states s) (r.symbol symbol) = (a.transition? s symbol).map r.states

theorem itemTotal_map (r : Renaming) (states : List State) :
    itemTotal (states.map r.state) = itemTotal states := by
  simp [itemTotal, List.foldl_map, Renaming.state]

namespace Automaton

variable {g : Grammar} {a : Automaton}

/-- A transition leads to the state with the goto of its source. -/
theorem Settled.transition?_iff_goto (settled : a.Settled (.ofGrammar g g.firstSets)) {s t : Nat}
    {symbol : Symbol} : a.transition? s symbol = some t ↔
      ∃ source target, a.state? s = some source ∧ a.state? t = some target ∧
        symbol ∈ source.items.symbolsAfterDot g ∧
        target.items = source.items.goto g g.firstSets symbol := by
  have canonical := settled.canonical
  constructor
  · intro step
    obtain ⟨source, target, sourceFound, targetFound, asked, items⟩ := canonical.linked step
    exact ⟨source, target, sourceFound, targetFound, ItemSet.mem_symbolsAfterDot.mpr asked, items⟩
  · rintro ⟨source, target, sourceFound, targetFound, after, items⟩
    obtain ⟨item, member, next⟩ := ItemSet.mem_symbolsAfterDot.mp after
    obtain ⟨other, step⟩ := canonical.followed sourceFound member next
    obtain ⟨same, last, sameFound, lastFound, -, lastItems⟩ := canonical.linked step
    obtain rfl := Option.some.inj (sameFound.symm.trans sourceFound)
    have nodup := settled.reached.sound.nodup
    rw [step, eq_of_items nodup lastFound targetFound (lastItems.trans items.symm)]

theorem Settled.inside (settled : a.Settled (.ofGrammar g g.firstSets)) :
    ∀ transition ∈ a.transitions,
      transition.source < a.states.size ∧ transition.target < a.states.size := by
  obtain ⟨enough, all⟩ := settled
  exact all enough (Nat.le_refl _) ▸ (explored_grown g enough).inside

end Automaton

section

variable {r : Renaming} {g h : Grammar} {a b : Automaton}
  (settledLeft : a.Settled (.ofGrammar g g.firstSets))
  (settledRight : b.Settled (.ofGrammar h h.firstSets))
include settledLeft settledRight

namespace Renames

variable (renames : Renames r g h) (left : g.WellFormed) (right : h.WellFormed)
include renames left right

theorem states_perm : (a.states.toList.map r.state).Perm b.states.toList := by
  apply (List.perm_ext_iff_of_nodup (settledLeft.nodup.map r.state_injective) settledRight.nodup).mpr
  intro state
  rw [List.mem_map, settledRight.mem_states_iff right]
  constructor
  · rintro ⟨source, member, rfl⟩
    exact renames.enters left right ((settledLeft.mem_states_iff left).mp member)
  · intro entered
    refine ⟨r.inverse.state state, ?_, r.inverse.inverse_state state⟩
    exact (settledLeft.mem_states_iff left).mpr (renames.inverse.enters right left entered)

/-- The states are numbered alike up to a bijection that keeps the initial state. -/
theorem exists_states : ∃ states : Equiv.Perm Nat, states initialState = initialState ∧
    ∀ s, b.state? (states s) = (a.state? s).map r.state := by
  obtain ⟨leftRest, leftSplit⟩ := settledLeft.first
  obtain ⟨rightRest, rightSplit⟩ := settledRight.first
  have perm := renames.states_perm settledLeft settledRight left right
  rw [leftSplit, rightSplit, List.map_cons, Renaming.state, renames.itemSet_start,
    ← renames.closure_start left right] at perm
  obtain ⟨states, zero, same⟩ := exists_places_behind perm.cons_inv
    (⟨ItemSet.ofList [.start], CanonicalLR.closure h h.firstSets [.start], none⟩ : State)
  refine ⟨states, zero, fun s => ?_⟩
  have mapped : (a.state? s).map r.state = (a.states.toList.map r.state)[s]? := by
    rw [List.getElem?_map, Array.getElem?_toList]
    rfl
  rw [mapped, leftSplit, List.map_cons, Renaming.state, renames.itemSet_start,
    ← renames.closure_start left right, Automaton.state?, ← Array.getElem?_toList, rightSplit]
  exact same s

/-- Transitions correspond because gotos do. -/
theorem transition?_of_states {states : Equiv.Perm Nat}
    (numbered : ∀ s, b.state? (states s) = (a.state? s).map r.state) (s : Nat) (symbol : Symbol) :
    b.transition? (states s) (r.symbol symbol) = (a.transition? s symbol).map states := by
  ext t
  obtain ⟨t, rfl⟩ := states.surjective t
  have moved {source : State} (found : a.state? s = some source) :
      (r.itemSet source.items).goto h h.firstSets (r.symbol symbol) =
        r.itemSet (source.items.goto g g.firstSets symbol) :=
    renames.goto left right (settledLeft.enters found).collected symbol
  have plain : (a.transition? s symbol).map states = some (states t) ↔
      a.transition? s symbol = some t := by
    simp [Option.map_eq_some_iff]
  rw [plain, settledLeft.transition?_iff_goto, settledRight.transition?_iff_goto, numbered, numbered]
  constructor
  · rintro ⟨_, _, sourceFound, targetFound, after, items⟩
    obtain ⟨source, here, rfl⟩ := Option.map_eq_some_iff.mp sourceFound
    obtain ⟨target, there, rfl⟩ := Option.map_eq_some_iff.mp targetFound
    refine ⟨source, target, here, there, renames.mem_symbolsAfterDot_iff.mp after, ?_⟩
    exact r.itemSet_injective (items.trans (moved here))
  · rintro ⟨source, target, here, there, after, items⟩
    refine ⟨r.state source, r.state target, by rw [here, Option.map_some],
      by rw [there, Option.map_some], renames.mem_symbolsAfterDot_iff.mpr after, ?_⟩
    exact (congrArg r.itemSet items).trans (moved here).symm

theorem exists_renumbers : ∃ states : Equiv.Perm Nat, Renumbers ⟨r, states⟩ g h a b := by
  obtain ⟨states, zero, numbered⟩ := renames.exists_states settledLeft settledRight left right
  exact ⟨states, renames, zero, numbered,
    renames.transition?_of_states settledLeft settledRight left right numbered⟩

end Renames

/-- Under a renumbering the transitions of one automaton are those of the other. -/
theorem Renumbers.transitions_perm {r : Renumbering} (renumbers : Renumbers r g h a b) :
    (a.transitions.toList.map r.transition).Perm b.transitions.toList := by
  have leftOnce := Automaton.origins_nodup settledLeft.reached.sound.once
  have rightOnce := Automaton.origins_nodup settledRight.reached.sound.once
  apply (List.perm_ext_iff_of_nodup (leftOnce.of_map.map r.transition_injective)
    rightOnce.of_map).mpr
  rintro ⟨s, symbol, t⟩
  obtain ⟨s, rfl⟩ := r.states.surjective s
  obtain ⟨t, rfl⟩ := r.states.surjective t
  obtain ⟨symbol, rfl⟩ := r.symbol_surjective symbol
  have here : r.transition ⟨s, symbol, t⟩ ∈ a.transitions.toList.map r.transition ↔
      a.transition? s symbol = some t := by
    rw [List.mem_map_of_injective r.transition_injective,
      Automaton.transition?_eq_some_iff leftOnce]
    exact Array.mem_toList_iff
  have there : r.transition ⟨s, symbol, t⟩ ∈ b.transitions.toList ↔
      b.transition? (r.states s) (r.symbol symbol) = some (r.states t) := by
    rw [Automaton.transition?_eq_some_iff rightOnce]
    exact Array.mem_toList_iff
  have same : b.transition? (r.states s) (r.symbol symbol) = some (r.states t) ↔
      a.transition? s symbol = some t := by
    rw [renumbers.transition?]
    simp
  exact here.trans (same.symm.trans there.symm)

end

/-- Limits that have room for the automaton of one grammar have room for that of the other. -/
theorem Renames.exists_automaton {r : Renaming} {g h : Grammar} {limits : Limits} {a : Automaton}
    (renames : Renames r g h) (left : g.WellFormed) (right : h.WellFormed)
    (built : g.automaton g.firstSets limits = .ok a) :
    ∃ b, h.automaton h.firstSets limits = .ok b := by
  obtain ⟨settled, fits⟩ := Automaton.settled_of_collect built
  obtain ⟨b, otherSettled⟩ := Automaton.exists_settled right
  have perm := renames.states_perm settled otherSettled left right
  have size : b.states.size = a.states.size := by
    simpa using perm.length_eq.symm
  have weight : b.itemCount = a.itemCount := by
    rw [b.itemCount_eq, a.itemCount_eq, ← itemTotal_perm perm, itemTotal_map]
  have other : b.Fits limits := ⟨size ▸ fits.states, weight ▸ fits.items, size ▸ fits.ids,
    otherSettled.inside⟩
  exact ⟨b, Automaton.collect_eq_ok otherSettled other.ids fun k exceeds =>
    other.not_exceeds exceeds.1 exceeds.2⟩

end CanonicalLR
