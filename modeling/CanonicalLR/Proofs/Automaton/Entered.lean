import CanonicalLR.Proofs.Automaton.Finite

/-!
# What a state is entered with

Besides its items a state keeps the kernel that they are the closure of, and the
symbol that it was first entered by. Its items tell both of them, whichever
transition came first.
-/

namespace CanonicalLR

namespace Grammar

/-- The states that a construction may enter. -/
inductive Enters (g : Grammar) : State → Prop where
  | start : g.Enters ⟨ItemSet.ofList [.start], closure g g.firstSets [.start], none⟩
  | goto {set : ItemSet} {symbol : Symbol} (collected : g.Collected set)
      (after : symbol ∈ set.symbolsAfterDot g) :
      g.Enters ⟨set.gotoKernel g symbol, set.goto g g.firstSets symbol, some symbol⟩

variable {g : Grammar} {set : ItemSet} {symbol : Symbol}

theorem Enters.collected {state : State} (enters : g.Enters state) :
    g.Collected state.items := by
  cases enters with
  | start => exact .start
  | goto collected after => exact .goto collected _ (ItemSet.goto_ne_empty_iff.mpr after)

theorem dot_ne_zero_of_mem_gotoKernel {item : Item} (member : item ∈ set.gotoKernel g symbol) :
    item.dot ≠ 0 := by
  obtain ⟨source, -, -, rfl⟩ := ItemSet.mem_gotoKernel.mp member
  exact Nat.succ_ne_zero source.dot

section

variable (wellFormed : g.WellFormed)
include wellFormed

theorem Collected.mem_goto_iff (collected : g.Collected set) {item : Item} :
    item ∈ set.goto g g.firstSets symbol ↔
      g.LeadsTo (set.gotoKernel g symbol).toList item :=
  mem_closure wellFormed fun item member =>
    (hasItem_gotoKernel (collected.hasItem wellFormed) symbol item member).lookahead

/-- The dot has moved in the items of the kernel, and in no other items of the goto. -/
theorem Collected.mem_gotoKernel_iff (collected : g.Collected set) {item : Item} :
    item ∈ set.gotoKernel g symbol ↔
      item ∈ set.goto g g.firstSets symbol ∧ item.dot ≠ 0 := by
  rw [collected.mem_goto_iff wellFormed]
  constructor
  · exact fun member => ⟨⟨item, member, .refl⟩, dot_ne_zero_of_mem_gotoKernel member⟩
  · rintro ⟨⟨origin, member, led⟩, moved⟩
    cases led with
    | refl => exact member
    | tail _ step => exact absurd step.dot_eq_zero moved

theorem Collected.start_not_mem_goto (collected : g.Collected set) :
    Item.start ∉ set.goto g g.firstSets symbol := by
  rw [collected.mem_goto_iff wellFormed]
  rintro ⟨origin, member, led⟩
  cases led with
  | refl => exact dot_ne_zero_of_mem_gotoKernel (ItemSet.mem_iff.mpr member) rfl
  | tail _ step => exact step.user wellFormed rfl

theorem start_mem_closure : Item.start ∈ closure g g.firstSets [.start] :=
  (mem_closure wellFormed fun _ member =>
    List.mem_singleton.mp member ▸ (hasItem_start wellFormed).lookahead).mpr
      ⟨.start, List.mem_singleton_self _, .refl⟩

/-- Gotos with the same items have the same kernel and go over the same symbol. -/
theorem Collected.goto_inj {other : ItemSet} {label : Symbol} (left : g.Collected set)
    (right : g.Collected other) (after : symbol ∈ set.symbolsAfterDot g)
    (same : set.goto g g.firstSets symbol = other.goto g g.firstSets label) :
    set.gotoKernel g symbol = other.gotoKernel g label ∧ symbol = label := by
  have kernels : set.gotoKernel g symbol = other.gotoKernel g label := by
    ext item
    rw [left.mem_gotoKernel_iff wellFormed, right.mem_gotoKernel_iff wellFormed, same]
  obtain ⟨item, member, next⟩ := ItemSet.mem_symbolsAfterDot.mp after
  have moved : item.advance ∈ other.gotoKernel g label :=
    kernels ▸ ItemSet.mem_gotoKernel.mpr ⟨item, member, next, rfl⟩
  obtain ⟨source, -, otherNext, advanced⟩ := ItemSet.mem_gotoKernel.mp moved
  have origin : source = item := by
    cases source
    cases item
    simpa [Item.advance] using advanced
  exact ⟨kernels, Option.some.inj (next.symm.trans (origin ▸ otherNext))⟩

/-- A state is known by its items. -/
theorem Enters.eq_of_items {first second : State} (left : g.Enters first)
    (right : g.Enters second) (same : first.items = second.items) : first = second := by
  cases left with
  | start =>
    cases right with
    | start => rfl
    | goto collected =>
      dsimp only at same
      exact absurd (same ▸ start_mem_closure wellFormed) (collected.start_not_mem_goto wellFormed)
  | goto collected after =>
    cases right with
    | start =>
      dsimp only at same
      exact absurd (same ▸ start_mem_closure wellFormed) (collected.start_not_mem_goto wellFormed)
    | goto otherCollected =>
      dsimp only at same
      obtain ⟨kernels, rfl⟩ := collected.goto_inj wellFormed otherCollected after same
      rw [kernels, same]

end

end Grammar

namespace Automaton

variable {g : Grammar} {a : Automaton}

theorem state?_addState {state found : State} {s : Nat}
    (looked : (a.addState state).state? s = some found) :
    a.state? s = some found ∨ s = a.states.size ∧ found = state := by
  unfold state? addState at looked
  rw [Array.getElem?_push] at looked
  split at looked
  · rename_i last
    exact .inr ⟨last, (Option.some.inj looked).symm⟩
  · exact .inl looked

theorem enters_grown (g : Grammar) (n : Nat) {s : Nat} {state : State}
    (found : (grown (.ofGrammar g g.firstSets) n).state? s = some state) : g.Enters state := by
  let holds (_ : Nat) (_ : List Symbol) (a : Automaton) : Prop :=
    ∀ s state, a.state? s = some state → g.Enters state
  refine grown_induction holds ?_ (fun before _ => before) (fun before _ => before) ?_ n s state
    found
  · intro s source done rest symbol a before sourceFound split t state looked
    rcases followFreely_cases (.ofGrammar g g.firstSets) s source.items a symbol with
      ⟨target, -, same⟩ | ⟨-, same⟩
    · rw [same] at looked
      exact before t state looked
    · rw [same] at looked
      rcases state?_addState looked with old | ⟨-, rfl⟩
      · exact before t state old
      · have after : symbol ∈ source.items.symbolsAfterDot g := by
          show symbol ∈ source.items.symbolsAfterDot (ClosureRules.ofGrammar g g.firstSets).grammar
          rw [split]
          exact List.mem_append_right _ List.mem_cons_self
        exact .goto (before s source sourceFound).collected after
  · intro s state looked
    rcases state?_addState looked with none | ⟨-, rfl⟩
    · exact absurd none (by simp [state?, empty])
    · exact .start

theorem Settled.enters (settled : a.Settled (.ofGrammar g g.firstSets)) {s : Nat} {state : State}
    (found : a.state? s = some state) : g.Enters state := by
  obtain ⟨enough, all⟩ := settled
  exact enters_grown g enough ((all enough (Nat.le_refl _)).symm ▸ found)

theorem Settled.first (settled : a.Settled (.ofGrammar g g.firstSets)) :
    ∃ rest, a.states.toList =
      ⟨ItemSet.ofList [.start], closure g g.firstSets [.start], none⟩ :: rest := by
  obtain ⟨rest, split⟩ := (settled.precedes 0).states
  exact ⟨rest, split.symm⟩

theorem Settled.nodup (settled : a.Settled (.ofGrammar g g.firstSets)) :
    a.states.toList.Nodup :=
  .of_map State.items settled.reached.sound.nodup

/-- The states that a construction ends with are all those that it may enter. -/
theorem Settled.mem_states_iff (settled : a.Settled (.ofGrammar g g.firstSets))
    (wellFormed : g.WellFormed) {state : State} :
    state ∈ a.states.toList ↔ g.Enters state := by
  have entered {state : State} (member : state ∈ a.states.toList) : g.Enters state := by
    obtain ⟨s, found⟩ := List.mem_iff_getElem?.mp member
    exact settled.enters ((Array.getElem?_toList).symm.trans found)
  constructor
  · exact entered
  · intro enters
    have complete := settled.canonical.complete_itemGraph
    have found := (settled.reached.sound.mem_found_iff complete).mpr enters.collected
    obtain ⟨other, member, items⟩ := List.mem_map.mp found
    exact (entered member).eq_of_items wellFormed enters items ▸ member

end Automaton

end CanonicalLR
