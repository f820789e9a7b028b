import CanonicalLR.Proofs.Automaton.Entered
import CanonicalLR.Proofs.Renaming.Sets

/-!
# Renamed item sets

Closures and gotos of renamed item sets are the renamed closures and gotos, so
that the states to enter are the renamed ones.
-/

namespace CanonicalLR

/-- A state with the ids of its items and of its symbol renamed. -/
def Renaming.state (r : Renaming) (state : State) : State :=
  ⟨r.itemSet state.kernel, r.itemSet state.items, state.accessing.map r.symbol⟩

@[simp] theorem Renaming.inverse_state (r : Renaming) (state : State) :
    r.inverse.state (r.state state) = state := by
  cases state
  simp [Renaming.state, Function.comp_def]

theorem Renaming.state_injective (r : Renaming) : Function.Injective r.state :=
  Function.LeftInverse.injective r.inverse_state

/-! ## Predictions and closures -/

namespace Carries

variable {r : Renaming} {g h : Grammar} (carries : Carries r g h) (left : g.WellFormed)
  (right : h.WellFormed)
include carries left right

theorem predicts {item other : Item} (step : g.Predicts item other) :
    h.Predicts (r.item item) (r.item other) := by
  obtain ⟨opened, next, ahead⟩ := step
  obtain ⟨production, found, -⟩ := Item.next?_eq_some.mp next
  refine .begin (carries.production?_of opened)
    ((Renaming.next?_eq_some_iff (carries.next? found)).mpr next) ?_
  rw [carries.rest found]
  exact carries.mem_firstBefore left right ahead

theorem leadsTo {kernel : ItemSet} {item : Item} (led : g.LeadsTo kernel.toList item) :
    h.LeadsTo (r.itemSet kernel).toList (r.item item) := by
  obtain ⟨origin, member, path⟩ := led
  refine ⟨r.item origin, r.item_mem_itemSet.mpr member, ?_⟩
  clear member
  induction path with
  | refl => exact .refl
  | tail _ step ih => exact ih.tail (carries.predicts left right step)

/-- Where renamed kernels lead to renamed items only, their closures are the renamed closures. -/
theorem closure {kernel : ItemSet} (all : ∀ item ∈ kernel, g.HasItem item)
    (inside : ∀ item ∈ kernel, (r.item item).lookahead < h.terminals.size)
    (back : ∀ item, h.LeadsTo (r.itemSet kernel).toList item →
      ∃ source, g.LeadsTo kernel.toList source ∧ r.item source = item) :
    CanonicalLR.closure h h.firstSets (r.itemSet kernel).toList =
      r.itemSet (CanonicalLR.closure g g.firstSets kernel.toList) := by
  have bounded : ∀ item ∈ (r.itemSet kernel).toList, item.lookahead < h.terminals.size := by
    intro item member
    obtain ⟨source, listed, rfl⟩ := r.mem_itemSet.mp (ItemSet.mem_iff.mpr member)
    exact inside source listed
  ext item
  rw [mem_closure right bounded, r.mem_itemSet]
  simp only [mem_closure left fun item member => (all item member).lookahead]
  constructor
  · exact back item
  · rintro ⟨source, led, rfl⟩
    exact carries.leadsTo left right led

end Carries

/-! ## Renamed automata -/

namespace Renames

variable {r : Renaming} {g h : Grammar} (renames : Renames r g h)
include renames

theorem isAccept (state : State) : (r.state state).isAccept = state.isAccept := by
  have carried : r.item .accept ∈ r.itemSet state.items ↔ .accept ∈ state.items :=
    r.item_mem_itemSet
  rw [renames.item_accept] at carried
  exact decide_eq_decide.mpr carried

theorem itemSet_start : r.itemSet (ItemSet.ofList [.start]) = ItemSet.ofList [.start] := by
  rw [r.itemSet_ofList, List.map_singleton, renames.item_start]

section

variable (left : g.WellFormed) (right : h.WellFormed)
include left right

theorem closure {kernel : ItemSet} (all : ∀ item ∈ kernel, g.HasItem item) :
    CanonicalLR.closure h h.firstSets (r.itemSet kernel).toList =
      r.itemSet (CanonicalLR.closure g g.firstSets kernel.toList) := by
  have inside : ∀ item ∈ kernel, (r.item item).lookahead < h.terminals.size :=
    fun item member => renames.terminal_lt_iff.mpr (all item member).lookahead
  refine renames.carries.closure left right all inside fun item led => ?_
  have back := renames.inverse.carries.leadsTo right left led
  rw [r.inverse_itemSet] at back
  exact ⟨r.inverse.item item, back, r.item_inverse item⟩

theorem closure_start :
    CanonicalLR.closure h h.firstSets [.start] =
      r.itemSet (CanonicalLR.closure g g.firstSets [.start]) := by
  have carried := renames.closure left right (Grammar.hasItem_ofList_start left)
  rwa [renames.itemSet_start] at carried

theorem goto {set : ItemSet} (collected : g.Collected set) (symbol : Symbol) :
    (r.itemSet set).goto h h.firstSets (r.symbol symbol) =
      r.itemSet (set.goto g g.firstSets symbol) := by
  rw [ItemSet.goto, renames.gotoKernel]
  exact renames.closure left right
    (Grammar.hasItem_gotoKernel (collected.hasItem left) symbol)

theorem collected {set : ItemSet} (reached : g.Collected set) : h.Collected (r.itemSet set) := by
  induction reached with
  | start =>
    rw [← renames.closure_start left right]
    exact .start
  | goto earlier symbol inhabited ih =>
    have after := ItemSet.goto_ne_empty_iff.mp inhabited
    rw [← renames.goto left right earlier]
    exact .goto ih _ (ItemSet.goto_ne_empty_iff.mpr (renames.mem_symbolsAfterDot_iff.mpr after))

theorem enters {state : State} (entered : g.Enters state) : h.Enters (r.state state) := by
  cases entered with
  | start =>
    rw [Renaming.state, renames.itemSet_start, ← renames.closure_start left right]
    exact .start
  | goto reached after =>
    rw [Renaming.state, ← renames.gotoKernel, ← renames.goto left right reached]
    exact .goto (renames.collected left right reached) (renames.mem_symbolsAfterDot_iff.mpr after)

end

end Renames

end CanonicalLR
