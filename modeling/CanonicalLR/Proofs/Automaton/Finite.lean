import CanonicalLR.Proofs.Automaton.Numbering
import CanonicalLR.Proofs.Automaton.Validity
import Mathlib.Data.Finset.Powerset

/-!
# The construction comes to an end

The items of collected sets have their dot in a production of the grammar and
one of its terminals ahead. There are finitely many such items and finitely many
sets of them, so some visit is the last one that the construction makes.
-/

namespace CanonicalLR

namespace Grammar

/-- The dot stands in a production of the grammar, and the lookahead is one of its terminals. -/
structure HasItem (g : Grammar) (item : Item) : Prop where
  production : ∃ production, g.production? item.production = some production ∧
    item.dot ≤ production.right.length
  lookahead : item.lookahead < g.terminals.size

variable {g : Grammar}

theorem hasItem_start (wellFormed : g.WellFormed) : g.HasItem .start :=
  ⟨⟨_, wellFormed.augmented, Nat.zero_le _⟩, wellFormed.terminals⟩

theorem hasItem_ofList_start (wellFormed : g.WellFormed) :
    ∀ item ∈ ItemSet.ofList [.start], g.HasItem item := by
  intro item member
  obtain rfl := List.mem_singleton.mp (ItemSet.mem_ofList.mp member)
  exact hasItem_start wellFormed

theorem HasItem.predicts {item other : Item} (has : g.HasItem item) (wellFormed : g.WellFormed)
    (predicts : g.Predicts item other) : g.HasItem other := by
  obtain ⟨production, found⟩ := predicts.exists_production
  exact ⟨⟨production, found, predicts.dot_eq_zero ▸ Nat.zero_le _⟩,
    predicts.lookahead_lt wellFormed has.lookahead⟩

theorem HasItem.advance {item : Item} {symbol : Symbol} (has : g.HasItem item)
    (next : item.next? g = some symbol) : g.HasItem item.advance := by
  obtain ⟨production, found, at_dot⟩ := Item.next?_eq_some.mp next
  exact ⟨⟨production, found, (List.getElem?_eq_some_iff.mp at_dot).1⟩, has.lookahead⟩

theorem hasItem_closure (wellFormed : g.WellFormed) {kernel : List Item}
    (all : ∀ item ∈ kernel, g.HasItem item) {item : Item}
    (member : item ∈ closure g g.firstSets kernel) : g.HasItem item := by
  obtain ⟨origin, listed, led⟩ :=
    (mem_closure wellFormed fun item listed => (all item listed).lookahead).mp member
  clear member
  induction led with
  | refl => exact all origin listed
  | tail _ step ih => exact ih.predicts wellFormed step

theorem hasItem_gotoKernel {set : ItemSet} (all : ∀ item ∈ set, g.HasItem item) (symbol : Symbol) :
    ∀ item ∈ (set.gotoKernel g symbol).toList, g.HasItem item := by
  intro item member
  obtain ⟨source, listed, next, rfl⟩ := ItemSet.mem_gotoKernel.mp (ItemSet.mem_iff.mpr member)
  exact (all source listed).advance next

theorem Collected.hasItem {set : ItemSet} (collected : g.Collected set)
    (wellFormed : g.WellFormed) : ∀ item ∈ set, g.HasItem item := by
  induction collected with
  | start =>
    intro item member
    refine hasItem_closure wellFormed (fun item listed => ?_) member
    obtain rfl := List.mem_singleton.mp listed
    exact hasItem_start wellFormed
  | goto _ symbol _ ih =>
    exact fun item member => hasItem_closure wellFormed (hasItem_gotoKernel ih symbol) member

/-- All items whose dot and lookahead are in range. -/
def itemSpace (g : Grammar) : Finset Item :=
  (Finset.range g.productions.size ×ˢ Finset.range (Definition.lengthLimit + 1) ×ˢ
    Finset.range g.terminals.size).image fun place => ⟨place.1, place.2.1, place.2.2⟩

theorem HasItem.mem_itemSpace {item : Item} (has : g.HasItem item) (wellFormed : g.WellFormed) :
    item ∈ g.itemSpace := by
  obtain ⟨production, found, within⟩ := has.production
  refine Finset.mem_image.mpr ⟨(item.production, item.dot, item.lookahead), ?_, rfl⟩
  have short := wellFormed.length_le found
  simp only [Finset.mem_product, Finset.mem_range]
  exact ⟨(Array.getElem?_eq_some_iff.mp found).1, by omega, has.lookahead⟩

end Grammar

theorem ItemSet.toFinset_injective :
    Function.Injective fun set : ItemSet => set.toList.toFinset := by
  intro first second same
  ext item
  simpa [ItemSet.mem_iff] using Finset.ext_iff.mp same item

/-- An exploration finds no more item sets than there are sets of items. -/
theorem Exploration.Sound.length_found_le {g : Grammar} {e : Exploration} (sound : e.Sound g)
    (wellFormed : g.WellFormed) : e.found.length ≤ 2 ^ g.itemSpace.card := by
  let views := e.found.map fun set => set.toList.toFinset
  have nodup : views.Nodup := sound.nodup.map ItemSet.toFinset_injective
  have within : views.toFinset ⊆ g.itemSpace.powerset := by
    intro view member
    obtain ⟨set, found, rfl⟩ := List.mem_map.mp (List.mem_toFinset.mp member)
    refine Finset.mem_powerset.mpr fun item listed => ?_
    exact ((sound.collected set found).hasItem wellFormed item
      (List.mem_toFinset.mp listed)).mem_itemSpace wellFormed
  calc e.found.length = views.toFinset.card := by
        rw [List.toFinset_card_of_nodup nodup, List.length_map]
    _ ≤ g.itemSpace.powerset.card := Finset.card_le_card within
    _ = 2 ^ g.itemSpace.card := Finset.card_powerset _

/-- Without limits the construction ends, in an automaton that no visit adds to. -/
theorem Automaton.exists_settled {g : Grammar} (wellFormed : g.WellFormed) :
    ∃ a : Automaton, a.Settled (.ofGrammar g g.firstSets) := by
  let bound := 2 ^ g.itemSpace.card
  refine ⟨grown (.ofGrammar g g.firstSets) bound, settled_of_size_le ?_⟩
  have few := (explored_grown g bound).reached.sound.length_found_le wellFormed
  rwa [itemGraph, List.length_map, Array.length_toList] at few

end CanonicalLR
