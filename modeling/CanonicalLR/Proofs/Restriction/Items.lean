import CanonicalLR.Proofs.Renaming.Items
import CanonicalLR.Proofs.Restriction.Basic

/-!
# Items of a part

The items of a part come in the order of their counterparts in the whole, so that
sets of them list the same symbols in the same order, and their closures and
gotos have the counterparts of what they have in the part and no more.
-/

namespace CanonicalLR

namespace Embeds

variable {r : Renaming} {part whole : Grammar} (embeds : Embeds r part whole)
include embeds

theorem item_start : r.item .start = .start := by
  simp [Renaming.item, Item.start, embeds.augmentedProduction, embeds.terminal_eq]

theorem next? {item : Item} (has : part.HasItem item) :
    (r.item item).next? whole = (item.next? part).map r.symbol := by
  obtain ⟨production, found, -⟩ := has.production
  exact embeds.toCarries.next? found

theorem rest {item : Item} (has : part.HasItem item) :
    (r.item item).rest whole = (item.rest part).map r.symbol := by
  obtain ⟨production, found, -⟩ := has.production
  exact embeds.toCarries.rest found

theorem next?_eq_some_iff {item : Item} (has : part.HasItem item) {symbol : Symbol} :
    (r.item item).next? whole = some (r.symbol symbol) ↔ item.next? part = some symbol :=
  Renaming.next?_eq_some_iff (embeds.next? has)

theorem hasItem {item : Item} (has : part.HasItem item) : whole.HasItem (r.item item) := by
  obtain ⟨⟨production, found, short⟩, ahead⟩ := has
  refine ⟨⟨_, embeds.production?_of found, ?_⟩, ?_⟩
  · simpa [Renaming.production, Renaming.item] using short
  · rw [← embeds.terminals]
    simpa [Renaming.item, embeds.terminal_eq] using ahead

/-! ## Order -/

theorem before {first second : Item} (has : part.HasItem second) (before : first.Before second) :
    (r.item first).Before (r.item second) := by
  obtain ⟨production, found, -⟩ := has.production
  have inside := (Array.getElem?_eq_some_iff.mp found).1
  simp only [Item.Before, Renaming.item, embeds.terminal_eq]
  rcases before with earlier | ⟨same, later⟩
  · exact .inl (embeds.productionsAscending earlier inside)
  · exact .inr ⟨congrArg r.productions same, later⟩

/-- A set of items lists their counterparts in the same order. -/
theorem toList_itemSet {set : ItemSet} (all : ∀ item ∈ set, part.HasItem item) :
    (r.itemSet set).toList = set.toList.map r.item := by
  have ascending : (set.toList.map r.item).Pairwise Item.Before := by
    rw [List.pairwise_map]
    exact set.sorted.imp_of_mem fun _ member before => embeds.before (all _ member) before
  refine ItemSet.eq_of_pairwise (r.itemSet set).sorted ascending fun item => ?_
  exact (r.itemSet_perm set).mem_iff

theorem symbolsAfterDot {set : ItemSet} (all : ∀ item ∈ set, part.HasItem item) :
    (r.itemSet set).symbolsAfterDot whole = (set.symbolsAfterDot part).map r.symbol := by
  have nexts : (set.toList.map r.item).filterMap (Item.next? whole) =
      (set.toList.filterMap (Item.next? part)).map r.symbol := by
    rw [List.filterMap_map, List.map_filterMap]
    exact List.filterMap_congr fun item member => embeds.next? (all item member)
  rw [ItemSet.symbolsAfterDot, embeds.toList_itemSet all, nexts,
    eraseDups_map_of_injective r.symbol_injective, ItemSet.symbolsAfterDot]

theorem gotoKernel {set : ItemSet} (all : ∀ item ∈ set, part.HasItem item) (symbol : Symbol) :
    (r.itemSet set).gotoKernel whole (r.symbol symbol) =
      r.itemSet (set.gotoKernel part symbol) :=
  Renaming.gotoKernel_itemSet (fun item member => embeds.next? (all item member)) symbol

/-! ## Closures -/

section

variable (partFormed : part.WellFormed) (wholeFormed : whole.WellFormed)
include partFormed wholeFormed

/-- What an item of the part predicts in the whole it predicts in the part. -/
theorem of_predicts {item other : Item} (has : part.HasItem item)
    (step : whole.Predicts (r.item item) other) :
    ∃ source, part.Predicts item source ∧ r.item source = other := by
  have declared : ∀ symbol ∈ item.rest part,
      symbol.Declared part.terminals.size part.nonterminals.size :=
    fun symbol => Item.declared_of_mem_rest partFormed
  obtain ⟨found, next, ahead⟩ := step
  rw [embeds.next? has] at next
  rw [embeds.rest has, Renaming.item, embeds.terminal_eq,
    embeds.mem_firstBefore_iff partFormed wholeFormed declared] at ahead
  obtain ⟨symbol, here, same⟩ := Option.map_eq_some_iff.mp next
  obtain ⟨n, rfl, left⟩ := r.exists_nonterminal same
  have inside := (Item.declared_of_next? partFormed here).2
  obtain ⟨q, source, listed, rfl, rfl, rfl⟩ := embeds.exists_production inside found left.symm
  refine ⟨_, .begin listed here ahead, ?_⟩
  simp [Renaming.item, embeds.terminal_eq]

theorem of_leadsTo {kernel : ItemSet} (all : ∀ item ∈ kernel, part.HasItem item) {item : Item}
    (led : whole.LeadsTo (r.itemSet kernel).toList item) :
    ∃ source, part.LeadsTo kernel.toList source ∧ r.item source = item := by
  obtain ⟨_, listed, path⟩ := led
  obtain ⟨origin, member, rfl⟩ := r.mem_itemSet.mp (ItemSet.mem_iff.mpr listed)
  have reached : ∃ source, (Relation.ReflTransGen part.Predicts origin source ∧
      part.HasItem source) ∧ r.item source = item := by
    clear listed
    induction path with
    | refl => exact ⟨origin, ⟨.refl, all origin member⟩, rfl⟩
    | tail _ step ih =>
      obtain ⟨source, ⟨led, has⟩, rfl⟩ := ih
      obtain ⟨next, predicted, rfl⟩ := embeds.of_predicts partFormed wholeFormed has step
      exact ⟨next, ⟨led.tail predicted, has.predicts partFormed predicted⟩, rfl⟩
  obtain ⟨source, ⟨path, -⟩, same⟩ := reached
  exact ⟨source, ⟨origin, member, path⟩, same⟩

theorem closure {kernel : ItemSet} (all : ∀ item ∈ kernel, part.HasItem item) :
    CanonicalLR.closure whole whole.firstSets (r.itemSet kernel).toList =
      r.itemSet (CanonicalLR.closure part part.firstSets kernel.toList) :=
  embeds.toCarries.closure partFormed wholeFormed all
    (fun item member => (embeds.hasItem (all item member)).lookahead)
    fun _ => embeds.of_leadsTo partFormed wholeFormed all

end

end Embeds

end CanonicalLR
