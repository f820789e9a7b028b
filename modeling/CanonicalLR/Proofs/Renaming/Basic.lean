import CanonicalLR.Item.Set
import CanonicalLR.Proofs.Grammar.WellFormed
import Mathlib.Data.List.Nodup
import Mathlib.Logic.Equiv.Basic

/-!
# Renamings

Ids are given in the order of the declarations. A renaming carries the ids of
one grammar to those that another grammar gives to the same symbols and the
same productions.
-/

namespace CanonicalLR

/-! ## Places of permuted lists -/

/-- Zero stays, and what comes after it moves as numbers do. -/
def behindHead (places : Equiv.Perm Nat) : Equiv.Perm Nat where
  toFun
    | 0 => 0
    | place + 1 => places place + 1
  invFun
    | 0 => 0
    | place + 1 => places.symm place + 1
  left_inv place := by cases place <;> simp
  right_inv place := by cases place <;> simp

theorem exists_places {α : Type} {first second : List α} (perm : first.Perm second) :
    ∃ places : Equiv.Perm Nat, ∀ place, second[places place]? = first[place]? := by
  induction perm with
  | nil => exact ⟨.refl Nat, fun _ => rfl⟩
  | cons value _ ih =>
    obtain ⟨places, same⟩ := ih
    refine ⟨behindHead places, fun place => ?_⟩
    cases place with
    | zero => rfl
    | succ place => exact same place
  | swap first second rest =>
    refine ⟨Equiv.swap 0 1, fun place => ?_⟩
    match place with
    | 0 => rw [Equiv.swap_apply_left]; rfl
    | 1 => rw [Equiv.swap_apply_right]; rfl
    | place + 2 => rw [Equiv.swap_apply_of_ne_of_ne (by omega) (by omega)]; rfl
  | trans _ _ left right =>
    obtain ⟨places, same⟩ := left
    obtain ⟨others, equal⟩ := right
    exact ⟨places.trans others, fun place => (equal (places place)).trans (same place)⟩

/-- Behind a common head, lists may be permuted while the head keeps its place. -/
theorem exists_places_behind {α : Type} {first second : List α} (perm : first.Perm second)
    (head : α) : ∃ places : Equiv.Perm Nat, places 0 = 0 ∧
      ∀ place, (head :: second)[places place]? = (head :: first)[place]? := by
  obtain ⟨places, same⟩ := exists_places perm
  refine ⟨behindHead places, rfl, fun place => ?_⟩
  cases place with
  | zero => rfl
  | succ place => exact same place

/-! ## Renamed symbols, productions and items -/

structure Renaming where
  terminals : Equiv.Perm Nat
  nonterminals : Equiv.Perm Nat
  productions : Equiv.Perm Nat

namespace Renaming

variable (r : Renaming)

def inverse : Renaming :=
  ⟨r.terminals.symm, r.nonterminals.symm, r.productions.symm⟩

def symbol : Symbol → Symbol
  | .terminal t => .terminal (r.terminals t)
  | .nonterminal n => .nonterminal (r.nonterminals n)

def production (production : Production) : Production :=
  ⟨r.nonterminals production.left, production.right.map r.symbol⟩

def item (item : Item) : Item :=
  ⟨r.productions item.production, item.dot, r.terminals item.lookahead⟩

def itemSet (set : ItemSet) : ItemSet :=
  ItemSet.ofList (set.toList.map r.item)

/-! ## Back and forth -/

@[simp] theorem inverse_inverse : r.inverse.inverse = r := rfl

@[simp] theorem inverse_symbol (symbol : Symbol) : r.inverse.symbol (r.symbol symbol) = symbol := by
  cases symbol <;> simp [Renaming.symbol, inverse]

@[simp] theorem symbol_inverse (symbol : Symbol) : r.symbol (r.inverse.symbol symbol) = symbol :=
  r.inverse.inverse_symbol symbol

theorem symbol_surjective : Function.Surjective r.symbol :=
  fun symbol => ⟨r.inverse.symbol symbol, r.symbol_inverse symbol⟩

theorem symbol_injective : Function.Injective r.symbol :=
  Function.LeftInverse.injective r.inverse_symbol

@[simp] theorem inverse_symbols (symbols : List Symbol) :
    (symbols.map r.symbol).map r.inverse.symbol = symbols := by
  simp [Function.comp_def]

@[simp] theorem inverse_production (production : Production) :
    r.inverse.production (r.production production) = production := by
  cases production
  simp only [Renaming.production, inverse_symbols]
  simp [inverse]

@[simp] theorem inverse_item (item : Item) : r.inverse.item (r.item item) = item := by
  cases item
  simp [Renaming.item, inverse]

@[simp] theorem item_inverse (item : Item) : r.item (r.inverse.item item) = item :=
  r.inverse.inverse_item item

theorem item_injective : Function.Injective r.item :=
  Function.LeftInverse.injective r.inverse_item

/-! ## Item sets -/

theorem mem_itemSet {set : ItemSet} {item : Item} :
    item ∈ r.itemSet set ↔ ∃ source ∈ set, r.item source = item := by
  rw [itemSet, ItemSet.mem_ofList, List.mem_map]
  rfl

theorem itemSet_ofList (items : List Item) :
    r.itemSet (ItemSet.ofList items) = ItemSet.ofList (items.map r.item) := by
  ext item
  simp [mem_itemSet, ItemSet.mem_ofList]

@[simp] theorem item_mem_itemSet {set : ItemSet} {item : Item} :
    r.item item ∈ r.itemSet set ↔ item ∈ set := by
  rw [mem_itemSet]
  constructor
  · rintro ⟨source, member, same⟩
    exact r.item_injective same ▸ member
  · exact fun member => ⟨item, member, rfl⟩

theorem mem_itemSet_iff {set : ItemSet} {item : Item} :
    item ∈ r.itemSet set ↔ r.inverse.item item ∈ set := by
  have carried : r.item (r.inverse.item item) ∈ r.itemSet set ↔ r.inverse.item item ∈ set :=
    r.item_mem_itemSet
  rwa [item_inverse] at carried

@[simp] theorem inverse_itemSet (set : ItemSet) : r.inverse.itemSet (r.itemSet set) = set := by
  ext item
  rw [mem_itemSet_iff, inverse_inverse, item_mem_itemSet]

theorem itemSet_injective : Function.Injective r.itemSet :=
  Function.LeftInverse.injective r.inverse_itemSet

theorem itemSet_perm (set : ItemSet) : (r.itemSet set).toList.Perm (set.toList.map r.item) := by
  have once (set : ItemSet) : set.toList.Nodup :=
    set.sorted.imp fun before same => absurd (same ▸ before) (Item.Before.irrefl _)
  apply (List.perm_ext_iff_of_nodup (once _) ((once set).map r.item_injective)).mpr
  intro item
  exact ItemSet.mem_ofList

@[simp] theorem size_itemSet (set : ItemSet) : (r.itemSet set).size = set.size := by
  rw [ItemSet.size, (r.itemSet_perm set).length_eq, List.length_map, ItemSet.size]

end Renaming

/-! ## Dots before renamed symbols -/

namespace Renaming

variable {r : Renaming} {g h : Grammar}

theorem next?_eq_some_iff {item : Item}
    (renamed : (r.item item).next? h = (item.next? g).map r.symbol) {symbol : Symbol} :
    (r.item item).next? h = some (r.symbol symbol) ↔ item.next? g = some symbol := by
  rw [renamed, Option.map_eq_some_iff]
  constructor
  · rintro ⟨other, next, same⟩
    exact r.symbol_injective same ▸ next
  · exact fun next => ⟨symbol, next, rfl⟩

theorem gotoKernel_itemSet {set : ItemSet}
    (renamed : ∀ item ∈ set, (r.item item).next? h = (item.next? g).map r.symbol)
    (symbol : Symbol) :
    (r.itemSet set).gotoKernel h (r.symbol symbol) = r.itemSet (set.gotoKernel g symbol) := by
  ext item
  rw [ItemSet.mem_gotoKernel, r.mem_itemSet]
  constructor
  · rintro ⟨source, member, next, rfl⟩
    obtain ⟨origin, inside, rfl⟩ := r.mem_itemSet.mp member
    have here := (next?_eq_some_iff (renamed origin inside)).mp next
    exact ⟨origin.advance, ItemSet.mem_gotoKernel.mpr ⟨origin, inside, here, rfl⟩, rfl⟩
  · rintro ⟨moved, member, rfl⟩
    obtain ⟨origin, inside, next, rfl⟩ := ItemSet.mem_gotoKernel.mp member
    exact ⟨r.item origin, r.item_mem_itemSet.mpr inside,
      (next?_eq_some_iff (renamed origin inside)).mpr next, rfl⟩

end Renaming

/-- A renaming leads from the productions of one grammar to productions of the other. -/
structure Carries (r : Renaming) (g h : Grammar) : Prop where
  production?_of : ∀ {p : Nat} {production : Production}, g.production? p = some production →
    h.production? (r.productions p) = some (r.production production)

namespace Carries

variable {r : Renaming} {g h : Grammar} (carries : Carries r g h)
include carries

theorem next? {item : Item} {production : Production}
    (found : g.production? item.production = some production) :
    (r.item item).next? h = (item.next? g).map r.symbol := by
  rw [Item.next?, Item.next?, found, Renaming.item, carries.production?_of found]
  simp [Renaming.production]

theorem rest {item : Item} {production : Production}
    (found : g.production? item.production = some production) :
    (r.item item).rest h = (item.rest g).map r.symbol := by
  rw [Item.rest, Item.rest, found, Renaming.item, carries.production?_of found]
  simp [Renaming.production]

end Carries

/-- A renaming leads from the symbols of one grammar to those of the other with the same names. -/
structure RenamesSymbols (r : Renaming) (g h : Grammar) : Prop where
  terminalName? : ∀ t, h.terminalName? (r.terminals t) = g.terminalName? t
  nonterminalName? : ∀ n, h.nonterminalName? (r.nonterminals n) = g.nonterminalName? n
  endMarker : r.terminals endMarker = endMarker
  augmentedStart : r.nonterminals augmentedStart = augmentedStart

namespace RenamesSymbols

variable {r : Renaming} {g h : Grammar} (renames : RenamesSymbols r g h)
include renames

theorem inverse : RenamesSymbols r.inverse h g where
  terminalName? t := by
    rw [← renames.terminalName?, Renaming.inverse, Equiv.apply_symm_apply]
  nonterminalName? n := by
    rw [← renames.nonterminalName?, Renaming.inverse, Equiv.apply_symm_apply]
  endMarker := (Equiv.symm_apply_eq _).mpr renames.endMarker.symm
  augmentedStart := (Equiv.symm_apply_eq _).mpr renames.augmentedStart.symm

theorem symbolName? (symbol : Symbol) : h.symbolName? (r.symbol symbol) = g.symbolName? symbol := by
  cases symbol with
  | terminal t => exact renames.terminalName? t
  | nonterminal n => exact renames.nonterminalName? n

theorem terminal_lt_iff {t : Nat} : r.terminals t < h.terminals.size ↔ t < g.terminals.size := by
  have outside : h.terminalName? (r.terminals t) = none ↔ g.terminalName? t = none := by
    rw [renames.terminalName?]
  simp only [Grammar.terminalName?, Array.getElem?_eq_none_iff] at outside
  omega

theorem nonterminal_lt_iff {n : Nat} :
    r.nonterminals n < h.nonterminals.size ↔ n < g.nonterminals.size := by
  have outside : h.nonterminalName? (r.nonterminals n) = none ↔ g.nonterminalName? n = none := by
    rw [renames.nonterminalName?]
  simp only [Grammar.nonterminalName?, Array.getElem?_eq_none_iff] at outside
  omega

theorem declared {symbol : Symbol}
    (declared : symbol.Declared g.terminals.size g.nonterminals.size) :
    (r.symbol symbol).Declared h.terminals.size h.nonterminals.size := by
  cases symbol with
  | terminal t =>
    refine ⟨Nat.pos_of_ne_zero fun zero => ?_, renames.terminal_lt_iff.mpr declared.2⟩
    have same : t = CanonicalLR.endMarker :=
      r.terminals.injective (zero.trans renames.endMarker.symm)
    exact absurd (same ▸ declared.1) (Nat.lt_irrefl _)
  | nonterminal n =>
    refine ⟨Nat.pos_of_ne_zero fun zero => ?_, renames.nonterminal_lt_iff.mpr declared.2⟩
    have same : n = CanonicalLR.augmentedStart :=
      r.nonterminals.injective (zero.trans renames.augmentedStart.symm)
    exact absurd (same ▸ declared.1) (Nat.lt_irrefl _)

end RenamesSymbols

/-- A renaming leads from the ids of one grammar to those of the other. -/
structure Renames (r : Renaming) (g h : Grammar) : Prop extends RenamesSymbols r g h where
  production? : ∀ p, h.production? (r.productions p) = (g.production? p).map r.production
  augmentedProduction : r.productions augmentedProduction = augmentedProduction
  start : h.start = r.nonterminals g.start

namespace Renames

variable {r : Renaming} {g h : Grammar} (renames : Renames r g h)
include renames

theorem inverse : Renames r.inverse h g where
  toRenamesSymbols := renames.toRenamesSymbols.inverse
  production? p := by
    have found := renames.production? (r.productions.symm p)
    rw [Equiv.apply_symm_apply] at found
    rw [found, Option.map_map, Function.comp_def]
    simp only [Renaming.inverse_production, Option.map_id']
    rfl
  augmentedProduction := (Equiv.symm_apply_eq _).mpr renames.augmentedProduction.symm
  start := ((Equiv.symm_apply_eq _).mpr renames.start).symm

theorem carries : Carries r g h where
  production?_of found := by rw [renames.production?, found, Option.map_some]

theorem item_start : r.item .start = .start := by
  simp [Renaming.item, Item.start, renames.endMarker, renames.augmentedProduction]

theorem item_accept : r.item .accept = .accept := by
  simp [Renaming.item, Item.accept, renames.endMarker, renames.augmentedProduction]

theorem augmentedProduction_iff {p : Nat} :
    r.productions p = CanonicalLR.augmentedProduction ↔ p = CanonicalLR.augmentedProduction := by
  constructor
  · exact fun same => r.productions.injective (same.trans renames.augmentedProduction.symm)
  · rintro rfl
    exact renames.augmentedProduction

/-! ## Items -/

theorem next? (item : Item) : (r.item item).next? h = (item.next? g).map r.symbol := by
  cases found : g.production? item.production with
  | none => simp [Item.next?, Renaming.item, renames.production?, found]
  | some production => exact renames.carries.next? found

theorem next?_eq_some_iff {item : Item} {symbol : Symbol} :
    (r.item item).next? h = some (r.symbol symbol) ↔ item.next? g = some symbol :=
  Renaming.next?_eq_some_iff (renames.next? item)

theorem next?_eq_none_iff {item : Item} : (r.item item).next? h = none ↔ item.next? g = none := by
  rw [renames.next?, Option.map_eq_none_iff]

/-- What holds of the symbols after a dot is carried along. -/
theorem mem_symbolsAfterDot_iff {set : ItemSet} {symbol : Symbol} :
    r.symbol symbol ∈ (r.itemSet set).symbolsAfterDot h ↔ symbol ∈ set.symbolsAfterDot g := by
  rw [ItemSet.mem_symbolsAfterDot, ItemSet.mem_symbolsAfterDot]
  constructor
  · rintro ⟨item, member, next⟩
    obtain ⟨source, inside, rfl⟩ := r.mem_itemSet.mp member
    exact ⟨source, inside, renames.next?_eq_some_iff.mp next⟩
  · rintro ⟨item, member, next⟩
    exact ⟨r.item item, r.item_mem_itemSet.mpr member, renames.next?_eq_some_iff.mpr next⟩

theorem gotoKernel (set : ItemSet) (symbol : Symbol) :
    (r.itemSet set).gotoKernel h (r.symbol symbol) = r.itemSet (set.gotoKernel g symbol) :=
  Renaming.gotoKernel_itemSet (fun item _ => renames.next? item) symbol

end Renames

end CanonicalLR
