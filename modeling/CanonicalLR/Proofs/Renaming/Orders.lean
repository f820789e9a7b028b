import CanonicalLR.Proofs.Grammar.Names
import CanonicalLR.Proofs.Renaming.Basic

/-!
# Declaration orders

Two grammars may declare the same names and the same productions in different
orders. As names tell symbols apart, there is a renaming from the ids of the one
to those of the other.
-/

namespace CanonicalLR

namespace Grammar

/-- A production by the names of its symbols. -/
def spelling (g : Grammar) (production : Production) : Option String × List (Option String) :=
  (g.nonterminalName? production.left, production.right.map g.symbolName?)

/-- The declarations of the author differ in nothing but their order, and the start symbol is the
same. -/
structure Reorders (g h : Grammar) : Prop where
  terminals : g.terminals.toList.tail.Perm h.terminals.toList.tail
  nonterminals : g.nonterminals.toList.tail.Perm h.nonterminals.toList.tail
  productions : (g.productions.toList.tail.map g.spelling).Perm
    (h.productions.toList.tail.map h.spelling)
  start : g.nonterminalName? g.start = h.nonterminalName? h.start

end Grammar

/-- Arrays with a common first entry and permuted entries behind it. -/
theorem exists_places_of_arrays {α : Type} {first second : Array α} {head : α}
    (left : first[0]? = some head) (right : second[0]? = some head)
    (perm : first.toList.tail.Perm second.toList.tail) :
    ∃ places : Equiv.Perm Nat, places 0 = 0 ∧ ∀ place, second[places place]? = first[place]? := by
  have split {values : Array α} (found : values[0]? = some head) :
      head :: values.toList.tail = values.toList := by
    rw [← Array.getElem?_toList, ← List.head?_eq_getElem?] at found
    exact List.cons_head?_tail found
  obtain ⟨places, zero, same⟩ := exists_places_behind perm head
  refine ⟨places, zero, fun place => ?_⟩
  rw [← Array.getElem?_toList, ← Array.getElem?_toList, ← split left, ← split right]
  exact same place

section

variable {g h : Grammar}

theorem RenamesSymbols.eq_symbol {r : Renaming} (renames : RenamesSymbols r g h) (named : h.Named)
    {first second : Symbol} (left : first.Declared h.terminals.size h.nonterminals.size)
    (right : second.Declared g.terminals.size g.nonterminals.size)
    (same : h.symbolName? first = g.symbolName? second) : first = r.symbol second :=
  named.eq_of_symbolName? left (renames.declared right) (same.trans (renames.symbolName? _).symm)

/-- Productions that are spelled alike correspond. -/
theorem RenamesSymbols.eq_production {r : Renaming} (renames : RenamesSymbols r g h)
    (named : h.Named) {first second : Production}
    (left : first.Declared h.terminals.size h.nonterminals.size)
    (right : second.Declared g.terminals.size g.nonterminals.size)
    (same : h.spelling first = g.spelling second) : first = r.production second := by
  obtain ⟨lefts, rights⟩ := Prod.mk.inj same
  have sides : Symbol.nonterminal first.left = r.symbol (.nonterminal second.left) :=
    renames.eq_symbol named left.left right.left lefts
  have symbols : first.right = second.right.map r.symbol :=
    eq_of_map_eq (fun x leftMember y rightMember => renames.eq_symbol named
      (left.right x leftMember) (right.right y rightMember)) rights
  cases first
  simp only [Renaming.production, Production.mk.injEq]
  exact ⟨Symbol.nonterminal.inj sides, symbols⟩

end

namespace Grammar.Reorders

variable {g h : Grammar} (reorders : g.Reorders h) (left : g.WellFormed) (right : h.WellFormed)
  (leftNamed : g.Named) (rightNamed : h.Named)
include reorders left leftNamed rightNamed

theorem exists_renamesSymbols : ∃ r : Renaming, RenamesSymbols r g h := by
  obtain ⟨terminals, marker, terminalNames⟩ :=
    exists_places_of_arrays leftNamed.endMarker rightNamed.endMarker reorders.terminals
  obtain ⟨name, starts⟩ : ∃ name, g.nonterminalName? augmentedStart = some name :=
    ⟨_, Array.getElem?_eq_getElem left.nonterminals⟩
  have others : h.nonterminalName? augmentedStart = some name := by
    rw [rightNamed.augmentedStart, ← reorders.start, ← leftNamed.augmentedStart, starts]
  obtain ⟨nonterminals, first, nonterminalNames⟩ :=
    exists_places_of_arrays starts others reorders.nonterminals
  exact ⟨⟨terminals, nonterminals, .refl Nat⟩, terminalNames, nonterminalNames, marker, first⟩

include right

theorem exists_productions : ∃ productions : Equiv.Perm Nat,
    productions augmentedProduction = augmentedProduction ∧
      ∀ p, (h.production? (productions p)).map h.spelling =
        (g.production? p).map g.spelling := by
  have same : h.spelling ⟨augmentedStart, [.nonterminal h.start]⟩ =
      g.spelling ⟨augmentedStart, [.nonterminal g.start]⟩ := by
    simp only [spelling, List.map_singleton, symbolName?, rightNamed.augmentedStart,
      leftNamed.augmentedStart, reorders.start]
  have first : (g.productions.map g.spelling)[0]? =
      some (g.spelling ⟨augmentedStart, [.nonterminal g.start]⟩) := by
    rw [Array.getElem?_map]
    exact congrArg (Option.map g.spelling) left.augmented
  have second : (h.productions.map h.spelling)[0]? =
      some (g.spelling ⟨augmentedStart, [.nonterminal g.start]⟩) := by
    rw [Array.getElem?_map, ← same]
    exact congrArg (Option.map h.spelling) right.augmented
  have perm : (g.productions.map g.spelling).toList.tail.Perm
      (h.productions.map h.spelling).toList.tail := by
    rw [Array.toList_map, Array.toList_map, ← List.map_tail, ← List.map_tail]
    exact reorders.productions
  obtain ⟨productions, zero, spelled⟩ := exists_places_of_arrays first second perm
  refine ⟨productions, zero, fun p => ?_⟩
  have there := spelled p
  rwa [Array.getElem?_map, Array.getElem?_map] at there

/-- Reordered declarations are renamed declarations. -/
theorem exists_renames : ∃ r : Renaming, Renames r g h := by
  obtain ⟨r, symbols⟩ := reorders.exists_renamesSymbols left leftNamed rightNamed
  obtain ⟨productions, zero, spelled⟩ :=
    reorders.exists_productions left right leftNamed rightNamed
  have start : h.start = r.nonterminals g.start :=
    Symbol.nonterminal.inj
      (symbols.eq_symbol rightNamed right.start left.start reorders.start.symm)
  refine ⟨{ r with productions := productions }, ?_, ?_, zero, start⟩
  · exact ⟨symbols.terminalName?, symbols.nonterminalName?, symbols.endMarker,
      symbols.augmentedStart⟩
  · intro p
    by_cases augmented : p = augmentedProduction
    · rw [augmented, zero, right.augmented, left.augmented, start, Option.map_some]
      simp [Renaming.production, Renaming.symbol, symbols.augmentedStart]
    · have user : productions p ≠ augmentedProduction :=
        fun same => augmented (productions.injective (same.trans zero.symm))
      have alike := spelled p
      cases found : g.production? p with
      | none => rwa [found, Option.map_none, Option.map_eq_none_iff] at alike
      | some production =>
        rw [found] at alike
        obtain ⟨other, there, same⟩ := Option.map_eq_some_iff.mp alike
        rw [there, symbols.eq_production rightNamed (right.declared there user)
          (left.declared found augmented) same]
        rfl

end Grammar.Reorders

end CanonicalLR
