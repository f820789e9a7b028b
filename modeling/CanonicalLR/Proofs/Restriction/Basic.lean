import CanonicalLR.Proofs.Renaming.Sets

/-!
# Parts of grammars

A part of a grammar has some of its nonterminals with all of their productions,
in the same order under ids of its own, and the same terminals. What its symbols
derive in the whole grammar they derive in the part.
-/

namespace CanonicalLR

theorem Renaming.exists_nonterminal (r : Renaming) {symbol : Symbol} {n : Nat}
    (same : r.symbol symbol = .nonterminal n) :
    ∃ m, symbol = .nonterminal m ∧ r.nonterminals m = n := by
  cases symbol with
  | terminal t => cases same
  | nonterminal m => exact ⟨m, rfl, Symbol.nonterminal.inj same⟩

/-- A renaming leads from the ids of a part to those of the whole, in order. -/
structure Embeds (r : Renaming) (part whole : Grammar) : Prop extends Carries r part whole where
  terminals : part.terminals = whole.terminals
  unchanged : r.terminals = .refl Nat
  nonterminalName? : ∀ n < part.nonterminals.size,
    whole.nonterminalName? (r.nonterminals n) = part.nonterminalName? n
  augmentedStart : r.nonterminals augmentedStart = augmentedStart
  augmentedProduction : r.productions augmentedProduction = augmentedProduction
  start : whole.start = r.nonterminals part.start
  closed : ∀ {n p : Nat} {production : Production}, n < part.nonterminals.size →
    whole.production? p = some production → production.left = r.nonterminals n →
      ∃ q < part.productions.size, r.productions q = p
  ascending : ∀ {n m : Nat}, n < m → m < part.nonterminals.size →
    r.nonterminals n < r.nonterminals m
  productionsAscending : ∀ {p q : Nat}, p < q → q < part.productions.size →
    r.productions p < r.productions q

namespace Embeds

variable {r : Renaming} {part whole : Grammar} (embeds : Embeds r part whole)
include embeds

@[simp] theorem terminal_eq (t : Nat) : r.terminals t = t := by
  rw [embeds.unchanged, Equiv.refl_apply]

/-- The productions of a nonterminal of the part are those of the part. -/
theorem exists_production {n p : Nat} {production : Production}
    (inside : n < part.nonterminals.size) (found : whole.production? p = some production)
    (same : production.left = r.nonterminals n) : ∃ q source,
      part.production? q = some source ∧ r.productions q = p ∧
        r.production source = production ∧ source.left = n := by
  obtain ⟨q, listed, rfl⟩ := embeds.closed inside found same
  have here : part.production? q = some part.productions[q] := Array.getElem?_eq_getElem listed
  have carried := embeds.production?_of here
  obtain rfl := Option.some.inj (carried.symm.trans found)
  exact ⟨q, _, here, rfl, rfl, r.nonterminals.injective same⟩

theorem eq_terminal {symbol : Symbol} {t : Nat} (same : r.symbol symbol = .terminal t) :
    symbol = .terminal t := by
  cases symbol with
  | terminal u => rwa [Renaming.symbol, embeds.terminal_eq] at same
  | nonterminal m => cases same

/-! ## Derivations from symbols of the part -/

section

variable (wellFormed : part.WellFormed)
include wellFormed

theorem of_rewrites {symbols later : List Symbol}
    (all : ∀ symbol ∈ symbols, symbol.Declared part.terminals.size part.nonterminals.size)
    (step : whole.Rewrites (symbols.map r.symbol) later) : ∃ source,
      later = source.map r.symbol ∧ part.Rewrites symbols source ∧
        ∀ symbol ∈ source, symbol.Declared part.terminals.size part.nonterminals.size := by
  generalize there : symbols.map r.symbol = form at step
  obtain ⟨found, before, after⟩ := step
  obtain ⟨front, back, rfl, rfl, behind⟩ := List.map_eq_append_iff.mp there
  obtain ⟨symbol, rest, rfl, same, rfl⟩ := List.map_eq_cons_iff.mp behind
  obtain ⟨n, rfl, left⟩ := r.exists_nonterminal same
  have inside := (all (.nonterminal n) (List.mem_append_right _ List.mem_cons_self)).2
  obtain ⟨q, source, here, -, rfl, rfl⟩ := embeds.exists_production inside found left.symm
  refine ⟨front ++ source.right ++ rest, by simp [Renaming.production],
    .replace here front rest, ?_⟩
  intro symbol member
  rcases List.mem_append.mp member with first | last
  · rcases List.mem_append.mp first with first | middle
    · exact all symbol (List.mem_append_left _ first)
    · exact wellFormed.declared_of_mem here middle
  · exact all symbol (List.mem_append_right _ (List.mem_cons_of_mem _ last))

theorem of_derives {symbols later : List Symbol}
    (all : ∀ symbol ∈ symbols, symbol.Declared part.terminals.size part.nonterminals.size)
    (derived : whole.Derives (symbols.map r.symbol) later) : ∃ source,
      later = source.map r.symbol ∧ part.Derives symbols source ∧
        ∀ symbol ∈ source, symbol.Declared part.terminals.size part.nonterminals.size := by
  induction derived with
  | refl => exact ⟨symbols, rfl, Grammar.derives_refl _, all⟩
  | tail _ step ih =>
    obtain ⟨source, rfl, reached, declared⟩ := ih
    obtain ⟨next, rfl, rewritten, still⟩ := embeds.of_rewrites wellFormed declared step
    exact ⟨next, rfl, reached.tail rewritten, still⟩

theorem erases_iff {symbols : List Symbol}
    (all : ∀ symbol ∈ symbols, symbol.Declared part.terminals.size part.nonterminals.size) :
    whole.Erases (symbols.map r.symbol) ↔ part.Erases symbols := by
  constructor
  · intro erased
    obtain ⟨source, bare, derived, -⟩ :=
      embeds.of_derives wellFormed all (Grammar.erases_iff_derives.mp erased)
    rw [eq_comm, List.map_eq_nil_iff] at bare
    exact Grammar.erases_iff_derives.mpr (bare ▸ derived)
  · exact embeds.erases

theorem begins_iff {symbols : List Symbol} {t : Nat}
    (all : ∀ symbol ∈ symbols, symbol.Declared part.terminals.size part.nonterminals.size) :
    whole.Begins (symbols.map r.symbol) t ↔ part.Begins symbols t := by
  constructor
  · intro begun
    generalize there : symbols.map r.symbol = form at begun
    induction begun generalizing symbols with
    | terminal t rest =>
      obtain ⟨symbol, tail, rfl, same, -⟩ := List.map_eq_cons_iff.mp there
      rw [embeds.eq_terminal same]
      exact .terminal t tail
    | skip vanishing _ ih =>
      obtain ⟨symbol, tail, rfl, same, rfl⟩ := List.map_eq_cons_iff.mp there
      obtain ⟨here, later⟩ := List.forall_mem_cons.mp all
      obtain ⟨n, rfl, -⟩ := r.exists_nonterminal same
      rw [← same, ← List.map_singleton] at vanishing
      have erased := embeds.erases_iff wellFormed (List.forall_mem_singleton.mpr here)
      exact .skip (erased.mp vanishing) (ih later rfl)
    | enter found _ rest ih =>
      obtain ⟨symbol, tail, rfl, same, -⟩ := List.map_eq_cons_iff.mp there
      obtain ⟨n, rfl, left⟩ := r.exists_nonterminal same
      have inside := (all (.nonterminal n) List.mem_cons_self).2
      obtain ⟨q, source, here, -, rfl, rfl⟩ := embeds.exists_production inside found left.symm
      exact .enter here (ih (fun symbol => wellFormed.declared_of_mem here) rfl) tail
  · intro begun
    have carried := embeds.begins begun
    rwa [embeds.terminal_eq] at carried

theorem mem_firstBefore_iff (wholeFormed : whole.WellFormed) {symbols : List Symbol}
    {lookahead t : Nat}
    (all : ∀ symbol ∈ symbols, symbol.Declared part.terminals.size part.nonterminals.size) :
    t ∈ whole.firstSets.firstBefore (symbols.map r.symbol) lookahead ↔
      t ∈ part.firstSets.firstBefore symbols lookahead := by
  rw [Grammar.mem_firstBefore_iff wholeFormed, Grammar.mem_firstBefore_iff wellFormed,
    embeds.begins_iff wellFormed all, embeds.erases_iff wellFormed all]

end

end Embeds

end CanonicalLR
