import CanonicalLR.Proofs.Sets.Nullable
import CanonicalLR.Sets.First

/-!
# FIRST sets hold the terminals that derived strings begin with

The seeds and flows follow the symbols that may lead a right-hand side, and so
do the derivations.
-/

namespace CanonicalLR

namespace Grammar

variable {g : Grammar}

theorem mem_firstFlows {flow : Flow} {nullable : IdSet} :
    flow ∈ g.firstFlows nullable ↔ ∃ p production n, g.production? p = some production ∧
      .nonterminal n ∈ leading nullable production.right ∧ flow = .copy n production.left := by
  simp only [firstFlows, List.mem_flatMap, List.mem_map, List.mem_filterMap,
    Symbol.nonterminal?_eq_some]
  constructor
  · rintro ⟨production, listed, n, ⟨symbol, leads, rfl⟩, rfl⟩
    obtain ⟨p, found⟩ := mem_productions_iff.mp listed
    exact ⟨p, production, n, found, leads, rfl⟩
  · rintro ⟨p, production, n, found, leads, rfl⟩
    exact ⟨production, mem_productions_iff.mpr ⟨p, found⟩, n, ⟨_, leads, rfl⟩, rfl⟩

section

variable (wellFormed : g.WellFormed)
include wellFormed

theorem Begins.declared {symbols : List Symbol} {t : Nat} (begins : g.Begins symbols t)
    (declared : ∀ symbol ∈ symbols, symbol.Declared g.terminals.size g.nonterminals.size) :
    endMarker < t ∧ t < g.terminals.size := by
  induction begins with
  | terminal t rest => exact declared _ List.mem_cons_self
  | skip _ _ ih => exact ih fun symbol later => declared symbol (List.mem_cons_of_mem _ later)
  | enter found _ _ ih => exact ih fun _ member => wellFormed.declared_of_mem found member

omit wellFormed in
theorem size_firstSeeds (nullable : IdSet) :
    (g.firstSeeds nullable).size = g.nonterminals.size := by
  unfold firstSeeds
  rw [IdSets.size_foldl (fun _ _ => IdSets.size_add ..), Array.size_replicate]

theorem mem_firstSeeds {n t : Nat} :
    t ∈ (g.firstSeeds g.nullable).setAt n ↔ ∃ p production, g.production? p = some production ∧
      production.left = n ∧ .terminal t ∈ leading g.nullable production.right := by
  let starters (production : Production) : IdSet :=
    IdSet.ofList ((leading g.nullable production.right).filterMap Symbol.terminal?)
  let brings (production : Production) (node id : Nat) : Prop :=
    node = production.left ∧ .terminal id ∈ leading g.nullable production.right
  have members : ∀ (sets : IdSets) production node id,
      id ∈ (sets.add production.left (starters production)).setAt node ↔
        id ∈ sets.setAt node ∨ node < sets.size ∧ brings production node id := by
    intro sets production node id
    rw [IdSets.mem_setAt_add]
    simp only [starters, brings, IdSet.mem_ofList, List.mem_filterMap, Symbol.terminal?_eq_some]
    constructor
    · rintro (old | ⟨rfl, inside, symbol, leads, rfl⟩)
      · exact .inl old
      · exact .inr ⟨inside, rfl, leads⟩
    · rintro (old | ⟨inside, rfl, leads⟩)
      · exact .inl old
      · exact .inr ⟨rfl, inside, _, leads, rfl⟩
  unfold firstSeeds
  rw [IdSets.mem_foldl (fun _ _ => IdSets.size_add ..) members, IdSets.setAt_replicate,
    Array.size_replicate]
  constructor
  · rintro (none | ⟨-, production, listed, same, leads⟩)
    · exact absurd none (IdSet.not_mem_empty t)
    · obtain ⟨p, found⟩ := mem_productions_iff.mp listed
      exact ⟨p, production, found, same.symm, leads⟩
  · rintro ⟨p, production, found, rfl, leads⟩
    exact .inr ⟨wellFormed.left_lt found, production, mem_productions_iff.mpr ⟨p, found⟩, rfl,
      leads⟩

/-- Every string that begins with a terminal is led by it or by a nonterminal it is carried to. -/
theorem Begins.carried {symbols : List Symbol} {t : Nat} (begins : g.Begins symbols t) :
    ∃ symbol ∈ leading g.nullable symbols, symbol = .terminal t ∨
      ∃ n, symbol = .nonterminal n ∧
        Carried (g.firstFlows g.nullable) (g.firstSeeds g.nullable) n t := by
  induction begins with
  | terminal t rest =>
    exact ⟨.terminal t, mem_leading_iff.mpr ⟨[], rest, rfl, rfl⟩, .inl rfl⟩
  | @skip n t rest vanishing _ ih =>
    obtain ⟨symbol, leads, brought⟩ := ih
    refine ⟨symbol, ?_, brought⟩
    have inside : Symbol.isNullable g.nullable (.nonterminal n) = true := by
      simpa [Symbol.isNullable] using (mem_nullable wellFormed).mpr vanishing
    rw [leading, if_pos inside]
    exact List.mem_cons_of_mem _ leads
  | @enter p t production found _ rest ih =>
    obtain ⟨symbol, leads, brought⟩ := ih
    refine ⟨.nonterminal production.left, mem_leading_iff.mpr ⟨[], rest, rfl, rfl⟩,
      .inr ⟨production.left, rfl, ?_⟩⟩
    rcases brought with rfl | ⟨n, rfl, carried⟩
    · exact .seed ((mem_firstSeeds wellFormed).mpr ⟨p, production, found, rfl, leads⟩)
    · exact .relay (mem_firstFlows.mpr ⟨p, production, n, found, leads, rfl⟩) rfl carried

theorem Begins.of_leading {symbols : List Symbol} {symbol : Symbol} {t : Nat}
    (leads : symbol ∈ leading g.nullable symbols) (begins : g.Begins [symbol] t) :
    g.Begins symbols t := by
  obtain ⟨before, after, rfl, vanishing⟩ := mem_leading_iff.mp leads
  exact begins_split ((vanishes_nullable_iff wellFormed).mp vanishing) begins

theorem Begins.of_carried {n t : Nat}
    (carried : Carried (g.firstFlows g.nullable) (g.firstSeeds g.nullable) n t) :
    g.Begins [.nonterminal n] t := by
  induction carried with
  | seed planted =>
    obtain ⟨p, production, found, rfl, leads⟩ := (mem_firstSeeds wellFormed).mp planted
    exact .enter found (.of_leading wellFormed leads (.terminal _ [])) []
  | gain listed _ gained _ =>
    obtain ⟨p, production, n, -, -, rfl⟩ := mem_firstFlows.mp listed
    exact absurd gained (IdSet.not_mem_empty _)
  | relay listed _ _ ih =>
    obtain ⟨p, production, n, found, leads, rfl⟩ := mem_firstFlows.mp listed
    exact .enter found (.of_leading wellFormed leads ih) []

theorem below_firstSeeds : IdSets.Below g.terminals.size (g.firstSeeds g.nullable) := by
  intro n t planted
  obtain ⟨p, production, found, rfl, leads⟩ := (mem_firstSeeds wellFormed).mp planted
  obtain ⟨before, after, split, -⟩ := mem_leading_iff.mp leads
  have member : Symbol.terminal t ∈ production.right := by simp [split]
  exact (wellFormed.declared_of_mem found member).2

omit wellFormed in
theorem lt_of_mem_gain_firstFlows {width : Nat} : ∀ flow ∈ g.firstFlows g.nullable,
    ∀ id, id ∈ flow.gain → id < width := by
  intro flow listed id gained
  obtain ⟨p, production, n, -, -, rfl⟩ := mem_firstFlows.mp listed
  exact absurd gained (IdSet.not_mem_empty id)

theorem lt_of_mem_first {n t : Nat} (member : t ∈ g.firstSets.first n) : t < g.terminals.size :=
  IdSets.below_saturate (below_firstSeeds wellFormed) lt_of_mem_gain_firstFlows n t member

theorem mem_first {n t : Nat} : t ∈ g.firstSets.first n ↔ g.Begins [.nonterminal n] t := by
  have targets : ∀ flow ∈ g.firstFlows g.nullable,
      flow.target < (g.firstSeeds g.nullable).size := by
    intro flow listed
    obtain ⟨p, production, n, found, -, rfl⟩ := mem_firstFlows.mp listed
    rw [size_firstSeeds]
    exact wellFormed.left_lt found
  have saturated : t ∈ g.firstSets.first n ↔
      Carried (g.firstFlows g.nullable) (g.firstSeeds g.nullable) n t :=
    IdSets.mem_saturate (below_firstSeeds wellFormed) lt_of_mem_gain_firstFlows targets
  rw [saturated]
  constructor
  · exact Begins.of_carried wellFormed
  · intro begins
    obtain ⟨symbol, leads, brought⟩ := begins.carried wellFormed
    have same : symbol = .nonterminal n := by
      have among := leads
      rw [leading] at among
      split at among <;> simpa [leading] using among
    rcases brought with rfl | ⟨m, rfl, carried⟩
    · cases same
    · exact Symbol.nonterminal.inj same ▸ carried

/-- The terminals that may begin what a symbol string derives. -/
theorem mem_firstOf_iff {symbols : List Symbol} {t : Nat} :
    t ∈ g.firstSets.firstOf symbols ↔ g.Begins symbols t := by
  have mem_firstSymbol {symbol : Symbol} :
      t ∈ g.firstSets.firstSymbol symbol ↔ g.Begins [symbol] t := by
    cases symbol with
    | terminal other =>
      constructor
      · intro member
        obtain rfl : t = other := by simpa [FirstSets.firstSymbol] using member
        exact .terminal t []
      · intro begins
        cases begins
        simp [FirstSets.firstSymbol]
    | nonterminal n => exact mem_first wellFormed
  rw [FirstSets.mem_firstOf]
  constructor
  · rintro ⟨symbol, leads, member⟩
    exact .of_leading wellFormed leads (mem_firstSymbol.mp member)
  · intro begins
    obtain ⟨symbol, leads, brought⟩ := begins.carried wellFormed
    refine ⟨symbol, leads, mem_firstSymbol.mpr ?_⟩
    rcases brought with rfl | ⟨n, rfl, carried⟩
    · exact .terminal t []
    · exact .of_carried wellFormed carried

theorem mem_firstBefore_iff {symbols : List Symbol} {lookahead t : Nat} :
    t ∈ g.firstSets.firstBefore symbols lookahead ↔
      g.Begins symbols t ∨ g.Erases symbols ∧ t = lookahead := by
  rw [FirstSets.mem_firstBefore, mem_firstOf_iff wellFormed]
  have vanishing : g.firstSets.vanishes symbols = true ↔ g.Erases symbols :=
    vanishes_nullable_iff wellFormed
  rw [vanishing]

theorem mem_firstBefore_nil (t : Nat) : t ∈ g.firstSets.firstBefore [] t :=
  (mem_firstBefore_iff wellFormed).mpr (.inr ⟨erases_nil, rfl⟩)

theorem mem_firstBefore_of_derives {first second : List Symbol} {lookahead t : Nat}
    (derived : g.Derives first second) (ahead : t ∈ g.firstSets.firstBefore second lookahead) :
    t ∈ g.firstSets.firstBefore first lookahead := by
  rw [mem_firstBefore_iff wellFormed, begins_iff_derives, erases_iff_derives] at ahead ⊢
  rcases ahead with ⟨rest, begins⟩ | ⟨erases, same⟩
  · exact .inl ⟨rest, derived.trans begins⟩
  · exact .inr ⟨derived.trans erases, same⟩

/-- A word after a string matters only by its first terminal. -/
theorem mem_firstBefore_append_spelled {symbols : List Symbol} {word : List Nat}
    {lookahead t : Nat} :
    t ∈ g.firstSets.firstBefore (symbols ++ spelled word) lookahead ↔
      t ∈ g.firstSets.firstBefore symbols (word.headD lookahead) := by
  cases word with
  | nil => rw [spelled_nil, List.append_nil, List.headD_nil]
  | cons head tail =>
    have begins : g.Begins (.terminal head :: spelled tail) t ↔ t = head := by
      constructor
      · intro begins
        cases begins
        rfl
      · rintro rfl
        exact .terminal t _
    have stays : ¬ g.Erases (.terminal head :: spelled tail) :=
      fun erased => not_erases_terminal head (erases_cons.mp erased).1
    simp only [mem_firstBefore_iff wellFormed, spelled_cons, List.headD_cons, begins_append,
      erases_append, begins, stays, and_false, false_and, or_false]

end

end Grammar

end CanonicalLR
