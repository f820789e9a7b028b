import CanonicalLR.Grammar.Definition

/-!
# Well-formed grammars

What the checks of a definition come to: every grammar that a sequence of calls
ends in is augmented, and its productions speak of declared symbols only.
-/

namespace CanonicalLR

namespace Symbol

/-- A symbol that an author may use, where so many terminals and nonterminals are listed. -/
def Declared (terminals nonterminals : Nat) : Symbol → Prop
  | .terminal t => endMarker < t ∧ t < terminals
  | .nonterminal n => augmentedStart < n ∧ n < nonterminals

theorem Declared.mono {terminals nonterminals moreTerminals moreNonterminals : Nat}
    {symbol : Symbol} (declared : symbol.Declared terminals nonterminals)
    (fewer : terminals ≤ moreTerminals) (less : nonterminals ≤ moreNonterminals) :
    symbol.Declared moreTerminals moreNonterminals := by
  cases symbol with
  | terminal t => exact ⟨declared.1, Nat.lt_of_lt_of_le declared.2 fewer⟩
  | nonterminal n => exact ⟨declared.1, Nat.lt_of_lt_of_le declared.2 less⟩

end Symbol

namespace Production

/-- A production over declared symbols, no longer than the limit. -/
structure Declared (terminals nonterminals : Nat) (production : Production) : Prop where
  left : (Symbol.nonterminal production.left).Declared terminals nonterminals
  right : ∀ symbol ∈ production.right, symbol.Declared terminals nonterminals
  length : production.right.length ≤ Definition.lengthLimit

theorem Declared.mono {terminals nonterminals moreTerminals moreNonterminals : Nat}
    {production : Production} (declared : production.Declared terminals nonterminals)
    (fewer : terminals ≤ moreTerminals) (less : nonterminals ≤ moreNonterminals) :
    production.Declared moreTerminals moreNonterminals :=
  ⟨declared.left.mono fewer less,
    fun symbol member => (declared.right symbol member).mono fewer less, declared.length⟩

end Production

namespace Definition

/-! ## Checks -/

theorem bind_eq_ok {ε α : Type} {first : Except ε Unit} {second : Except ε α} {value : α} :
    (do first; second) = .ok value ↔ first = .ok () ∧ second = .ok value := by
  cases first with
  | error cause => simp [bind, Except.bind]
  | ok nothing => simp [bind, Except.bind]

theorem forM_eq_ok {ε α : Type} {check : α → Except ε Unit} {values : List α} :
    values.forM check = .ok () ↔ ∀ value ∈ values, check value = .ok () := by
  induction values with
  | nil => simp [pure, Except.pure]
  | cons head tail ih =>
    have unfolded : (head :: tail).forM check = (do check head; tail.forM check) := rfl
    rw [unfolded, bind_eq_ok, ih, List.forall_mem_cons]

theorem checkRoom_eq_ok {declared : Nat} : checkRoom declared = .ok () ↔ declared < idLimit := by
  unfold checkRoom
  split <;> simp_all

/-- A symbol passes its check exactly if it has been declared before. -/
theorem checkSymbol_eq_ok {d : Definition} {symbol : Symbol} :
    d.checkSymbol symbol = .ok () ↔
      symbol.Declared (d.terminals.size + 1) (d.nonterminals.size + 1) := by
  cases symbol with
  | terminal t =>
    simp only [checkSymbol, checkTerminal, Symbol.Declared]
    by_cases reserved : t = endMarker
    · simp [reserved]
    · have positive : endMarker < t := Nat.pos_of_ne_zero reserved
      by_cases listed : t ≤ d.terminals.size
      · simp [reserved, listed, positive, Nat.lt_succ_of_le listed]
      · simp only [reserved, listed, if_false, reduceCtorEq, false_iff, not_and]
        omega
  | nonterminal n =>
    simp only [checkSymbol, checkNonterminal, Symbol.Declared]
    by_cases reserved : n = augmentedStart
    · simp [reserved]
    · have positive : augmentedStart < n := Nat.pos_of_ne_zero reserved
      by_cases listed : n ≤ d.nonterminals.size
      · simp [reserved, listed, positive, Nat.lt_succ_of_le listed]
      · simp only [reserved, listed, if_false, reduceCtorEq, false_iff, not_and]
        omega

theorem check_start_eq_ok {d : Definition} {symbol : Nat} :
    d.check (.start symbol) = .ok () ↔
      (Symbol.nonterminal symbol).Declared (d.terminals.size + 1) (d.nonterminals.size + 1) := by
  rw [← checkSymbol_eq_ok]
  rfl

theorem check_production_eq_ok {d : Definition} {left : Nat} {right : List Symbol} :
    d.check (.production left right) = .ok () ↔
      (Production.mk left right).Declared (d.terminals.size + 1) (d.nonterminals.size + 1) ∧
        d.productions.size < idLimit := by
  have short : checkLength right = .ok () ↔ right.length ≤ lengthLimit := by
    unfold checkLength
    split <;> simp_all
  have nonterminal : d.checkNonterminal left = d.checkSymbol (.nonterminal left) := rfl
  simp only [check, bind_eq_ok, forM_eq_ok, checkRoom_eq_ok, short, nonterminal, checkSymbol_eq_ok]
  constructor
  · rintro ⟨leftDeclared, short, rightDeclared, room⟩
    exact ⟨⟨leftDeclared, rightDeclared, short⟩, room⟩
  · rintro ⟨⟨leftDeclared, rightDeclared, short⟩, room⟩
    exact ⟨leftDeclared, short, rightDeclared, room⟩

theorem attempt_of_ok {d : Definition} {call : Call} (passed : d.check call = .ok ()) :
    d.attempt call = (d.record call).1 := by
  rw [attempt, passed]

theorem attempt_of_error {d : Definition} {call : Call} {cause : GrammarError}
    (refused : d.check call = .error cause) : d.attempt call = d := by
  rw [attempt, refused]

/-! ## What every definition keeps -/

/-- What holds of the empty definition and is kept by the calls that pass their check. -/
theorem ofCalls_induction {motive : Definition → Prop} (empty : motive {})
    (record : ∀ {d : Definition}, motive d → ∀ {call : Call}, d.check call = .ok () →
      motive (d.record call).1) (calls : List Call) : motive (ofCalls calls) := by
  have kept : ∀ d : Definition, motive d → motive (calls.foldl Definition.attempt d) := by
    induction calls with
    | nil => exact fun _ holds => holds
    | cons call rest ih =>
      intro d holds
      rw [List.foldl_cons]
      refine ih _ ?_
      unfold Definition.attempt
      split
      · rename_i passed
        exact record holds passed
      · exact holds
  exact kept {} empty

structure Sound (d : Definition) : Prop where
  start : ∀ symbol, d.start = some symbol →
    (Symbol.nonterminal symbol).Declared (d.terminals.size + 1) (d.nonterminals.size + 1)
  productions : ∀ production ∈ d.productions,
    production.Declared (d.terminals.size + 1) (d.nonterminals.size + 1)

theorem sound_empty : Sound {} where
  start _ chosen := nomatch chosen
  productions production member := absurd member (Array.not_mem_empty production)

theorem Sound.record {d : Definition} (sound : d.Sound) {call : Call}
    (passed : d.check call = .ok ()) : (d.record call).1.Sound := by
  cases call with
  | terminal name =>
    have more : d.terminals.size + 1 ≤ (d.terminals.push name).size + 1 := by simp
    exact ⟨fun symbol chosen => (sound.start symbol chosen).mono more (Nat.le_refl _),
      fun production member => (sound.productions production member).mono more (Nat.le_refl _)⟩
  | nonterminal name =>
    have more : d.nonterminals.size + 1 ≤ (d.nonterminals.push name).size + 1 := by simp
    exact ⟨fun symbol chosen => (sound.start symbol chosen).mono (Nat.le_refl _) more,
      fun production member => (sound.productions production member).mono (Nat.le_refl _) more⟩
  | production left right =>
    refine ⟨sound.start, ?_⟩
    intro production member
    rcases Array.mem_push.mp member with earlier | rfl
    · exact sound.productions production earlier
    · have declared := (check_production_eq_ok.mp passed).1
      exact declared
  | start symbol =>
    refine ⟨?_, sound.productions⟩
    intro chosen same
    obtain rfl := Option.some.inj same
    exact check_start_eq_ok.mp passed

theorem sound_ofCalls (calls : List Call) : (ofCalls calls).Sound :=
  ofCalls_induction sound_empty Sound.record calls

/-! ## The final check -/

theorem mem_defined {d : Definition} {n : Nat} :
    n ∈ d.defined ↔ ∃ production ∈ d.productions, production.left = n := by
  simp [defined]

theorem firstUndefined?_eq_none_iff {d : Definition} : d.firstUndefined? = none ↔
    ∀ production ∈ d.productions, ∀ n, .nonterminal n ∈ production.right → n ∈ d.defined := by
  simp only [firstUndefined?, List.findSome?_eq_none_iff, Option.map_eq_none_iff,
    Array.mem_toList_iff, Option.filter_eq_none_iff, Symbol.nonterminal?_eq_some]
  constructor
  · intro all production member n used
    simpa using all production member _ used n rfl
  · rintro all production member _ used n rfl
    simpa using all production member n used

theorem finish_eq_ok {d : Definition} {g : Grammar} (finished : d.finish = .ok g) :
    ∃ start, d.startSymbol? = some start ∧ start ∈ d.defined ∧ d.firstUndefined? = none ∧
      g = d.augment start := by
  unfold finish at finished
  split at finished
  · cases finished
  · rename_i start chosen
    split at finished
    · rename_i inside
      split at finished
      · cases finished
      · rename_i none
        exact ⟨start, chosen, inside, none, (Except.ok.inj finished).symm⟩
    · cases finished

end Definition

namespace Grammar

/-- A grammar whose ids all lead somewhere, and whose reserved symbols stand nowhere but in the
augmented production. -/
structure WellFormed (g : Grammar) : Prop where
  terminals : endMarker < g.terminals.size
  nonterminals : augmentedStart < g.nonterminals.size
  augmented : g.production? augmentedProduction = some ⟨augmentedStart, [.nonterminal g.start]⟩
  start : (Symbol.nonterminal g.start).Declared g.terminals.size g.nonterminals.size
  declared : ∀ {p : Nat} {production : Production}, g.production? p = some production →
    p ≠ augmentedProduction → production.Declared g.terminals.size g.nonterminals.size
  defined : ∀ {p n : Nat} {production : Production}, g.production? p = some production →
    .nonterminal n ∈ production.right → ∃ q, q ∈ g.productionsOf n

theorem mem_userTerminals {g : Grammar} {t : Nat} :
    t ∈ g.userTerminals ↔ endMarker < t ∧ t < g.terminals.size := by
  rw [userTerminals, terminalIds, List.range_eq_range', List.drop_range', List.mem_range'_1]
  simp only [endMarker]
  omega

theorem mem_userNonterminals {g : Grammar} {n : Nat} :
    n ∈ g.userNonterminals ↔ augmentedStart < n ∧ n < g.nonterminals.size := by
  rw [userNonterminals, nonterminalIds, List.range_eq_range', List.drop_range', List.mem_range'_1]
  simp only [augmentedStart]
  omega

theorem isSome_terminalName? {g : Grammar} {t : Nat} (inside : t < g.terminals.size) :
    (g.terminalName? t).isSome :=
  Option.isSome_iff_exists.mpr ⟨_, Array.getElem?_eq_getElem inside⟩

theorem isSome_nonterminalName? {g : Grammar} {n : Nat} (inside : n < g.nonterminals.size) :
    (g.nonterminalName? n).isSome :=
  Option.isSome_iff_exists.mpr ⟨_, Array.getElem?_eq_getElem inside⟩

theorem isSome_symbolName? {g : Grammar} {symbol : Symbol}
    (declared : symbol.Declared g.terminals.size g.nonterminals.size) :
    (g.symbolName? symbol).isSome := by
  cases symbol with
  | terminal t => exact isSome_terminalName? declared.2
  | nonterminal n => exact isSome_nonterminalName? declared.2

section

variable {g : Grammar} (wellFormed : g.WellFormed)
include wellFormed

theorem WellFormed.left_lt {p : Nat} {production : Production}
    (found : g.production? p = some production) : production.left < g.nonterminals.size := by
  by_cases augmented : p = augmentedProduction
  · rw [augmented, wellFormed.augmented] at found
    obtain rfl := Option.some.inj found
    exact wellFormed.nonterminals
  · exact (wellFormed.declared found augmented).left.2

/-- Only the augmented production has the augmented start symbol on its left. -/
theorem WellFormed.eq_augmented {p : Nat} {production : Production}
    (found : g.production? p = some production) (same : production.left = augmentedStart) :
    p = augmentedProduction := by
  by_cases augmented : p = augmentedProduction
  · exact augmented
  · exact absurd (wellFormed.declared found augmented).left.1 (same ▸ Nat.lt_irrefl _)

theorem WellFormed.length_le {p : Nat} {production : Production}
    (found : g.production? p = some production) :
    production.right.length ≤ Definition.lengthLimit := by
  by_cases augmented : p = augmentedProduction
  · rw [augmented, wellFormed.augmented] at found
    obtain rfl := Option.some.inj found
    exact Nat.le_add_left ..
  · exact (wellFormed.declared found augmented).length

theorem WellFormed.declared_of_mem {p : Nat} {production : Production}
    (found : g.production? p = some production) {symbol : Symbol}
    (member : symbol ∈ production.right) :
    symbol.Declared g.terminals.size g.nonterminals.size := by
  by_cases augmented : p = augmentedProduction
  · rw [augmented, wellFormed.augmented] at found
    obtain rfl := Option.some.inj found
    obtain rfl := List.mem_singleton.mp member
    exact wellFormed.start
  · exact (wellFormed.declared found augmented).right symbol member

/-- Every symbol of a right-hand side has a name. -/
theorem WellFormed.symbolName?_isSome {p : Nat} {production : Production}
    (found : g.production? p = some production) {symbol : Symbol}
    (member : symbol ∈ production.right) : (g.symbolName? symbol).isSome :=
  isSome_symbolName? (wellFormed.declared_of_mem found member)

end

theorem production?_augment {d : Definition} {start p : Nat} :
    (d.augment start).production? p =
      if p = augmentedProduction then some ⟨augmentedStart, [.nonterminal start]⟩
      else d.productions[p - 1]? := by
  unfold production? Definition.augment augmentedProduction
  cases p with
  | zero => rw [Array.getElem?_append_left (by simp)]; simp
  | succ p => rw [Array.getElem?_append_right (by simp)]; simp

theorem wellFormed_augment {d : Definition} (sound : d.Sound) {start : Nat}
    (startDefined : start ∈ d.defined) (none : d.firstUndefined? = none) :
    (d.augment start).WellFormed := by
  have terminalCount : (d.augment start).terminals.size = d.terminals.size + 1 := by
    simp [Definition.augment, Nat.add_comm]
  have nonterminalCount : (d.augment start).nonterminals.size = d.nonterminals.size + 1 := by
    simp [Definition.augment, Nat.add_comm]
  have listed {n : Nat} (inside : n ∈ d.defined) : ∃ q, q ∈ (d.augment start).productionsOf n := by
    obtain ⟨production, member, same⟩ := Definition.mem_defined.mp inside
    obtain ⟨index, bound, found⟩ := Array.mem_iff_getElem.mp member
    refine ⟨index + 1, mem_productionsOf.mpr ⟨production, ?_, same⟩⟩
    have other : index + 1 ≠ augmentedProduction := Nat.succ_ne_zero index
    rw [production?_augment, if_neg other]
    exact Array.getElem?_eq_some_iff.mpr ⟨bound, found⟩
  have earlier {p : Nat} {production : Production} (other : p ≠ augmentedProduction)
      (found : (d.augment start).production? p = some production) : production ∈ d.productions := by
    rw [production?_augment, if_neg other] at found
    exact Array.mem_of_getElem? found
  refine ⟨?_, ?_, ?_, ?_, ?_, ?_⟩
  · rw [terminalCount]
    exact Nat.succ_pos _
  · rw [nonterminalCount]
    exact Nat.succ_pos _
  · rw [production?_augment, if_pos rfl]
    rfl
  · obtain ⟨production, member, same⟩ := Definition.mem_defined.mp startDefined
    rw [terminalCount, nonterminalCount]
    exact same ▸ (sound.productions production member).left
  · intro p production found other
    rw [terminalCount, nonterminalCount]
    exact sound.productions production (earlier other found)
  · intro p n production found used
    by_cases other : p = augmentedProduction
    · rw [production?_augment, if_pos other] at found
      obtain rfl := Option.some.inj found
      obtain rfl := Symbol.nonterminal.inj (List.mem_singleton.mp used)
      exact listed startDefined
    · have defined := Definition.firstUndefined?_eq_none_iff.mp none _ (earlier other found)
      exact listed (defined n used)

/-- The grammar of any sequence of calls is well formed. -/
theorem wellFormed_ofCalls {calls : List Call} {g : Grammar}
    (defined : Grammar.ofCalls calls = .ok g) : g.WellFormed := by
  obtain ⟨start, -, startDefined, none, rfl⟩ := Definition.finish_eq_ok defined
  exact wellFormed_augment (Definition.sound_ofCalls calls) startDefined none

/-- What an evaluation shows of a value is so for the value that there is. -/
theorem exists_of_toOption {ε α β : Type} {value : Except ε α} {view : α → β} {seen : β}
    (evaluated : value.toOption.map view = some seen) : ∃ found, value = .ok found ∧
      view found = seen := by
  cases value with
  | error cause => cases evaluated
  | ok found => exact ⟨found, rfl, Option.some.inj evaluated⟩

end Grammar

end CanonicalLR
