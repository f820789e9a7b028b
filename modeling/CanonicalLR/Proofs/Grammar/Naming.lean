import CanonicalLR.Proofs.Grammar.Names

/-!
# Symbols and their names

Every declaration puts its symbol under its name into one map, which holds the
declared symbols under their names and nothing else. So the names of a grammar
tell its symbols apart and look-ups lead back from a name to its symbol, but for
the augmented start symbol: its name is made in the end, from that of the start
symbol, and is not put into the map.
-/

namespace CanonicalLR

namespace Definition

/-- The name that a symbol was declared under. -/
def declaredName? (d : Definition) : Symbol → Option String
  | .terminal (t + 1) => d.terminals[t]?
  | .nonterminal (n + 1) => d.nonterminals[n]?
  | .terminal 0 | .nonterminal 0 => none

/-- The map holds the declared symbols under their names. -/
def Mapped (d : Definition) : Prop :=
  ∀ name symbol, d.symbols[name]? = some symbol ↔ d.declaredName? symbol = some name

theorem mapped_empty : Mapped {} := by
  intro name symbol
  have unlisted : ({} : Definition).declaredName? symbol = none := by
    rcases symbol with (_ | t) | (_ | n) <;> rfl
  simp [unlisted]

/-- A new symbol is put into the map under a name that no other symbol has. -/
theorem Mapped.declare {d later : Definition} (mapped : d.Mapped) {name : String}
    {declared : Symbol} (passed : d.checkName name = .ok ())
    (unused : d.declaredName? declared = none)
    (symbols : later.symbols = d.symbols.insert name declared)
    (names : ∀ symbol, later.declaredName? symbol =
      if symbol = declared then some name else d.declaredName? symbol) : later.Mapped := by
  obtain ⟨-, fresh⟩ := of_checkName passed
  intro other symbol
  rw [symbols, names, Std.TreeMap.getElem?_insert]
  by_cases same : name = other
  · subst same
    have unmapped : d.symbols[name]? = none :=
      Std.TreeMap.getElem?_eq_none_of_contains_eq_false ((Bool.not_eq_true _).mp fresh)
    have unnamed : d.declaredName? symbol ≠ some name := by
      rw [Ne, ← mapped name symbol, unmapped]
      exact nofun
    by_cases new : symbol = declared
    · simp [new]
    · simp [new, unnamed, Ne.symm new]
  · have different : compare name other ≠ .eq := by simpa using same
    rw [if_neg different, mapped]
    by_cases new : symbol = declared
    · simp [new, unused, same]
    · rw [if_neg new]

theorem Mapped.record {d : Definition} (mapped : d.Mapped) {call : Call}
    (passed : d.check call = .ok ()) : (d.record call).1.Mapped := by
  cases call with
  | terminal name =>
    rw [check, bind_eq_ok] at passed
    have unused : d.declaredName? (.terminal (d.terminals.size + 1)) = none := by
      simp [declaredName?]
    refine mapped.declare passed.1 unused rfl ?_
    rintro ((_ | t) | (_ | n)) <;> simp [declaredName?, Definition.record, Array.getElem?_push]
  | nonterminal name =>
    rw [check, bind_eq_ok] at passed
    have unused : d.declaredName? (.nonterminal (d.nonterminals.size + 1)) = none := by
      simp [declaredName?]
    refine mapped.declare passed.1 unused rfl ?_
    rintro ((_ | t) | (_ | n)) <;> simp [declaredName?, Definition.record, Array.getElem?_push]
  | production left right => exact mapped
  | start symbol => exact mapped

theorem mapped_ofCalls (calls : List Call) : (ofCalls calls).Mapped :=
  ofCalls_induction mapped_empty Mapped.record calls

theorem mem_names_of_declaredName? {d : Definition} {symbol : Symbol} {name : String}
    (declared : d.declaredName? symbol = some name) : name ∈ d.names := by
  rcases symbol with (_ | t) | (_ | n)
  · cases declared
  · exact List.mem_append_left _ (Array.mem_toList_iff.mpr (Array.mem_of_getElem? declared))
  · cases declared
  · exact List.mem_append_right _ (Array.mem_toList_iff.mpr (Array.mem_of_getElem? declared))

/-- The symbol of a name; the end marker has one from the beginning. -/
def lookup? (d : Definition) (name : String) : Option Symbol :=
  if name = endMarkerName then some (.terminal endMarker) else d.symbols[name]?

/-- Augmenting a definition names the two reserved symbols and no others. -/
theorem symbolName?_augment (d : Definition) (start : Nat) (symbol : Symbol) :
    (d.augment start).symbolName? symbol =
      if symbol = .terminal endMarker then some endMarkerName
      else if symbol = .nonterminal augmentedStart then some (d.nonterminalName start ++ "'")
      else d.declaredName? symbol := by
  rcases symbol with (_ | t) | (_ | n) <;>
    simp [Grammar.symbolName?, Grammar.terminalName?, Grammar.nonterminalName?, augment, endMarker,
      augmentedStart, declaredName?, Array.getElem?_append]

end Definition

namespace Grammar

open CanonicalLR.Definition

variable {calls : List Call} {g : Grammar}

/-- The look-up inverts the naming of all symbols but the augmented start symbol. -/
theorem lookup?_iff (defined : Grammar.ofCalls calls = .ok g) (name : String) (symbol : Symbol) :
    (Definition.ofCalls calls).lookup? name = some symbol ↔
      symbol ≠ .nonterminal augmentedStart ∧ g.symbolName? symbol = some name := by
  obtain ⟨start, -, -, -, rfl⟩ := finish_eq_ok defined
  have mapped := mapped_ofCalls calls
  have unreserved := (Definition.named_ofCalls calls).unreserved
  have fresh {symbol : Symbol} :
      (Definition.ofCalls calls).declaredName? symbol ≠ some endMarkerName :=
    fun declared => unreserved (mem_names_of_declaredName? declared)
  have unnamed : (Definition.ofCalls calls).declaredName? (.terminal endMarker) = none ∧
      (Definition.ofCalls calls).declaredName? (.nonterminal augmentedStart) = none := ⟨rfl, rfl⟩
  rw [symbolName?_augment, lookup?]
  by_cases reserved : name = endMarkerName
  · subst reserved
    rw [if_pos rfl, Option.some.injEq]
    by_cases marker : symbol = .terminal endMarker
    · simp [marker]
    · by_cases augmented : symbol = .nonterminal augmentedStart
      · simp [augmented]
      · simp [marker, augmented, fresh, eq_comm]
  · rw [if_neg reserved, mapped]
    by_cases marker : symbol = .terminal endMarker
    · simp [marker, unnamed.1, Ne.symm reserved]
    · by_cases augmented : symbol = .nonterminal augmentedStart
      · simp [augmented, unnamed.2]
      · simp [marker, augmented]

theorem nonterminal?_eq_some_iff (defined : Grammar.ofCalls calls = .ok g) {name : String}
    {n : Nat} : g.nonterminal? name = some n ↔
      n ≠ augmentedStart ∧ g.nonterminalName? n = some name := by
  have listed (i : Nat) : (g.nonterminals.toList.drop 1)[i]? = g.nonterminalName? (i + 1) := by
    rw [List.getElem?_drop, Array.getElem?_toList, Nat.add_comm]
    rfl
  have found {n : Nat} (looked : g.nonterminal? name = some n) :
      n ≠ augmentedStart ∧ g.nonterminalName? n = some name := by
    obtain ⟨i, place, rfl⟩ := Option.map_eq_some_iff.mp looked
    obtain ⟨inside, here, -⟩ := List.idxOf?_eq_some_iff.mp place
    refine ⟨Nat.succ_ne_zero i, ?_⟩
    rw [← listed, List.getElem?_eq_getElem inside, here]
  refine ⟨found, fun ⟨user, named⟩ => ?_⟩
  obtain ⟨before, rfl⟩ := Nat.exists_eq_succ_of_ne_zero user
  have member : name ∈ g.nonterminals.toList.drop 1 :=
    List.mem_of_getElem? ((listed before).trans named)
  cases looked : g.nonterminal? name with
  | none =>
    rw [nonterminal?, Option.map_eq_none_iff, List.idxOf?_eq_none_iff] at looked
    exact absurd member looked
  | some m =>
    obtain ⟨otherUser, otherNamed⟩ := found looked
    have left := (lookup?_iff defined name (.nonterminal m)).mpr
      ⟨by simpa using otherUser, otherNamed⟩
    have right := (lookup?_iff defined name (.nonterminal (before + 1))).mpr
      ⟨by simpa using user, named⟩
    rw [Symbol.nonterminal.inj (Option.some.inj (left.symm.trans right))]

/-- No two symbols have the same name. -/
def NamesDiffer (g : Grammar) : Prop :=
  ∀ first second name, g.symbolName? first = some name → g.symbolName? second = some name →
    first = second

/-- Symbols of one name are the same, if neither is the augmented start symbol. -/
theorem eq_of_symbolName? (defined : Grammar.ofCalls calls = .ok g) {first second : Symbol}
    {name : String} (firstUser : first ≠ .nonterminal augmentedStart)
    (secondUser : second ≠ .nonterminal augmentedStart)
    (firstNamed : g.symbolName? first = some name)
    (secondNamed : g.symbolName? second = some name) : first = second := by
  have left := (lookup?_iff defined name first).mpr ⟨firstUser, firstNamed⟩
  have right := (lookup?_iff defined name second).mpr ⟨secondUser, secondNamed⟩
  exact Option.some.inj (left.symm.trans right)

/-- The names differ unless a symbol has been declared under the name of the augmented start
symbol. -/
theorem namesDiffer_iff (defined : Grammar.ofCalls calls = .ok g) {label : String}
    (augmented : g.nonterminalName? augmentedStart = some label) :
    g.NamesDiffer ↔ (Definition.ofCalls calls).lookup? label = none := by
  constructor
  · intro differ
    rw [Option.eq_none_iff_forall_ne_some]
    intro symbol looked
    obtain ⟨user, named⟩ := (lookup?_iff defined label symbol).mp looked
    exact user (differ symbol (.nonterminal augmentedStart) label named augmented)
  · intro free
    -- No other symbol has the name of the augmented start symbol.
    have alone {symbol : Symbol} {name : String} (named : g.symbolName? symbol = some name)
        (same : g.nonterminalName? augmentedStart = some name) :
        symbol = .nonterminal augmentedStart := by
      by_contra user
      obtain rfl := Option.some.inj (augmented.symm.trans same)
      have looked := (lookup?_iff defined label symbol).mpr ⟨user, named⟩
      cases free.symm.trans looked
    intro first second name firstNamed secondNamed
    by_cases firstUser : first = .nonterminal augmentedStart
    · subst firstUser
      exact (alone secondNamed firstNamed).symm
    · by_cases secondUser : second = .nonterminal augmentedStart
      · subst secondUser
        exact alone firstNamed secondNamed
      · exact eq_of_symbolName? defined firstUser secondUser firstNamed secondNamed

/-- Names tell symbols apart, but the name of the augmented start symbol is that of the start symbol
with a prime behind it and may have been given to another symbol before. Look-ups lead from a name to
its symbol, this one set aside, and from other names nowhere. -/
theorem names_identify (defined : Grammar.ofCalls calls = .ok g) :
    (∃ start, g.nonterminalName? g.start = some start ∧
      g.nonterminalName? augmentedStart = some (start ++ "'") ∧
      (g.NamesDiffer ↔ (Definition.ofCalls calls).lookup? (start ++ "'") = none)) ∧
    (∀ first second name, first ≠ .nonterminal augmentedStart →
      second ≠ .nonterminal augmentedStart → g.symbolName? first = some name →
      g.symbolName? second = some name → first = second) ∧
    (∀ t name, g.terminalName? t = some name ↔ g.terminal? name = some t) ∧
    (∀ n name, n ≠ augmentedStart ∧ g.nonterminalName? n = some name ↔
      g.nonterminal? name = some n) ∧
    (∀ name, (∀ symbol, symbol ≠ .nonterminal augmentedStart → g.symbolName? symbol ≠ some name) →
      g.terminal? name = none ∧ g.nonterminal? name = none) ∧
    ∀ name symbol, (Definition.ofCalls calls).lookup? name = some symbol ↔
      symbol ≠ .nonterminal augmentedStart ∧ g.symbolName? symbol = some name := by
  have named := named_ofCalls defined
  have inside := (wellFormed_ofCalls defined).start.2
  obtain ⟨start, startNamed⟩ := Option.isSome_iff_exists.mp (isSome_nonterminalName? inside)
  have augmented : g.nonterminalName? augmentedStart = some (start ++ "'") := by
    rw [named.augmentedStart, startNamed, Option.map_some]
  refine ⟨⟨start, startNamed, augmented, namesDiffer_iff defined augmented⟩, ?_, ?_, ?_, ?_,
    lookup?_iff defined⟩
  · exact fun first second name => eq_of_symbolName? defined
  · exact fun t name => named.terminal?_eq_some_iff.symm
  · exact fun n name => (nonterminal?_eq_some_iff defined).symm
  · intro name nobody
    simp only [Option.eq_none_iff_forall_ne_some]
    constructor
    · intro t looked
      exact nobody (.terminal t) nofun (named.terminal?_eq_some_iff.mp looked)
    · intro n looked
      obtain ⟨user, found⟩ := (nonterminal?_eq_some_iff defined).mp looked
      exact nobody (.nonterminal n) (by simpa using user) found

/-- `S -> S'` and `S' -> ε`, where the second nonterminal has the name that is made for the augmented
start symbol. -/
def primedCalls : List Call :=
  [.nonterminal "S", .nonterminal "S'", .production 1 [.nonterminal 2], .production 2 []]

def primed : Grammar where
  terminals := #["$"]
  nonterminals := #["S'", "S", "S'"]
  productions := #[⟨0, [.nonterminal 1]⟩, ⟨1, [.nonterminal 2]⟩, ⟨2, []⟩]
  start := 1

theorem ofCalls_primed : Grammar.ofCalls primedCalls = .ok primed := rfl

/-- The name is looked up as that of the declared nonterminal. -/
theorem primed_looked_up : primed.nonterminal? "S'" = some 2 ∧
    (Definition.ofCalls primedCalls).lookup? "S'" = some (.nonterminal 2) := by
  obtain ⟨-, -, -, nonterminals, -, all⟩ := names_identify ofCalls_primed
  exact ⟨(nonterminals 2 "S'").mp ⟨nofun, rfl⟩, (all "S'" (.nonterminal 2)).mpr ⟨nofun, rfl⟩⟩

theorem names_may_coincide : ¬ ∀ calls g, Grammar.ofCalls calls = .ok g → g.NamesDiffer := by
  intro differ
  have same := differ primedCalls primed ofCalls_primed (.nonterminal 0) (.nonterminal 2) "S'" rfl rfl
  cases same

end Grammar

end CanonicalLR
