import CanonicalLR.Proofs.Grammar.Naming
import CanonicalLR.Proofs.Run.Trace
import Mathlib.Data.List.Forall2

/-!
# Tokens and names

To read tokens is to undo the naming of terminals. One end marker at the end is
dropped; of the other tokens the first that names no declared terminal is refused
with its position, before a run begins.
-/

namespace CanonicalLR

/-! ## The end marker at the end -/

theorem inputBody_append_endMarker (tokens : List String) :
    inputBody (tokens ++ [endMarkerName]) = tokens := by
  simp [inputBody]

theorem inputBody_of_not_mem {tokens : List String} (unmarked : endMarkerName ∉ tokens) :
    inputBody tokens = tokens :=
  if_neg fun last => unmarked (List.mem_of_getLast? last)

theorem inputBody_isPrefix (tokens : List String) : inputBody tokens <+: tokens := by
  unfold inputBody
  split
  · exact List.dropLast_prefix tokens
  · exact List.prefix_rfl

theorem getElem?_inputBody {tokens : List String} {position : Nat}
    (inside : position < (inputBody tokens).length) :
    tokens[position]? = (inputBody tokens)[position]? :=
  (List.prefix_iff_getElem?.mp (inputBody_isPrefix tokens) position inside).trans
    (List.getElem?_eq_getElem inside).symm

namespace Grammar

section

variable {g : Grammar} {position : Nat} {tokens : List String} {input : List Nat}
  {unknown : UnknownToken}

/-! ## Token by token -/

theorem tokenizeFrom_eq_ok_iff : g.tokenizeFrom position tokens = .ok input ↔
    List.Forall₂ (fun t token => g.token? token = some t) input tokens := by
  induction tokens generalizing position input with
  | nil =>
    rw [List.forall₂_nil_right_iff, tokenizeFrom, Except.ok.injEq, eq_comm]
  | cons token rest ih =>
    rw [List.forall₂_cons_right_iff, tokenizeFrom]
    cases g.token? token with
    | none => simp
    | some t =>
      have next (more : List Nat) := (@ih (position + 1) more).symm
      simp only [next]
      cases g.tokenizeFrom (position + 1) rest with
      | error later => simp [Except.map]
      | ok more => simp [Except.map, eq_comm]

theorem tokenizeFrom_eq_error_iff : g.tokenizeFrom position tokens = .error unknown ↔
    ∃ i, unknown.position = position + i ∧ tokens[i]? = some unknown.token ∧
      g.token? unknown.token = none ∧
      ∀ j < i, ∀ token, tokens[j]? = some token → g.token? token ≠ none := by
  induction tokens generalizing position with
  | nil => simp [tokenizeFrom]
  | cons token rest ih =>
    rw [tokenizeFrom]
    cases named : g.token? token with
    | none =>
      obtain ⟨refused, place⟩ := unknown
      simp only [Except.error.injEq, UnknownToken.mk.injEq]
      constructor
      · rintro ⟨rfl, rfl⟩
        exact ⟨0, rfl, rfl, named, fun j below => absurd below (Nat.not_lt_zero j)⟩
      · rintro ⟨i, rfl, here, -, before⟩
        cases i with
        | zero => exact ⟨Option.some.inj here, rfl⟩
        | succ i => exact absurd named (before 0 (Nat.succ_pos i) token rfl)
    | some t =>
      have later : (g.tokenizeFrom (position + 1) rest).map (t :: ·) = .error unknown ↔
          g.tokenizeFrom (position + 1) rest = .error unknown := by
        cases g.tokenizeFrom (position + 1) rest <;> simp [Except.map]
      rw [later, ih]
      constructor
      · rintro ⟨i, place, here, refused, before⟩
        refine ⟨i + 1, by omega, here, refused, fun j below other found => ?_⟩
        cases j with
        | zero =>
          obtain rfl := Option.some.inj found
          rw [named]
          exact Option.some_ne_none t
        | succ j => exact before j (Nat.lt_of_succ_lt_succ below) other found
      · rintro ⟨i, place, here, refused, before⟩
        cases i with
        | zero =>
          obtain rfl := Option.some.inj here
          cases refused.symm.trans named
        | succ i =>
          exact ⟨i, by omega, here, refused, fun j below =>
            before (j + 1) (Nat.succ_lt_succ below)⟩

end

/-! ## Names of declared terminals -/

theorem mem_userTerminals_of_token? {g : Grammar} {token : String} {t : Nat}
    (found : g.token? token = some t) : t ∈ g.userTerminals := by
  obtain ⟨looked, other⟩ := Option.filter_eq_some_iff.mp found
  have inside := (Array.getElem?_eq_some_iff.mp (terminalName?_of_terminal? looked)).1
  exact mem_userTerminals.mpr ⟨Nat.pos_of_ne_zero (of_decide_eq_true other), inside⟩

/-- Tokens name declared terminals, and never the end marker. -/
theorem declared_of_tokenize {g : Grammar} {tokens : List String} {input : List Nat}
    (tokenized : g.tokenize tokens = .ok input) :
    ∀ t ∈ input, endMarker < t ∧ t < g.terminals.size := by
  have each := (tokenizeFrom_eq_ok_iff.mp tokenized).imp fun t token found =>
    And.intro (mem_userTerminals.mp (mem_userTerminals_of_token? found)) trivial
  exact ((List.forall₂_and_left _ _).mp each).1

theorem ne_endMarker_of_tokenize {g : Grammar} {tokens : List String} {input : List Nat}
    (tokenized : g.tokenize tokens = .ok input) : ∀ t ∈ input, t ≠ endMarker :=
  fun t member => Nat.ne_of_gt (declared_of_tokenize tokenized t member).1

def IsTerminalName (g : Grammar) (token : String) : Prop :=
  ∃ t ∈ g.userTerminals, g.terminalName? t = some token

/-- What is not read: the end marker, the names of declared nonterminals, and what names nothing. -/
inductive Foreign (g : Grammar) (token : String) : Prop where
  | endMarker (marker : token = endMarkerName)
  | nonterminal {n : Nat} (declared : n ∈ g.userNonterminals)
      (named : g.nonterminalName? n = some token)
  | unknown (nobody : ∀ symbol, symbol ≠ .nonterminal augmentedStart →
      g.symbolName? symbol ≠ some token)

section

variable {calls : List Call} {g : Grammar}

theorem Named.token?_eq_some_iff (named : g.Named) {token : String} {t : Nat} :
    g.token? token = some t ↔ t ∈ g.userTerminals ∧ g.terminalName? t = some token := by
  constructor
  · intro found
    have looked := (Option.filter_eq_some_iff.mp found).1
    exact ⟨mem_userTerminals_of_token? found, named.terminal?_eq_some_iff.mp looked⟩
  · rintro ⟨declared, found⟩
    have unmarked := Nat.ne_of_gt (mem_userTerminals.mp declared).1
    exact Option.filter_eq_some_iff.mpr
      ⟨named.terminal?_eq_some_iff.mpr found, decide_eq_true unmarked⟩

theorem Named.token?_eq_none_iff (named : g.Named) {token : String} :
    g.token? token = none ↔ ¬ g.IsTerminalName token := by
  simp only [Option.eq_none_iff_forall_ne_some, Ne, named.token?_eq_some_iff, IsTerminalName,
    not_exists]

/-- The end marker has a name, but it is not declared. -/
theorem Named.not_isTerminalName_endMarkerName (named : g.Named) :
    ¬ g.IsTerminalName endMarkerName := by
  rintro ⟨t, declared, marked⟩
  have first := named.terminal?_eq_some_iff.mpr named.endMarker
  have same := first.symm.trans (named.terminal?_eq_some_iff.mpr marked)
  obtain rfl := Option.some.inj same
  exact absurd (mem_userTerminals.mp declared).1 (Nat.lt_irrefl _)

theorem foreign_iff (defined : Grammar.ofCalls calls = .ok g) {token : String} :
    g.Foreign token ↔ ¬ g.IsTerminalName token := by
  have named := named_ofCalls defined
  constructor
  · rintro (marker | ⟨declared, nonterminal⟩ | nobody) isName
    · exact named.not_isTerminalName_endMarkerName (marker ▸ isName)
    · rename_i n
      obtain ⟨t, -, terminal⟩ := isName
      have user : Symbol.nonterminal n ≠ .nonterminal augmentedStart := by
        simpa using Nat.ne_of_gt (mem_userNonterminals.mp declared).1
      have same : Symbol.terminal t = .nonterminal n :=
        eq_of_symbolName? defined nofun user terminal nonterminal
      cases same
    · obtain ⟨t, -, terminal⟩ := isName
      exact nobody (.terminal t) nofun terminal
  · intro unnamed
    by_cases marker : token = endMarkerName
    · exact .endMarker marker
    · by_cases other : ∃ n ∈ g.userNonterminals, g.nonterminalName? n = some token
      · obtain ⟨n, declared, nonterminal⟩ := other
        exact .nonterminal declared nonterminal
      · refine .unknown fun symbol user found => ?_
        cases symbol with
        | terminal t =>
          have unmarked : t ≠ CanonicalLR.endMarker := by
            rintro rfl
            exact marker (Option.some.inj (found.symm.trans named.endMarker))
          exact unnamed ⟨t, mem_userTerminals.mpr ⟨Nat.pos_of_ne_zero unmarked,
            (Array.getElem?_eq_some_iff.mp found).1⟩, found⟩
        | nonterminal n =>
          have declared : n ≠ augmentedStart := fun same => user (same ▸ rfl)
          exact other ⟨n, mem_userNonterminals.mpr ⟨Nat.pos_of_ne_zero declared,
            (Array.getElem?_eq_some_iff.mp found).1⟩, found⟩

/-! ## Whole inputs -/

/-- Tokens are read as the declared terminals that they are the names of. -/
theorem Named.tokenize_eq_ok_iff (named : g.Named) {tokens : List String} {input : List Nat} :
    g.tokenize tokens = .ok input ↔ (∀ t ∈ input, t ∈ g.userTerminals) ∧
      input.map g.terminalName? = (inputBody tokens).map some := by
  simp only [tokenize, tokenizeFrom_eq_ok_iff, named.token?_eq_some_iff]
  rw [List.forall₂_and_left, ← List.forall₂_eq_eq_eq, List.forall₂_map_left_iff,
    List.forall₂_map_right_iff]

theorem Named.tokenize_eq_error_iff (named : g.Named) {tokens : List String}
    {unknown : UnknownToken} : g.tokenize tokens = .error unknown ↔
      (inputBody tokens)[unknown.position]? = some unknown.token ∧
        ¬ g.IsTerminalName unknown.token ∧ ∀ earlier < unknown.position, ∀ token,
          (inputBody tokens)[earlier]? = some token → g.IsTerminalName token := by
  simp only [tokenize, tokenizeFrom_eq_error_iff, Nat.zero_add, Ne, named.token?_eq_none_iff,
    not_not]
  constructor
  · rintro ⟨i, rfl, found⟩
    exact found
  · exact fun found => ⟨unknown.position, rfl, found⟩

/-- Tokens are refused only if one of them names no declared terminal. -/
theorem Named.exists_tokenize_eq_ok_iff (named : g.Named) {tokens : List String} :
    (∃ input, g.tokenize tokens = .ok input) ↔
      ∀ token ∈ inputBody tokens, g.IsTerminalName token := by
  constructor
  · rintro ⟨input, tokenized⟩ token member
    obtain ⟨declared, spelled⟩ := named.tokenize_eq_ok_iff.mp tokenized
    have among : some token ∈ input.map g.terminalName? :=
      spelled ▸ List.mem_map_of_mem member
    obtain ⟨t, listed, same⟩ := List.mem_map.mp among
    exact ⟨t, declared t listed, same⟩
  · intro all
    cases tokenized : g.tokenize tokens with
    | ok input => exact ⟨input, rfl⟩
    | error unknown =>
      obtain ⟨here, unnamed, -⟩ := named.tokenize_eq_error_iff.mp tokenized
      exact absurd (all _ (List.mem_of_getElem? here)) unnamed

theorem exists_names {input : List Nat} (declared : ∀ t ∈ input, t ∈ g.userTerminals) :
    ∃ names : List String, input.map g.terminalName? = names.map some ∧
      ∀ name ∈ names, g.IsTerminalName name := by
  induction input with
  | nil => exact ⟨[], rfl, fun _ none => absurd none List.not_mem_nil⟩
  | cons t rest ih =>
    obtain ⟨first, later⟩ := List.forall_mem_cons.mp declared
    obtain ⟨names, spelled, all⟩ := ih later
    obtain ⟨name, found⟩ := Option.isSome_iff_exists.mp
      (isSome_terminalName? (mem_userTerminals.mp first).2)
    refine ⟨name :: names, ?_, List.forall_mem_cons.mpr ⟨⟨t, first, found⟩, all⟩⟩
    rw [List.map_cons, List.map_cons, found, spelled]

/-- Reading tokens undoes naming: it gives the declared terminals that they name, and fails for the
first token that names none, before a table is driven. Names of declared terminals are read back,
whether or not an end marker is put behind them. -/
theorem tokenize_inverts_naming (defined : Grammar.ofCalls calls = .ok g) :
    (∀ tokens input, g.tokenize tokens = .ok input ↔ (∀ t ∈ input, t ∈ g.userTerminals) ∧
      input.map g.terminalName? = (inputBody tokens).map some) ∧
    (∀ tokens, (∃ input, g.tokenize tokens = .ok input) ↔
      ∀ token ∈ inputBody tokens, g.IsTerminalName token) ∧
    (∀ tokens unknown, g.tokenize tokens = .error unknown ↔
      unknown.position < (inputBody tokens).length ∧
        tokens[unknown.position]? = some unknown.token ∧ g.Foreign unknown.token ∧
        ∀ earlier < unknown.position, ∀ token, tokens[earlier]? = some token →
          g.IsTerminalName token) ∧
    (∀ token, g.Foreign token ↔ ¬ g.IsTerminalName token) ∧
    (∀ input, (∀ t ∈ input, t ∈ g.userTerminals) → ∃ names : List String,
      input.map g.terminalName? = names.map some ∧ g.tokenize names = .ok input ∧
        g.tokenize (names ++ [endMarkerName]) = .ok input) ∧
    ∀ (table : Table) fuel tokens unknown,
      table.simulate g fuel tokens = .error unknown ↔ g.tokenize tokens = .error unknown := by
  have named := named_ofCalls defined
  refine ⟨fun tokens input => named.tokenize_eq_ok_iff,
    fun tokens => named.exists_tokenize_eq_ok_iff, ?_, fun token => foreign_iff defined, ?_, ?_⟩
  · intro tokens unknown
    rw [named.tokenize_eq_error_iff, foreign_iff defined]
    constructor
    · rintro ⟨here, unnamed, before⟩
      obtain ⟨inside, -⟩ := List.getElem?_eq_some_iff.mp here
      refine ⟨inside, (getElem?_inputBody inside).trans here, unnamed, ?_⟩
      intro earlier below token found
      exact before earlier below token
        ((getElem?_inputBody (Nat.lt_trans below inside)).symm.trans found)
    · rintro ⟨inside, here, unnamed, before⟩
      refine ⟨(getElem?_inputBody inside).symm.trans here, unnamed, ?_⟩
      intro earlier below token found
      exact before earlier below token
        ((getElem?_inputBody (Nat.lt_trans below inside)).trans found)
  · intro input declared
    obtain ⟨names, spelled, all⟩ := exists_names declared
    have unmarked : endMarkerName ∉ names :=
      fun member => named.not_isTerminalName_endMarkerName (all _ member)
    refine ⟨names, spelled, named.tokenize_eq_ok_iff.mpr ⟨declared, ?_⟩,
      named.tokenize_eq_ok_iff.mpr ⟨declared, ?_⟩⟩
    · rw [inputBody_of_not_mem unmarked, spelled]
    · rw [inputBody_append_endMarker, spelled]
  · intro table fuel tokens unknown
    rw [Table.simulate]
    cases g.tokenize tokens <;> simp [Except.map]

end

/-- One end marker is dropped; another one, a nonterminal and an unknown name are refused. -/
theorem parentheses_tokens :
    parentheses.tokenize ["(", ")", "$"] = .ok [1, 2] ∧
    parentheses.tokenize ["(", "$", "$"] = .error ⟨"$", 1⟩ ∧
    parentheses.tokenize ["(", "P", "$"] = .error ⟨"P", 1⟩ ∧
    ∀ (table : Table) fuel, table.simulate parentheses fuel ["[", "$"] = .error ⟨"[", 0⟩ := by
  obtain ⟨reads, -, refuses, foreign, -, simulates⟩ :=
    tokenize_inverts_naming ofCalls_parentheses
  have opening : parentheses.IsTerminalName "(" := ⟨1, by decide, rfl⟩
  have before {tokens : List String} : ∀ earlier < 1, ∀ token,
      ("(" :: tokens)[earlier]? = some token → parentheses.IsTerminalName token := by
    intro earlier below token found
    obtain rfl := Nat.lt_one_iff.mp below
    exact Option.some.inj found ▸ opening
  have unknown : parentheses.Foreign "[" := by
    rw [foreign]
    unfold IsTerminalName
    decide
  refine ⟨(reads _ _).mpr (by decide +kernel), ?_, ?_, fun table fuel => ?_⟩
  · exact (refuses _ _).mpr ⟨by decide +kernel, rfl, .endMarker rfl, before⟩
  · have nonterminal : 1 ∈ parentheses.userNonterminals := by decide
    exact (refuses _ _).mpr ⟨by decide +kernel, rfl, .nonterminal nonterminal rfl, before⟩
  · exact (simulates table fuel _ _).mpr ((refuses _ _).mpr
      ⟨by decide +kernel, rfl, unknown, fun earlier below => absurd below (Nat.not_lt_zero _)⟩)

end Grammar

end CanonicalLR
