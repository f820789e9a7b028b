import CanonicalLR.Proofs.Grammar.WellFormed
import Mathlib.Data.List.Nodup

/-!
# Names tell symbols apart

A name is refused once it has been given, so that no two symbols of a grammar
share one. Only the augmented start symbol may have the name of another.
-/

namespace CanonicalLR

/-- Lists are told by the images of their values where the values are. -/
theorem eq_of_map_eq {α β γ : Type} {view : α → γ} {other : β → γ} {carry : β → α}
    {first : List α} {second : List β}
    (told : ∀ x ∈ first, ∀ y ∈ second, view x = other y → x = carry y)
    (same : first.map view = second.map other) : first = second.map carry := by
  induction first generalizing second with
  | nil =>
    rw [List.map_nil, eq_comm, List.map_eq_nil_iff] at same
    rw [same, List.map_nil]
  | cons head tail ih =>
    cases second with
    | nil => cases same
    | cons top rest =>
      obtain ⟨heads, tails⟩ := List.cons.inj same
      rw [List.map_cons, ← told head List.mem_cons_self top List.mem_cons_self heads, ← ih _ tails]
      exact fun x left y right =>
        told x (List.mem_cons_of_mem _ left) y (List.mem_cons_of_mem _ right)

namespace Definition

/-- The names declared so far, those of the terminals first. -/
def names (d : Definition) : List String :=
  d.terminals.toList ++ d.nonterminals.toList

structure Named (d : Definition) : Prop where
  known : ∀ name ∈ d.names, d.symbols.contains name = true
  distinct : d.names.Nodup
  unreserved : endMarkerName ∉ d.names

theorem named_empty : Named {} :=
  ⟨fun _ none => absurd none List.not_mem_nil, List.nodup_nil, List.not_mem_nil⟩

theorem of_checkName {d : Definition} {name : String} (passed : d.checkName name = .ok ()) :
    name ≠ endMarkerName ∧ ¬ d.symbols.contains name = true := by
  unfold checkName at passed
  split at passed
  · cases passed
  · split at passed
    · cases passed
    · rename_i unreserved
      split at passed
      · cases passed
      · rename_i fresh
        exact ⟨unreserved, fresh⟩

/-- A name that passes its check may join the others. -/
theorem Named.declare {d later : Definition} (named : d.Named) {name : String} {symbol : Symbol}
    (passed : d.checkName name = .ok ()) (names : later.names.Perm (name :: d.names))
    (symbols : later.symbols = d.symbols.insert name symbol) : later.Named := by
  obtain ⟨unreserved, fresh⟩ := of_checkName passed
  refine ⟨?_, ?_, ?_⟩
  · intro other member
    rw [symbols, Std.TreeMap.contains_insert]
    rcases List.mem_cons.mp (names.mem_iff.mp member) with rfl | old
    · simp
    · simp [named.known other old]
  · rw [names.nodup_iff, List.nodup_cons]
    exact ⟨mt (named.known name) fresh, named.distinct⟩
  · rw [names.mem_iff, List.mem_cons, not_or]
    exact ⟨unreserved.symm, named.unreserved⟩

theorem Named.record {d : Definition} (named : d.Named) {call : Call}
    (passed : d.check call = .ok ()) : (d.record call).1.Named := by
  cases call with
  | terminal name =>
    rw [check, bind_eq_ok] at passed
    refine named.declare passed.1 ?_ rfl
    simp only [names, Definition.record, Array.toList_push, List.append_assoc]
    exact List.perm_middle
  | nonterminal name =>
    rw [check, bind_eq_ok] at passed
    refine named.declare passed.1 ?_ rfl
    simp only [names, Definition.record, Array.toList_push, ← List.append_assoc]
    exact List.perm_append_singleton ..
  | production left right => exact ⟨named.known, named.distinct, named.unreserved⟩
  | start symbol => exact ⟨named.known, named.distinct, named.unreserved⟩

theorem named_ofCalls (calls : List Call) : (ofCalls calls).Named :=
  ofCalls_induction named_empty Named.record calls

end Definition

namespace Grammar

/-- The names of all symbols but the augmented start symbol, the end marker first. -/
def names (g : Grammar) : List String :=
  g.terminals.toList ++ g.nonterminals.toList.tail

/-- What the names of a grammar keep. -/
structure Named (g : Grammar) : Prop where
  endMarker : g.terminalName? endMarker = some endMarkerName
  augmentedStart : g.nonterminalName? augmentedStart =
    (g.nonterminalName? g.start).map (· ++ "'")
  distinct : g.names.Nodup

theorem named_ofCalls {calls : List Call} {g : Grammar} (defined : Grammar.ofCalls calls = .ok g) :
    g.Named := by
  have wellFormed := wellFormed_ofCalls defined
  obtain ⟨start, -, -, -, rfl⟩ := Definition.finish_eq_ok defined
  have named := Definition.named_ofCalls calls
  refine ⟨?_, ?_, ?_⟩
  · rw [terminalName?, Definition.augment,
      Array.getElem?_append_left (by simp [CanonicalLR.endMarker])]
    rfl
  · obtain ⟨positive, inside⟩ := wellFormed.start
    obtain ⟨before, rfl⟩ : ∃ before, start = before + 1 :=
      Nat.exists_eq_succ_of_ne_zero (Nat.ne_of_gt positive)
    have listed : before < (Definition.ofCalls calls).nonterminals.size := by
      simp only [Definition.augment, Array.size_append, List.size_toArray, List.length_cons,
        List.length_nil] at inside
      omega
    rw [nonterminalName?, nonterminalName?, Definition.augment,
      Array.getElem?_append_left (by simp [CanonicalLR.augmentedStart]),
      Array.getElem?_append_right (by simp)]
    simp [CanonicalLR.augmentedStart, Definition.nonterminalName, listed]
  · have names : ((Definition.ofCalls calls).augment start).names =
        endMarkerName :: (Definition.ofCalls calls).names := by
      simp [Grammar.names, Definition.names, Definition.augment]
    rw [names, List.nodup_cons]
    exact ⟨named.unreserved, named.distinct⟩

end Grammar

/-- The place of a symbol among the names of a grammar with so many terminals. -/
def Symbol.place (terminals : Nat) : Symbol → Nat
  | .terminal t => t
  | .nonterminal n => terminals + (n - 1)

theorem Symbol.place_inj {terminals nonterminals : Nat} {first second : Symbol}
    (left : first.Declared terminals nonterminals) (right : second.Declared terminals nonterminals)
    (same : first.place terminals = second.place terminals) : first = second := by
  cases first with
  | terminal t =>
    have inside : t < terminals := left.2
    cases second with
    | terminal u => exact congrArg Symbol.terminal same
    | nonterminal n =>
      simp only [place] at same
      omega
  | nonterminal m =>
    have positive : 0 < m := left.1
    cases second with
    | terminal t =>
      have inside : t < terminals := right.2
      simp only [place] at same
      omega
    | nonterminal n =>
      have otherPositive : 0 < n := right.1
      simp only [place] at same
      exact congrArg Symbol.nonterminal (by omega)

namespace Grammar

variable {g : Grammar}

theorem getElem?_place {symbol : Symbol}
    (declared : symbol.Declared g.terminals.size g.nonterminals.size) :
    g.names[symbol.place g.terminals.size]? = g.symbolName? symbol := by
  cases symbol with
  | terminal t =>
    have inside : t < g.terminals.toList.length := declared.2
    rw [names, Symbol.place, List.getElem?_append_left inside, Array.getElem?_toList]
    rfl
  | nonterminal n =>
    obtain ⟨n, rfl⟩ := Nat.exists_eq_succ_of_ne_zero (Nat.ne_of_gt declared.1)
    rw [names, Symbol.place, List.getElem?_append_right (by simp)]
    simp [symbolName?, nonterminalName?]

theorem place_lt_names {symbol : Symbol}
    (declared : symbol.Declared g.terminals.size g.nonterminals.size) :
    symbol.place g.terminals.size < g.names.length := by
  simp only [names, List.length_append, List.length_tail, Array.length_toList]
  cases symbol with
  | terminal t =>
    have inside : t < g.terminals.size := declared.2
    simp only [Symbol.place]
    omega
  | nonterminal n =>
    have positive : 0 < n := declared.1
    have inside : n < g.nonterminals.size := declared.2
    simp only [Symbol.place]
    omega

namespace Named

variable (named : g.Named)
include named

/-- Declared symbols of one name are the same symbol. -/
theorem eq_of_symbolName? {first second : Symbol}
    (left : first.Declared g.terminals.size g.nonterminals.size)
    (right : second.Declared g.terminals.size g.nonterminals.size)
    (same : g.symbolName? first = g.symbolName? second) : first = second := by
  rw [← getElem?_place left, ← getElem?_place right] at same
  have places := (List.getElem?_inj (place_lt_names left) named.distinct).mp same
  exact Symbol.place_inj left right places

/-- A terminal is looked up by its name. -/
theorem terminal?_eq_some_iff {name : String} {t : Nat} :
    g.terminal? name = some t ↔ g.terminalName? t = some name := by
  have once : g.terminals.toList.Nodup := named.distinct.of_append_left
  constructor
  · exact terminalName?_of_terminal?
  · intro found
    cases other : g.terminal? name with
    | none =>
      rw [terminal?, Array.idxOf?_eq_map_finIdxOf?_val, Option.map_eq_none_iff,
        Array.finIdxOf?_eq_none_iff] at other
      exact absurd (Array.mem_of_getElem? found) other
    | some place =>
      have looked := terminalName?_of_terminal? other
      have inside := (Array.getElem?_eq_some_iff.mp looked).1
      have same := looked.trans found.symm
      simp only [terminalName?, ← Array.getElem?_toList] at same
      rw [(List.getElem?_inj inside once).mp same]

end Named

end Grammar

end CanonicalLR
