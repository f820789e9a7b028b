import CanonicalLR.Proofs.Run.Pumping
import CanonicalLR.Proofs.Run.Settling

/-!
# Which runs end

A run ends exactly if it never pumps. Over a grammar without blocked symbols all
runs end; a symbol that derives only strings with itself in front can hide the
items behind it, and a run may then reduce for ever where it should reject.
-/

namespace CanonicalLR

open CanonicalLR.Configuration

namespace Configuration

variable {g : Grammar} {table : Table} {c later : Configuration}

theorem Reaches.input_length_le (reached : c.Reaches g table later) :
    later.input.length ≤ c.input.length := by
  induction reached with
  | refl => exact Nat.le_refl _
  | tail _ step ih =>
    rcases Steps.input_length_le step with same | shorter
    · rw [same]
      exact ih
    · exact Nat.le_trans (Nat.le_of_lt shorter) ih

end Configuration

namespace Automaton

variable {g : Grammar} {a : Automaton} (wellFormed : g.WellFormed) (canonical : a.Canonical g)
include wellFormed canonical

/-- Whatever a reduction leads to, it settles. -/
theorem Path.settles_of_reduce (unblocked : g.Unblocked) {c : Configuration}
    (path : a.Path c.stack) {p next : Nat}
    (acts : c.action? g (a.table g) = some (.reduce p next)) : c.Settles g (a.table g) := by
  cases path.turn_of_action? wellFormed canonical acts with
  | reduce found _ opens read _ =>
    exact opens.settles wellFormed canonical unblocked path found read rfl

theorem Path.finishes (unblocked : g.Unblocked) {c : Configuration} (path : a.Path c.stack) :
    c.Finishes g (a.table g) := by
  generalize count : c.input.length = length
  induction length using Nat.strong_induction_on generalizing c with
  | _ length ih =>
    have settles : c.Finishes g (a.table g) ∨ c.Settles g (a.table g) := by
      obtain ⟨action, acts, turn⟩ := path.turn wellFormed canonical
      cases turn with
      | noAction | conflict | accept => exact .inl ⟨c, _, .refl, acts, rfl⟩
      | shift => exact .inr ⟨c, .refl, .inl ⟨_, acts⟩⟩
      | reduce => exact .inr (path.settles_of_reduce wellFormed canonical unblocked acts)
    rcases settles with finishes | ⟨later, reached, ⟨next, acts⟩ | acts | ⟨kind, acts⟩⟩
    · exact finishes
    · have here := path.reaches wellFormed canonical reached
      cases here.turn_of_action? wellFormed canonical acts with
      | @shift t _ rest input _ =>
        have stepped := Reaches.of_action acts rfl
        have shorter : (later.shifted next).input.length < length := by
          have fewer := reached.input_length_le
          rw [count, input, List.length_cons] at fewer
          rw [shifted, input, List.tail_cons]
          exact fewer
        have onward := here.reaches wellFormed canonical stepped
        exact (reached.trans stepped).finishes (ih _ shorter onward rfl)
    · exact ⟨later, _, reached, acts, rfl⟩
    · exact ⟨later, _, reached, acts, rfl⟩

end Automaton

namespace Grammar

variable {g : Grammar}

/-- What can be reached is the start symbol or stands on a right-hand side. -/
theorem Reachable.start_or_used {n : Nat} (reachable : g.Reachable n) : n = g.start ∨
    ∃ p production, g.production? p = some production ∧ .nonterminal n ∈ production.right := by
  refine Reachable.induction ?_ ?_ reachable
  · exact .inl rfl
  · exact fun found _ used => .inr ⟨_, _, found, used⟩

theorem parentheses_unblocked : parentheses.Unblocked := by
  intro n reachable
  have listed : ∀ production ∈ parentheses.productions.toList, ∀ symbol ∈ production.right,
      symbol.nonterminal? = none ∨ symbol.nonterminal? = some 1 := by decide
  have only : n = 1 := by
    rcases reachable.start_or_used with start | ⟨p, production, found, used⟩
    · exact start
    · simpa [Symbol.nonterminal?] using
        listed production (mem_productions_iff.mpr ⟨p, found⟩) _ used
  have empty : parentheses.production? 2 = some ⟨1, []⟩ := rfl
  rw [only]
  exact .inl (derives_right empty)

/-! ## A blocked symbol -/

/-- `D` only derives strings with itself in front, so that no item for `C` gets a lookahead. -/
def blockedCalls : List Call :=
  [.nonterminal "S", .nonterminal "A", .nonterminal "C", .nonterminal "D",
    .terminal "a", .terminal "b",
    .production 1 [.nonterminal 2, .nonterminal 3, .nonterminal 4],
    .production 2 [.nonterminal 2], .production 2 [],
    .production 3 [.terminal 1], .production 4 [.nonterminal 4, .terminal 2]]

def blocked : Grammar where
  terminals := #["$", "a", "b"]
  nonterminals := #["S'", "S", "A", "C", "D"]
  productions := #[⟨0, [.nonterminal 1]⟩, ⟨1, [.nonterminal 2, .nonterminal 3, .nonterminal 4]⟩,
    ⟨2, [.nonterminal 2]⟩, ⟨2, []⟩, ⟨3, [.terminal 1]⟩, ⟨4, [.nonterminal 4, .terminal 2]⟩]
  start := 1

end Grammar

namespace Analysis

/-- A simulation ends exactly if its run never pumps, which no grammar without blocked symbols
makes it do. -/
theorem simulation_ends_iff_not_pumps {calls : List Call} {g : Grammar} {settings : Settings}
    {analysis : Analysis} {tokens : List String} {input : List Nat}
    (defined : Grammar.ofCalls calls = .ok g) (analyzed : g.analyze settings = .ok analysis)
    (tokenized : g.tokenize tokens = .ok input) :
    ((∃ fuel result, analysis.simulate g fuel tokens = .ok (some result)) ↔
      ¬ ∃ later, (initial input).Reaches g analysis.table later ∧
        later.Pumps g analysis.table) ∧
    (g.Unblocked → ∃ fuel result, analysis.simulate g fuel tokens = .ok (some result)) := by
  have wellFormed := Grammar.wellFormed_ofCalls defined
  obtain ⟨canonical, table⟩ := Grammar.analyze_eq_ok analyzed
  have ends : (initial input).Finishes g analysis.table ↔
      ∃ fuel result, analysis.simulate g fuel tokens = .ok (some result) := by
    rw [← Table.halts_iff_finishes, Grammar.halts_iff_simulate tokenized]
    rfl
  have path : analysis.automaton.Path (initial input).stack := .nil
  rw [← ends, table]
  exact ⟨finishes_iff_not_pumps path wellFormed canonical,
    fun unblocked => path.finishes wellFormed canonical unblocked⟩

theorem simulation_ends_unmatched_parenthesis : ∃ analysis fuel result,
    Grammar.parentheses.analyze {} = .ok analysis ∧
    analysis.simulate Grammar.parentheses fuel ["(", "("] = .ok (some result) := by
  obtain ⟨analysis, analyzed, -⟩ := Grammar.exists_analysis_parentheses
  have tokenized : Grammar.parentheses.tokenize ["(", "("] = .ok [1, 1] := by decide +kernel
  obtain ⟨fuel, result, simulated⟩ := (simulation_ends_iff_not_pumps Grammar.ofCalls_parentheses
    analyzed tokenized).2 Grammar.parentheses_unblocked
  exact ⟨analysis, fuel, result, analyzed, simulated⟩

/-- Before the only token, `A -> A` is reduced again and again. -/
theorem simulation_endless_blocked : ∃ analysis,
    Grammar.ofCalls Grammar.blockedCalls = .ok Grammar.blocked ∧
    Grammar.blocked.analyze {} = .ok analysis ∧ Grammar.blocked.tokenize ["a"] = .ok [1] ∧
    ∀ fuel, analysis.simulate Grammar.blocked fuel ["a"] = .ok none := by
  let stuck : Configuration := ⟨[(2, .nonterminal 2)], [1]⟩
  have seen : (Grammar.blocked.analyze {}).toOption.map (fun analysis =>
      ((initial [1]).next? Grammar.blocked analysis.table,
        stuck.next? Grammar.blocked analysis.table)) = some (some stuck, some stuck) := by
    decide +kernel
  obtain ⟨analysis, analyzed, same⟩ := Grammar.exists_of_toOption seen
  obtain ⟨enters, recurs⟩ := Prod.mk.inj same
  have tokenized : Grammar.blocked.tokenize ["a"] = .ok [1] := by decide +kernel
  have pumps : stuck.Pumps Grammar.blocked analysis.table :=
    ⟨_, [], [], rfl, rfl, .single ⟨recurs, Nat.zero_lt_one⟩⟩
  have endless : ¬ (initial [1]).Finishes Grammar.blocked analysis.table :=
    not_finishes_of_reaches (.single enters) pumps.not_finishes
  refine ⟨analysis, rfl, analyzed, tokenized, fun fuel => ?_⟩
  cases run : analysis.table.run Grammar.blocked fuel [1] with
  | none =>
    rw [simulate, Table.simulate, tokenized]
    exact congrArg Except.ok run
  | some result =>
    have ends := (Table.run_eq_some_iff.mp run).1
    exact absurd (Table.halts_iff_finishes.mp ⟨result, ends⟩) endless

end Analysis

end CanonicalLR
