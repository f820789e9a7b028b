import CanonicalLR.Proofs.Renaming.Run
import CanonicalLR.Proofs.Restriction.Table

/-!
# Runs over parts

The part reads the same tokens, and its runs take the steps of the runs over the
whole, from states of the same numbers.
-/

namespace CanonicalLR

/-- All that an analysis of the whole tells is told by an analysis of the part: its states and
transitions, the items of a state, its table and the runs over it, each in the same order. -/
structure Retells (r : Renaming) (part whole : Grammar) (analysis other : Analysis) : Prop where
  automaton : other.automaton = r.automaton analysis.automaton
  kernels : ∀ state ∈ analysis.automaton.states,
    (r.state state).kernel.toList = state.kernel.toList.map r.item
  items : ∀ state ∈ analysis.automaton.states,
    (r.state state).items.toList = state.items.toList.map r.item
  table : other.table = r.table analysis.table
  tokens : ∀ tokens, whole.tokenize tokens = part.tokenize tokens
  steps : ∀ count input, (Configuration.initial input).firstSteps whole other.table count 1 =
    ((Configuration.initial input).firstSteps part analysis.table count 1).map r.inPlace.step
  simulations : ∀ fuel tokens, other.simulate whole fuel tokens =
    (analysis.simulate part fuel tokens).map (Option.map r.inPlace.result)

theorem Grammar.Enters.hasItem_kernel {g : Grammar} {state : State} (enters : g.Enters state)
    (wellFormed : g.WellFormed) : ∀ item ∈ state.kernel, g.HasItem item := by
  cases enters with
  | start => exact hasItem_ofList_start wellFormed
  | goto collected => exact hasItem_gotoKernel (collected.hasItem wellFormed) _

namespace Embeds

variable {r : Renaming} {part whole : Grammar} (embeds : Embeds r part whole)
include embeds

theorem mirrors (partFormed : part.WellFormed) {a : Automaton}
    (settled : a.Settled (.ofGrammar part part.firstSets)) :
    Mirrors r.inPlace part whole (a.table part) (r.table (a.table part)) where
  initial := rfl
  endMarker := embeds.terminal_eq _
  action? s t := by
    have terminal : r.inPlace.terminals t = t := embeds.terminal_eq t
    rw [terminal]
    exact (r.action?_table (a.table part) s t).symm ▸ r.alike_action _
  goto? s n := (r.goto?_table (a.table part) s n).trans (congrFun Option.map_id _).symm
  production? filled := by
    have demands := settled.demands_of_mem partFormed filled (List.mem_singleton_self _)
    cases demands with
    | reduce found member =>
      obtain ⟨production, listed, -⟩ := (settled.hasItem partFormed found _ member).production
      rw [listed, Option.map_some]
      exact embeds.production?_of listed

theorem input (input : List Nat) : input.map r.terminals = input := by
  rw [embeds.unchanged]
  exact List.map_id input

theorem tokenize (tokens : List String) : whole.tokenize tokens = part.tokenize tokens := by
  have same (position : Nat) (tokens : List String) :
      whole.tokenizeFrom position tokens = part.tokenizeFrom position tokens := by
    induction tokens generalizing position with
    | nil => rfl
    | cons token rest ih =>
      simp only [Grammar.tokenizeFrom, Grammar.token?, Grammar.terminal?, embeds.terminals, ih]
  exact same 0 _

theorem size_productions_le : part.productions.size ≤ whole.productions.size := by
  have grows (q : Nat) (inside : q < part.productions.size) : q ≤ r.productions q := by
    induction q with
    | zero => exact Nat.zero_le _
    | succ q ih =>
      exact Nat.lt_of_le_of_lt (ih (Nat.lt_of_succ_lt inside))
        (embeds.productionsAscending (Nat.lt_succ_self q) inside)
  cases size : part.productions.size with
  | zero => exact Nat.zero_le _
  | succ last =>
    have inside : last < part.productions.size := size ▸ Nat.lt_succ_self last
    have carried := embeds.production?_of (Array.getElem?_eq_getElem inside)
    exact Nat.lt_of_le_of_lt (grows last inside) (Array.getElem?_eq_some_iff.mp carried).1

section

variable (partFormed : part.WellFormed) (wholeFormed : whole.WellFormed)
include partFormed

theorem retells {a : Automaton} (settled : a.Settled (.ofGrammar part part.firstSets)) :
    Retells r part whole ⟨part.firstFollow, a, a.table part⟩
      ⟨whole.firstFollow, r.automaton a, (r.automaton a).table whole⟩ := by
  have table := embeds.table partFormed settled
  have mirrors := embeds.mirrors partFormed settled
  have enters {state : State} (member : state ∈ a.states) : part.Enters state := by
    obtain ⟨s, found⟩ := Array.mem_iff_getElem?.mp member
    exact settled.enters found
  rw [table]
  constructor
  case automaton => rfl
  case kernels =>
    exact fun state member => embeds.toList_itemSet ((enters member).hasItem_kernel partFormed)
  case items =>
    exact fun state member => embeds.toList_itemSet ((enters member).collected.hasItem partFormed)
  case table => rfl
  case tokens => exact embeds.tokenize
  case steps =>
    intro count input
    have initial : r.inPlace.configuration (.initial input) = .initial input :=
      congrArg Configuration.initial (embeds.input input)
    have steps := mirrors.firstSteps count 1 (.initial input)
    rwa [initial] at steps
  case simulations =>
    refine mirrors.simulate fun tokens => ?_
    rw [embeds.tokenize]
    cases part.tokenize tokens with
    | error unknown => rfl
    | ok input => exact congrArg Except.ok (embeds.input input).symm

include wholeFormed

/-- What succeeds for the whole succeeds for the part. -/
theorem exists_analysis {settings : Settings} {other : Analysis}
    (analyzed : whole.analyze settings = .ok other) :
    ∃ analysis, part.analyze settings = .ok analysis ∧ Retells r part whole analysis other := by
  obtain ⟨few, running, built, same⟩ := Grammar.analyze_eq_ok_iff.mp analyzed
  obtain ⟨a, partBuilt, carried⟩ := embeds.exists_automaton partFormed wholeFormed built
  have fewer : part.userProductionCount ≤ settings.limits.productions :=
    Nat.le_trans (Nat.sub_le_sub_right embeds.size_productions_le 1) few
  refine ⟨⟨part.firstFollow, a, a.table part⟩,
    Grammar.analyze_eq_ok_iff.mpr ⟨fewer, running, partBuilt, rfl⟩, ?_⟩
  rw [same, carried]
  exact embeds.retells partFormed (Automaton.settled_of_collect partBuilt).1

end

end Embeds

end CanonicalLR
