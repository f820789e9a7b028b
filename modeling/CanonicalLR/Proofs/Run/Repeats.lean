import CanonicalLR.Proofs.Run.Discipline
import CanonicalLR.Proofs.Table.Demands

/-!
# Productions that are listed twice

An item predicts one of two equal productions exactly if it predicts the other,
with the same lookaheads. So no state tells them apart; a cell that demands a
reduction by one of them is torn between both, and the runs that come to it end
there.
-/

namespace CanonicalLR

open CanonicalLR.Configuration

namespace Grammar

/-- Two ids have the same production. -/
structure Repeats (g : Grammar) (p q : Nat) : Prop where
  apart : p ≠ q
  same : ∃ production, g.production? p = some production ∧ g.production? q = some production

variable {g : Grammar} {p q : Nat}

theorem Repeats.symm (repeats : g.Repeats p q) : g.Repeats q p := by
  obtain ⟨apart, production, found, foundToo⟩ := repeats
  exact ⟨apart.symm, production, foundToo, found⟩

theorem Repeats.production?_eq (repeats : g.Repeats p q) : g.production? q = g.production? p := by
  obtain ⟨-, production, found, foundToo⟩ := repeats
  rw [found, foundToo]

/-- No production repeats the augmented one. -/
theorem Repeats.user (repeats : g.Repeats p q) (wellFormed : g.WellFormed) :
    p ≠ augmentedProduction := by
  rintro rfl
  have again := repeats.production?_eq.trans wellFormed.augmented
  exact repeats.apart (wellFormed.eq_augmented again rfl).symm

section

variable {item : Item} (repeats : g.Repeats item.production q)
include repeats

theorem Repeats.next?_eq : Item.next? g { item with production := q } = item.next? g := by
  rw [Item.next?, Item.next?, repeats.production?_eq]

theorem Repeats.isComplete_eq :
    Item.isComplete g { item with production := q } = item.isComplete g := by
  rw [Item.isComplete, Item.isComplete, repeats.production?_eq]

end

/-- Where a production is opened, so is its repetition, as what predicts one predicts both. -/
theorem Repeats.opens (repeats : g.Repeats p q) (wellFormed : g.WellFormed) {read : List Symbol}
    {t : Nat} (opens : g.Opens read p t) : g.Opens read q t := by
  obtain ⟨source, valid, found, next, ahead⟩ := opens.exists_source (repeats.user wellFormed)
  have foundToo := repeats.production?_eq.trans found
  exact (valid.predicts (.begin foundToo next ahead)).opens

theorem Repeats.valid {item : Item} (repeats : g.Repeats item.production q)
    (wellFormed : g.WellFormed) {read : List Symbol} (valid : g.Valid read item) :
    g.Valid read { item with production := q } := by
  obtain ⟨before, production, opens, found, within, split⟩ := valid
  have foundToo := repeats.production?_eq.trans found
  exact ⟨before, production, repeats.opens wellFormed opens, foundToo, within, split⟩

end Grammar

namespace Automaton

variable {g : Grammar} {a : Automaton} {p q : Nat}

section

variable {stack : List (Nat × Symbol)} {t : Nat} (wellFormed : g.WellFormed)
  (repeats : g.Repeats p q)
include wellFormed repeats

theorem Asks.repeated (asks : a.Asks g stack t (.reduce p)) : a.Asks g stack t (.reduce q) := by
  cases asks with
  | reduce valid complete ahead _ =>
    have again := repeats.valid wellFormed valid
    exact .reduce again (repeats.next?_eq.trans complete) ahead (repeats.symm.user wellFormed)

/-- No configuration on a path reduces by a production that is repeated. -/
theorem Path.not_reduces {c : Configuration} (path : a.Path c.stack) (canonical : a.Canonical g)
    (next : Nat) : c.action? g (a.table g) ≠ some (.reduce p next) := by
  intro acts
  cases path.turn_of_action? wellFormed canonical acts with
  | @reduce _ _ before production found user opens read _ =>
    have valid : g.Valid (readSymbols c.stack) ⟨p, production.right.length, c.lookahead⟩ := by
      refine ⟨before, production, opens, found, Nat.le_refl _, ?_⟩
      rw [List.take_length, read]
    have complete : Item.next? g ⟨p, production.right.length, c.lookahead⟩ = none := by
      simp [Item.next?, found]
    have asks : a.Asks g c.stack c.lookahead (.reduce p) := .reduce valid complete rfl user
    rcases path.decided_or_conflicted wellFormed canonical asks with decided | ⟨kind, conflict⟩
    · have rival := asks.repeated wellFormed repeats
      have same := path.eq_of_decided wellFormed canonical decided rival
      exact repeats.apart (Move.reduce.inj same).symm
    · cases acts.symm.trans conflict

end

section

variable {limits : Limits} {s t : Nat} {state : State} (wellFormed : g.WellFormed)
  (built : g.automaton g.firstSets limits = .ok a) (repeats : g.Repeats p q)
include wellFormed built repeats

/-- With an item over a production, a state has the item over its repetition. -/
theorem mem_items_of_repeats (found : a.state? s = some state) {dot t : Nat}
    (member : ⟨p, dot, t⟩ ∈ state.items) : ⟨q, dot, t⟩ ∈ state.items := by
  obtain ⟨stack, path, rfl⟩ := exists_path_of_state? built found
  obtain ⟨same, sameFound, meaning⟩ := path.mem_items_iff wellFormed (canonical_of_collect built)
  obtain rfl := Option.some.inj (found.symm.trans sameFound)
  rw [meaning] at member ⊢
  exact repeats.valid wellFormed member

theorem Demands.repeated (demands : a.Demands g s t (.reduce p)) :
    a.Demands g s t (.reduce q) := by
  cases demands with
  | reduce found member complete ahead _ =>
    have again := mem_items_of_repeats wellFormed built repeats found member
    exact .reduce found again (repeats.isComplete_eq.trans complete) ahead
      (repeats.symm.user wellFormed)

/-- A cell in which a repeated production is asked for lists its repetition beside it. -/
theorem Demands.torn (demands : a.Demands g s t (.reduce p)) : ∃ conflict,
    (a.table g).action? s t = some (.undecided conflict) ∧
      .reduce p ∈ conflict.candidates ∧ .reduce q ∈ conflict.candidates := by
  have settled := (settled_of_collect built).1
  have rival := demands.repeated wellFormed built repeats
  exact settled.exists_undecided wellFormed demands rival
    fun same => repeats.apart (Move.reduce.inj same)

end

end Automaton

namespace Grammar

/-- `A -> a`, twice. -/
def twofoldCalls : List Call :=
  [.terminal "a", .nonterminal "A", .production 1 [.terminal 1], .production 1 [.terminal 1]]

def twofold : Grammar where
  terminals := #["$", "a"]
  nonterminals := #["A'", "A"]
  productions := #[⟨0, [.nonterminal 1]⟩, ⟨1, [.terminal 1]⟩, ⟨1, [.terminal 1]⟩]
  start := 1

theorem ofCalls_twofold : Grammar.ofCalls twofoldCalls = .ok twofold := rfl

end Grammar

namespace Analysis

/-- Of two equal productions none is chosen: states have the items of both or of neither, cells
that demand one are torn between both, and no run reduces by either. -/
theorem repeated_never_chosen {calls : List Call} {g : Grammar} {settings : Settings}
    {analysis : Analysis} {p q : Nat} (defined : Grammar.ofCalls calls = .ok g)
    (analyzed : g.analyze settings = .ok analysis) (repeats : g.Repeats p q) :
    (∀ s state dot t, analysis.automaton.state? s = some state →
      (⟨p, dot, t⟩ ∈ state.items ↔ ⟨q, dot, t⟩ ∈ state.items)) ∧
    (∀ s t, (analysis.automaton.Demands g s t (.reduce p) ∨
        ∃ action, analysis.table.action? s t = some action ∧ .reduce p ∈ action.candidates) →
      ∃ conflict, analysis.table.action? s t = some (.undecided conflict) ∧
        .reduce p ∈ conflict.candidates ∧ .reduce q ∈ conflict.candidates) ∧
    ∀ tokens input, g.tokenize tokens = .ok input →
      (∀ count, ∀ step ∈ (initial input).firstSteps g analysis.table count 1,
        step.action.production? ≠ some p ∧ step.action.production? ≠ some q) ∧
      ∀ fuel result, analysis.simulate g fuel tokens = .ok (some result) →
        ∀ step ∈ result.steps,
          step.action.production? ≠ some p ∧ step.action.production? ≠ some q := by
  have wellFormed := Grammar.wellFormed_ofCalls defined
  obtain ⟨built, table⟩ := Grammar.automaton_of_analyze analyzed
  have canonical := Automaton.canonical_of_collect built
  refine ⟨fun s state dot t found => ?_, fun s t asked => ?_, fun tokens input tokenized => ?_⟩
  · constructor
    · exact Automaton.mem_items_of_repeats wellFormed built repeats found
    · exact Automaton.mem_items_of_repeats wellFormed built repeats.symm found
  · rw [table] at asked ⊢
    have demands : analysis.automaton.Demands g s t (.reduce p) := by
      rcases asked with demands | ⟨action, filled, member⟩
      · exact demands
      · exact (Automaton.settled_of_collect built).1.demands_of_mem wellFormed filled member
    exact demands.torn wellFormed built repeats
  · have idle : ∀ count, ∀ step ∈ (initial input).firstSteps g analysis.table count 1,
        step.action.production? ≠ some p ∧ step.action.production? ≠ some q := by
      intro count step member
      obtain ⟨reached, acts⟩ := reaches_of_mem_firstSteps member
      rw [table] at reached acts
      have start : analysis.automaton.Path (initial input).stack := .nil
      have path := start.reaches wellFormed canonical reached
      have other {first second : Nat} (repeated : g.Repeats first second) :
          step.action.production? ≠ some first := by
        intro reduces
        obtain ⟨next, action⟩ := StepAction.eq_of_production? reduces
        exact path.not_reduces wellFormed repeated canonical next (action ▸ acts)
      exact ⟨other repeats, other repeats.symm⟩
    refine ⟨idle, fun fuel result simulated step member => ?_⟩
    obtain ⟨ends, enough⟩ := Grammar.endsWith_of_simulate tokenized simulated
    exact idle fuel step (ends.steps_eq enough ▸ member)

/-- After `a` the run meets both reductions and takes neither. -/
theorem twofold_never_chosen : ∃ analysis result conflict,
    Grammar.twofold.analyze {} = .ok analysis ∧ Grammar.twofold.Repeats 1 2 ∧
    analysis.table.action? 2 endMarker = some (.undecided conflict) ∧
    .reduce 1 ∈ conflict.candidates ∧ .reduce 2 ∈ conflict.candidates ∧
    analysis.simulate Grammar.twofold 8 ["a"] = .ok (some result) ∧
    ∀ step ∈ result.steps,
      step.action.production? ≠ some 1 ∧ step.action.production? ≠ some 2 := by
  have seen : (Grammar.twofold.analyze {}).toOption.map (fun analysis =>
      ((analysis.table.action? 2 endMarker).map Action.candidates,
        (analysis.simulate Grammar.twofold 8 ["a"]).toOption.map fun ended => ended.isSome)) =
      some (some [.reduce 1, .reduce 2], some true) := by decide +kernel
  obtain ⟨analysis, analyzed, seen⟩ := Grammar.exists_of_toOption seen
  obtain ⟨listed, seen⟩ := Prod.mk.inj seen
  obtain ⟨ended, simulated, seen⟩ := Grammar.exists_of_toOption seen
  obtain ⟨result, rfl⟩ := Option.isSome_iff_exists.mp seen
  obtain ⟨action, filled, candidates⟩ := Option.map_eq_some_iff.mp listed
  have tokenized : Grammar.twofold.tokenize ["a"] = .ok [1] := by decide +kernel
  have repeats : Grammar.twofold.Repeats 1 2 := ⟨by decide, ⟨1, [.terminal 1]⟩, rfl, rfl⟩
  obtain ⟨-, torn, runs⟩ := repeated_never_chosen Grammar.ofCalls_twofold analyzed repeats
  obtain ⟨conflict, undecided, first, second⟩ :=
    torn 2 endMarker (.inr ⟨action, filled, candidates ▸ List.mem_cons_self⟩)
  have idle := (runs ["a"] [1] tokenized).2 8 result simulated
  exact ⟨analysis, result, conflict, analyzed, repeats, undecided, first, second, simulated, idle⟩

end Analysis

end CanonicalLR
