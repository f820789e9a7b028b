import CanonicalLR.Proofs.Automaton.Cut
import CanonicalLR.Proofs.Automaton.ViablePrefix
import CanonicalLR.Proofs.Sets.Follow

/-!
# Lookaheads and FOLLOW sets

The lookahead of an item comes after its left-hand side in some string. Where every nonterminal
can be reached and derives a word, all that comes after a nonterminal is the lookahead of an
item.
-/

namespace CanonicalLR

namespace Grammar

variable {g : Grammar}

section

variable (wellFormed : g.WellFormed)
include wellFormed

/-- A production is opened for terminals that come after its left-hand side. -/
theorem Opens.follows {before : List Symbol} {p t : Nat} {production : Production}
    (opens : g.Opens before p t) (found : g.production? p = some production) :
    g.Follows production.left t := by
  induction opens generalizing production with
  | start =>
    obtain rfl := Option.some.inj (found.symm.trans wellFormed.augmented)
    exact .augmented
  | @predict before p t dot outer other _ outerFound predicts ih =>
    obtain ⟨sameFound, next, ahead⟩ := predicts
    obtain rfl := Option.some.inj (sameFound.symm.trans found)
    have split := Item.right_eq_of_next? outerFound next
    rcases (mem_firstBefore_iff wellFormed).mp ahead with begins | ⟨erases, rfl⟩
    · exact .behind outerFound split begins
    · exact .passed outerFound split erases (ih outerFound)

/-- What something comes after has a production. -/
theorem Follows.exists_production {n t : Nat} (follows : g.Follows n t) :
    ∃ p production, g.production? p = some production ∧ production.left = n := by
  have listed {p m : Nat} {outer : Production} (found : g.production? p = some outer)
      (used : .nonterminal m ∈ outer.right) :
      ∃ p production, g.production? p = some production ∧ production.left = m := by
    obtain ⟨q, member⟩ := wellFormed.defined found used
    exact ⟨q, mem_productionsOf.mp member⟩
  cases follows with
  | augmented => exact ⟨_, _, wellFormed.augmented, rfl⟩
  | start => exact listed wellFormed.augmented (List.mem_singleton_self _)
  | behind found split _ => exact listed found (by simp [split])
  | passed found split _ _ => exact listed found (by simp [split])

/-! ## What follows is a lookahead -/

/-- Every production of a nonterminal is opened somewhere. -/
def Unfolds (g : Grammar) (n : Nat) : Prop :=
  ∀ p production, g.production? p = some production → production.left = n →
    ∃ before t, g.Opens before p t

theorem opens_start {p : Nat} {production : Production}
    (found : g.production? p = some production) (same : production.left = g.start) :
    g.Opens [] p endMarker := by
  have split : [Symbol.nonterminal g.start] = [] ++ .nonterminal production.left :: [] := by
    rw [same]
    rfl
  exact Opens.start.inside wellFormed.augmented split found (mem_firstBefore_nil wellFormed _)

variable (productive : g.Productive)
include productive

/-- Some terminal begins what follows any part of a right-hand side. -/
theorem Productive.exists_mem_firstBefore {symbols : List Symbol}
    (declared : ∀ symbol ∈ symbols, symbol.Declared g.terminals.size g.nonterminals.size)
    (lookahead : Nat) : ∃ t, t ∈ g.firstSets.firstBefore symbols lookahead := by
  obtain ⟨word, derived⟩ := productive.exists_derives declared
  refine ⟨word.headD lookahead, mem_firstBefore_of_derives wellFormed derived ?_⟩
  rw [← List.nil_append (spelled word), mem_firstBefore_append_spelled wellFormed]
  exact mem_firstBefore_nil wellFormed _

theorem Reachable.unfolds {n : Nat} (reachable : g.Reachable n) : g.Unfolds n := by
  refine Reachable.induction ?_ ?_ reachable
  · exact fun p production found same => ⟨[], _, opens_start wellFormed found same⟩
  · intro p n outer outerFound unfolds used q production found same
    obtain ⟨before, t, opens⟩ := unfolds p outer outerFound rfl
    obtain ⟨inner, rest, split⟩ := List.append_of_mem used
    obtain ⟨u, ahead⟩ := productive.exists_mem_firstBefore wellFormed
      (fun symbol member => wellFormed.declared_of_mem outerFound
        (split ▸ List.mem_append_right _ (List.mem_cons_of_mem _ member))) t
    exact ⟨_, u, opens.inside outerFound (same ▸ split) found ahead⟩

variable (reachable : ∀ n ∈ g.userNonterminals, g.Reachable n)
include reachable

theorem exists_opens {p : Nat} {production : Production}
    (found : g.production? p = some production) : ∃ before t, g.Opens before p t := by
  by_cases augmented : p = augmentedProduction
  · exact ⟨[], endMarker, augmented ▸ .start⟩
  · have declared := (wellFormed.declared found augmented).left
    have user : production.left ∈ g.userNonterminals := mem_userNonterminals.mpr declared
    exact (reachable _ user).unfolds wellFormed productive p production found rfl

/-- Every production of a nonterminal is opened for each terminal that comes after it. -/
theorem Follows.exists_opens {n t : Nat} (follows : g.Follows n t) {p : Nat}
    {production : Production} (found : g.production? p = some production)
    (same : production.left = n) : ∃ before, g.Opens before p t := by
  induction follows generalizing p production with
  | augmented => exact ⟨[], wellFormed.eq_augmented found same ▸ .start⟩
  | start => exact ⟨[], opens_start wellFormed found same⟩
  | @behind q n t outer before rest outerFound split begins =>
    -- The outer production may be opened for any terminal here, as `t` comes from the rest.
    obtain ⟨front, u, opens⟩ := Grammar.exists_opens wellFormed productive reachable outerFound
    exact ⟨_, opens.inside outerFound (same ▸ split) found
      ((mem_firstBefore_iff wellFormed).mpr (.inl begins))⟩
  | @passed q n t outer before rest outerFound split erases _ ih =>
    obtain ⟨front, opens⟩ := ih outerFound rfl
    exact ⟨_, opens.inside outerFound (same ▸ split) found
      ((mem_firstBefore_iff wellFormed).mpr (.inr ⟨erases, rfl⟩))⟩

end

end Grammar

namespace Automaton

variable {g : Grammar} {a : Automaton}

/-- An item of a state has a production that is opened for its lookahead. -/
theorem exists_opens_of_mem {limits : Limits} (wellFormed : g.WellFormed)
    (built : g.automaton g.firstSets limits = .ok a) {s : Nat} {state : State} {item : Item}
    (found : a.state? s = some state) (member : item ∈ state.items) :
    ∃ before production, g.Opens before item.production item.lookahead ∧
      g.production? item.production = some production := by
  obtain ⟨stack, path, rfl⟩ := exists_path_of_state? built found
  obtain ⟨same, sameFound, meaning⟩ := path.mem_items_iff wellFormed (canonical_of_collect built)
  obtain rfl := Option.some.inj (found.symm.trans sameFound)
  obtain ⟨before, production, opens, listed, -⟩ := (meaning item).mp member
  exact ⟨before, production, opens, listed⟩

/-- Some state has the first item of an opened production. -/
theorem exists_state_of_opens (wellFormed : g.WellFormed) (canonical : a.Canonical g)
    {before : List Symbol} {p t : Nat} (opens : g.Opens before p t) :
    ∃ s state, a.state? s = some state ∧ (⟨p, 0, t⟩ : Item) ∈ state.items := by
  have valid := opens.valid wellFormed
  obtain ⟨stack, path, rfl⟩ := exists_path_of_valid wellFormed canonical valid
  obtain ⟨state, found, meaning⟩ := path.mem_items_iff wellFormed canonical
  exact ⟨_, state, found, (meaning _).mpr valid⟩

end Automaton

namespace Analysis

/-- The lookahead of every item is in the FOLLOW set of its left-hand side, and where every
nonterminal can be reached and derives a word, the FOLLOW sets have nothing else. -/
theorem follow_iff_lookahead {calls : List Call} {g : Grammar} {settings : Settings}
    {analysis : Analysis} (defined : Grammar.ofCalls calls = .ok g)
    (analyzed : g.analyze settings = .ok analysis) :
    (∀ s state item, analysis.automaton.state? s = some state → item ∈ state.items →
      ∃ production, g.production? item.production = some production ∧
        item.lookahead ∈ analysis.sets.follow.follow production.left) ∧
    (g.Productive → (∀ n ∈ g.userNonterminals, g.Reachable n) → ∀ n t,
      t ∈ analysis.sets.follow.follow n ↔ ∃ s state item production,
        analysis.automaton.state? s = some state ∧ item ∈ state.items ∧
        g.production? item.production = some production ∧ production.left = n ∧
        item.lookahead = t) := by
  have wellFormed := Grammar.wellFormed_ofCalls defined
  obtain ⟨-, -, built, same⟩ := Grammar.analyze_eq_ok_iff.mp analyzed
  have sets : analysis.sets.follow = g.followSets g.firstSets := by rw [same]; rfl
  have within : ∀ s state item, analysis.automaton.state? s = some state →
      item ∈ state.items → ∃ production, g.production? item.production = some production ∧
        item.lookahead ∈ analysis.sets.follow.follow production.left := by
    intro s state item found member
    obtain ⟨before, production, opens, listed⟩ :=
      Automaton.exists_opens_of_mem wellFormed built found member
    refine ⟨production, listed, ?_⟩
    rw [sets, Grammar.mem_follow wellFormed]
    exact opens.follows wellFormed listed
  refine ⟨within, fun productive reachable n t => ⟨fun ahead => ?_, ?_⟩⟩
  · rw [sets, Grammar.mem_follow wellFormed] at ahead
    obtain ⟨p, production, listed, same⟩ := ahead.exists_production wellFormed
    obtain ⟨before, opens⟩ := ahead.exists_opens wellFormed productive reachable listed same
    obtain ⟨s, state, found, member⟩ :=
      Automaton.exists_state_of_opens wellFormed (Automaton.canonical_of_collect built) opens
    exact ⟨s, state, _, production, found, member, listed, same, rfl⟩
  · rintro ⟨s, state, item, production, found, member, listed, rfl, rfl⟩
    obtain ⟨other, otherListed, ahead⟩ := within s state item found member
    obtain rfl := Option.some.inj (otherListed.symm.trans listed)
    exact ahead

end Analysis

namespace Grammar

theorem doubled_reachable : ∀ n ∈ doubled.userNonterminals, doubled.Reachable n := by
  have twice : doubled.production? 1 = some ⟨1, [.nonterminal 2, .nonterminal 2]⟩ := rfl
  have few : doubled.userNonterminals = [1, 2] := rfl
  have start : doubled.Reachable 1 := ⟨[], [], derives_refl _⟩
  rw [few, List.forall_mem_cons, List.forall_mem_singleton]
  exact ⟨start, start.of_production twice List.mem_cons_self⟩

/-- Anything may follow a `C`, and nothing an `S`; the items tell the same. -/
theorem doubled_lookaheads : ∃ analysis, doubled.analyze {} = .ok analysis ∧
    ∀ n t, (∃ s state item production, analysis.automaton.state? s = some state ∧
      item ∈ state.items ∧ doubled.production? item.production = some production ∧
      production.left = n ∧ item.lookahead = t) ↔
        n ≤ 1 ∧ t = endMarker ∨ n = 2 ∧ t ≤ 2 := by
  have seen : (doubled.analyze {}).toOption.map (fun analysis =>
      analysis.sets.follow.sets) =
        some #[.ofList [0], .ofList [0], .ofList [0, 1, 2]] := by decide +kernel
  obtain ⟨analysis, analyzed, sets⟩ := exists_of_toOption seen
  obtain ⟨-, agree⟩ := Analysis.follow_iff_lookahead ofCalls_doubled analyzed
  refine ⟨analysis, analyzed, fun n t => ?_⟩
  rw [← agree doubled_productive doubled_reachable, FollowSets.follow, sets]
  match n with
  | 0 | 1 => simp [IdSets.setAt, endMarker]
  | 2 =>
    have few : t = 0 ∨ t = 1 ∨ t = 2 ↔ t ≤ 2 := by omega
    simpa [IdSets.setAt] using few
  | n + 3 => simp [IdSets.setAt]

end Grammar

end CanonicalLR
