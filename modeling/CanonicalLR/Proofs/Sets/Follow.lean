import CanonicalLR.Proofs.Sets.First
import CanonicalLR.Sets.Follow

/-!
# FOLLOW sets hold the terminals that come after a nonterminal

A terminal comes after an occurrence of a nonterminal because the symbols behind
it begin with the terminal, or because they vanish and the terminal comes after
the left-hand side.
-/

namespace CanonicalLR

namespace Grammar

/-- A terminal comes right after a nonterminal. -/
inductive Follows (g : Grammar) : Nat → Nat → Prop where
  | augmented : g.Follows augmentedStart endMarker
  | start : g.Follows g.start endMarker
  | behind {p n t : Nat} {production : Production} {before rest : List Symbol}
      (found : g.production? p = some production)
      (split : production.right = before ++ .nonterminal n :: rest)
      (begins : g.Begins rest t) : g.Follows n t
  | passed {p n t : Nat} {production : Production} {before rest : List Symbol}
      (found : g.production? p = some production)
      (split : production.right = before ++ .nonterminal n :: rest)
      (erases : g.Erases rest) (outer : g.Follows production.left t) : g.Follows n t

variable {g : Grammar}

theorem mem_followBases {n t : Nat} (wellFormed : g.WellFormed) :
    t ∈ g.followBases.setAt n ↔ (n = augmentedStart ∨ n = g.start) ∧ t = endMarker := by
  have inside : g.start < g.nonterminals.size := wellFormed.start.2
  have first := wellFormed.nonterminals
  simp only [followBases, IdSets.mem_setAt_add, IdSets.setAt_replicate, IdSets.size_add,
    Array.size_replicate, inside, first, IdSet.mem_ofList, List.mem_singleton, true_and,
    IdSet.not_mem_empty, false_or, or_and_right]

/-- A production brings its own occurrences what begins behind them. -/
theorem mem_followSeeds {n t : Nat} (wellFormed : g.WellFormed) :
    t ∈ (g.followSeeds g.firstSets).setAt n ↔
      ((n = augmentedStart ∨ n = g.start) ∧ t = endMarker) ∨
        ∃ p production before rest, g.production? p = some production ∧
          production.right = before ++ .nonterminal n :: rest ∧ g.Begins rest t := by
  let step (sets : IdSets) (occurrence : Nat × List Symbol) : IdSets :=
    sets.add occurrence.1 (g.firstSets.firstOf occurrence.2)
  let brings (occurrence : Nat × List Symbol) (node id : Nat) : Prop :=
    node = occurrence.1 ∧ g.Begins occurrence.2 id
  have sizes : ∀ sets occurrence, (step sets occurrence).size = sets.size :=
    fun _ _ => IdSets.size_add ..
  have members : ∀ sets occurrence node id, id ∈ (step sets occurrence).setAt node ↔
      id ∈ sets.setAt node ∨ node < sets.size ∧ brings occurrence node id := by
    intro sets occurrence node id
    rw [IdSets.mem_setAt_add, mem_firstOf_iff wellFormed]
    constructor
    · rintro (old | ⟨rfl, inside, begins⟩)
      · exact .inl old
      · exact .inr ⟨inside, rfl, begins⟩
    · rintro (old | ⟨inside, rfl, begins⟩)
      · exact .inl old
      · exact .inr ⟨rfl, inside, begins⟩
  -- The outer fold is over the productions, with the fold over one right-hand side as its step.
  let pass (sets : IdSets) (production : Production) : IdSets :=
    (occurrences production.right).foldl step sets
  have passSizes : ∀ sets production, (pass sets production).size = sets.size :=
    fun sets production => IdSets.size_foldl sizes _ sets
  have passMembers : ∀ sets production node id, id ∈ (pass sets production).setAt node ↔
      id ∈ sets.setAt node ∨ node < sets.size ∧
        ∃ occurrence ∈ occurrences production.right, brings occurrence node id :=
    fun _ _ _ _ => IdSets.mem_foldl sizes members
  have seeds : g.followSeeds g.firstSets = g.productions.toList.foldl pass g.followBases := rfl
  have size : g.followBases.size = g.nonterminals.size := by simp [followBases]
  rw [seeds, IdSets.mem_foldl passSizes passMembers, mem_followBases wellFormed, size]
  apply or_congr_right
  constructor
  · rintro ⟨-, production, listed, ⟨m, rest⟩, occurs, rfl, begins⟩
    obtain ⟨p, found⟩ := mem_productions_iff.mp listed
    obtain ⟨before, split⟩ := mem_occurrences.mp occurs
    exact ⟨p, production, before, rest, found, split, begins⟩
  · rintro ⟨p, production, before, rest, found, split, begins⟩
    have declared := wellFormed.declared_of_mem found (split ▸ List.mem_append_right before
      List.mem_cons_self)
    exact ⟨declared.2, production, mem_productions_iff.mpr ⟨p, found⟩, (n, rest),
      mem_occurrences.mpr ⟨before, split⟩, rfl, begins⟩

theorem mem_followFlows {flow : Flow} (wellFormed : g.WellFormed) :
    flow ∈ g.followFlows g.firstSets ↔ ∃ p production n before rest,
      g.production? p = some production ∧ production.right = before ++ .nonterminal n :: rest ∧
        g.Erases rest ∧ flow = .copy production.left n := by
  have vanishing {rest : List Symbol} : g.firstSets.vanishes rest = true ↔ g.Erases rest :=
    vanishes_nullable_iff wellFormed
  simp only [followFlows, List.mem_flatMap, List.mem_map, List.mem_filter, vanishing]
  constructor
  · rintro ⟨production, listed, ⟨n, rest⟩, ⟨occurs, erases⟩, rfl⟩
    obtain ⟨p, found⟩ := mem_productions_iff.mp listed
    obtain ⟨before, split⟩ := mem_occurrences.mp occurs
    exact ⟨p, production, n, before, rest, found, split, erases, rfl⟩
  · rintro ⟨p, production, n, before, rest, found, split, erases, rfl⟩
    exact ⟨production, mem_productions_iff.mpr ⟨p, found⟩, (n, rest),
      ⟨mem_occurrences.mpr ⟨before, split⟩, erases⟩, rfl⟩

theorem Follows.of_carried (wellFormed : g.WellFormed) {n t : Nat}
    (carried : Carried (g.followFlows g.firstSets) (g.followSeeds g.firstSets) n t) :
    g.Follows n t := by
  induction carried with
  | seed planted =>
    rcases (mem_followSeeds wellFormed).mp planted with
      ⟨rfl | rfl, rfl⟩ | ⟨p, production, before, rest, found, split, begins⟩
    · exact .augmented
    · exact .start
    · exact .behind found split begins
  | gain listed _ gained _ =>
    obtain ⟨p, production, n, before, rest, -, -, -, rfl⟩ := (mem_followFlows wellFormed).mp listed
    exact absurd gained (IdSet.not_mem_empty _)
  | relay listed _ _ ih =>
    obtain ⟨p, production, n, before, rest, found, split, erases, rfl⟩ :=
      (mem_followFlows wellFormed).mp listed
    exact .passed found split erases ih

theorem Follows.carried (wellFormed : g.WellFormed) {n t : Nat} (follows : g.Follows n t) :
    Carried (g.followFlows g.firstSets) (g.followSeeds g.firstSets) n t := by
  induction follows with
  | augmented => exact .seed ((mem_followSeeds wellFormed).mpr (.inl ⟨.inl rfl, rfl⟩))
  | start => exact .seed ((mem_followSeeds wellFormed).mpr (.inl ⟨.inr rfl, rfl⟩))
  | behind found split begins =>
    exact .seed ((mem_followSeeds wellFormed).mpr (.inr ⟨_, _, _, _, found, split, begins⟩))
  | passed found split erases _ ih =>
    have listed := (mem_followFlows wellFormed).mpr ⟨_, _, _, _, _, found, split, erases, rfl⟩
    exact .relay listed rfl ih

theorem size_followSeeds (first : FirstSets) :
    (g.followSeeds first).size = g.nonterminals.size := by
  unfold followSeeds
  rw [IdSets.size_foldl fun _ _ => IdSets.size_foldl (fun _ _ => IdSets.size_add ..) _ _]
  simp [followBases]

section

variable (wellFormed : g.WellFormed)
include wellFormed

theorem below_followSeeds : IdSets.Below g.terminals.size (g.followSeeds g.firstSets) := by
  intro n t planted
  rcases (mem_followSeeds wellFormed).mp planted with
    ⟨-, rfl⟩ | ⟨p, production, before, rest, found, split, begins⟩
  · exact wellFormed.terminals
  · refine (begins.declared wellFormed fun symbol member => ?_).2
    exact wellFormed.declared_of_mem found
      (split ▸ List.mem_append_right _ (List.mem_cons_of_mem _ member))

theorem lt_of_mem_gain_followFlows {width : Nat} : ∀ flow ∈ g.followFlows g.firstSets,
    ∀ id, id ∈ flow.gain → id < width := by
  intro flow listed id gained
  obtain ⟨p, production, n, before, rest, -, -, -, rfl⟩ := (mem_followFlows wellFormed).mp listed
  exact absurd gained (IdSet.not_mem_empty id)

theorem lt_size_of_mem_followFlows : ∀ flow ∈ g.followFlows g.firstSets,
    flow.source < (g.followSeeds g.firstSets).size ∧
      flow.target < (g.followSeeds g.firstSets).size := by
  intro flow listed
  obtain ⟨p, production, n, before, rest, found, split, -, rfl⟩ :=
    (mem_followFlows wellFormed).mp listed
  have declared := wellFormed.declared_of_mem found
    (split ▸ List.mem_append_right before List.mem_cons_self)
  rw [size_followSeeds]
  exact ⟨wellFormed.left_lt found, declared.2⟩

theorem lt_of_mem_follow {n t : Nat} (member : t ∈ (g.followSets g.firstSets).follow n) :
    t < g.terminals.size :=
  IdSets.below_saturate (below_followSeeds wellFormed) (lt_of_mem_gain_followFlows wellFormed)
    n t member

/-- The FOLLOW set of a nonterminal has the terminals that come after it. -/
theorem mem_follow {n t : Nat} :
    t ∈ (g.followSets g.firstSets).follow n ↔ g.Follows n t := by
  have saturated : t ∈ (g.followSets g.firstSets).follow n ↔
      Carried (g.followFlows g.firstSets) (g.followSeeds g.firstSets) n t :=
    IdSets.mem_saturate (below_followSeeds wellFormed) (lt_of_mem_gain_followFlows wellFormed)
      fun flow listed => (lt_size_of_mem_followFlows wellFormed flow listed).2
  rw [saturated]
  exact ⟨Follows.of_carried wellFormed, Follows.carried wellFormed⟩

end

end Grammar

end CanonicalLR
