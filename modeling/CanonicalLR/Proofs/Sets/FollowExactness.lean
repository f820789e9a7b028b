import CanonicalLR.Proofs.Sets.Follow

/-!
# FOLLOW sets are exact

What comes after a nonterminal is told by the derived strings that it stands in.
The passes over all occurrences of nonterminals, each of which is brought what
begins behind it and what comes after its left-hand side, end at the FOLLOW sets.
-/

namespace CanonicalLR

namespace Grammar

variable {g : Grammar}

/-! ## In derived strings -/

/-- What may come next behind a nonterminal of the string comes after that nonterminal. -/
def Heeds (g : Grammar) (t : Nat) (form : List Symbol) : Prop :=
  ∀ before n rest, form = before ++ .nonterminal n :: rest → g.Begins rest t → g.Follows n t

variable {form : List Symbol} {n t : Nat}

theorem Heeds.rewrites {later : List Symbol} (heeds : g.Heeds t form)
    (step : g.Rewrites form later) : g.Heeds t later := by
  intro before n rest split begins
  cases step with | @replace p production found front back
  rcases append_eq_append_cons split with ⟨middle, early, rfl⟩ | ⟨middle, -, late⟩
  · rcases append_eq_append_cons early with ⟨inner, rfl, rfl⟩ | ⟨inner, -, right⟩
    · -- The nonterminal stands before the one replaced: what is behind it has only been rewritten.
      have rewritten := Rewrites.replace found inner back
      exact heeds before n _ (List.append_assoc ..) (rewritten.begins begins)
    · rcases begins_append.mp begins with inside | ⟨erases, outside⟩
      · exact .behind found right inside
      · exact .passed found right erases (heeds front production.left back rfl outside)
  · exact heeds (front ++ .nonterminal production.left :: middle) n rest
      (by rw [late, List.append_assoc, List.cons_append]) begins

theorem Heeds.derives {later : List Symbol} (heeds : g.Heeds t form)
    (derived : g.Derives form later) : g.Heeds t later := by
  induction derived with
  | refl => exact heeds
  | tail _ step ih => exact ih.rewrites step

/-- A terminal comes after a nonterminal that it stands behind in a derived string. -/
theorem follows_of_derives {m : Nat} {before after : List Symbol}
    (derived : g.Derives [.nonterminal m] (before ++ .nonterminal n :: .terminal t :: after)) :
    g.Follows n t := by
  have alone : g.Heeds t [.nonterminal m] := by
    intro front k rest split begins
    have behind : rest = [] := by
      rcases List.append_eq_singleton_iff.mp split.symm with ⟨-, same⟩ | ⟨-, none⟩
      · exact (List.cons.inj same).2
      · cases none
    cases behind ▸ begins
  exact alone.derives derived before n _ rfl (.terminal t after)

/-- The end marker comes after a nonterminal that a derived string ends with. -/
theorem follows_of_derives_last {before : List Symbol}
    (derived : g.Derives [.nonterminal augmentedStart] (before ++ [.nonterminal n])) :
    g.Follows n endMarker := by
  -- The end marker is written behind the start symbol, where no step touches it.
  have marked := derived.append (derives_refl [.terminal endMarker])
  rw [List.append_assoc] at marked
  have start : g.Heeds endMarker [.nonterminal augmentedStart, .terminal endMarker] := by
    intro front k rest split begins
    cases front with
    | nil =>
      obtain ⟨same, -⟩ := List.cons.inj split
      exact Symbol.nonterminal.inj same ▸ .augmented
    | cons head tail =>
      have later := (List.cons.inj split).2
      rcases List.append_eq_singleton_iff.mp later.symm with ⟨-, same⟩ | ⟨-, none⟩
      · cases same
      · cases none
  exact start.derives marked before n _ rfl (.terminal endMarker [])

section

variable (wellFormed : g.WellFormed)
include wellFormed

/-- What comes after a nonterminal stands behind it in a derived string, or ends one with it. -/
theorem Follows.derives (follows : g.Follows n t) :
    (t ≠ endMarker → ∃ m before after, m < g.nonterminals.size ∧
      g.Derives [.nonterminal m] (before ++ .nonterminal n :: .terminal t :: after)) ∧
    (t = endMarker → ∃ before,
      g.Derives [.nonterminal augmentedStart] (before ++ [.nonterminal n])) := by
  induction follows with
  | augmented => exact ⟨fun other => absurd rfl other, fun _ => ⟨[], derives_refl _⟩⟩
  | start =>
    exact ⟨fun other => absurd rfl other, fun _ => ⟨[], derives_right wellFormed.augmented⟩⟩
  | @behind p n t production before rest found split begins =>
    have declared : endMarker < t ∧ t < g.terminals.size :=
      begins.declared wellFormed fun symbol member => wellFormed.declared_of_mem found
        (split ▸ List.mem_append_right before (List.mem_cons_of_mem _ member))
    refine ⟨fun _ => ?_, fun marker => absurd marker (Nat.ne_of_gt declared.1)⟩
    obtain ⟨after, derived⟩ := begins.derives
    have inside := derived.inContext (before ++ [.nonterminal n]) []
    simp only [List.append_nil, List.append_assoc, List.singleton_append] at inside
    refine ⟨production.left, before, after, wellFormed.left_lt found, ?_⟩
    exact (derives_right found).trans (split ▸ inside)
  | @passed p n t production before rest found split erases _ ih =>
    -- Where the left-hand side stands, the occurrence comes to stand before the same terminal.
    have opened (front back : List Symbol) :
        g.Derives (front ++ .nonterminal production.left :: back)
          (front ++ before ++ .nonterminal n :: back) := by
      have vanished := (erases_iff_derives.mp erases).inContext (before ++ [.nonterminal n]) []
      simp only [List.append_nil, List.append_assoc, List.singleton_append] at vanished
      have unfolded := ((derives_right found).trans (split ▸ vanished)).inContext front back
      simpa only [List.append_assoc, List.singleton_append, List.nil_append] using unfolded
    constructor
    · intro other
      obtain ⟨m, front, after, declared, derived⟩ := ih.1 other
      exact ⟨m, front ++ before, after, declared, derived.trans (opened front _)⟩
    · intro marker
      obtain ⟨front, derived⟩ := ih.2 marker
      exact ⟨front ++ before, derived.trans (opened front [])⟩

end

/-! ## In passes -/

/-- An occurrence of a nonterminal on a right-hand side, and the symbols behind it. -/
structure Site where
  left : Nat
  inner : Nat
  rest : List Symbol

/-- All occurrences, production by production. -/
def sites (g : Grammar) : List Site :=
  g.productions.toList.flatMap fun production =>
    (occurrences production.right).map fun (n, rest) => ⟨production.left, n, rest⟩

/-- What begins behind an occurrence comes after it, and if all that is behind it may vanish, what
comes after the left-hand side does so as well. -/
def followStep (first : FirstSets) (sets : IdSets) (site : Site) : IdSets :=
  let begun := sets.add site.inner (first.firstOf site.rest)
  if first.vanishes site.rest ∧ site.inner ≠ site.left then
    begun.add site.inner (begun.setAt site.left)
  else begun

def followPass (g : Grammar) (first : FirstSets) (sets : IdSets) : IdSets :=
  g.sites.foldl (followStep first) sets

theorem mem_sites {site : Site} : site ∈ g.sites ↔ ∃ p production before,
    g.production? p = some production ∧ production.left = site.left ∧
      production.right = before ++ .nonterminal site.inner :: site.rest := by
  simp only [sites, List.mem_flatMap, List.mem_map]
  constructor
  · rintro ⟨production, listed, ⟨n, rest⟩, occurs, rfl⟩
    obtain ⟨p, found⟩ := mem_productions_iff.mp listed
    obtain ⟨before, split⟩ := mem_occurrences.mp occurs
    exact ⟨p, production, before, found, rfl, split⟩
  · rintro ⟨p, production, before, found, left, split⟩
    refine ⟨production, mem_productions_iff.mpr ⟨p, found⟩, (site.inner, site.rest),
      mem_occurrences.mpr ⟨before, split⟩, ?_⟩
    rw [left]

variable {first : FirstSets} {sets : IdSets} {site : Site}

theorem size_followStep : (followStep first sets site).size = sets.size := by
  unfold followStep
  dsimp only
  split <;> simp

/-- Leaving out the left-hand side itself makes no difference. -/
theorem mem_followStep : t ∈ (followStep first sets site).setAt n ↔
    t ∈ sets.setAt n ∨ n = site.inner ∧ site.inner < sets.size ∧
      (t ∈ first.firstOf site.rest ∨
        first.vanishes site.rest = true ∧ t ∈ sets.setAt site.left) := by
  unfold followStep
  dsimp only
  split
  · rename_i passes
    simp only [IdSets.mem_setAt_add, IdSets.size_add, passes.1, Ne.symm passes.2, true_and,
      false_and, or_false, or_assoc, and_or_left]
  · rename_i idle
    rw [IdSets.mem_setAt_add]
    constructor
    · rintro (old | ⟨here, inside, begun⟩)
      · exact .inl old
      · exact .inr ⟨here, inside, .inl begun⟩
    · rintro (old | ⟨rfl, inside, begun | ⟨vanishes, outer⟩⟩)
      · exact .inl old
      · exact .inr ⟨rfl, inside, begun⟩
      · have loop : site.inner = site.left := by
          by_contra other
          exact idle ⟨vanishes, other⟩
        exact .inl (loop ▸ outer)

theorem size_followPass : (g.followPass first sets).size = sets.size :=
  IdSets.size_foldl (fun _ _ => size_followStep) _ _

theorem mem_foldl_followStep_of_mem {sites : List Site} (member : t ∈ sets.setAt n) :
    t ∈ (sites.foldl (followStep first) sets).setAt n := by
  induction sites generalizing sets with
  | nil => exact member
  | cons site rest ih => exact ih (mem_followStep.mpr (.inl member))

/-- A pass brings to every occurrence what the sets before it have for it. -/
theorem mem_followPass_of_mem_sites (listed : site ∈ g.sites) (inside : site.inner < sets.size)
    (brought : t ∈ first.firstOf site.rest ∨
      first.vanishes site.rest = true ∧ t ∈ sets.setAt site.left) :
    t ∈ (g.followPass first sets).setAt site.inner := by
  unfold followPass
  generalize g.sites = sites at listed
  induction sites generalizing sets with
  | nil => exact absurd listed List.not_mem_nil
  | cons head rest ih =>
    rw [List.foldl_cons]
    rcases List.mem_cons.mp listed with rfl | later
    · have added : t ∈ (followStep first sets site).setAt site.inner :=
        mem_followStep.mpr (.inr ⟨rfl, inside, brought⟩)
      exact mem_foldl_followStep_of_mem added
    · have kept {m : Nat} (old : t ∈ sets.setAt m) :
          t ∈ (followStep first sets head).setAt m := mem_followStep.mpr (.inl old)
      exact ih (size_followStep.symm ▸ inside)
        (brought.imp_right fun passed => ⟨passed.1, kept passed.2⟩) later

section

variable (wellFormed : g.WellFormed)
include wellFormed

/-- All members of a family come after the nonterminals whose sets they are in. -/
def Heeded (g : Grammar) (sets : IdSets) : Prop :=
  ∀ n t, t ∈ sets.setAt n → g.Follows n t

theorem Heeded.pass (heeded : g.Heeded sets) : g.Heeded (g.followPass g.firstSets sets) := by
  have kept : ∀ sites : List Site, (∀ site ∈ sites, site ∈ g.sites) → ∀ sets, g.Heeded sets →
      g.Heeded (sites.foldl (followStep g.firstSets) sets) := by
    intro sites
    induction sites with
    | nil => exact fun _ _ heeded => heeded
    | cons site rest ih =>
      intro listed sets heeded
      apply ih (fun other later => listed other (List.mem_cons_of_mem _ later))
      intro n t member
      obtain ⟨p, production, before, found, left, split⟩ :=
        mem_sites.mp (listed site List.mem_cons_self)
      rcases mem_followStep.mp member with old | ⟨rfl, -, begun | ⟨vanishes, outer⟩⟩
      · exact heeded n t old
      · exact .behind found split ((mem_firstOf_iff wellFormed).mp begun)
      · exact .passed found split ((vanishes_nullable_iff wellFormed).mp vanishes)
          (left ▸ heeded _ t outer)
  exact kept g.sites (fun _ listed => listed) sets heeded

/-- A family that a pass leaves as it is has been brought all that comes after a nonterminal. -/
theorem Follows.mem_of_fixed (follows : g.Follows n t)
    (fixed : g.followPass g.firstSets sets = sets) (size : sets.size = g.nonterminals.size)
    (based : ∀ n t, t ∈ g.followBases.setAt n → t ∈ sets.setAt n) : t ∈ sets.setAt n := by
  have brought {p n t : Nat} {production : Production} {before rest : List Symbol}
      (found : g.production? p = some production)
      (split : production.right = before ++ .nonterminal n :: rest)
      (bring : t ∈ g.firstSets.firstOf rest ∨
        g.firstSets.vanishes rest = true ∧ t ∈ sets.setAt production.left) :
      t ∈ sets.setAt n := by
    have listed : ⟨production.left, n, rest⟩ ∈ g.sites :=
      mem_sites.mpr ⟨p, production, before, found, rfl, split⟩
    have declared := wellFormed.declared_of_mem found
      (split ▸ List.mem_append_right before List.mem_cons_self)
    have passed := mem_followPass_of_mem_sites listed (size.symm ▸ declared.2) bring
    rwa [fixed] at passed
  induction follows with
  | augmented => exact based _ _ ((mem_followBases wellFormed).mpr ⟨.inl rfl, rfl⟩)
  | start => exact based _ _ ((mem_followBases wellFormed).mpr ⟨.inr rfl, rfl⟩)
  | behind found split begins =>
    exact brought found split (.inl ((mem_firstOf_iff wellFormed).mpr begins))
  | passed found split erases _ ih =>
    exact brought found split (.inr ⟨(vanishes_nullable_iff wellFormed).mpr erases, ih⟩)

/-- The passes that start with the end marker alone end at the FOLLOW sets. -/
theorem followPass_converges :
    Converges (g.followPass g.firstSets) g.followBases (g.followSets g.firstSets).sets := by
  let final := stabilize (g.followPass g.firstSets)
    (g.followBases.size * g.terminals.size + 1) g.followBases
  have bases : g.Heeded g.followBases := by
    intro n t member
    obtain ⟨rfl | rfl, rfl⟩ := (mem_followBases wellFormed).mp member
    · exact .augmented
    · exact .start
  have fixed : g.followPass g.firstSets final = final := by
    refine IdSets.stabilize_growing (fun _ heeded => heeded.pass wellFormed) ?_
      (fun _ => size_followPass) mem_foldl_followStep_of_mem bases
    exact fun sets heeded n t member =>
      lt_of_mem_follow wellFormed ((mem_follow wellFormed).mpr (heeded n t member))
  let grown (sets : IdSets) : Prop := g.Heeded sets ∧ sets.size = g.nonterminals.size ∧
    ∀ n t, t ∈ g.followBases.setAt n → t ∈ sets.setAt n
  have kept : ∀ sets, grown sets → grown (g.followPass g.firstSets sets) :=
    fun sets ⟨heeded, size, based⟩ => ⟨heeded.pass wellFormed, size_followPass.trans size,
      fun n t member => mem_foldl_followStep_of_mem (based n t member)⟩
  obtain ⟨heeded, size, based⟩ : grown final :=
    stabilize_induction kept _ ⟨bases, by simp [followBases], fun _ _ member => member⟩
  have same : final = (g.followSets g.firstSets).sets := by
    apply IdSets.eq_of_setAt
    · rw [followSets, IdSets.size_saturate, size_followSeeds, size]
    · intro n
      ext t
      refine Iff.trans ?_ (mem_follow wellFormed).symm
      exact ⟨heeded n t, fun follows => follows.mem_of_fixed wellFormed fixed size based⟩
  exact same ▸ converges_stabilize fixed

end

/-- The computation of FOLLOW sets ends, and its results are exact: a nonterminal has the terminals
that stand right behind it in the strings derived from any nonterminal, and it has the end marker
exactly if the augmented start symbol derives a string that ends with it. -/
theorem follow_exact {calls : List Call} (defined : Grammar.ofCalls calls = .ok g) :
    Converges (g.followPass g.firstSets) g.followBases (g.followSets g.firstSets).sets ∧
    ∀ n,
      (∀ t, t ≠ endMarker → (t ∈ (g.followSets g.firstSets).follow n ↔
        ∃ m before after, m < g.nonterminals.size ∧
          g.Derives [.nonterminal m] (before ++ .nonterminal n :: .terminal t :: after))) ∧
      (endMarker ∈ (g.followSets g.firstSets).follow n ↔
        ∃ before, g.Derives [.nonterminal augmentedStart] (before ++ [.nonterminal n])) := by
  have wellFormed := wellFormed_ofCalls defined
  refine ⟨followPass_converges wellFormed, fun n => ⟨fun t user => ?_, ?_⟩⟩
  · rw [mem_follow wellFormed]
    constructor
    · exact fun follows => (follows.derives wellFormed).1 user
    · rintro ⟨m, before, after, -, derived⟩
      exact follows_of_derives derived
  · rw [mem_follow wellFormed]
    constructor
    · exact fun follows => (follows.derives wellFormed).2 rfl
    · rintro ⟨before, derived⟩
      exact follows_of_derives_last derived

/-- `S -> A R`, `A -> a`, `R -> b R | ε`, and `U -> S d U`, which no word can be derived from. -/
def aside : Grammar where
  terminals := #["$", "a", "b", "d"]
  nonterminals := #["S'", "S", "A", "R", "U"]
  productions := #[⟨0, [.nonterminal 1]⟩, ⟨1, [.nonterminal 2, .nonterminal 3]⟩,
    ⟨2, [.terminal 1]⟩, ⟨3, [.terminal 2, .nonterminal 3]⟩, ⟨3, []⟩,
    ⟨4, [.nonterminal 1, .terminal 3, .nonterminal 4]⟩]
  start := 1

def asideCalls : List Call :=
  [.terminal "a", .terminal "b", .terminal "d",
    .nonterminal "S", .nonterminal "A", .nonterminal "R", .nonterminal "U",
    .production 1 [.nonterminal 2, .nonterminal 3], .production 2 [.terminal 1],
    .production 3 [.terminal 2, .nonterminal 3], .production 3 [],
    .production 4 [.nonterminal 1, .terminal 3, .nonterminal 4]]

theorem ofCalls_aside : Grammar.ofCalls asideCalls = .ok aside := by
  decide +kernel

/-- A `b` may stand behind an `A`, and as an `R` may vanish, so may the `d` that only `U` brings; a
derived string may end with an `A`, but not with a `U`. -/
theorem aside_follows :
    (∀ t, t ≠ endMarker → ((∃ m before after, m < aside.nonterminals.size ∧
        aside.Derives [.nonterminal m] (before ++ .nonterminal 2 :: .terminal t :: after)) ↔
      t = 2 ∨ t = 3)) ∧
    (∃ before, aside.Derives [.nonterminal augmentedStart] (before ++ [.nonterminal 2])) ∧
    ¬ ∃ before, aside.Derives [.nonterminal augmentedStart] (before ++ [.nonterminal 4]) := by
  obtain ⟨-, exact⟩ := follow_exact ofCalls_aside
  have behindA : (aside.followSets aside.firstSets).follow 2 = IdSet.ofList [0, 2, 3] := by
    decide +kernel
  have behindU : (aside.followSets aside.firstSets).follow 4 = ∅ := by decide +kernel
  refine ⟨fun t user => ?_, ?_, ?_⟩
  · rw [← (exact 2).1 t user, behindA, IdSet.mem_ofList]
    simp [show t ≠ 0 from user]
  · rw [← (exact 2).2, behindA]
    simp [endMarker]
  · rw [← (exact 4).2, behindU]
    exact IdSet.not_mem_empty _

end Grammar

end CanonicalLR
