import CanonicalLR.Proofs.Grammar.Beginning
import CanonicalLR.Proofs.Grammar.WellFormed
import CanonicalLR.Proofs.Saturation
import CanonicalLR.Sets.Nullable

/-!
# The nullable nonterminals are those that derive the empty string

The passes only add what derives the empty string, and one that adds nothing
has found every left-hand side whose right-hand side vanishes.
-/

namespace CanonicalLR

theorem vanishes_iff {nullable : IdSet} {symbols : List Symbol} :
    vanishes nullable symbols = true ↔
      ∀ symbol ∈ symbols, ∃ n, symbol = .nonterminal n ∧ n ∈ nullable := by
  rw [vanishes, List.all_eq_true]
  refine forall₂_congr fun symbol _ => ?_
  cases symbol with
  | terminal t => simp [Symbol.isNullable]
  | nonterminal n => simp [Symbol.isNullable]

theorem vanishes_mono {first second : IdSet} {symbols : List Symbol} (within : first ⊆ second)
    (vanishing : vanishes first symbols = true) : vanishes second symbols = true := by
  rw [vanishes_iff] at vanishing ⊢
  intro symbol member
  obtain ⟨n, same, inside⟩ := vanishing symbol member
  exact ⟨n, same, within n inside⟩

namespace Grammar

variable {g : Grammar}

theorem mem_productions_iff {production : Production} :
    production ∈ g.productions.toList ↔ ∃ p, g.production? p = some production := by
  rw [Array.mem_toList_iff, Array.mem_iff_getElem?]
  rfl

/-! ## One pass -/

/-- What one production does in a pass. -/
def nullableStep (known : IdSet) (production : Production) : IdSet :=
  if production.left ∉ known ∧ vanishes known production.right then
    known.insert production.left
  else known

theorem mem_nullableStep {known : IdSet} {production : Production} {n : Nat} :
    n ∈ nullableStep known production ↔
      n ∈ known ∨ n = production.left ∧ vanishes known production.right = true := by
  unfold nullableStep
  split
  · rename_i fresh
    simp [fresh.2, or_comm]
  · rename_i idle
    constructor
    · exact .inl
    · rintro (member | ⟨rfl, vanishing⟩)
      · exact member
      · by_contra absent
        exact idle ⟨absent, vanishing⟩

theorem mem_foldl_nullableStep_of_mem {productions : List Production} {known : IdSet} {n : Nat}
    (member : n ∈ known) : n ∈ productions.foldl nullableStep known := by
  induction productions generalizing known with
  | nil => exact member
  | cons production rest ih => exact ih (mem_nullableStep.mpr (.inl member))

theorem mem_foldl_nullableStep_of_vanishes {productions : List Production} {known : IdSet}
    {production : Production} (listed : production ∈ productions)
    (vanishing : vanishes known production.right = true) :
    production.left ∈ productions.foldl nullableStep known := by
  induction productions generalizing known with
  | nil => exact absurd listed List.not_mem_nil
  | cons head rest ih =>
    rcases List.mem_cons.mp listed with rfl | later
    · have added : production.left ∈ nullableStep known production :=
        mem_nullableStep.mpr (.inr ⟨rfl, vanishing⟩)
      show production.left ∈ rest.foldl nullableStep (nullableStep known production)
      exact mem_foldl_nullableStep_of_mem added
    · have grown : known ⊆ nullableStep known head :=
        fun _ member => mem_nullableStep.mpr (.inl member)
      exact ih later (vanishes_mono grown vanishing)

/-- All members derive the empty string. -/
def EmptyDeriving (g : Grammar) (known : IdSet) : Prop :=
  ∀ n, n ∈ known → n < g.nonterminals.size ∧ g.Erases [.nonterminal n]

theorem EmptyDeriving.erases {known : IdSet} (sound : g.EmptyDeriving known)
    {symbols : List Symbol} (vanishing : vanishes known symbols = true) : g.Erases symbols := by
  rw [erases_all]
  intro symbol member
  obtain ⟨n, rfl, inside⟩ := vanishes_iff.mp vanishing symbol member
  exact (sound n inside).2

section

variable (wellFormed : g.WellFormed)
include wellFormed

theorem EmptyDeriving.pass {known : IdSet} (sound : g.EmptyDeriving known) :
    g.EmptyDeriving (g.nullablePass known) := by
  have kept : ∀ productions : List Production, (∀ production ∈ productions,
      ∃ p, g.production? p = some production) → ∀ known : IdSet, g.EmptyDeriving known →
        g.EmptyDeriving (productions.foldl nullableStep known) := by
    intro productions
    induction productions with
    | nil => exact fun _ _ sound => sound
    | cons production rest ih =>
      intro listed known sound
      apply ih (fun other later => listed other (List.mem_cons_of_mem _ later))
      intro n member
      rcases mem_nullableStep.mp member with old | ⟨rfl, vanishing⟩
      · exact sound n old
      · obtain ⟨p, found⟩ := listed production List.mem_cons_self
        have erased := sound.erases vanishing
        exact ⟨wellFormed.left_lt found,
          erases_nonterminal_iff.mpr ⟨p, production, found, rfl, erased⟩⟩
  exact kept _ (fun production member => mem_productions_iff.mp member) known sound

/-! ## The fixed point -/

theorem emptyDeriving_nullable : g.EmptyDeriving g.nullable := by
  have kept : ∀ known, g.EmptyDeriving known → g.EmptyDeriving (g.nullablePass known) :=
    fun _ sound => EmptyDeriving.pass wellFormed sound
  exact stabilize_induction kept _ fun n member => absurd member (IdSet.not_mem_empty n)

/-- As many passes as there are nonterminals, and one more, end at a fixed point. -/
theorem EmptyDeriving.nullablePass_stabilize {known : IdSet} (sound : g.EmptyDeriving known) :
    g.nullablePass (stabilize g.nullablePass (g.nonterminals.size + 1) known) =
      stabilize g.nullablePass (g.nonterminals.size + 1) known := by
  let members (known : IdSet) : Finset Nat :=
    (Finset.range g.nonterminals.size).filter fun n => n ∈ known
  have mem_members {known : IdSet} (sound : g.EmptyDeriving known) {n : Nat} :
      n ∈ members known ↔ n ∈ known := by
    simp only [members, Finset.mem_filter, Finset.mem_range, and_iff_right_iff_imp]
    exact fun member => (sound n member).1
  have kept : ∀ known, g.EmptyDeriving known → g.EmptyDeriving (g.nullablePass known) :=
    fun _ sound => EmptyDeriving.pass wellFormed sound
  refine stabilize_fixed_of_view kept members (Finset.range g.nonterminals.size) ?_ ?_ ?_ _ sound
    (by simp)
  · exact fun known _ => Finset.filter_subset _ _
  · intro known sound n member
    exact (mem_members (kept known sound)).mpr
      (mem_foldl_nullableStep_of_mem ((mem_members sound).mp member))
  · intro known sound back
    ext n
    constructor
    · intro member
      exact (mem_members sound).mp (back ((mem_members (kept known sound)).mpr member))
    · exact mem_foldl_nullableStep_of_mem

theorem nullablePass_nullable : g.nullablePass g.nullable = g.nullable :=
  EmptyDeriving.nullablePass_stabilize wellFormed
    fun n member => absurd member (IdSet.not_mem_empty n)

omit wellFormed in
/-- A set that a pass does not change has all that vanishes. -/
theorem mem_of_vanishes {known : IdSet} (fixed : g.nullablePass known = known) {p : Nat}
    {production : Production} (found : g.production? p = some production)
    (vanishing : vanishes known production.right = true) : production.left ∈ known := by
  rw [← fixed]
  exact mem_foldl_nullableStep_of_vanishes (mem_productions_iff.mpr ⟨p, found⟩) vanishing

omit wellFormed in
theorem vanishes_of_forest {known : IdSet} (fixed : g.nullablePass known = known)
    {symbols : List Symbol} {trees : List ParseTree} (forest : g.Forest symbols trees)
    (bare : ParseTree.frontiers trees = []) : vanishes known symbols = true := by
  induction forest with
  | nil => rfl
  | leaf t rest => simp [ParseTree.frontiers, ParseTree.frontier] at bare
  | node found below rest ihBelow ihRest =>
    rw [ParseTree.frontiers, ParseTree.frontier, List.append_eq_nil_iff] at bare
    have inside := mem_of_vanishes fixed found (ihBelow bare.1)
    rw [vanishes_cons, ihRest bare.2]
    simp [Symbol.isNullable, inside]

omit wellFormed in
/-- A fixed point whose members derive the empty string tells which strings do. -/
theorem EmptyDeriving.vanishes_iff_erases {known : IdSet} (sound : g.EmptyDeriving known)
    (fixed : g.nullablePass known = known) {symbols : List Symbol} :
    vanishes known symbols = true ↔ g.Erases symbols := by
  constructor
  · exact sound.erases
  · rintro ⟨trees, forest, bare⟩
    exact vanishes_of_forest fixed forest bare

theorem vanishes_nullable_iff {symbols : List Symbol} :
    vanishes g.nullable symbols = true ↔ g.Erases symbols :=
  (emptyDeriving_nullable wellFormed).vanishes_iff_erases (nullablePass_nullable wellFormed)

theorem mem_nullable {n : Nat} : n ∈ g.nullable ↔ g.Erases [.nonterminal n] := by
  rw [← vanishes_nullable_iff wellFormed]
  simp [vanishes, Symbol.isNullable]

/-- From every set within the result, such as the empty set or the left-hand sides of the empty
productions, the passes end at the result. -/
theorem nullablePass_converges {known : IdSet} (within : known ⊆ g.nullable) :
    Converges g.nullablePass known g.nullable := by
  let final := stabilize g.nullablePass (g.nonterminals.size + 1) known
  have sound : g.EmptyDeriving known :=
    fun n member => emptyDeriving_nullable wellFormed n (within n member)
  have finalSound : g.EmptyDeriving final :=
    stabilize_induction (fun _ sound => EmptyDeriving.pass wellFormed sound) _ sound
  have fixed : g.nullablePass final = final := sound.nullablePass_stabilize wellFormed
  have same : final = g.nullable := by
    ext n
    rw [mem_nullable wellFormed, ← finalSound.vanishes_iff_erases fixed]
    simp [vanishes, Symbol.isNullable]
  exact same ▸ converges_stabilize fixed

end

end Grammar

end CanonicalLR
