import CanonicalLR.Proofs.Grammar.Forest

/-!
# How derived strings begin

A symbol string may derive the empty string, or a string that begins with a
given terminal. Both are told from the symbols one by one, from left to right.
-/

namespace CanonicalLR.Grammar

variable {g : Grammar}

/-! ## The empty string -/

/-- All symbols of a string vanish. -/
def Erases (g : Grammar) (symbols : List Symbol) : Prop :=
  ∃ trees, g.Forest symbols trees ∧ ParseTree.frontiers trees = []

theorem erases_iff_derives {symbols : List Symbol} :
    g.Erases symbols ↔ g.Derives symbols [] := by
  rw [← spelled_nil, derives_spelled_iff]
  rfl

theorem erases_nil : g.Erases [] :=
  ⟨[], .nil, rfl⟩

theorem erases_append {first second : List Symbol} :
    g.Erases (first ++ second) ↔ g.Erases first ∧ g.Erases second := by
  constructor
  · rintro ⟨trees, forest, bare⟩
    obtain ⟨left, right, rfl, leftForest, rightForest⟩ := forest.of_append
    rw [ParseTree.frontiers_append, List.append_eq_nil_iff] at bare
    exact ⟨⟨left, leftForest, bare.1⟩, ⟨right, rightForest, bare.2⟩⟩
  · rintro ⟨⟨left, leftForest, leftBare⟩, ⟨right, rightForest, rightBare⟩⟩
    exact ⟨left ++ right, leftForest.append rightForest, by simp [leftBare, rightBare]⟩

theorem erases_cons {symbol : Symbol} {rest : List Symbol} :
    g.Erases (symbol :: rest) ↔ g.Erases [symbol] ∧ g.Erases rest := by
  rw [← List.singleton_append, erases_append]

theorem erases_all {symbols : List Symbol} :
    g.Erases symbols ↔ ∀ symbol ∈ symbols, g.Erases [symbol] := by
  induction symbols with
  | nil => simp [erases_nil]
  | cons head tail ih => rw [erases_cons, ih, List.forall_mem_cons]

theorem not_erases_terminal (t : Nat) : ¬ g.Erases [.terminal t] := by
  rintro ⟨trees, forest, bare⟩
  cases forest with
  | leaf _ rest => simp [ParseTree.frontiers, ParseTree.frontier] at bare

theorem erases_nonterminal_iff {n : Nat} :
    g.Erases [.nonterminal n] ↔ ∃ p production, g.production? p = some production ∧
      production.left = n ∧ g.Erases production.right := by
  constructor
  · rintro ⟨trees, forest, bare⟩
    cases forest with
    | @node p production _ children _ found below rest =>
      rw [ParseTree.frontiers, ParseTree.frontier, List.append_eq_nil_iff] at bare
      obtain ⟨none, -⟩ := bare
      exact ⟨p, production, found, rfl, children, below, none⟩
  · rintro ⟨p, production, found, rfl, children, below, none⟩
    exact ⟨_, .single found below, by simp [ParseTree.frontiers, ParseTree.frontier, none]⟩

/-! ## The first terminal -/

/-- A string derived from the symbols begins with a terminal. -/
inductive Begins (g : Grammar) : List Symbol → Nat → Prop where
  | terminal (t : Nat) (rest : List Symbol) : g.Begins (.terminal t :: rest) t
  | skip {n t : Nat} {rest : List Symbol} (vanishing : g.Erases [.nonterminal n])
      (later : g.Begins rest t) : g.Begins (.nonterminal n :: rest) t
  | enter {p t : Nat} {production : Production} (found : g.production? p = some production)
      (below : g.Begins production.right t) (rest : List Symbol) :
      g.Begins (.nonterminal production.left :: rest) t

theorem Begins.append_right {symbols : List Symbol} {t : Nat} (begins : g.Begins symbols t)
    (more : List Symbol) : g.Begins (symbols ++ more) t := by
  induction begins with
  | terminal t rest => exact .terminal t (rest ++ more)
  | skip vanishing _ ih => exact .skip vanishing ih
  | enter found below rest _ => exact .enter found below (rest ++ more)

theorem Begins.append_left {first second : List Symbol} {t : Nat} (vanishing : g.Erases first)
    (begins : g.Begins second t) : g.Begins (first ++ second) t := by
  induction first with
  | nil => exact begins
  | cons symbol rest ih =>
    obtain ⟨head, tail⟩ := erases_cons.mp vanishing
    cases symbol with
    | terminal other => exact absurd head (not_erases_terminal other)
    | nonterminal n => exact .skip head (ih tail)

theorem begins_append {first second : List Symbol} {t : Nat} :
    g.Begins (first ++ second) t ↔ g.Begins first t ∨ g.Erases first ∧ g.Begins second t := by
  constructor
  · intro begins
    induction first with
    | nil => exact .inr ⟨erases_nil, begins⟩
    | cons symbol rest ih =>
      cases begins with
      | terminal => exact .inl (.terminal t rest)
      | skip vanishing later =>
        rcases ih later with inside | ⟨erased, after⟩
        · exact .inl (.skip vanishing inside)
        · exact .inr ⟨erases_cons.mpr ⟨vanishing, erased⟩, after⟩
      | enter found below => exact .inl (.enter found below rest)
  · rintro (inside | ⟨erased, after⟩)
    · exact inside.append_right second
    · exact .append_left erased after

theorem begins_split {before after : List Symbol} {symbol : Symbol} {t : Nat}
    (vanishing : g.Erases before) (begins : g.Begins [symbol] t) :
    g.Begins (before ++ symbol :: after) t :=
  .append_left vanishing (begins.append_right after)

theorem Begins.derives {symbols : List Symbol} {t : Nat} (begins : g.Begins symbols t) :
    ∃ rest, g.Derives symbols (.terminal t :: rest) := by
  induction begins with
  | terminal t rest => exact ⟨rest, derives_refl _⟩
  | skip vanishing _ ih =>
    obtain ⟨rest, derived⟩ := ih
    exact ⟨rest, (erases_iff_derives.mp vanishing).append derived⟩
  | enter found _ rest ih =>
    obtain ⟨inner, derived⟩ := ih
    have inside := ((derives_right found).trans derived).append (derives_refl rest)
    exact ⟨inner ++ rest, inside⟩

theorem Rewrites.begins {first second : List Symbol} {t : Nat} (step : g.Rewrites first second)
    (begins : g.Begins second t) : g.Begins first t := by
  obtain ⟨found, before, after⟩ := step
  rw [List.append_assoc] at begins
  rcases begins_append.mp begins with early | ⟨erased, later⟩
  · exact early.append_right _
  · apply Begins.append_left erased
    rcases begins_append.mp later with inside | ⟨vanishing, outside⟩
    · exact .enter found inside after
    · exact .skip (erases_nonterminal_iff.mpr ⟨_, _, found, rfl, vanishing⟩) outside

theorem begins_iff_derives {symbols : List Symbol} {t : Nat} :
    g.Begins symbols t ↔ ∃ rest, g.Derives symbols (.terminal t :: rest) := by
  constructor
  · exact Begins.derives
  · rintro ⟨rest, derived⟩
    induction derived using Relation.ReflTransGen.head_induction_on with
    | refl => exact .terminal t rest
    | head step _ ih => exact step.begins ih

/-- The leaves of a forest tell how the derived string begins. -/
theorem Forest.begins {symbols : List Symbol} {trees : List ParseTree} {t : Nat}
    {word : List Nat} (forest : g.Forest symbols trees)
    (leaves : ParseTree.frontiers trees = t :: word) : g.Begins symbols t := by
  have derived := forest.derives
  rw [leaves] at derived
  exact begins_iff_derives.mpr ⟨spelled word, derived⟩

end CanonicalLR.Grammar
