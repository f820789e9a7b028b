import CanonicalLR.Proofs.Grammar.Derivation
import CanonicalLR.Tree

/-!
# Forests over a grammar

A row of parse trees, one below each symbol of a string, in which the children
of every node match the right-hand side of its production. The symbol strings
that derive a word are those that carry a forest with that word at its leaves.
-/

namespace CanonicalLR

namespace ParseTree

@[simp] theorem frontiers_append (first second : List ParseTree) :
    frontiers (first ++ second) = frontiers first ++ frontiers second := by
  induction first with
  | nil => rfl
  | cons tree rest ih => simp only [List.cons_append, frontiers, ih, List.append_assoc]

end ParseTree

namespace Grammar

inductive Forest (g : Grammar) : List Symbol → List ParseTree → Prop where
  | nil : g.Forest [] []
  | leaf (t : Nat) {symbols : List Symbol} {trees : List ParseTree}
      (rest : g.Forest symbols trees) : g.Forest (.terminal t :: symbols) (.leaf t :: trees)
  | node {p : Nat} {production : Production} {symbols : List Symbol}
      {children trees : List ParseTree} (found : g.production? p = some production)
      (below : g.Forest production.right children) (rest : g.Forest symbols trees) :
      g.Forest (.nonterminal production.left :: symbols) (.node p children :: trees)

variable {g : Grammar}

namespace Forest

theorem append {first second : List Symbol} {left right : List ParseTree}
    (earlier : g.Forest first left) (later : g.Forest second right) :
    g.Forest (first ++ second) (left ++ right) := by
  induction earlier with
  | nil => exact later
  | leaf t _ ih => exact .leaf t ih
  | node found below _ _ ih => exact .node found below ih

theorem of_append {first second : List Symbol} {trees : List ParseTree}
    (forest : g.Forest (first ++ second) trees) :
    ∃ left right, trees = left ++ right ∧ g.Forest first left ∧ g.Forest second right := by
  induction first generalizing trees with
  | nil => exact ⟨[], trees, rfl, .nil, forest⟩
  | cons symbol rest ih =>
    cases forest with
    | leaf t later =>
      obtain ⟨left, right, rfl, leftForest, rightForest⟩ := ih later
      exact ⟨_ :: left, right, rfl, .leaf t leftForest, rightForest⟩
    | node found below later =>
      obtain ⟨left, right, rfl, leftForest, rightForest⟩ := ih later
      exact ⟨_ :: left, right, rfl, .node found below leftForest, rightForest⟩

theorem of_spelled (word : List Nat) : g.Forest (spelled word) (word.map .leaf) := by
  induction word with
  | nil => exact .nil
  | cons t rest ih => exact .leaf t ih

theorem single {p : Nat} {production : Production} {children : List ParseTree}
    (found : g.production? p = some production) (below : g.Forest production.right children) :
    g.Forest [.nonterminal production.left] [.node p children] :=
  .node found below .nil

/-- The preorder list of a forest's productions, from right to left, is a rightmost derivation. -/
theorem derivesRightmost {symbols : List Symbol} {trees : List ParseTree}
    (forest : g.Forest symbols trees) :
    g.DerivesRightmost (ParseTree.rightmostDerivations trees) symbols
      (spelled (ParseTree.frontiers trees)) := by
  induction forest with
  | nil => exact .refl []
  | leaf t _ ih =>
    have later := ih.inContext [.terminal t] []
    simpa [ParseTree.rightmostDerivations, ParseTree.rightmostDerivation, ParseTree.frontiers,
      ParseTree.frontier] using later
  | @node p production symbols children trees found _ _ ihBelow ihRest =>
    have restFirst := ihRest.inContext [.nonterminal production.left] []
    have step := RewritesLast.replace found [] (ParseTree.frontiers trees)
    have belowLast := ihBelow.inContext [] (ParseTree.frontiers trees)
    simp only [List.nil_append, List.append_nil, spelled_nil] at restFirst step belowLast
    have whole := restFirst.trans (.head step belowLast)
    simpa [ParseTree.rightmostDerivations, ParseTree.rightmostDerivation, ParseTree.frontiers,
      ParseTree.frontier] using whole

theorem derives {symbols : List Symbol} {trees : List ParseTree}
    (forest : g.Forest symbols trees) :
    g.Derives symbols (spelled (ParseTree.frontiers trees)) :=
  forest.derivesRightmost.derives

end Forest

/-- A forest over a rewritten string gathers into one over the string before. -/
theorem Rewrites.exists_forest {first second : List Symbol} (step : g.Rewrites first second)
    {trees : List ParseTree} (forest : g.Forest second trees) :
    ∃ gathered, g.Forest first gathered ∧
      ParseTree.frontiers gathered = ParseTree.frontiers trees := by
  obtain ⟨found, before, after⟩ := step
  obtain ⟨front, right, rfl, frontForest, rightForest⟩ := forest.of_append
  obtain ⟨left, children, rfl, leftForest, below⟩ := frontForest.of_append
  refine ⟨left ++ .node _ children :: right, leftForest.append (.node found below rightForest), ?_⟩
  simp [ParseTree.frontiers, ParseTree.frontier]

theorem exists_forest_of_derives {symbols : List Symbol} {word : List Nat}
    (derived : g.Derives symbols (spelled word)) :
    ∃ trees, g.Forest symbols trees ∧ ParseTree.frontiers trees = word := by
  induction derived using Relation.ReflTransGen.head_induction_on with
  | refl =>
    refine ⟨word.map .leaf, .of_spelled word, ?_⟩
    induction word with
    | nil => rfl
    | cons t rest ih => simp [ParseTree.frontiers, ParseTree.frontier, ih]
  | head step _ ih =>
    obtain ⟨trees, forest, rfl⟩ := ih
    exact step.exists_forest forest

theorem derives_spelled_iff {symbols : List Symbol} {word : List Nat} :
    g.Derives symbols (spelled word) ↔
      ∃ trees, g.Forest symbols trees ∧ ParseTree.frontiers trees = word := by
  constructor
  · exact exists_forest_of_derives
  · rintro ⟨trees, forest, rfl⟩
    exact forest.derives

end Grammar

end CanonicalLR
