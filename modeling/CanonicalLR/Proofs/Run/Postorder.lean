import CanonicalLR.Proofs.Grammar.Forest
import CanonicalLR.Proofs.Run.Prefix

/-!
# Replays read trees in postorder

A shift tells a leaf and a reduction a node; the parts of a tree are told in
postorder, each node after its children. A replay puts the told parts together,
whatever steps they come from: it ends with a tree exactly if the steps before the
first acceptance tell that tree.
-/

namespace CanonicalLR

namespace ParseTree

/-! ## A walk with a stack of waiting trees -/

mutual

def nodeCount : ParseTree → Nat
  | .leaf _ => 1
  | .node _ children => nodeCounts children + 1

def nodeCounts : List ParseTree → Nat
  | [] => 0
  | tree :: rest => nodeCount tree + nodeCounts rest

end

theorem nodeCounts_append (first second : List ParseTree) :
    nodeCounts (first ++ second) = nodeCounts first + nodeCounts second := by
  induction first with
  | nil => exact (Nat.zero_add _).symm
  | cons tree rest ih => rw [List.cons_append, nodeCounts, nodeCounts, ih, Nat.add_assoc]

theorem nodeCounts_reverse (trees : List ParseTree) :
    nodeCounts trees.reverse = nodeCounts trees := by
  induction trees with
  | nil => rfl
  | cons tree rest ih =>
    rw [List.reverse_cons, nodeCounts_append, ih, nodeCounts, nodeCounts, nodeCounts]
    omega

/-- Put the children of a node on the waiting trees, the last child on top. -/
def waitAbove (children waiting : List ParseTree) : List ParseTree :=
  children.reverse ++ waiting

/-- The productions of the waiting trees, where the topmost tree is taken next. -/
def walk : List ParseTree → List Nat
  | [] => []
  | .leaf _ :: waiting => walk waiting
  | .node p children :: waiting => p :: walk (waitAbove children waiting)
termination_by waiting => nodeCounts waiting
decreasing_by
  · simp only [nodeCounts, nodeCount]
    omega
  · simp only [waitAbove, nodeCounts, nodeCount, nodeCounts_append, nodeCounts_reverse]
    omega

@[simp] theorem rightmostDerivations_append (first second : List ParseTree) :
    rightmostDerivations (first ++ second) =
      rightmostDerivations second ++ rightmostDerivations first := by
  induction first with
  | nil => simp [rightmostDerivations]
  | cons tree rest ih => simp only [List.cons_append, rightmostDerivations, ih, List.append_assoc]

@[simp] theorem rightmostDerivations_singleton (tree : ParseTree) :
    rightmostDerivations [tree] = rightmostDerivation tree :=
  List.nil_append _

/-- The walk takes the waiting trees as a forest from right to left. -/
theorem walk_eq_rightmostDerivations (waiting : List ParseTree) :
    walk waiting = rightmostDerivations waiting.reverse := by
  induction waiting using walk.induct with
  | case1 => rw [walk, List.reverse_nil, rightmostDerivations]
  | case2 t waiting ih =>
    rw [walk, ih, List.reverse_cons, rightmostDerivations_append, rightmostDerivations_singleton,
      rightmostDerivation, List.nil_append]
  | case3 p children waiting ih =>
    rw [walk, ih, waitAbove, List.reverse_append, List.reverse_reverse, rightmostDerivations_append,
      List.reverse_cons, rightmostDerivations_append, rightmostDerivations_singleton,
      rightmostDerivation, List.cons_append]

theorem walk_singleton (tree : ParseTree) : walk [tree] = tree.rightmostDerivation := by
  rw [walk_eq_rightmostDerivations, List.reverse_singleton, rightmostDerivations_singleton]

/-! ## Trees by their parts -/

/-- A leaf, or a node without its children. -/
inductive Part where
  | leaf (terminal : Nat)
  | node (production : Nat)
deriving DecidableEq

namespace Part

def terminal? : Part → Option Nat
  | .leaf t => some t
  | .node _ => none

def production? : Part → Option Nat
  | .leaf _ => none
  | .node p => some p

end Part

mutual

/-- The parts of a tree, each node after its children. -/
def postorder : ParseTree → List Part
  | .leaf t => [.leaf t]
  | .node p children => postorders children ++ [.node p]

def postorders : List ParseTree → List Part
  | [] => []
  | tree :: rest => postorder tree ++ postorders rest

end

mutual

/-- Every node has as many children as the right-hand side of its production has symbols. -/
def Ranked (g : Grammar) : ParseTree → Prop
  | .leaf _ => True
  | .node p children =>
      (∃ production, g.production? p = some production ∧
        children.length = production.right.length) ∧ AllRanked g children

def AllRanked (g : Grammar) : List ParseTree → Prop
  | [] => True
  | tree :: rest => Ranked g tree ∧ AllRanked g rest

end

variable {g : Grammar}

@[simp] theorem postorders_append (first second : List ParseTree) :
    postorders (first ++ second) = postorders first ++ postorders second := by
  induction first with
  | nil => rfl
  | cons tree rest ih => simp only [List.cons_append, postorders, ih, List.append_assoc]

theorem postorders_singleton (tree : ParseTree) : postorders [tree] = tree.postorder :=
  List.append_nil _

theorem allRanked_iff {trees : List ParseTree} :
    AllRanked g trees ↔ ∀ tree ∈ trees, tree.Ranked g := by
  induction trees with
  | nil => simp [AllRanked]
  | cons tree rest ih => rw [AllRanked, ih, List.forall_mem_cons]

mutual

theorem terminals_postorder (tree : ParseTree) :
    tree.postorder.filterMap Part.terminal? = tree.frontier := by
  match tree with
  | .leaf t => rfl
  | .node p children =>
    rw [postorder, List.filterMap_append, terminals_postorders children, frontier]
    exact List.append_nil _

theorem terminals_postorders (trees : List ParseTree) :
    (postorders trees).filterMap Part.terminal? = frontiers trees := by
  match trees with
  | [] => rfl
  | tree :: rest =>
    rw [postorders, List.filterMap_append, terminals_postorder tree, terminals_postorders rest,
      frontiers]

end

mutual

/-- Read backwards, the postorder of the nodes is the preorder from right to left. -/
theorem productions_postorder (tree : ParseTree) :
    (tree.postorder.filterMap Part.production?).reverse = tree.rightmostDerivation := by
  match tree with
  | .leaf t => rfl
  | .node p children =>
    rw [postorder, List.filterMap_append, List.reverse_append, productions_postorders children,
      rightmostDerivation]
    rfl

theorem productions_postorders (trees : List ParseTree) :
    ((postorders trees).filterMap Part.production?).reverse = rightmostDerivations trees := by
  match trees with
  | [] => rfl
  | tree :: rest =>
    rw [postorders, List.filterMap_append, List.reverse_append, productions_postorder tree,
      productions_postorders rest, rightmostDerivations]

end

/-! ## Putting parts together -/

/-- Put a part on a stack of trees, a node over as many trees as it has children. -/
def join? (g : Grammar) (stack : List ParseTree) : Part → Option (List ParseTree)
  | .leaf t => some (.leaf t :: stack)
  | .node p => gather? g stack p

mutual

/-- The parts of a tree put the tree on top of the stack. -/
theorem join?_postorder (tree : ParseTree) (ranked : tree.Ranked g) (stack : List ParseTree) :
    tree.postorder.foldlM (join? g) stack = some (tree :: stack) := by
  match tree, ranked with
  | .leaf t, _ => rfl
  | .node p children, ⟨⟨production, found, arity⟩, below⟩ =>
    rw [postorder, List.foldlM_append, join?_postorders children below stack]
    simp [join?, gather?_reverse_append found arity]

theorem join?_postorders (trees : List ParseTree) (ranked : AllRanked g trees)
    (stack : List ParseTree) :
    (postorders trees).foldlM (join? g) stack = some (trees.reverse ++ stack) := by
  match trees, ranked with
  | [], _ => rfl
  | tree :: rest, ⟨first, others⟩ =>
    rw [postorders, List.foldlM_append, join?_postorder tree first stack]
    simpa using join?_postorders rest others (tree :: stack)

end

/-- One part more is told by the stack that it is put on. -/
theorem postorders_of_join? {stack later : List ParseTree} {part : Part}
    (joined : join? g stack part = some later) :
    postorders later.reverse = postorders stack.reverse ++ [part] ∧
      (AllRanked g stack → AllRanked g later) := by
  cases part with
  | leaf t =>
    obtain rfl := Option.some.inj joined
    rw [List.reverse_cons, postorders_append]
    exact ⟨rfl, fun ranked => ⟨trivial, ranked⟩⟩
  | node p =>
    obtain ⟨production, found, deep, rfl⟩ := gather?_eq_some_iff.mp joined
    have split := List.take_append_drop production.right.length stack
    have arity : (stack.take production.right.length).reverse.length = production.right.length := by
      rw [List.length_reverse, List.length_take_of_le deep]
    constructor
    · conv_rhs => rw [← split, List.reverse_append, postorders_append]
      rw [List.reverse_cons, postorders_append, postorders_singleton, postorder, List.append_assoc]
    · intro ranked
      have each := allRanked_iff.mp ranked
      refine ⟨⟨⟨production, found, arity⟩, allRanked_iff.mpr fun tree child => ?_⟩, ?_⟩
      · exact each tree (List.mem_of_mem_take (List.mem_reverse.mp child))
      · exact allRanked_iff.mpr fun tree kept => each tree (List.mem_of_mem_drop kept)

theorem postorders_of_foldlM_join? {parts : List Part} {stack later : List ParseTree}
    (joined : parts.foldlM (join? g) stack = some later) :
    postorders later.reverse = postorders stack.reverse ++ parts ∧
      (AllRanked g stack → AllRanked g later) := by
  induction parts generalizing stack with
  | nil =>
    obtain rfl := Option.some.inj joined
    exact ⟨(List.append_nil _).symm, id⟩
  | cons part rest ih =>
    rw [List.foldlM_cons, Option.bind_eq_bind, Option.bind_eq_some_iff] at joined
    obtain ⟨next, first, onward⟩ := joined
    obtain ⟨told, kept⟩ := postorders_of_join? first
    obtain ⟨toldLater, keptLater⟩ := ih onward
    rw [toldLater, told, List.append_assoc]
    exact ⟨rfl, keptLater ∘ kept⟩

/-- Parts make a tree out of nothing exactly if they are its postorder. -/
theorem foldlM_join?_eq_singleton {parts : List Part} {tree : ParseTree} :
    parts.foldlM (join? g) [] = some [tree] ↔ tree.Ranked g ∧ parts = tree.postorder := by
  constructor
  · intro joined
    obtain ⟨told, kept⟩ := postorders_of_foldlM_join? joined
    rw [List.reverse_singleton, postorders_singleton] at told
    exact ⟨(kept trivial).1, told.symm⟩
  · rintro ⟨ranked, rfl⟩
    exact join?_postorder tree ranked []

end ParseTree

/-- The part of a tree that a step tells, none if it ends a replay. -/
def Step.part? (step : Step) : Option ParseTree.Part :=
  match step.action with
  | .shift _ => some (.leaf step.configuration.lookahead)
  | .reduce p _ => some (.node p)
  | .accept => none
  | .error _ => none

theorem Step.part?_eq_none_iff {step : Step} : step.part? = none ↔ step.action.Final := by
  unfold part? StepAction.Final
  split <;> simp_all

namespace ParseTree

/-- The steps before the first acceptance tell the parts of the tree in postorder. -/
def ToldBy (tree : ParseTree) (steps : List Step) : Prop :=
  ∃ earlier last later, steps = earlier ++ last :: later ∧ last.action = .accept ∧
    earlier.map Step.part? = tree.postorder.map some

variable {g : Grammar}

theorem replay?_of_part? {stack : List ParseTree} {step : Step} {part : Part}
    (tells : step.part? = some part) (rest : List Step) :
    replay? g stack (step :: rest) = (join? g stack part).bind fun next => replay? g next rest := by
  cases action : step.action with
  | shift next =>
    simp only [Step.part?, action, Option.some.injEq] at tells
    simp only [← tells, replay?, action, join?, Option.bind_some]
  | reduce p next =>
    simp only [Step.part?, action, Option.some.injEq] at tells
    simp only [← tells, replay?, action, join?]
  | accept => simp [Step.part?, action] at tells
  | error rejection => simp [Step.part?, action] at tells

theorem replay?_of_final {stack : List ParseTree} {step : Step} {tree : ParseTree}
    (final : step.part? = none) (rest : List Step) :
    replay? g stack (step :: rest) = some tree ↔ step.action = .accept ∧ stack = [tree] := by
  unfold replay?
  rcases Step.part?_eq_none_iff.mp final with accepts | ⟨rejection, rejects⟩
  · simp only [accepts, true_and]
    split <;> simp_all
  · simp [rejects]

/-- A replay ends with a tree exactly if the parts that are told before an acceptance make it. -/
theorem replay?_eq_some_iff {stack : List ParseTree} {steps : List Step} {tree : ParseTree} :
    replay? g stack steps = some tree ↔ ∃ earlier last later, ∃ parts : List Part,
      steps = earlier ++ last :: later ∧ last.action = .accept ∧
        earlier.map Step.part? = parts.map some ∧ parts.foldlM (join? g) stack = some [tree] := by
  constructor
  · intro replayed
    induction steps generalizing stack with
    | nil => cases replayed
    | cons step rest ih =>
      cases told : step.part? with
      | none =>
        obtain ⟨accepts, rfl⟩ := (replay?_of_final told rest).mp replayed
        exact ⟨[], step, rest, [], rfl, accepts, rfl, rfl⟩
      | some part =>
        rw [replay?_of_part? told, Option.bind_eq_some_iff] at replayed
        obtain ⟨next, joined, onward⟩ := replayed
        obtain ⟨earlier, last, later, parts, rfl, accepts, tells, made⟩ := ih onward
        refine ⟨step :: earlier, last, later, part :: parts, rfl, accepts, ?_, ?_⟩
        · rw [List.map_cons, told, tells, List.map_cons]
        · rw [List.foldlM_cons, joined]
          exact made
  · rintro ⟨earlier, last, later, parts, rfl, accepts, tells, made⟩
    induction earlier generalizing stack parts with
    | nil =>
      obtain rfl := List.map_eq_nil_iff.mp tells.symm
      exact (replay?_of_final (Step.part?_eq_none_iff.mpr (.inl accepts)) later).mpr
        ⟨accepts, Option.some.inj made⟩
    | cons step rest ih =>
      obtain ⟨part, others, rfl, told, tellsRest⟩ := List.map_eq_cons_iff.mp tells.symm
      rw [List.foldlM_cons, Option.bind_eq_bind, Option.bind_eq_some_iff] at made
      obtain ⟨next, joined, onward⟩ := made
      rw [List.cons_append, replay?_of_part? told.symm, joined, Option.bind_some]
      exact ih others tellsRest.symm onward

theorem replay?_nil_iff_toldBy {steps : List Step} {tree : ParseTree} :
    replay? g [] steps = some tree ↔ tree.Ranked g ∧ tree.ToldBy steps := by
  rw [replay?_eq_some_iff]
  simp only [foldlM_join?_eq_singleton]
  constructor
  · rintro ⟨earlier, last, later, parts, split, accepts, tells, ranked, rfl⟩
    exact ⟨ranked, earlier, last, later, split, accepts, tells⟩
  · rintro ⟨ranked, earlier, last, later, split, accepts, tells⟩
    exact ⟨earlier, last, later, _, split, accepts, tells, ranked, rfl⟩

/-! ## What the steps before the first acceptance tell -/

theorem shiftedTokens_eq (steps : List Step) :
    shiftedTokens steps = (steps.filterMap Step.part?).filterMap Part.terminal? := by
  rw [shiftedTokens, List.filterMap_filterMap]
  congr 1
  funext step
  unfold Step.part?
  cases step.action <;> rfl

theorem filterMap_production?_eq (steps : List Step) :
    (steps.filterMap fun step => step.action.production?) =
      (steps.filterMap Step.part?).filterMap Part.production? := by
  rw [List.filterMap_filterMap]
  congr 1
  funext step
  unfold Step.part?
  cases step.action <;> rfl

/-- The tokens that were shifted are the leaves of the tree, and the reductions derive it backwards;
nothing before the acceptance ends the run. -/
theorem ToldBy.tells {tree : ParseTree} {steps : List Step} (told : tree.ToldBy steps) :
    ∃ earlier last later, steps = earlier ++ last :: later ∧ last.action = .accept ∧
      (∀ step ∈ earlier, ¬ step.action.Final) ∧ tree.frontier = shiftedTokens earlier ∧
      tree.rightmostDerivation =
        (earlier.filterMap fun step => step.action.production?).reverse := by
  obtain ⟨earlier, last, later, rfl, accepts, tells⟩ := told
  have parts : earlier.filterMap Step.part? = tree.postorder := by
    have identified := congrArg (List.filterMap id) tells
    simpa [List.filterMap_map] using identified
  refine ⟨earlier, last, later, rfl, accepts, ?_, ?_, ?_⟩
  · intro step member final
    have told : step.part? ∈ tree.postorder.map some := tells ▸ List.mem_map_of_mem member
    rw [Step.part?_eq_none_iff.mpr final] at told
    simp at told
  · rw [shiftedTokens_eq, parts, terminals_postorder]
  · rw [filterMap_production?_eq, parts, productions_postorder]

/-- A step that tells a part: it shifts the leaf, or reduces to the node. -/
def Part.step : Part → Step
  | .leaf t => ⟨0, ⟨[], [t]⟩, .shift 0⟩
  | .node p => ⟨0, ⟨[], []⟩, .reduce p 0⟩

/-- Shift each leaf and reduce to each node, in postorder, and then accept. -/
def trace (tree : ParseTree) : List Step :=
  tree.postorder.map Part.step ++ [⟨0, ⟨[], []⟩, .accept⟩]

theorem toldBy_trace (tree : ParseTree) : tree.ToldBy tree.trace := by
  refine ⟨tree.postorder.map Part.step, _, [], rfl, rfl, ?_⟩
  rw [List.map_map]
  congr 1
  funext part
  cases part <;> rfl

/-- Replays of any steps, traces of runs or not, are inverse to the postorder of trees: a replay ends
with a tree exactly if every node of it has as many children as its production says and the steps
before the first acceptance tell its parts in postorder. These steps shift its leaves and derive it
backwards. -/
theorem replay_inverts_postorder (g : Grammar) :
    (∀ steps tree, replay? g [] steps = some tree ↔ tree.Ranked g ∧ tree.ToldBy steps) ∧
    (∀ steps tree, replay? g [] steps = some tree → ∃ earlier last later,
      steps = earlier ++ last :: later ∧ last.action = .accept ∧
      (∀ step ∈ earlier, ¬ step.action.Final) ∧
      tree.frontier = shiftedTokens earlier ∧
      tree.rightmostDerivation =
        (earlier.filterMap fun step => step.action.production?).reverse ∧
      walk [tree] = tree.rightmostDerivation) ∧
    ∀ tree, tree.Ranked g → replay? g [] tree.trace = some tree := by
  refine ⟨fun steps tree => replay?_nil_iff_toldBy, fun steps tree replayed => ?_, ?_⟩
  · obtain ⟨-, told⟩ := replay?_nil_iff_toldBy.mp replayed
    obtain ⟨earlier, last, later, split, accepts, goesOn, leaves, derived⟩ := told.tells
    exact ⟨earlier, last, later, split, accepts, goesOn, leaves, derived, walk_singleton tree⟩
  · exact fun tree ranked => replay?_nil_iff_toldBy.mpr ⟨ranked, tree.toldBy_trace⟩

/-- The empty node counts among the three children of the other. -/
theorem parentheses_pair_replays :
    replay? Grammar.parentheses [] (node 1 [.leaf 1, .node 2 [], .leaf 2]).trace =
      some (node 1 [.leaf 1, .node 2 [], .leaf 2]) ∧
    replay? Grammar.parentheses [] (node 1 [.leaf 1, .leaf 2]).trace ≠
      some (node 1 [.leaf 1, .leaf 2]) := by
  obtain ⟨inverse, -, back⟩ := replay_inverts_postorder Grammar.parentheses
  constructor
  · exact back _ ⟨⟨_, rfl, rfl⟩, trivial, ⟨⟨_, rfl, rfl⟩, trivial⟩, trivial, trivial⟩
  · intro replayed
    obtain ⟨⟨⟨production, found, arity⟩, -⟩, -⟩ := (inverse _ _).mp replayed
    obtain rfl := Option.some.inj found
    cases arity

end ParseTree

end CanonicalLR
