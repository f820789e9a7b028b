import CanonicalLR.Run.Trace

/-!
# Parse trees

A leaf is a terminal, an inner node a production with its children. The steps of
a run are replayed on a stack of trees: a shift puts a leaf, a reduction gathers
children under a node, and acceptance hands out the one tree that is left.
-/

namespace CanonicalLR

inductive ParseTree where
  | leaf (terminal : Nat)
  | node (production : Nat) (children : List ParseTree)

namespace ParseTree

mutual

/-- The terminals at the leaves, left to right. -/
def frontier : ParseTree → List Nat
  | .leaf t => [t]
  | .node _ children => frontiers children

def frontiers : List ParseTree → List Nat
  | [] => []
  | tree :: rest => frontier tree ++ frontiers rest

end

mutual

/-- The productions in preorder, the children of a node visited from right to left. -/
def rightmostDerivation : ParseTree → List Nat
  | .leaf _ => []
  | .node p children => p :: rightmostDerivations children

def rightmostDerivations : List ParseTree → List Nat
  | [] => []
  | tree :: rest => rightmostDerivations rest ++ rightmostDerivation tree

end

def indentation (depth : Nat) : String :=
  String.ofList (List.replicate (2 * depth) ' ')

mutual

/-- One line per leaf or node, children below their parent and two blanks deeper. -/
def lines? (g : Grammar) (depth : Nat) : ParseTree → Option (List String)
  | .leaf t => do
    let name ← g.terminalName? t
    return [indentation depth ++ name]
  | .node p children => do
    let production ← g.production? p
    let text ← production.text? g
    let below ← allLines? g (depth + 1) children
    return (indentation depth ++ text) :: below

def allLines? (g : Grammar) (depth : Nat) : List ParseTree → Option (List String)
  | [] => some []
  | tree :: rest => do
    let lines ← lines? g depth tree
    let more ← allLines? g depth rest
    return lines ++ more

end

def text? (g : Grammar) (tree : ParseTree) : Option String := do
  let lines ← tree.lines? g 0
  return String.join (lines.map Text.line)

/-- Gather the topmost trees, as many as a right-hand side is long, under a node. -/
def gather? (g : Grammar) (stack : List ParseTree) (p : Nat) : Option (List ParseTree) := do
  let production ← g.production? p
  let arity := production.right.length
  if stack.length < arity then none
  else some (.node p (stack.take arity).reverse :: stack.drop arity)

theorem gather?_eq_some_iff {g : Grammar} {stack gathered : List ParseTree} {p : Nat} :
    gather? g stack p = some gathered ↔ ∃ production, g.production? p = some production ∧
      production.right.length ≤ stack.length ∧
        gathered = .node p (stack.take production.right.length).reverse ::
          stack.drop production.right.length := by
  unfold gather?
  rw [Option.bind_eq_bind, Option.bind_eq_some_iff]
  refine exists_congr fun production => and_congr_right fun _ => ?_
  dsimp only
  split
  · rename_i short
    exact iff_of_false nofun fun deep => absurd deep.1 (Nat.not_le_of_lt short)
  · rename_i deep
    exact ⟨fun same => ⟨Nat.le_of_not_lt deep, (Option.some.inj same).symm⟩,
      fun same => congrArg some same.2.symm⟩

/-- As many children as the right-hand side is long are gathered in their order. -/
theorem gather?_reverse_append {g : Grammar} {p : Nat} {production : Production}
    {children : List ParseTree} (found : g.production? p = some production)
    (arity : children.length = production.right.length) (below : List ParseTree) :
    gather? g (children.reverse ++ below) p = some (.node p children :: below) := by
  have counted : production.right.length = children.reverse.length := by
    rw [List.length_reverse, arity]
  simp [gather?, found, counted]

/-- Replay steps on a stack of trees, topmost first, up to the first acceptance. -/
def replay? (g : Grammar) : List ParseTree → List Step → Option ParseTree
  | _, [] => none
  | stack, step :: rest =>
    match step.action with
    | .shift _ => replay? g (.leaf step.configuration.lookahead :: stack) rest
    | .reduce p _ => (gather? g stack p).bind fun stack => replay? g stack rest
    | .accept =>
      match stack with
      | [root] => some root
      | _ => none
    | .error _ => none

end ParseTree

namespace ParseResult

/-- The parse tree of an accepted input. -/
def tree? (g : Grammar) (result : ParseResult) : Option ParseTree :=
  if result.accepted then ParseTree.replay? g [] result.steps else none

end ParseResult

end CanonicalLR
