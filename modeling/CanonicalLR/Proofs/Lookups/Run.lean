import CanonicalLR.Proofs.Lookups.Table
import CanonicalLR.Proofs.Run.Soundness
import CanonicalLR.Tree

/-!
# Look-ups in a run

A run looks up the name of the terminal in front before every step, and whatever
production, stack entry or name the action needs besides. It does not reach below
its stack, since a reduction is refused before the stack is cut. None of this
depends on whether the run ends.
-/

namespace CanonicalLR

namespace Configuration

/-- The state below the topmost entries of the stack, as many as a right-hand side is long. -/
def exposed? (c : Configuration) (depth : Nat) : Option Nat := do
  let above ← minus? c.states.length depth
  let place ← minus? above 1
  c.states[place]?

def reduction? (g : Grammar) (table : Table) (c : Configuration) (p : Nat) :
    Option StepAction := do
  let production ← g.production? p
  if c.states.length ≤ production.right.length then return .error (.stackUnderflow p)
  else
    let exposed ← c.exposed? production.right.length
    match table.goto? exposed production.left with
    | some next => return .reduce p next
    | none =>
      let _ ← g.nonterminalName? production.left
      return .error (.missingGoto exposed production.left)

def checkedAction? (g : Grammar) (table : Table) (c : Configuration) : Option StepAction := do
  let _ ← g.terminalName? c.lookahead
  match table.action? c.state c.lookahead with
  | none => return .error (.noAction c.state c.lookahead)
  | some (.undecided conflict) => return .error (.conflict c.state c.lookahead conflict.kind)
  | some (.decided (.shift next)) => return .shift next
  | some (.decided .accept) => return .accept
  | some (.decided (.reduce p)) => c.reduction? g table p

/-- The configuration after an action, if it is not the last one. -/
def checkedAfter? (g : Grammar) (c : Configuration) : StepAction → Option (Option Configuration)
  | .shift next => return some (c.shifted next)
  | .reduce p next => do
    let production ← g.production? p
    let kept ← minus? c.states.length production.right.length
    let below := c.stack.drop (c.states.length - kept)
    return some ⟨(next, .nonterminal production.left) :: below, c.input⟩
  | .accept => return none
  | .error _ => return none

/-- The steps of a run, if it ends within `fuel` steps. -/
def trace? (g : Grammar) (table : Table) : Nat → Nat → Configuration → Option (Option (List Step))
  | 0, _, _ => return none
  | fuel + 1, index, c => do
    let action ← c.checkedAction? g table
    match ← c.checkedAfter? g action with
    | none => return some [⟨index, c, action⟩]
    | some next =>
      let rest ← trace? g table fuel (index + 1) next
      return rest.map (⟨index, c, action⟩ :: ·)

/-- Every symbol on the stack and every terminal that is still to be read has a name. -/
structure Named (g : Grammar) (c : Configuration) : Prop where
  stack : ∀ entry ∈ c.stack, (g.symbolName? entry.2).isSome
  input : ∀ t ∈ c.input, (g.terminalName? t).isSome

end Configuration

/-- A step from where all names are known, with the action that the table dictates. -/
structure Step.Dictated (g : Grammar) (table : Table) (step : Step) : Prop where
  named : step.configuration.Named g
  acts : step.configuration.action? g table = some step.action

namespace Table

def simulate? (g : Grammar) (table : Table) (fuel : Nat) (tokens : List String) :
    Option (Except UnknownToken (Option ParseResult)) :=
  match g.tokenize tokens with
  | .error unknown => return .error unknown
  | .ok input => do
    let steps ← (Configuration.initial input).trace? g table fuel 1
    return .ok (steps.map (ParseResult.ofSteps input))

end Table

namespace ParseTree

/-- The stack of trees after a reduction, if there are enough trees on it. -/
def checkedGather? (g : Grammar) (stack : List ParseTree) (p : Nat) :
    Option (Option (List ParseTree)) := do
  let production ← g.production? p
  let arity := production.right.length
  if stack.length < arity then return none
  else return some (.node p (stack.take arity).reverse :: stack.drop arity)

def checkedReplay? (g : Grammar) : List ParseTree → List Step → Option (Option ParseTree)
  | _, [] => return none
  | stack, step :: rest =>
    match step.action with
    | .shift _ => checkedReplay? g (.leaf step.configuration.lookahead :: stack) rest
    | .reduce p _ => do
      match ← checkedGather? g stack p with
      | none => return none
      | some stack => checkedReplay? g stack rest
    | .accept =>
      match stack with
      | [root] => return some root
      | _ => return none
    | .error _ => return none

end ParseTree

def ParseResult.checkedTree? (g : Grammar) (result : ParseResult) : Option (Option ParseTree) :=
  if result.accepted then ParseTree.checkedReplay? g [] result.steps else return none

/-! ## One step -/

namespace Table

variable {g : Grammar} {table : Table} (stocked : table.Stocked g)
include stocked

theorem Stocked.known {s t : Nat} {action : Action} (cell : table.action? s t = some action) :
    ∀ move ∈ action.candidates, move.Known g := by
  obtain ⟨row, rowFound, found⟩ := Option.bind_eq_some_iff.mp cell
  exact (stocked _ (Cells.mem_of_get? rowFound)).moves _ (Cells.mem_of_get? found)

theorem Stocked.exists_production {s t p : Nat}
    (cell : table.action? s t = some (.decided (.reduce p))) :
    ∃ production, g.production? p = some production :=
  stocked.known cell _ (List.mem_singleton_self _)

end Table

namespace Configuration

variable {g : Grammar} {table : Table} {c later : Configuration} {action : StepAction}

theorem getElem?_topState {stack : List (Nat × Symbol)} {depth : Nat}
    (deep : depth ≤ stack.length) :
    (stack.map Prod.fst ++ [initialState])[depth]? = some (topState (stack.drop depth)) := by
  induction stack generalizing depth with
  | nil =>
    obtain rfl := Nat.le_zero.mp deep
    rfl
  | cons top below ih =>
    cases depth with
    | zero => rfl
    | succ depth => exact ih (Nat.le_of_succ_le_succ deep)

theorem exposed?_eq_some {depth : Nat} (deep : depth ≤ c.stack.length) :
    c.exposed? depth = some (topState (c.stack.drop depth)) := by
  have count := c.length_states_eq
  have turned : c.states = (c.stack.map Prod.fst ++ [initialState]).reverse := by simp [states]
  have total : (c.stack.map Prod.fst ++ [initialState]).length = c.states.length := by
    rw [turned, List.length_reverse]
  have place : c.states[c.states.length - depth - 1]? =
      (c.stack.map Prod.fst ++ [initialState])[depth]? := by
    rw [turned, List.length_reverse]
    exact List.getElem?_reverse' (by omega)
  have above : depth ≤ c.states.length := by omega
  have one : 1 ≤ c.states.length - depth := by omega
  rw [exposed?, minus?_eq_some above]
  simp only [Option.bind_eq_bind, Option.bind_some, minus?_eq_some one, place,
    getElem?_topState deep]

theorem Named.lookahead (wellFormed : g.WellFormed) (named : c.Named g) :
    (g.terminalName? c.lookahead).isSome := by
  obtain ⟨stack, _ | ⟨t, input⟩⟩ := c
  · exact Grammar.isSome_terminalName? wellFormed.terminals
  · exact named.input t List.mem_cons_self

theorem reduction?_eq_some (wellFormed : g.WellFormed) {p : Nat} {production : Production}
    (found : g.production? p = some production) :
    c.reduction? g table p = some (c.reduction table p production) := by
  obtain ⟨name, named⟩ := Option.isSome_iff_exists.mp
    (Grammar.isSome_nonterminalName? (wellFormed.left_lt found))
  unfold reduction? reduction
  simp only [found, Option.bind_eq_bind, Option.bind_some]
  -- The initial state is at the bottom, so that there is one state more than entries.
  have count := c.length_states_eq
  by_cases shallow : c.stack.length < production.right.length
  · have low : c.states.length ≤ production.right.length := by omega
    rw [if_pos shallow, if_pos low]
    rfl
  · have high : ¬ c.states.length ≤ production.right.length := by omega
    rw [if_neg shallow, if_neg high, exposed?_eq_some (Nat.le_of_not_lt shallow)]
    simp only [Option.bind_some, named]
    cases table.goto? (topState (c.stack.drop production.right.length)) production.left <;> rfl

theorem checkedAction?_spec (wellFormed : g.WellFormed) (stocked : table.Stocked g)
    (named : c.Named g) : ∃ action, c.action? g table = some action ∧
      c.checkedAction? g table = some action := by
  obtain ⟨name, front⟩ := Option.isSome_iff_exists.mp (named.lookahead wellFormed)
  unfold action? checkedAction?
  simp only [front, Option.bind_eq_bind, Option.bind_some]
  cases cell : table.action? c.state c.lookahead with
  | none => exact ⟨_, rfl, rfl⟩
  | some action =>
    cases action with
    | undecided conflict => exact ⟨_, rfl, rfl⟩
    | decided move =>
      cases move with
      | shift next => exact ⟨_, rfl, rfl⟩
      | accept => exact ⟨_, rfl, rfl⟩
      | reduce p =>
        obtain ⟨production, found⟩ := stocked.exists_production cell
        exact ⟨_, congrArg (Option.map _) found, reduction?_eq_some wellFormed found⟩

/-- A reduction that a table dictates is by a production that the stack is deep enough for. -/
theorem deep_of_action? {p next : Nat} (acts : c.action? g table = some (.reduce p next)) :
    ∃ production, g.production? p = some production ∧
      production.right.length ≤ c.stack.length := by
  unfold action? at acts
  split at acts
  · cases acts
  · cases acts
  · cases acts
  · cases acts
  · obtain ⟨production, found, reduces⟩ := Option.map_eq_some_iff.mp acts
    unfold reduction at reduces
    split at reduces
    · cases reduces
    · rename_i deep
      dsimp only at reduces
      split at reduces
      · obtain ⟨rfl, -⟩ := StepAction.reduce.inj reduces
        exact ⟨production, found, Nat.le_of_not_lt deep⟩
      · cases reduces

theorem checkedAfter?_eq_some (acts : c.action? g table = some action) :
    c.checkedAfter? g action = some (c.after? g action) := by
  cases action with
  | shift next => rfl
  | accept => rfl
  | error rejection => rfl
  | reduce p next =>
    obtain ⟨production, found, deep⟩ := deep_of_action? acts
    have within : production.right.length ≤ c.states.length := by
      rw [length_states_eq]
      exact Nat.le_succ_of_le deep
    have cut : c.states.length - (c.states.length - production.right.length) =
        production.right.length := Nat.sub_sub_self within
    simp only [checkedAfter?, after?, found, Option.bind_eq_bind, Option.bind_some,
      minus?_eq_some within, cut, Option.map_some]
    rfl

theorem Named.after (wellFormed : g.WellFormed) (named : c.Named g)
    (goes : c.after? g action = some later) : later.Named g := by
  cases action with
  | shift next =>
    obtain rfl := Option.some.inj goes
    refine ⟨?_, fun t member => named.input t (List.mem_of_mem_tail member)⟩
    exact List.forall_mem_cons.mpr ⟨named.lookahead wellFormed, named.stack⟩
  | reduce p next =>
    obtain ⟨production, found, rfl⟩ := Option.map_eq_some_iff.mp goes
    have left := Grammar.isSome_nonterminalName? (wellFormed.left_lt found)
    refine ⟨List.forall_mem_cons.mpr ⟨left, fun entry member => ?_⟩, named.input⟩
    exact named.stack entry (List.mem_of_mem_drop member)
  | accept => cases goes
  | error rejection => cases goes

/-! ## Whole runs -/

section

variable (wellFormed : g.WellFormed) (stocked : table.Stocked g)
include wellFormed stocked

theorem trace?_eq_some (named : c.Named g) (fuel index : Nat) :
    c.trace? g table fuel index = some (c.trace g table fuel index) := by
  induction fuel generalizing c index with
  | zero => rfl
  | succ fuel ih =>
    obtain ⟨action, acts, checked⟩ := checkedAction?_spec wellFormed stocked named
    unfold trace? trace
    simp only [checked, acts, checkedAfter?_eq_some acts, Option.bind_eq_bind, Option.bind_some]
    cases goes : c.after? g action with
    | none => rfl
    | some next =>
      simp only [ih (named.after wellFormed goes), Option.bind_some]
      rfl

omit stocked in
theorem Traces.dictated {steps : List Step} {index : Nat} (traces : Traces g table index c steps)
    (named : c.Named g) : ∀ step ∈ steps, step.Dictated g table := by
  induction traces with
  | last acts ends => exact List.forall_mem_cons.mpr ⟨⟨named, acts⟩, fun _ none => nomatch none⟩
  | next acts goes rest ih =>
    exact List.forall_mem_cons.mpr ⟨⟨named, acts⟩, ih (named.after wellFormed goes)⟩

end

theorem named_initial {tokens : List String} {input : List Nat}
    (tokenized : g.tokenize tokens = .ok input) : (initial input).Named g where
  stack _ none := absurd none List.not_mem_nil
  input t member :=
    Grammar.isSome_terminalName? (Grammar.declared_of_tokenize tokenized t member).2

end Configuration

/-- Tokens are parsed without a look-up that misses, in however many steps. -/
theorem Table.simulate?_eq_some {g : Grammar} (wellFormed : g.WellFormed) {table : Table}
    (stocked : table.Stocked g) (fuel : Nat) (tokens : List String) :
    table.simulate? g fuel tokens = some (table.simulate g fuel tokens) := by
  unfold simulate? simulate
  cases tokenized : g.tokenize tokens with
  | error unknown => rfl
  | ok input =>
    have named := Configuration.named_initial tokenized
    simp only [Configuration.trace?_eq_some wellFormed stocked named, Option.bind_eq_bind,
      Option.bind_some]
    rfl

/-! ## Trees -/

namespace ParseTree

variable {g : Grammar}

theorem checkedGather?_eq_some {stack : List ParseTree} {p : Nat} {production : Production}
    (found : g.production? p = some production) :
    checkedGather? g stack p = some (gather? g stack p) := by
  unfold checkedGather? gather?
  simp only [found, Option.bind_eq_bind, Option.bind_some]
  split <;> rfl

theorem checkedReplay?_eq_some {steps : List Step}
    (known : ∀ step ∈ steps, ∀ p next, step.action = .reduce p next →
      ∃ production, g.production? p = some production) (stack : List ParseTree) :
    checkedReplay? g stack steps = some (replay? g stack steps) := by
  induction steps generalizing stack with
  | nil => rfl
  | cons step rest ih =>
    obtain ⟨first, later⟩ := List.forall_mem_cons.mp known
    unfold checkedReplay? replay?
    cases action : step.action with
    | shift next => exact ih later _
    | reduce p next =>
      obtain ⟨production, found⟩ := first p next action
      simp only [checkedGather?_eq_some found, Option.bind_eq_bind, Option.bind_some]
      cases gather? g stack p with
      | none => rfl
      | some gathered => exact ih later gathered
    | accept =>
      match stack with
      | [] => rfl
      | [_] => rfl
      | _ :: _ :: _ => rfl
    | error rejection => rfl

end ParseTree

theorem Table.EndsWith.dictated {g : Grammar} (wellFormed : g.WellFormed) {table : Table}
    {tokens : List String} {input : List Nat} {result : ParseResult}
    (ends : table.EndsWith g input result) (tokenized : g.tokenize tokens = .ok input) :
    ∀ step ∈ result.steps, step.Dictated g table := by
  obtain ⟨steps, traces, rfl⟩ := ends
  exact traces.dictated wellFormed (Configuration.named_initial tokenized)

theorem ParseResult.checkedTree?_eq_some {g : Grammar} {table : Table} {result : ParseResult}
    (dictated : ∀ step ∈ result.steps, step.Dictated g table) :
    result.checkedTree? g = some (result.tree? g) := by
  have known : ∀ step ∈ result.steps, ∀ p next, step.action = .reduce p next →
      ∃ production, g.production? p = some production := by
    intro step listed p next reduces
    obtain ⟨production, found, -⟩ :=
      Configuration.deep_of_action? (reduces ▸ (dictated step listed).acts)
    exact ⟨production, found⟩
  unfold checkedTree? tree?
  split
  · exact ParseTree.checkedReplay?_eq_some known []
  · rfl

end CanonicalLR
