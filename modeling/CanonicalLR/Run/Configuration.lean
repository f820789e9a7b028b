import CanonicalLR.Table.Basic

/-!
# Parser configurations

A stack of states, each but the lowest reached by a symbol, and the input that
is still to be read. The table dictates what a configuration does next; a shift
or a reduction leads to another configuration, the other actions end the run.
-/

namespace CanonicalLR

inductive Rejection where
  | noAction (state terminal : Nat)
  | conflict (state terminal : Nat) (kind : ConflictKind)
  | missingGoto (state nonterminal : Nat)
  | stackUnderflow (production : Nat)
deriving DecidableEq

inductive StepAction where
  | shift (next : Nat)
  | reduce (production next : Nat)
  | accept
  | error (rejection : Rejection)
deriving DecidableEq

namespace StepAction

def production? : StepAction → Option Nat
  | .reduce p _ => some p
  | _ => none

def rejection? : StepAction → Option Rejection
  | .error rejection => some rejection
  | _ => none

end StepAction

/-- The stack lists its topmost entry first and leaves out the initial state below all. -/
structure Configuration where
  stack : List (Nat × Symbol)
  input : List Nat
deriving DecidableEq

namespace Configuration

def initial (input : List Nat) : Configuration :=
  ⟨[], input⟩

def topState : List (Nat × Symbol) → Nat
  | [] => initialState
  | (s, _) :: _ => s

def state (c : Configuration) : Nat :=
  topState c.stack

/-- The terminal in front, the end marker once the input is read. -/
def lookahead (c : Configuration) : Nat :=
  c.input.headD endMarker

/-- The states from the lowest to the topmost. -/
def states (c : Configuration) : List Nat :=
  initialState :: (c.stack.map Prod.fst).reverse

def symbols (c : Configuration) : List Symbol :=
  (c.stack.map Prod.snd).reverse

/-- The unread input with the end marker behind it. -/
def remaining (c : Configuration) : List Nat :=
  c.input ++ [endMarker]

/-- Reduce by a production if the stack is deep enough and the exposed state has a goto. -/
def reduction (table : Table) (c : Configuration) (p : Nat) (production : Production) :
    StepAction :=
  if c.stack.length < production.right.length then .error (.stackUnderflow p)
  else
    let exposed := topState (c.stack.drop production.right.length)
    match table.goto? exposed production.left with
    | some next => .reduce p next
    | none => .error (.missingGoto exposed production.left)

/--
What the table dictates. There is nothing to do only when it names a production
that the grammar does not have.
-/
def action? (g : Grammar) (table : Table) (c : Configuration) : Option StepAction :=
  match table.action? c.state c.lookahead with
  | none => some (.error (.noAction c.state c.lookahead))
  | some (.undecided conflict) =>
      some (.error (.conflict c.state c.lookahead conflict.kind))
  | some (.decided (.shift next)) => some (.shift next)
  | some (.decided .accept) => some .accept
  | some (.decided (.reduce p)) => (g.production? p).map (c.reduction table p)

def shifted (c : Configuration) (next : Nat) : Configuration :=
  ⟨(next, .terminal c.lookahead) :: c.stack, c.input.tail⟩

def reduced (c : Configuration) (production : Production) (next : Nat) : Configuration :=
  ⟨(next, .nonterminal production.left) :: c.stack.drop production.right.length, c.input⟩

/-- The configuration after an action; none after the last action of a run. -/
def after? (g : Grammar) (c : Configuration) : StepAction → Option Configuration
  | .shift next => some (c.shifted next)
  | .reduce p next => (g.production? p).map fun production => c.reduced production next
  | .accept => none
  | .error _ => none

theorem length_states_eq (c : Configuration) : c.states.length = c.stack.length + 1 := by
  simp [states]

theorem length_states (c : Configuration) : c.states.length = c.symbols.length + 1 := by
  simp [states, symbols]

theorem getLast_states (c : Configuration) : c.states.getLast? = some c.state := by
  obtain ⟨stack, input⟩ := c
  cases stack with
  | nil => rfl
  | cons top below =>
    simp only [states, state, topState, List.map_cons, List.reverse_cons]
    rw [← List.cons_append, List.getLast?_append]
    rfl

theorem head_remaining (c : Configuration) : c.remaining.head? = some c.lookahead := by
  obtain ⟨stack, input⟩ := c
  cases input <;> simp [remaining, lookahead]

end Configuration

end CanonicalLR
