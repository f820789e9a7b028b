import CanonicalLR.Item.Set

/-!
# Automata over item sets

States are numbered in the order in which they were entered, transitions are
listed in the order in which they were found. The total number of items is
kept with the states.
-/

namespace CanonicalLR

structure State where
  kernel : ItemSet
  items : ItemSet
  accessing : Option Symbol
deriving DecidableEq

structure Transition where
  source : Nat
  symbol : Symbol
  target : Nat
deriving DecidableEq

namespace State

/-- Whether the start symbol has been read and nothing may follow it. -/
def isAccept (state : State) : Bool :=
  Item.accept ∈ state.items

end State

def itemTotal (states : List State) : Nat :=
  states.foldl (fun total state => total + state.items.size) 0

structure Automaton where
  states : Array State
  transitions : Array Transition
  itemCount : Nat
  itemCount_eq : itemCount = itemTotal states.toList
deriving DecidableEq

namespace Automaton

def empty : Automaton :=
  ⟨#[], #[], 0, rfl⟩

instance : Inhabited Automaton :=
  ⟨empty⟩

def state? (a : Automaton) (s : Nat) : Option State :=
  a.states[s]?

/-- The first state with a given item set. -/
def find? (a : Automaton) (items : ItemSet) : Option Nat :=
  a.states.findIdx? fun state => state.items = items

def addState (a : Automaton) (state : State) : Automaton where
  states := a.states.push state
  transitions := a.transitions
  itemCount := a.itemCount + state.items.size
  itemCount_eq := by simp [itemTotal, a.itemCount_eq]

def addTransition (a : Automaton) (transition : Transition) : Automaton where
  states := a.states
  transitions := a.transitions.push transition
  itemCount := a.itemCount
  itemCount_eq := a.itemCount_eq

/-- The transitions that leave a state. -/
def outgoing (a : Automaton) (s : Nat) : List Transition :=
  (a.transitions.filter fun transition => transition.source == s).toList

/-- The target of a symbol among the transitions that leave one state. -/
def target? (outgoing : List Transition) (symbol : Symbol) : Option Nat :=
  (outgoing.find? fun transition => transition.symbol = symbol).map Transition.target

def transition? (a : Automaton) (s : Nat) (symbol : Symbol) : Option Nat :=
  target? (a.outgoing s) symbol

def acceptStates (a : Automaton) : List Nat :=
  (List.range a.states.size).filter fun s => (a.state? s).any State.isAccept

theorem mem_outgoing {a : Automaton} {s : Nat} {transition : Transition} :
    transition ∈ a.outgoing s ↔ transition ∈ a.transitions ∧ transition.source = s := by
  simp [outgoing]

end Automaton

end CanonicalLR
