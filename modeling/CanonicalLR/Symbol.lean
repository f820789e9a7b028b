/-!
# Grammar symbols

Terminals, nonterminals, productions and states are natural numbers, counted for
each kind on its own. Number zero of a kind is reserved: the end marker, the
augmented start symbol, the augmented production, the initial state. By
convention `t` is a terminal, `n` a nonterminal, `p` a production and `s` a state.
-/

namespace CanonicalLR

def endMarker : Nat := 0

def augmentedStart : Nat := 0

def augmentedProduction : Nat := 0

def initialState : Nat := 0

inductive Symbol where
  | terminal (id : Nat)
  | nonterminal (id : Nat)
deriving DecidableEq, Hashable

namespace Symbol

def terminal? : Symbol → Option Nat
  | .terminal t => some t
  | .nonterminal _ => none

def nonterminal? : Symbol → Option Nat
  | .terminal _ => none
  | .nonterminal n => some n

theorem terminal?_eq_some {symbol : Symbol} {t : Nat} :
    symbol.terminal? = some t ↔ symbol = .terminal t := by
  cases symbol <;> simp [terminal?]

theorem nonterminal?_eq_some {symbol : Symbol} {n : Nat} :
    symbol.nonterminal? = some n ↔ symbol = .nonterminal n := by
  cases symbol <;> simp [nonterminal?]

end Symbol

/-- A left-hand side and what it may be replaced by. An empty right-hand side derives the empty
string. -/
structure Production where
  left : Nat
  right : List Symbol
deriving DecidableEq

end CanonicalLR
