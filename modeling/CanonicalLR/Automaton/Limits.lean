/-!
# Resource limits

Ceilings on the size of a grammar and of its automaton.
-/

namespace CanonicalLR

inductive Limit where
  | productions
  | states
  | items
deriving DecidableEq

namespace Limit

def name : Limit → String
  | .productions => "productions"
  | .states => "states"
  | .items => "items"

def exceededText (limit : Limit) (bound : Nat) : String :=
  s!"resource limit exceeded: more than {bound} {limit.name}"

end Limit

structure Limits where
  productions : Nat := 1000
  states : Nat := 10000
  items : Nat := 1000000
deriving DecidableEq

end CanonicalLR
