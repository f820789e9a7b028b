import CanonicalLR.Grammar.Basic

/-!
# Tokens

The input of a run names its terminals; one end marker at the end is dropped.
Any other text that is not the name of a declared terminal is refused with its
position.
-/

namespace CanonicalLR

structure UnknownToken where
  token : String
  position : Nat
deriving DecidableEq

namespace UnknownToken

def message (unknown : UnknownToken) : String :=
  s!"unknown terminal `{unknown.token}' at position {unknown.position}"

end UnknownToken

/-- The tokens without an end marker at their end. -/
def inputBody (tokens : List String) : List String :=
  if tokens.getLast? = some endMarkerName then tokens.dropLast else tokens

namespace Grammar

def token? (g : Grammar) (token : String) : Option Nat :=
  (g.terminal? token).filter (· ≠ endMarker)

def tokenizeFrom (g : Grammar) (position : Nat) : List String → Except UnknownToken (List Nat)
  | [] => .ok []
  | token :: rest =>
    match g.token? token with
    | none => .error ⟨token, position⟩
    | some t => (g.tokenizeFrom (position + 1) rest).map (t :: ·)

def tokenize (g : Grammar) (tokens : List String) : Except UnknownToken (List Nat) :=
  g.tokenizeFrom 0 (inputBody tokens)

end Grammar

end CanonicalLR
