import CanonicalLR.Sets.Follow

/-!
# Written FIRST and FOLLOW sets

One line per declared nonterminal, all FIRST sets before all FOLLOW sets. A
nullable nonterminal has `ε` at the end of its FIRST set.
-/

namespace CanonicalLR.FirstFollow

def setLine (label name : String) (members : List String) : String :=
  Text.line (label ++ "(" ++ name ++ ") = \x7b" ++ Text.listed members ++ "\x7d")

def firstLine? (g : Grammar) (first : FirstSets) (n : Nat) : Option String := do
  let name ← g.nonterminalName? n
  let members ← (first.first n).toList.mapM g.terminalName?
  return setLine "FIRST" name (if first.isNullable n then members ++ ["ε"] else members)

def followLine? (g : Grammar) (follow : FollowSets) (n : Nat) : Option String := do
  let name ← g.nonterminalName? n
  let members ← (follow.follow n).toList.mapM g.terminalName?
  return setLine "FOLLOW" name members

def text? (g : Grammar) (sets : FirstFollow) : Option String := do
  let firsts ← g.userNonterminals.mapM (firstLine? g sets.first)
  let follows ← g.userNonterminals.mapM (followLine? g sets.follow)
  return String.join (firsts ++ follows)

end CanonicalLR.FirstFollow
