import CanonicalLR.Item.Set

/-!
# Written items

An item is written as its production with the dot in place and the lookahead
after a comma; a dot beyond the end of the production is not shown.
-/

namespace CanonicalLR

namespace Item

/-- The right-hand side with the dot put before the symbol at `dot`. -/
def dotted (dot : Nat) (symbols : List String) : List String :=
  if dot ≤ symbols.length then symbols.take dot ++ "." :: symbols.drop dot else symbols

def text? (g : Grammar) (item : Item) : Option String := do
  let production ← g.production? item.production
  let left ← g.nonterminalName? production.left
  let right ← production.right.mapM g.symbolName?
  let lookahead ← g.terminalName? item.lookahead
  return Text.spaced (left :: "->" :: dotted item.dot right) ++ ", " ++ lookahead

end Item

namespace ItemSet

def text? (g : Grammar) (set : ItemSet) : Option String := do
  let items ← set.toList.mapM fun item => item.text? g
  return String.join (items.map fun item => Text.line ("- [" ++ item ++ "]"))

end ItemSet

end CanonicalLR
