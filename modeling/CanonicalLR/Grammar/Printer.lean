import CanonicalLR.Grammar.Basic

/-!
# Written grammars

The listing of a grammar: terminals, nonterminals with the start symbol marked,
and the numbered productions. It exists when every symbol has a name.
-/

namespace CanonicalLR.Grammar

open Text (line)

def nonterminalLine? (g : Grammar) (n : Nat) : Option String := do
  let name ← g.nonterminalName? n
  return line (if n = g.start then name ++ " (start)" else name)

def productionLine? (g : Grammar) (p : Nat) : Option String := do
  let production ← g.production? p
  let text ← production.text? g
  return line s!"{Text.padded 3 p}: {text}"

def text? (g : Grammar) : Option String := do
  let nonterminals ← g.nonterminalIds.mapM g.nonterminalLine?
  let productions ← g.productionIds.mapM g.productionLine?
  return String.join ("## terminals:\n" :: g.terminals.toList.map line ++
    "\n## nonterminals:\n" :: nonterminals ++
    "\n## productions:\n" :: productions)

end CanonicalLR.Grammar
