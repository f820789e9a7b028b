import CanonicalLR.Symbol
import CanonicalLR.Text.Quoted

/-!
# Refused grammars

The causes for which a declaration, or the final check of a definition, is
refused, and their wording.
-/

namespace CanonicalLR

inductive GrammarError where
  | undefinedSymbol (name left : String)
  | unreachableStart (name : String)
  | emptyGrammar
  | duplicateSymbol (name : String)
  | invalidName (name : String)
  | reservedSymbol (name : String)
  | foreignSymbol
  | tooManySymbols
deriving DecidableEq

namespace GrammarError

def message : GrammarError → String
  | .undefinedSymbol name left =>
      s!"nonterminal `{name}' is used in a production of `{left}' but has no production"
  | .unreachableStart name => s!"the start symbol `{name}' has no production"
  | .emptyGrammar => "the grammar declares no nonterminal symbols"
  | .duplicateSymbol name => s!"the symbol `{name}' has already been declared"
  | .invalidName name => s!"incorrect symbol name: {Text.quoted name}"
  | .reservedSymbol name => s!"{name} is reserved and cannot be used here"
  | .foreignSymbol => "the symbol was not declared by this grammar definition"
  | .tooManySymbols => "too many symbols or productions"

end GrammarError

end CanonicalLR
