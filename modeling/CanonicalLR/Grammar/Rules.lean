import CanonicalLR.Grammar.Definition

/-!
# Grammars from rule lines

A rule is a line of words: a left-hand side, any number of arrows, and the
symbols of the right-hand side. Each name that begins a rule is a nonterminal,
every other name a terminal. Nonterminals are declared in order of their first
rule, terminals in order of their first use.
-/

namespace CanonicalLR

structure Rule where
  left : String
  right : List String
deriving DecidableEq

inductive RuleError where
  | emptyRule (text : String)
  | unknownStart (name : String)
  | refused (error : GrammarError)
deriving DecidableEq

namespace RuleError

def message : RuleError → String
  | .emptyRule text => s!"empty production: {Text.quoted text}"
  | .unknownStart name => s!"the start symbol `{name}' has no production"
  | .refused error => error.message

end RuleError

namespace Rule

def arrow : String := "->"

def parse? (text : String) : Option Rule :=
  match Text.words text with
  | [] => none
  | left :: rest => some ⟨left, rest.dropWhile (· == arrow)⟩

/-- Read every rule, stopping at the first without words. -/
def parseAll (texts : List String) : Except RuleError (List Rule) :=
  texts.mapM fun text => (parse? text).elim (.error (.emptyRule text)) .ok

end Rule

namespace Definition

/-- The symbol of a name; a new name is declared as a terminal. -/
def resolve (d : Definition) (name : String) : Except GrammarError (Definition × Symbol) :=
  match d.symbols[name]? with
  | some symbol => .ok (d, symbol)
  | none => do
    let (d, t) ← d.call (.terminal name)
    return (d, .terminal t)

def resolveAll (d : Definition) (names : List String) :
    Except GrammarError (Definition × Array Symbol) :=
  names.foldlM
    (fun (d, resolved) name => do
      let (d, symbol) ← d.resolve name
      return (d, resolved.push symbol))
    (d, #[])

/-- Declare the left-hand side of a rule unless an earlier rule has it too. -/
def declareLeft (d : Definition) (rule : Rule) : Except GrammarError Definition :=
  if d.symbols.contains rule.left then .ok d
  else Prod.fst <$> d.call (.nonterminal rule.left)

def declareRule (d : Definition) (rule : Rule) : Except GrammarError Definition := do
  let (d, right) ← d.resolveAll rule.right
  match d.symbols[rule.left]? with
  | some (.nonterminal left) => Prod.fst <$> d.call (.production left right.toList)
  | _ => .error .foreignSymbol

def startRule (d : Definition) : Option String → Except GrammarError Definition
  | none => .ok d
  | some name =>
    match d.symbols[name]? with
    | some (.nonterminal n) => Prod.fst <$> d.call (.start n)
    | _ => .ok d

def ofRules (rules : List Rule) (start : Option String) : Except GrammarError Definition := do
  let d ← rules.foldlM declareLeft {}
  let d ← rules.foldlM declareRule d
  d.startRule start

end Definition

namespace Grammar

/-- Read a grammar from rule lines, with the name of a start symbol if one is given. -/
def ofRuleTexts (texts : List String) (start : Option String) : Except RuleError Grammar := do
  let rules ← Rule.parseAll texts
  match start.filter fun name => ¬ rules.any (·.left == name) with
  | some name => throw (.unknownStart name)
  | none => ((Definition.ofRules rules start).bind Definition.finish).mapError .refused

end Grammar

end CanonicalLR
