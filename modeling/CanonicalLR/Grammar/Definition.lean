import CanonicalLR.Grammar.Basic
import CanonicalLR.Grammar.Error
import CanonicalLR.IdSet
import CanonicalLR.Text.Blank
import Std.Data.TreeMap

/-!
# Grammar definitions

A definition grows by declaration calls. A call is checked against what has
been declared before it; a refused call changes nothing. The final check picks
the start symbol and adds the reserved symbols and the augmented production.
-/

namespace CanonicalLR

/-- What has been declared so far; the reserved entries are not listed. -/
structure Definition where
  terminals : Array String := #[]
  nonterminals : Array String := #[]
  productions : Array Production := #[]
  start : Option Nat := none
  symbols : Std.TreeMap String Symbol := ∅

inductive Call where
  | terminal (name : String)
  | nonterminal (name : String)
  | production (left : Nat) (right : List Symbol)
  | start (symbol : Nat)
deriving DecidableEq

namespace Definition

/-- The largest id of a kind. -/
def idLimit : Nat := 65534

/-- The largest number of symbols on a right-hand side. -/
def lengthLimit : Nat := 65535

def augmentedStartLabel : String := "the augmented start symbol"

def checkName (d : Definition) (name : String) : Except GrammarError Unit :=
  if name = "" ∨ name.toList.any Text.isBlank then .error (.invalidName name)
  else if name = endMarkerName then .error (.reservedSymbol name)
  else if d.symbols.contains name then .error (.duplicateSymbol name)
  else .ok ()

def checkNonterminal (d : Definition) (n : Nat) : Except GrammarError Unit :=
  if n = augmentedStart then .error (.reservedSymbol augmentedStartLabel)
  else if n ≤ d.nonterminals.size then .ok ()
  else .error .foreignSymbol

def checkTerminal (d : Definition) (t : Nat) : Except GrammarError Unit :=
  if t = endMarker then .error (.reservedSymbol endMarkerName)
  else if t ≤ d.terminals.size then .ok ()
  else .error .foreignSymbol

def checkSymbol (d : Definition) : Symbol → Except GrammarError Unit
  | .terminal t => d.checkTerminal t
  | .nonterminal n => d.checkNonterminal n

def checkLength (right : List Symbol) : Except GrammarError Unit :=
  if right.length ≤ lengthLimit then .ok () else .error .tooManySymbols

/-- Whether there is an id left after a number of earlier ones. -/
def checkRoom (declared : Nat) : Except GrammarError Unit :=
  if declared < idLimit then .ok () else .error .tooManySymbols

/-- Whether a call may be carried out, and if not, why. -/
def check (d : Definition) : Call → Except GrammarError Unit
  | .terminal name => do
    d.checkName name
    checkRoom d.terminals.size
  | .nonterminal name => do
    d.checkName name
    checkRoom d.nonterminals.size
  | .production left right => do
    d.checkNonterminal left
    checkLength right
    right.forM d.checkSymbol
    checkRoom d.productions.size
  | .start symbol => d.checkNonterminal symbol

/-- Carry out a call; the number is the id that was declared or chosen. -/
def record (d : Definition) : Call → Definition × Nat
  | .terminal name =>
    let id := d.terminals.size + 1
    ({ d with
      terminals := d.terminals.push name
      symbols := d.symbols.insert name (.terminal id) }, id)
  | .nonterminal name =>
    let id := d.nonterminals.size + 1
    ({ d with
      nonterminals := d.nonterminals.push name
      symbols := d.symbols.insert name (.nonterminal id) }, id)
  | .production left right =>
    let id := d.productions.size + 1
    ({ d with productions := d.productions.push ⟨left, right⟩ }, id)
  | .start symbol => ({ d with start := some symbol }, symbol)

def call (d : Definition) (call : Call) : Except GrammarError (Definition × Nat) := do
  d.check call
  return d.record call

/-- A refused call leaves the definition as it was. -/
def attempt (d : Definition) (call : Call) : Definition :=
  match d.check call with
  | .ok () => (d.record call).1
  | .error _ => d

theorem call_eq_ok {d : Definition} {call : Call} {result : Definition × Nat} :
    d.call call = .ok result ↔ d.check call = .ok () ∧ d.record call = result := by
  unfold Definition.call
  cases d.check call with
  | ok _ => simp [bind, Except.bind, pure, Except.pure]
  | error _ => simp [bind, Except.bind]

def ofCalls (calls : List Call) : Definition :=
  calls.foldl attempt {}

/-- The chosen start symbol, else the first nonterminal. -/
def startSymbol? (d : Definition) : Option Nat :=
  d.start <|> if d.nonterminals.isEmpty then none else some 1

def nonterminalName (d : Definition) (n : Nat) : String :=
  d.nonterminals.getD (n - 1) ""

/-- The nonterminals with a production. -/
def defined (d : Definition) : IdSet :=
  IdSet.ofList (d.productions.toList.map Production.left)

/-- The first nonterminal of a right-hand side that has no production, with its left side. -/
def firstUndefined? (d : Definition) : Option (Nat × Nat) :=
  let defined := d.defined
  d.productions.toList.findSome? fun production =>
    (production.right.findSome? fun symbol =>
      symbol.nonterminal?.filter (· ∉ defined)).map (·, production.left)

def augment (d : Definition) (start : Nat) : Grammar where
  terminals := #[endMarkerName] ++ d.terminals
  nonterminals := #[d.nonterminalName start ++ "'"] ++ d.nonterminals
  productions := #[⟨augmentedStart, [.nonterminal start]⟩] ++ d.productions
  start := start

def finish (d : Definition) : Except GrammarError Grammar :=
  match d.startSymbol? with
  | none => .error .emptyGrammar
  | some start =>
    if start ∈ d.defined then
      match d.firstUndefined? with
      | some (n, left) =>
          .error (.undefinedSymbol (d.nonterminalName n) (d.nonterminalName left))
      | none => .ok (d.augment start)
    else .error (.unreachableStart (d.nonterminalName start))

end Definition

namespace Grammar

/-- The grammar of a sequence of calls, the refused ones skipped. -/
def ofCalls (calls : List Call) : Except GrammarError Grammar :=
  (Definition.ofCalls calls).finish

/-- The grammar of a sequence of calls, none of which may be refused. -/
def define (calls : List Call) : Except GrammarError Grammar := do
  let d ← calls.foldlM (fun d call => Prod.fst <$> Definition.call d call) ({} : Definition)
  d.finish

end Grammar

end CanonicalLR
