import CanonicalLR.Analysis

/-!
# Command line options

Flags are given as `--name value`, `--name=value`, and for productions also as
`-p value`, `-pvalue` and `-p=value`. A separate value may not look like a flag.
Productions and dumps may be repeated, every other flag is given at most once,
and there has to be a production.
-/

namespace CanonicalLR.Command

inductive Dump where
  | grammar
  | sets
  | automaton
  | table
deriving DecidableEq

namespace Dump

def name : Dump → String
  | .grammar => "grammar"
  | .sets => "sets"
  | .automaton => "automaton"
  | .table => "table"

def all : List Dump :=
  [.grammar, .sets, .automaton, .table]

def ofName? (name : String) : Option Dump :=
  all.find? fun dump => dump.name == name

theorem ofName?_name (dump : Dump) : ofName? dump.name = some dump := by
  cases dump <;> rfl

end Dump

structure Options where
  productions : List String := []
  start : Option String := none
  input : Option String := none
  dumps : List Dump := []
  outDir : Option String := none
  maxProductions : Option Nat := none
  maxStates : Option Nat := none
  maxItems : Option Nat := none
  retainPartial : Bool := false
deriving DecidableEq

/-- The largest number that a flag takes. -/
def numberLimit : Nat := 1 <<< 64

def digitsValue? (digits : List Char) : Option Nat :=
  if digits.isEmpty ∨ ¬ digits.all Char.isDigit then none
  else
    let value := digits.foldl (fun value c => 10 * value + (c.toNat - '0'.toNat)) 0
    if value < numberLimit then some value else none

/-- Decimal digits, with a plus sign in front if one likes. -/
def number? (text : String) : Option Nat :=
  match text.toList with
  | '+' :: digits => digitsValue? digits
  | digits => digitsValue? digits

/-- Fill a slot that may be filled once. -/
def fill? {α : Type} (slot : Option α) (value : Option α) : Option (Option α) :=
  match slot with
  | none => value.map some
  | some _ => none

/-- How an argument reads on its own. -/
inductive Argument where
  | separator
  | flag (name : String)
  | assignment (name value : String)
  | plain (text : String)
deriving DecidableEq

namespace Argument

/-- A long flag is cut at its first equals sign. -/
def ofLong (body : List Char) : Argument :=
  let name := String.ofList (body.takeWhile (· ≠ '='))
  match body.dropWhile (· ≠ '=') with
  | [] => .flag name
  | _ :: value => .assignment name (String.ofList value)

/-- The only short flag takes the rest of its argument as a value. -/
def ofShort (letter : Char) (rest : List Char) : Argument :=
  if letter = 'p' then
    match rest with
    | [] => .flag "production"
    | '=' :: value => .assignment "production" (String.ofList value)
    | value => .assignment "production" (String.ofList value)
  else .flag (String.ofList [letter])

def ofText (text : String) : Argument :=
  match text.toList with
  | ['-', '-'] => .separator
  | '-' :: '-' :: body => ofLong body
  | '-' :: letter :: rest => ofShort letter rest
  | _ => .plain text

end Argument

namespace Options

def assign? (options : Options) (name value : String) : Option Options :=
  match name with
  | "production" => some { options with productions := options.productions ++ [value] }
  | "dump" => (Dump.ofName? value).map fun dump =>
      { options with dumps := options.dumps ++ [dump] }
  | "start" => (fill? options.start (some value)).map fun start => { options with start }
  | "input" => (fill? options.input (some value)).map fun input => { options with input }
  | "out-dir" => if value = "" then none
      else (fill? options.outDir (some value)).map fun outDir => { options with outDir }
  | "max-productions" => (fill? options.maxProductions (number? value)).map
      fun maxProductions => { options with maxProductions }
  | "max-states" => (fill? options.maxStates (number? value)).map
      fun maxStates => { options with maxStates }
  | "max-items" => (fill? options.maxItems (number? value)).map
      fun maxItems => { options with maxItems }
  | _ => none

/-- The one flag without a value. -/
def switch? (options : Options) (name : String) : Option (Option Options) :=
  if name = "retain-partial" then
    some (if options.retainPartial then none else some { options with retainPartial := true })
  else none

def read? (options : Options) : List String → Option Options
  | [] => some options
  | text :: rest =>
    match Argument.ofText text with
    | .separator => if rest.isEmpty then some options else none
    | .plain _ => none
    | .assignment name value =>
      match options.assign? name value with
      | some options => read? options rest
      | none => none
    | .flag name =>
      match options.switch? name, rest with
      | some (some options), rest => read? options rest
      | some none, _ => none
      | none, [] => none
      | none, value :: rest =>
        match Argument.ofText value, options.assign? name value with
        | .plain _, some options => read? options rest
        | _, _ => none

def parse? (arguments : List String) : Option Options :=
  (read? {} arguments).filter fun options => !options.productions.isEmpty

def limits (options : Options) : Limits :=
  let default : Limits := {}
  { productions := options.maxProductions.getD default.productions
    states := options.maxStates.getD default.states
    items := options.maxItems.getD default.items }

def settings (options : Options) : Settings :=
  { limits := options.limits, retainPartial := options.retainPartial }

end Options

end CanonicalLR.Command
