import CanonicalLR.Automaton.Printer
import CanonicalLR.Command.Options
import CanonicalLR.Grammar.Printer
import CanonicalLR.Grammar.Rules
import CanonicalLR.Run.Printer
import CanonicalLR.Sets.Printer
import CanonicalLR.Table.Printer

/-!
# Command line sessions

What a call of the command does: the texts that it prints, the files that it
writes, and the failure that ends it, if one does.
-/

namespace CanonicalLR.Command

structure Failure where
  message : String
  cause : Option String
deriving DecidableEq

namespace Failure

/-- A cause is indented by four blanks, on each of its lines. -/
def indented (text : String) : String :=
  String.ofList (text.toList.flatMap fun c => if c = '\n' then "\n    ".toList else [c])

def report (failure : Failure) : String :=
  match failure.cause with
  | none => s!"Error: {failure.message}\n"
  | some cause => s!"Error: {failure.message}\n\nCaused by:\n    {indented cause}\n"

end Failure

inductive Output where
  | print (text : String)
  | write (dump : Dump) (path contents : String)
deriving DecidableEq

structure Session where
  outputs : List Output
  failure : Option Failure
deriving DecidableEq

namespace Output

def printed (text : Option String) : Output :=
  .print (Text.line (text.getD ""))

end Output

/-- The file of a dump in a directory. -/
def dumpPath (directory : String) (dump : Dump) : String :=
  let separator := if directory.toList.getLast? = some '/' then "" else "/"
  directory ++ separator ++ dump.name ++ ".txt"

def dumpText? (g : Grammar) (analysis : Analysis) : Dump → Option String
  | .grammar => g.text?
  | .sets => analysis.sets.text? g
  | .automaton => analysis.automaton.text? g
  | .table => analysis.table.text? g

def dumpOutput (g : Grammar) (analysis : Analysis) (outDir : Option String) (dump : Dump) :
    Output :=
  let text := dumpText? g analysis dump
  match outDir with
  | none => .printed text
  | some directory => .write dump (dumpPath directory dump) (text.getD "")

def conflictWarning (conflicts : Nat) : List Output :=
  if conflicts = 0 then []
  else
    let plural := if conflicts = 1 then "" else "s"
    [.printed s!"[warning] The parse table has {conflicts} conflicting cell{plural}."]

namespace Session

def failed (message : String) (cause : Option String) : Session :=
  ⟨[], some ⟨message, cause⟩⟩

/-- Some outputs, and then what another session does. -/
def after (outputs : List Output) (session : Session) : Session :=
  { session with outputs := outputs ++ session.outputs }

/-- Run the parser over the words of an input. -/
def ofInput (g : Grammar) (analysis : Analysis) (fuel : Nat) (input : String) : Session :=
  match analysis.simulate g fuel (Text.words input) with
  | .error unknown => failed "failed to tokenize the input" (some unknown.message)
  | .ok none => failed s!"the run did not end within {fuel} step(s)" none
  | .ok (some result) =>
    { outputs := [.printed (result.text? g)]
      failure := result.error.map fun rejection =>
        ⟨"the input was rejected: " ++ (rejection.text? g).getD "", none⟩ }

def ofAnalysis (options : Options) (g : Grammar) (analysis : Analysis) (fuel : Nat) : Session :=
  let dumps := if options.dumps.isEmpty then [.table] else options.dumps
  after
    (conflictWarning analysis.table.conflicts.length ++
      dumps.map (dumpOutput g analysis options.outDir))
    (match options.input with
    | none => ⟨[], none⟩
    | some input => ofInput g analysis fuel input)

def ofError (g : Grammar) : AnalysisError → Session
  | .limitExceeded limit bound _ (some automaton) =>
    { outputs := [.printed (automaton.text? g)]
      failure := some
        ⟨s!"{limit.exceededText bound} ({automaton.states.size} state(s) shown above)", none⟩ }
  | error => failed "failed to analyze the grammar" (some error.message)

def ofOptions (options : Options) (fuel : Nat) : Session :=
  match Grammar.ofRuleTexts options.productions options.start with
  | .error error => failed "failed to load the grammar" (some error.message)
  | .ok g =>
    match g.analyze options.settings with
    | .error error => ofError g error
    | .ok analysis => ofAnalysis options g analysis fuel

/-- Carry out outputs in order, up to a file that cannot be written. -/
def carryOut {m : Type → Type} [Monad m] (print : String → m Unit)
    (write : String → String → m (Option String)) : List Output → m (Option Failure)
  | [] => pure none
  | .print text :: rest => do
    print text
    carryOut print write rest
  | .write dump path contents :: rest => do
    match ← write path contents with
    | none => carryOut print write rest
    | some cause => pure (some ⟨s!"failed to write the {dump.name} dump to {path}", some cause⟩)

/-- Carry out a session; the answer is the failure that ends it. -/
def play {m : Type → Type} [Monad m] (print : String → m Unit)
    (write : String → String → m (Option String)) (session : Session) : m (Option Failure) := do
  match ← carryOut print write session.outputs with
  | some failure => pure (some failure)
  | none => pure session.failure

end Session

end CanonicalLR.Command
