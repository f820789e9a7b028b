import CanonicalLR.Command.Session

/-!
# The command

Reads the options, carries out the session and reports its failure.
-/

namespace CanonicalLR.Command

def usage : String :=
  "usage: -p RULE [-p RULE]... [--start NAME] [--input TOKENS]\n" ++
  "  [--dump grammar|sets|automaton|table]... [--out-dir DIR]\n" ++
  "  [--max-productions N] [--max-states N] [--max-items N] [--retain-partial]"

def writeFile (path contents : String) : IO (Option String) := do
  try
    IO.FS.writeFile path contents
    return none
  catch error =>
    match error with
    | .noFileOrDirectory _ code _ => return some s!"No such file or directory (os error {code})"
    | other => return some (toString other)

end CanonicalLR.Command

def main (arguments : List String) : IO UInt32 := do
  match CanonicalLR.Command.Options.parse? arguments with
  | none =>
    IO.eprintln CanonicalLR.Command.usage
    return 2
  | some options =>
    let session := CanonicalLR.Command.Session.ofOptions options CanonicalLR.Table.stepBudget
    match ← session.play IO.print CanonicalLR.Command.writeFile with
    | none => return 0
    | some failure =>
      IO.eprint failure.report
      return 1
