import CanonicalLR.Automaton.Collection
import CanonicalLR.Run.Trace
import CanonicalLR.Sets.Follow
import CanonicalLR.Table.Synthesis

/-!
# Analysis of a grammar

The way from a grammar to its parse table, under limits, unless it has been
cancelled before it begins.
-/

namespace CanonicalLR

structure Settings where
  limits : Limits := {}
  retainPartial : Bool := false
  cancelled : Bool := false
deriving DecidableEq

structure Analysis where
  sets : FirstFollow
  automaton : Automaton
  table : Table
deriving DecidableEq

/-- An exceeded limit tells how many states had been built, and keeps them if asked to. -/
inductive AnalysisError where
  | limitExceeded (limit : Limit) (bound built : Nat) (retained : Option Automaton)
  | cancelled
deriving DecidableEq

namespace AnalysisError

def message : AnalysisError → String
  | .limitExceeded limit bound _ _ => limit.exceededText bound
  | .cancelled => "the analysis was cancelled"

def ofHalted (settings : Settings) (halted : Halted) : AnalysisError :=
  .limitExceeded halted.limit halted.bound halted.automaton.states.size
    (if settings.retainPartial then some halted.automaton else none)

end AnalysisError

namespace Grammar

/-- The number of productions that the grammar's author declared. -/
def userProductionCount (g : Grammar) : Nat :=
  g.productions.size - 1

def analyze (g : Grammar) (settings : Settings) : Except AnalysisError Analysis :=
  if settings.limits.productions < g.userProductionCount then
    .error (.limitExceeded .productions settings.limits.productions 0 none)
  else if settings.cancelled then .error .cancelled
  else
    let sets := g.firstFollow
    match g.automaton sets.first settings.limits with
    | .error halted => .error (.ofHalted settings halted)
    | .ok automaton => .ok ⟨sets, automaton, automaton.table g⟩

end Grammar

namespace Analysis

def simulate (analysis : Analysis) (g : Grammar) (fuel : Nat) (tokens : List String) :
    Except UnknownToken (Option ParseResult) :=
  analysis.table.simulate g fuel tokens

end Analysis

end CanonicalLR
