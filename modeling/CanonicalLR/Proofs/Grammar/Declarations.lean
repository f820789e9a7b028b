import CanonicalLR.Proofs.Grammar.WellFormed

/-!
# What a sequence of calls declares

The calls that pass their check, in order, are all that counts: they tell the
names, the productions and the start symbol of the definition that they end in.
-/

namespace CanonicalLR

namespace Call

/-- The name that a call declares for a terminal. -/
def terminal? : Call → Option String
  | .terminal name => some name
  | _ => none

def nonterminal? : Call → Option String
  | .nonterminal name => some name
  | _ => none

def production? : Call → Option Production
  | .production left right => some ⟨left, right⟩
  | _ => none

def start? : Call → Option Nat
  | .start symbol => some symbol
  | _ => none

end Call

/-- The names, the productions and the choices of a start symbol, each in order. -/
structure Declarations where
  terminals : List String
  nonterminals : List String
  productions : List Production
  starts : List Nat

namespace Declarations

def ofCalls (calls : List Call) : Declarations where
  terminals := calls.filterMap Call.terminal?
  nonterminals := calls.filterMap Call.nonterminal?
  productions := calls.filterMap Call.production?
  starts := calls.filterMap Call.start?

/-- The start symbol that was chosen last, or else the first nonterminal. -/
def start (d : Declarations) : Nat :=
  d.starts.getLast?.getD 1

/-- The name of a declared nonterminal; they are counted from one. -/
def nonterminalName? (d : Declarations) : Nat → Option String
  | 0 => none
  | n + 1 => d.nonterminals[n]?

/-- There is a production of a nonterminal. -/
def Defines (d : Declarations) (n : Nat) : Prop :=
  ∃ production ∈ d.productions, production.left = n

end Declarations

namespace Definition

/-- The calls that pass their check when their turn comes. -/
def carriedOut (d : Definition) : List Call → List Call
  | [] => []
  | call :: rest =>
      match d.check call with
      | .ok () => call :: (d.record call).1.carriedOut rest
      | .error _ => d.carriedOut rest

/-- A definition has what has been declared, and of the start symbols the last one. -/
structure Records (d : Definition) (whole : Declarations) : Prop where
  terminals : d.terminals.toList = whole.terminals
  nonterminals : d.nonterminals.toList = whole.nonterminals
  productions : d.productions.toList = whole.productions
  start : d.start = whole.starts.getLast?

theorem records_empty : Records {} (.ofCalls []) :=
  ⟨rfl, rfl, rfl, rfl⟩

theorem Records.record {d : Definition} {calls : List Call} (records : d.Records (.ofCalls calls))
    (call : Call) : (d.record call).1.Records (.ofCalls (calls ++ [call])) := by
  obtain ⟨terminals, nonterminals, productions, start⟩ := records
  cases call <;> constructor <;>
    simp [Definition.record, Declarations.ofCalls, Call.terminal?, Call.nonterminal?,
      Call.production?, Call.start?, terminals, nonterminals, productions, start]

theorem Records.foldl {d : Definition} {done : List Call} (records : d.Records (.ofCalls done))
    (calls : List Call) :
    (calls.foldl attempt d).Records (.ofCalls (done ++ d.carriedOut calls)) := by
  induction calls generalizing d done with
  | nil => simpa [carriedOut] using records
  | cons call rest ih =>
    rw [List.foldl_cons]
    cases checked : d.check call with
    | ok _ =>
      have later := ih (records.record call)
      simpa [carriedOut, checked, attempt_of_ok] using later
    | error cause =>
      have later := ih records
      simpa [carriedOut, checked, attempt_of_error checked] using later

theorem carriedOut_append (d : Definition) (first second : List Call) :
    d.carriedOut (first ++ second) =
      d.carriedOut first ++ (first.foldl attempt d).carriedOut second := by
  induction first generalizing d with
  | nil => rfl
  | cons call rest ih =>
    cases checked : d.check call with
    | ok _ => simp [carriedOut, attempt, checked, ih]
    | error cause => simp [carriedOut, attempt, checked, ih]

/-- A call that succeeds is carried out between those before it and those after it. -/
theorem carriedOut_of_call {before after : List Call} {call : Call} {later : Definition} {id : Nat}
    (called : (ofCalls before).call call = .ok (later, id)) :
    carriedOut {} (before ++ call :: after) =
      carriedOut {} before ++ call :: later.carriedOut after := by
  obtain ⟨passed, recorded⟩ := call_eq_ok.mp called
  have next : ((ofCalls before).record call).1 = later := congrArg Prod.fst recorded
  have here : (ofCalls before).carriedOut (call :: after) = call :: later.carriedOut after := by
    rw [carriedOut, passed, ← next]
  rw [carriedOut_append]
  exact congrArg (carriedOut {} before ++ ·) here

end Definition

/-- What a sequence of calls declares, the refused ones skipped. -/
def declarations (calls : List Call) : Declarations :=
  .ofCalls (Definition.carriedOut {} calls)

/-- The definition of a sequence of calls has what they declare, and no more. -/
theorem Definition.records_ofCalls (calls : List Call) :
    (ofCalls calls).Records (declarations calls) :=
  records_empty.foldl calls

/-- A production is declared under the id that its call returns. -/
theorem getElem?_productions_of_call {before after : List Call} {left : Nat} {right : List Symbol}
    {later : Definition} {id : Nat}
    (called : (Definition.ofCalls before).call (.production left right) = .ok (later, id)) :
    ∃ i, id = i + 1 ∧ (declarations (before ++ .production left right :: after)).productions[i]? =
      some ⟨left, right⟩ := by
  have records := Definition.records_ofCalls before
  obtain ⟨-, recorded⟩ := Definition.call_eq_ok.mp called
  have number : (Definition.ofCalls before).productions.size + 1 = id :=
    congrArg Prod.snd recorded
  refine ⟨_, number.symm, ?_⟩
  rw [declarations, Definition.carriedOut_of_call called, Declarations.ofCalls,
    ← Array.length_toList, records.productions, declarations, Declarations.ofCalls]
  simp [Call.production?]

end CanonicalLR
