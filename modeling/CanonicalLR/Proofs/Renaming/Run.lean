import CanonicalLR.Proofs.Grammar.Names
import CanonicalLR.Proofs.Renaming.Table
import CanonicalLR.Proofs.Run.FirstSteps

/-!
# Renumbered runs

Runs over corresponding tokens take corresponding steps, one for one, whether
they end or not.
-/

namespace CanonicalLR

namespace Renumbering

variable (r : Renumbering)

def entry (entry : Nat × Symbol) : Nat × Symbol :=
  (r.states entry.1, r.symbol entry.2)

def configuration (c : Configuration) : Configuration :=
  ⟨c.stack.map r.entry, c.input.map r.terminals⟩

def rejection : Rejection → Rejection
  | .noAction s t => .noAction (r.states s) (r.terminals t)
  | .conflict s t kind => .conflict (r.states s) (r.terminals t) kind
  | .missingGoto s n => .missingGoto (r.states s) (r.nonterminals n)
  | .stackUnderflow p => .stackUnderflow (r.productions p)

def action : StepAction → StepAction
  | .shift next => .shift (r.states next)
  | .reduce p next => .reduce (r.productions p) (r.states next)
  | .accept => .accept
  | .error rejection => .error (r.rejection rejection)

def step (step : Step) : Step :=
  ⟨step.index, r.configuration step.configuration, r.action step.action⟩

/-- The result of a run with everything renumbered but the verdict. -/
def result (result : ParseResult) : ParseResult :=
  ⟨result.accepted, result.steps.map r.step, result.error.map r.rejection,
    result.input.map r.terminals⟩

theorem rejection?_action (action : StepAction) :
    (r.action action).rejection? = action.rejection?.map r.rejection := by
  cases action <;> rfl

theorem ofSteps (input : List Nat) (steps : List Step) :
    ParseResult.ofSteps (input.map r.terminals) (steps.map r.step) =
      r.result (.ofSteps input steps) := by
  have last : (((steps.map r.step).getLast?).bind fun step => step.action.rejection?) =
      (steps.getLast?.bind fun step => step.action.rejection?).map r.rejection := by
    rw [List.getLast?_map, Option.bind_map, Option.map_bind]
    exact congrArg _ (funext fun step => r.rejection?_action step.action)
  simp only [ParseResult.ofSteps, result, last, Option.isNone_map]

end Renumbering

/-- A run reduces by the production that its cell names. -/
theorem Configuration.decided_of_reduce {g : Grammar} {table : Table} {c : Configuration}
    {p next : Nat} (acts : c.action? g table = some (.reduce p next)) :
    table.action? c.state c.lookahead = some (.decided (.reduce p)) := by
  unfold Configuration.action? at acts
  split at acts
  · cases acts
  · cases acts
  · cases acts
  · cases acts
  · rename_i q cell
    obtain ⟨production, -, reduced⟩ := Option.map_eq_some_iff.mp acts
    unfold Configuration.reduction at reduced
    split at reduced
    · cases reduced
    · dsimp only at reduced
      split at reduced
      · obtain ⟨rfl, -⟩ := StepAction.reduce.inj reduced
        exact cell
      · cases reduced

namespace Renames

variable {r : Renaming} {g h : Grammar} (renames : Renames r g h) (left : g.Named)
  (right : h.Named)
include renames left right

theorem token? (token : String) : h.token? token = (g.token? token).map r.terminals := by
  have looked : h.terminal? token = (g.terminal? token).map r.terminals := by
    ext t
    obtain ⟨t, rfl⟩ := r.terminals.surjective t
    rw [right.terminal?_eq_some_iff, renames.terminalName?, ← left.terminal?_eq_some_iff]
    simp [Option.map_eq_some_iff]
  rw [Grammar.token?, Grammar.token?, looked]
  cases g.terminal? token with
  | none => rfl
  | some t =>
    have marker : r.terminals t = CanonicalLR.endMarker ↔ t = CanonicalLR.endMarker := by
      constructor
      · exact fun same => r.terminals.injective (same.trans renames.endMarker.symm)
      · rintro rfl
        exact renames.endMarker
    rw [Option.map_some, Option.filter_some, Option.filter_some]
    by_cases same : t = CanonicalLR.endMarker
    · simp [same, renames.endMarker]
    · simp [same, marker]

theorem tokenizeFrom (position : Nat) (tokens : List String) :
    h.tokenizeFrom position tokens =
      (g.tokenizeFrom position tokens).map (List.map r.terminals) := by
  induction tokens generalizing position with
  | nil => rfl
  | cons token rest ih =>
    simp only [Grammar.tokenizeFrom, renames.token? left right]
    cases g.token? token with
    | none => rfl
    | some t =>
      simp only [Option.map_some, ih]
      cases g.tokenizeFrom (position + 1) rest <;> rfl

end Renames

/-- The cells of two tables hold the same up to a renumbering, and so do the productions that
they reduce by. -/
structure Mirrors (r : Renumbering) (g h : Grammar) (table other : Table) : Prop where
  initial : r.states initialState = initialState
  endMarker : r.terminals endMarker = endMarker
  action? : ∀ s t, Alike r.move (table.action? s t)
    (other.action? (r.states s) (r.terminals t))
  goto? : ∀ s n, other.goto? (r.states s) (r.nonterminals n) = (table.goto? s n).map r.states
  production? : ∀ {s t p : Nat}, table.action? s t = some (.decided (.reduce p)) →
    h.production? (r.productions p) = (g.production? p).map r.production

namespace Mirrors

variable {r : Renumbering} {g h : Grammar} {table other : Table}
  (mirrors : Mirrors r g h table other)
include mirrors

theorem topState (stack : List (Nat × Symbol)) :
    Configuration.topState (stack.map r.entry) = r.states (Configuration.topState stack) := by
  cases stack with
  | nil => exact mirrors.initial.symm
  | cons top below => rfl

theorem state (c : Configuration) : (r.configuration c).state = r.states c.state :=
  mirrors.topState c.stack

theorem lookahead (c : Configuration) :
    (r.configuration c).lookahead = r.terminals c.lookahead := by
  obtain ⟨stack, input⟩ := c
  cases input with
  | nil => exact mirrors.endMarker.symm
  | cons t rest => rfl

theorem reduction (c : Configuration) (p : Nat) (production : Production) :
    (r.configuration c).reduction other (r.productions p) (r.production production) =
      r.action (c.reduction table p production) := by
  have exposed : Configuration.topState ((c.stack.map r.entry).drop production.right.length) =
      r.states (Configuration.topState (c.stack.drop production.right.length)) := by
    rw [← List.map_drop]
    exact mirrors.topState _
  simp only [Configuration.reduction, Renaming.production, Renumbering.configuration,
    List.length_map, exposed, mirrors.goto?]
  split
  · rfl
  · cases table.goto? _ _ <;> rfl

/-- Corresponding configurations act alike. -/
theorem nextAction (c : Configuration) : (r.configuration c).action? h other =
    (c.action? g table).map r.action := by
  have cells := mirrors.action? c.state c.lookahead
  have named {p : Nat} := mirrors.production? (s := c.state) (t := c.lookahead) (p := p)
  unfold Configuration.action?
  rw [mirrors.state, mirrors.lookahead]
  generalize table.action? c.state c.lookahead = cell at cells named
  generalize other.action? (r.states c.state) (r.terminals c.lookahead) = opposite at cells
  cases cells with
  | empty => rfl
  | undecided kind =>
    simp only [kind]
    rfl
  | decided move =>
    cases move with
    | shift next => rfl
    | accept => rfl
    | reduce p =>
      simp only [Renumbering.move, named rfl, Option.map_map]
      cases g.production? p with
      | none => rfl
      | some production => exact congrArg some (mirrors.reduction c p production)

theorem nextConfiguration {c : Configuration} {action : StepAction}
    (acts : c.action? g table = some action) :
    (r.configuration c).after? h (r.action action) = (c.after? g action).map r.configuration := by
  cases action with
  | shift next =>
    simp only [Configuration.after?, Renumbering.action, Option.map_some, Configuration.shifted,
      mirrors.lookahead]
    simp [Renumbering.configuration, Renumbering.entry, Renaming.symbol]
  | reduce p next =>
    simp only [Configuration.after?, Renumbering.action,
      mirrors.production? (Configuration.decided_of_reduce acts)]
    cases g.production? p with
    | none => rfl
    | some production =>
      simp [Configuration.reduced, Renumbering.configuration, Renumbering.entry, Renaming.symbol,
        Renaming.production]
  | accept => rfl
  | error rejection => rfl

theorem trace (fuel index : Nat) (c : Configuration) :
    (r.configuration c).trace h other fuel index =
      (c.trace g table fuel index).map (List.map r.step) := by
  induction fuel generalizing index c with
  | zero => rfl
  | succ fuel ih =>
    simp only [Configuration.trace, mirrors.nextAction]
    cases acts : c.action? g table with
    | none => rfl
    | some action =>
      simp only [Option.map_some, mirrors.nextConfiguration acts]
      cases c.after? g action with
      | none => rfl
      | some next =>
        simp only [Option.map_some, ih, Option.map_map]
        rfl

/-- The first steps correspond, also of a run that has no end. -/
theorem firstSteps (count index : Nat) (c : Configuration) :
    (r.configuration c).firstSteps h other count index =
      (c.firstSteps g table count index).map r.step := by
  induction count generalizing index c with
  | zero => rfl
  | succ count ih =>
    simp only [Configuration.firstSteps, mirrors.nextAction]
    cases acts : c.action? g table with
    | none => rfl
    | some action =>
      simp only [Option.map_some, mirrors.nextConfiguration acts]
      cases c.after? g action with
      | none => rfl
      | some next =>
        simp only [Option.map_some, ih, List.map_cons]
        rfl

theorem run (fuel : Nat) (input : List Nat) :
    other.run h fuel (input.map r.terminals) = (table.run g fuel input).map r.result := by
  have initial : Configuration.initial (input.map r.terminals) =
      r.configuration (.initial input) := rfl
  rw [Table.run, Table.run, initial, mirrors.trace, Option.map_map, Option.map_map]
  exact congrArg (Option.map · _) (funext fun steps => r.ofSteps input steps)

/-- Runs over the same tokens have corresponding results. -/
theorem simulate (read : ∀ tokens, h.tokenize tokens =
    (g.tokenize tokens).map (List.map r.terminals)) (fuel : Nat) (tokens : List String) :
    other.simulate h fuel tokens = (table.simulate g fuel tokens).map (Option.map r.result) := by
  rw [Table.simulate, Table.simulate, read]
  cases g.tokenize tokens with
  | error unknown => rfl
  | ok input => exact congrArg Except.ok (mirrors.run fuel input)

end Mirrors

theorem Renumbers.mirrors {r : Renumbering} {g h : Grammar} {a b : Automaton}
    (renumbers : Renumbers r g h a b) : Mirrors r g h (a.table g) (b.table h) where
  initial := renumbers.initial
  endMarker := renumbers.endMarker
  action? := renumbers.action?
  goto? := renumbers.goto?
  production? _ := renumbers.production? _

end CanonicalLR
