import CanonicalLR.Proofs.Run.FirstSteps
import CanonicalLR.Proofs.Run.Halting
import CanonicalLR.Proofs.Run.Soundness

/-!
# The stack of a run is a path of the automaton

The states on the stack are joined by transitions over the symbols between them.
So a reduction finds its right-hand side on top and a goto below it, and an
acceptance finds the start symbol alone; the errors for a shallow stack and for
a missing goto never arise.
-/

namespace CanonicalLR

open CanonicalLR.Configuration

namespace Configuration

theorem states_cons (s : Nat) (symbol : Symbol) (stack : List (Nat × Symbol)) (input : List Nat) :
    states ⟨(s, symbol) :: stack, input⟩ = states ⟨stack, input⟩ ++ [s] := by
  simp [states]

theorem symbols_cons (s : Nat) (symbol : Symbol) (stack : List (Nat × Symbol))
    (input : List Nat) :
    symbols ⟨(s, symbol) :: stack, input⟩ = symbols ⟨stack, input⟩ ++ [symbol] := by
  simp [symbols]

end Configuration

/-- The states of a path, from the lowest on, are joined by transitions over its symbols. -/
theorem Automaton.Path.joins {a : Automaton} {stack : List (Nat × Symbol)} (path : a.Path stack)
    {input : List Nat} {i : Nat} {symbol : Symbol}
    (read : (symbols ⟨stack, input⟩)[i]? = some symbol) : ∃ s t,
      (Configuration.states ⟨stack, input⟩)[i]? = some s ∧
      (Configuration.states ⟨stack, input⟩)[i + 1]? = some t ∧ a.transition? s symbol = some t := by
  induction path with
  | nil => simp [symbols] at read
  | @cons s top stack step _ ih =>
    have height := length_states ⟨stack, input⟩
    rw [states_cons]
    rw [symbols_cons] at read
    rcases Nat.lt_or_ge i (symbols ⟨stack, input⟩).length with inside | above
    · rw [List.getElem?_append_left inside] at read
      rw [List.getElem?_append_left (by omega), List.getElem?_append_left (by omega)]
      exact ih read
    · obtain ⟨last, -⟩ := List.getElem?_eq_some_iff.mp read
      rw [List.length_append, List.length_singleton] at last
      obtain rfl : i = (symbols ⟨stack, input⟩).length := by omega
      obtain rfl : top = symbol := by simpa using read
      refine ⟨topState stack, s, ?_, ?_, step⟩
      · have latest := getLast_states ⟨stack, input⟩
        rw [List.getLast?_eq_getElem?, height, Nat.add_sub_cancel] at latest
        rw [List.getElem?_append_left (by omega)]
        exact latest
      · rw [← height]
        exact List.getElem?_concat_length

namespace Configuration

variable {g : Grammar} {table : Table} {c later : Configuration}

/-- What is still to be read ends what was to be read before. -/
theorem Reaches.input_suffix (reached : c.Reaches g table later) : later.input <:+ c.input := by
  induction reached with
  | refl => exact List.suffix_rfl
  | tail _ step ih =>
    rcases next?_cases step with ⟨next, -, rfl⟩ | ⟨p, production, next, -, -, -, -, rfl⟩
    · exact (List.tail_suffix _).trans ih
    · exact ih

end Configuration

/-- What a recorded step says of the stacks, of its action, and of both together. -/
structure Step.Disciplined (g : Grammar) (a : Automaton) (step : Step) : Prop where
  lowest : step.configuration.states.head? = some initialState
  height : step.configuration.states.length = step.configuration.symbols.length + 1
  joined : ∀ i symbol, step.configuration.symbols[i]? = some symbol → ∃ s t,
    step.configuration.states[i]? = some s ∧ step.configuration.states[i + 1]? = some t ∧
      a.transition? s symbol = some t
  handle : ∀ p next, step.action = .reduce p next → ∃ production,
    g.production? p = some production ∧ production.right <:+ step.configuration.symbols
  token : ∀ next, step.action = .shift next → step.configuration.lookahead ≠ endMarker
  done : step.action = .accept → step.configuration.remaining = [endMarker] ∧
    step.configuration.symbols = [.nonterminal g.start]
  goto : ∀ s n, step.action ≠ .error (.missingGoto s n)
  deep : ∀ p, step.action ≠ .error (.stackUnderflow p)

namespace Step

variable {g : Grammar} {a : Automaton} {step : Step}

/-- On a path over tokens, whatever the table dictates is in order. -/
theorem Disciplined.of_path (wellFormed : g.WellFormed) (canonical : a.Canonical g)
    (path : a.Path step.configuration.stack)
    (unmarked : ∀ t ∈ step.configuration.input, t ≠ endMarker)
    (acts : step.configuration.action? g (a.table g) = some step.action) :
    step.Disciplined g a := by
  have turn := path.turn_of_action? wellFormed canonical acts
  refine ⟨rfl, length_states _, fun i symbol read => path.joins read, ?_, ?_, ?_, ?_, ?_⟩
  · intro p next reduces
    rw [reduces] at turn
    cases turn with
    | @reduce _ _ before production found _ _ read _ => exact ⟨production, found, before, read.symm⟩
  · intro next shifts
    rw [shifts] at turn
    cases turn with
    | @shift t _ rest input _ =>
      rw [lookahead, input, List.headD_cons]
      exact unmarked t (by simp [input])
  · intro accepts
    rw [accepts] at turn
    cases turn with
    | accept read done =>
      refine ⟨?_, read⟩
      cases input : step.configuration.input with
      | nil => rw [remaining, input, List.nil_append]
      | cons t rest =>
        rw [lookahead, input, List.headD_cons] at done
        exact absurd done (unmarked t (by simp [input]))
  · intro s n missing
    rw [missing] at turn
    cases turn
  · intro p shallow
    rw [shallow] at turn
    cases turn

end Step

theorem StepAction.eq_of_production? {action : StepAction} {p : Nat}
    (reduces : action.production? = some p) : ∃ next, action = .reduce p next := by
  cases action with
  | reduce q next => exact ⟨next, by rw [Option.some.inj reduces]⟩
  | shift | accept | error => cases reduces

/-- A rejection was recorded as the action of a step. -/
theorem Table.EndsWith.exists_rejecting {g : Grammar} {table : Table} {input : List Nat}
    {result : ParseResult} (ends : table.EndsWith g input result) {rejection : Rejection}
    (rejected : result.error = some rejection) :
    ∃ step ∈ result.steps, step.action = .error rejection := by
  obtain ⟨steps, traces, rfl⟩ := ends
  obtain ⟨earlier, last, rfl⟩ := traces.exists_last
  rw [ParseResult.ofSteps_append] at rejected ⊢
  exact ⟨last, by simp, StepAction.eq_of_rejection? rejected⟩

namespace Analysis

/-- Every step that a simulation records is in order, whether or not the simulation ends; so no
simulation ends for want of a goto or of a deeper stack. -/
theorem steps_disciplined {calls : List Call} {g : Grammar} {settings : Settings}
    {analysis : Analysis} {tokens : List String} {input : List Nat}
    (defined : Grammar.ofCalls calls = .ok g) (analyzed : g.analyze settings = .ok analysis)
    (tokenized : g.tokenize tokens = .ok input) :
    (∀ count, ∀ step ∈ (initial input).firstSteps g analysis.table count 1,
      step.Disciplined g analysis.automaton) ∧
    ∀ fuel result, analysis.simulate g fuel tokens = .ok (some result) →
      result.steps = (initial input).firstSteps g analysis.table fuel 1 ∧
      (∀ s n, result.error ≠ some (.missingGoto s n)) ∧
      ∀ p, result.error ≠ some (.stackUnderflow p) := by
  have wellFormed := Grammar.wellFormed_ofCalls defined
  obtain ⟨canonical, table⟩ := Grammar.analyze_eq_ok analyzed
  have path : analysis.automaton.Path (initial input).stack := .nil
  have unmarked := Grammar.ne_endMarker_of_tokenize tokenized
  have disciplined : ∀ count, ∀ step ∈ (initial input).firstSteps g analysis.table count 1,
      step.Disciplined g analysis.automaton := by
    intro count step member
    obtain ⟨reached, acts⟩ := reaches_of_mem_firstSteps member
    rw [table] at reached acts
    apply Step.Disciplined.of_path wellFormed canonical
      (path.reaches wellFormed canonical reached) _ acts
    exact fun t among => unmarked t (reached.input_suffix.subset among)
  refine ⟨disciplined, fun fuel result simulated => ?_⟩
  obtain ⟨same, sameTokenized, run⟩ := Grammar.simulate_eq_ok.mp simulated
  obtain rfl := Except.ok.inj (tokenized.symm.trans sameTokenized)
  obtain ⟨ends, enough⟩ := Table.run_eq_some_iff.mp run
  have recorded := ends.steps_eq enough
  have last {rejection : Rejection} (rejected : result.error = some rejection) :
      ∃ step : Step, step.Disciplined g analysis.automaton ∧ step.action = .error rejection := by
    obtain ⟨step, member, action⟩ := ends.exists_rejecting rejected
    exact ⟨step, disciplined fuel step (recorded ▸ member), action⟩
  refine ⟨recorded, fun s n rejected => ?_, fun p rejected => ?_⟩
  · obtain ⟨step, kept, action⟩ := last rejected
    exact kept.goto s n action
  · obtain ⟨step, kept, action⟩ := last rejected
    exact kept.deep p action

/-- After both parentheses the reduction finds `( P )` on the stack. -/
theorem parentheses_steps_disciplined : ∃ analysis result before step after,
    Grammar.parentheses.analyze {} = .ok analysis ∧
    analysis.simulate Grammar.parentheses 8 ["(", ")"] = .ok (some result) ∧
    result.steps = before ++ step :: after ∧ (∃ next, step.action = .reduce 1 next) ∧
    [.terminal 1, .nonterminal 1, .terminal 2] <:+ step.configuration.symbols := by
  have seen : (Grammar.parentheses.analyze {}).toOption.map (fun analysis =>
      (analysis.simulate Grammar.parentheses 8 ["(", ")"]).toOption.map fun ended =>
        ended.map fun result => result.steps.map fun step => step.action.production?) =
      some (some (some [none, some 2, none, some 1, none])) := by decide +kernel
  obtain ⟨analysis, analyzed, seen⟩ := Grammar.exists_of_toOption seen
  obtain ⟨ended, simulated, seen⟩ := Grammar.exists_of_toOption seen
  obtain ⟨result, rfl, same⟩ := Option.map_eq_some_iff.mp seen
  have tokenized : Grammar.parentheses.tokenize ["(", ")"] = .ok [1, 2] := by decide +kernel
  obtain ⟨disciplined, results⟩ :=
    steps_disciplined Grammar.ofCalls_parentheses analyzed tokenized
  obtain ⟨recorded, -, -⟩ := results 8 result simulated
  have parts : result.steps.map (fun step => step.action.production?) =
    [none, some 2, none] ++ [some 1, none] := same
  obtain ⟨before, rest, split, -, reductions⟩ := List.map_eq_append_iff.mp parts
  obtain ⟨step, after, rfl, reduces, -⟩ := List.map_eq_cons_iff.mp reductions
  obtain ⟨next, action⟩ := StepAction.eq_of_production? reduces
  have kept := disciplined 8 step (recorded ▸ split ▸ by simp)
  obtain ⟨production, found, handle⟩ := kept.handle 1 next action
  obtain rfl : production = ⟨1, [.terminal 1, .nonterminal 1, .terminal 2]⟩ :=
    (Option.some.inj found).symm
  exact ⟨analysis, result, before, step, after, analyzed, simulated, split, ⟨next, action⟩, handle⟩

end Analysis

end CanonicalLR
