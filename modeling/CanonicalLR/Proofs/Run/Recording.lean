import CanonicalLR.Proofs.Run.Discipline
import CanonicalLR.Proofs.Run.Prefix
import Mathlib.Data.List.DropRight

/-!
# Recorded steps tell the run

For any table, whatever its cells hold: each step shows the stacks and the unread
input as the step before has left them, and the action that the cell of its last
state and its first unread terminal dictates. A reduction looks for its goto below
the states that it is going to pop, and is refused if there is nothing below.
-/

namespace CanonicalLR

/-- The action that a cell dictates over a stack of states, the lowest first. -/
inductive Table.Dictates (g : Grammar) (table : Table) (states : List Nat) (s t : Nat) :
    StepAction → Prop where
  | noAction (empty : table.action? s t = none) :
      Dictates g table states s t (.error (.noAction s t))
  | conflict {conflict : Conflict} (torn : table.action? s t = some (.undecided conflict)) :
      Dictates g table states s t (.error (.conflict s t conflict.kind))
  | shift {next : Nat} (cell : table.action? s t = some (.decided (.shift next))) :
      Dictates g table states s t (.shift next)
  | accept (cell : table.action? s t = some (.decided .accept)) :
      Dictates g table states s t .accept
  | stackUnderflow {p : Nat} {production : Production}
      (cell : table.action? s t = some (.decided (.reduce p)))
      (found : g.production? p = some production)
      (shallow : states.length ≤ production.right.length) :
      Dictates g table states s t (.error (.stackUnderflow p))
  | missingGoto {p exposed : Nat} {production : Production}
      (cell : table.action? s t = some (.decided (.reduce p)))
      (found : g.production? p = some production)
      (below : (states.rdrop production.right.length).getLast? = some exposed)
      (missing : table.goto? exposed production.left = none) :
      Dictates g table states s t (.error (.missingGoto exposed production.left))
  | reduce {p exposed next : Nat} {production : Production}
      (cell : table.action? s t = some (.decided (.reduce p)))
      (found : g.production? p = some production)
      (below : (states.rdrop production.right.length).getLast? = some exposed)
      (goes : table.goto? exposed production.left = some next) :
      Dictates g table states s t (.reduce p next)

/-- The reductions that stand in cells are by productions of the grammar. -/
def Table.ReducesBy (g : Grammar) (table : Table) : Prop :=
  ∀ s t p, table.action? s t = some (.decided (.reduce p)) →
    ∃ production, g.production? p = some production

/-- What a shift or a reduction leaves for the next step. -/
inductive Step.Leaves (g : Grammar) (step later : Step) : Prop where
  | shift {t next : Nat} (action : step.action = .shift next)
      (front : step.configuration.remaining.head? = some t)
      (states : later.configuration.states = step.configuration.states ++ [next])
      (symbols : later.configuration.symbols = step.configuration.symbols ++ [.terminal t])
      (remaining : later.configuration.remaining =
        if t = endMarker then [endMarker] else step.configuration.remaining.tail)
  | reduce {p next : Nat} {production : Production} (action : step.action = .reduce p next)
      (found : g.production? p = some production)
      (states : later.configuration.states =
        step.configuration.states.rdrop production.right.length ++ [next])
      (symbols : later.configuration.symbols =
        step.configuration.symbols.rdrop production.right.length ++
          [.nonterminal production.left])
      (remaining : later.configuration.remaining = step.configuration.remaining)

/-- Steps that tell a run of a table over an input, from its beginning on. -/
structure Table.Recorded (g : Grammar) (table : Table) (input : List Nat) (steps : List Step) :
    Prop where
  first : ∀ step, steps[0]? = some step → step.configuration.states = [initialState] ∧
    step.configuration.symbols = [] ∧ step.configuration.remaining = input ++ [endMarker]
  index : ∀ i step, steps[i]? = some step → step.index = i + 1
  dictated : ∀ step ∈ steps, ∃ s t, step.configuration.states.getLast? = some s ∧
    step.configuration.remaining.head? = some t ∧
      ∀ action, table.Dictates g step.configuration.states s t action ↔ action = step.action
  leaves : ∀ i step later, steps[i]? = some step → steps[i + 1]? = some later →
    step.Leaves g later
  /-- What is unread begins after as many terminals as have been shifted. -/
  unread : ∀ i step, steps[i]? = some step → step.configuration.remaining =
    input.drop (shiftedTokens (steps.take i)).length ++ [endMarker]
  final : ∀ i step, steps[i]? = some step → step.action.Final → i + 1 = steps.length
  production : ∀ step ∈ steps, ∀ p,
    step.action.production? = some p ↔ ∃ next, step.action = .reduce p next

/-- What a result says of a run whose last step is given. -/
structure ParseResult.Concludes (result : ParseResult) (last : Step) : Prop where
  final : last.action.Final
  accepted : result.accepted = true ↔ last.action = .accept
  unrejected : result.error = none ↔ last.action = .accept
  rejected : ∀ rejection, result.error = some rejection ↔ last.action = .error rejection

namespace Configuration

variable {g : Grammar} {table : Table} {c : Configuration} {action : StepAction}

/-! ## Popped stacks -/

/-- The states that are left when no more is popped than lies above the initial state. -/
theorem rdrop_states {count : Nat} (deep : count ≤ c.stack.length) :
    c.states.rdrop count = states ⟨c.stack.drop count, c.input⟩ := by
  have turned : c.states = (c.stack.map Prod.fst ++ [initialState]).reverse := by simp [states]
  have above : count ≤ (c.stack.map Prod.fst).length := by rwa [List.length_map]
  rw [List.rdrop_eq_reverse_drop_reverse, turned, List.reverse_reverse,
    List.drop_append_of_le_length above, ← List.map_drop]
  simp [states]

theorem rdrop_symbols (c : Configuration) (count : Nat) :
    c.symbols.rdrop count = symbols ⟨c.stack.drop count, c.input⟩ := by
  rw [List.rdrop_eq_reverse_drop_reverse, symbols, List.reverse_reverse, ← List.map_drop]
  rfl

/-- A state is exposed below a number of entries exactly if the stack has that many. -/
theorem exposed_iff {count exposed : Nat} :
    (c.states.rdrop count).getLast? = some exposed ↔
      count ≤ c.stack.length ∧ topState (c.stack.drop count) = exposed := by
  by_cases deep : count ≤ c.stack.length
  · rw [rdrop_states deep, getLast_states]
    simp [deep, state]
  · have emptied : c.states.rdrop count = [] := by
      have height := c.length_states_eq
      rw [List.rdrop, Nat.sub_eq_zero_of_le (by omega), List.take_zero]
    simp [emptied, deep]

/-! ## One step -/

/-- The recorded states tell the action as the stack does. -/
theorem dictates_iff : table.Dictates g c.states c.state c.lookahead action ↔
    c.action? g table = some action := by
  have height := c.length_states_eq
  constructor
  · intro dictates
    cases dictates with
    | noAction empty => rw [action?, empty]
    | conflict torn => rw [action?, torn]
    | shift cell => rw [action?, cell]
    | accept cell => rw [action?, cell]
    | stackUnderflow cell found shallow =>
      have short : c.stack.length < _ := Nat.lt_of_lt_of_le (height ▸ Nat.lt_succ_self _) shallow
      simp only [action?, cell, found, Option.map_some, reduction, if_pos short]
    | missingGoto cell found below missing =>
      obtain ⟨deep, rfl⟩ := exposed_iff.mp below
      simp only [action?, cell, found, Option.map_some, reduction, if_neg (Nat.not_lt_of_le deep),
        missing]
    | reduce cell found below goes =>
      obtain ⟨deep, rfl⟩ := exposed_iff.mp below
      simp only [action?, cell, found, Option.map_some, reduction, if_neg (Nat.not_lt_of_le deep),
        goes]
  · intro acts
    unfold action? at acts
    split at acts
    · rename_i empty
      obtain rfl := Option.some.inj acts
      exact .noAction empty
    · rename_i conflict torn
      obtain rfl := Option.some.inj acts
      exact .conflict torn
    · rename_i next cell
      obtain rfl := Option.some.inj acts
      exact .shift cell
    · rename_i cell
      obtain rfl := Option.some.inj acts
      exact .accept cell
    · rename_i p cell
      obtain ⟨production, found, rfl⟩ := Option.map_eq_some_iff.mp acts
      unfold reduction
      split
      · rename_i short
        exact .stackUnderflow cell found (height ▸ short)
      · rename_i deep
        have below := exposed_iff.mpr ⟨Nat.le_of_not_lt deep, rfl⟩
        dsimp only
        split
        · rename_i next goes
          exact .reduce cell found below goes
        · rename_i missing
          exact .missingGoto cell found below missing

/-- A run ends with the actions that are last, and with no others. -/
theorem after?_eq_none_iff (acts : c.action? g table = some action) :
    c.after? g action = none ↔ action.Final := by
  cases dictates_iff.mpr acts with
  | noAction | conflict | accept | stackUnderflow | missingGoto =>
    simp [after?, StepAction.Final]
  | shift => simp [after?, StepAction.Final]
  | reduce cell found => simp [after?, StepAction.Final, found]

theorem exists_action (known : table.ReducesBy g) (c : Configuration) :
    ∃ action, c.action? g table = some action := by
  unfold action?
  split
  · exact ⟨_, rfl⟩
  · exact ⟨_, rfl⟩
  · exact ⟨_, rfl⟩
  · exact ⟨_, rfl⟩
  · rename_i p cell
    obtain ⟨production, found⟩ := known _ _ p cell
    exact ⟨_, congrArg (Option.map _) found⟩

/-- The terminal in front goes, unless it is the end marker behind the input. -/
theorem remaining_shifted (unmarked : ∀ t ∈ c.input, t ≠ endMarker) (next : Nat) :
    (c.shifted next).remaining =
      if c.lookahead = endMarker then [endMarker] else c.remaining.tail := by
  obtain ⟨stack, _ | ⟨t, input⟩⟩ := c
  · rfl
  · have other : lookahead ⟨stack, t :: input⟩ ≠ endMarker := unmarked t List.mem_cons_self
    rw [if_neg other]
    rfl

theorem leaves_of_after? {step later : Step}
    (acts : step.configuration.action? g table = some step.action)
    (goes : step.configuration.after? g step.action = some later.configuration)
    (unmarked : ∀ t ∈ step.configuration.input, t ≠ endMarker) : step.Leaves g later := by
  obtain ⟨index, c, action⟩ := step
  obtain ⟨nextIndex, nextConfiguration, nextAction⟩ := later
  dsimp only at acts goes unmarked
  cases dictates_iff.mpr acts with
  | noAction | conflict | accept | stackUnderflow | missingGoto => cases goes
  | @shift next cell =>
    obtain rfl := Option.some.inj goes
    exact .shift rfl c.head_remaining (states_cons next _ c.stack c.input)
      (symbols_cons next _ c.stack c.input) (remaining_shifted unmarked next)
  | @reduce p exposed next production cell found below _ =>
    obtain ⟨deep, -⟩ := exposed_iff.mp below
    simp only [after?, found, Option.map_some, Option.some.injEq] at goes
    subst goes
    refine .reduce rfl found ?_ ?_ rfl
    · rw [rdrop_states deep]
      exact states_cons next _ _ c.input
    · rw [rdrop_symbols]
      exact symbols_cons next _ _ c.input

/-! ## The first steps of a run -/

variable {count index : Nat}

theorem configuration_firstSteps {step : Step}
    (first : (firstSteps g table count index c)[0]? = some step) : step.configuration = c := by
  cases count with
  | zero => cases first
  | succ count =>
    unfold firstSteps at first
    split at first
    · cases first
    · obtain rfl := Option.some.inj first
      rfl

/-- Each step starts from where the one before it has led, until an action that leads nowhere. -/
theorem getElem?_firstSteps {i : Nat} {step : Step}
    (here : (firstSteps g table count index c)[i]? = some step) :
    step.index = index + i ∧
      (∀ later, (firstSteps g table count index c)[i + 1]? = some later →
        step.configuration.after? g step.action = some later.configuration) ∧
      (step.configuration.after? g step.action = none →
        i + 1 = (firstSteps g table count index c).length) := by
  induction count generalizing index c i with
  | zero => cases here
  | succ count ih =>
    cases acts : c.action? g table with
    | none => simp [firstSteps, acts] at here
    | some action =>
      cases goes : c.after? g action with
      | none =>
        rw [firstSteps_of_last acts goes] at here ⊢
        obtain ⟨rfl, rfl⟩ : i = 0 ∧ ⟨index, c, action⟩ = step := by
          simpa [List.getElem?_singleton] using here
        exact ⟨rfl, fun _ none => (by cases none), fun _ => rfl⟩
      | some next =>
        rw [firstSteps_of_next acts goes] at here ⊢
        cases i with
        | zero =>
          obtain rfl := Option.some.inj here
          refine ⟨rfl, fun later following => ?_, fun ends => ?_⟩
          · rw [configuration_firstSteps following]
            exact goes
          · cases goes.symm.trans ends
        | succ i =>
          obtain ⟨number, onward, ends⟩ := ih here
          refine ⟨?_, onward, fun last => congrArg Nat.succ (ends last)⟩
          rw [number]
          omega

theorem length_firstSteps_le : (firstSteps g table count index c).length ≤ count := by
  induction count generalizing index c with
  | zero => exact Nat.le_refl 0
  | succ count ih =>
    unfold firstSteps
    split
    · exact Nat.zero_le _
    · split
      · exact Nat.succ_le_succ (Nat.zero_le count)
      · exact Nat.succ_le_succ ih

/-- The steps stop short only behind a last action. -/
theorem length_firstSteps (known : table.ReducesBy g) :
    (firstSteps g table count index c).length = count ∨
      ∃ last ∈ firstSteps g table count index c, last.action.Final := by
  induction count generalizing index c with
  | zero => exact .inl rfl
  | succ count ih =>
    obtain ⟨action, acts⟩ := exists_action known c
    cases goes : c.after? g action with
    | none =>
      rw [firstSteps_of_last acts goes]
      exact .inr ⟨_, List.mem_singleton_self _, (after?_eq_none_iff acts).mp goes⟩
    | some next =>
      rw [firstSteps_of_next acts goes]
      rcases @ih next (index + 1) with full | ⟨last, member, final⟩
      · exact .inl (congrArg Nat.succ full)
      · exact .inr ⟨last, List.mem_cons_of_mem _ member, final⟩

/-- Steps with a last action among them are a whole run. -/
theorem traces_firstSteps {last : Step} (member : last ∈ firstSteps g table count index c)
    (final : last.action.Final) :
    Traces g table index c (firstSteps g table count index c) := by
  induction count generalizing index c with
  | zero => cases member
  | succ count ih =>
    cases acts : c.action? g table with
    | none => simp [firstSteps, acts] at member
    | some action =>
      cases goes : c.after? g action with
      | none =>
        rw [firstSteps_of_last acts goes]
        exact .last acts goes
      | some next =>
        rw [firstSteps_of_next acts goes] at member ⊢
        refine .next acts goes (ih ?_)
        rcases List.mem_cons.mp member with rfl | later
        · cases goes.symm.trans ((after?_eq_none_iff acts).mpr final)
        · exact later

/-- The input of a step begins after as many terminals as have been shifted. -/
theorem input_firstSteps {i : Nat} {step : Step}
    (here : (firstSteps g table count index c)[i]? = some step) : step.configuration.input =
      c.input.drop (shiftedTokens ((firstSteps g table count index c).take i)).length := by
  induction i generalizing step with
  | zero =>
    rw [configuration_firstSteps here]
    rfl
  | succ i ih =>
    obtain ⟨inside, -⟩ := List.getElem?_eq_some_iff.mp here
    obtain ⟨before, earlier⟩ : ∃ before, (firstSteps g table count index c)[i]? = some before :=
      ⟨_, List.getElem?_eq_getElem (Nat.lt_of_succ_lt inside)⟩
    obtain ⟨-, onward, -⟩ := getElem?_firstSteps earlier
    have goes := onward step here
    have unread := ih earlier
    rw [List.take_add_one, earlier, Option.toList_some, shiftedTokens, List.filterMap_append,
      List.length_append]
    cases action : before.action with
    | shift next =>
      rw [action] at goes
      rw [← Option.some.inj goes, shifted, unread, List.tail_drop]
      simp [action, shiftedTokens]
    | reduce p next =>
      rw [action] at goes
      obtain ⟨production, -, same⟩ := Option.map_eq_some_iff.mp goes
      rw [← same, reduced, unread]
      simp [action, shiftedTokens]
    | accept =>
      rw [action] at goes
      cases goes
    | error rejection =>
      rw [action] at goes
      cases goes

end Configuration

open CanonicalLR.Configuration

namespace Table

variable {g : Grammar} {table : Table} {tokens : List String} {input : List Nat}

theorem recorded_firstSteps (tokenized : g.tokenize tokens = .ok input) (count : Nat) :
    table.Recorded g input ((initial input).firstSteps g table count 1) := by
  have dictated {step : Step} (member : step ∈ (initial input).firstSteps g table count 1) :=
    reaches_of_mem_firstSteps member
  constructor
  case first =>
    intro step here
    rw [configuration_firstSteps here]
    exact ⟨rfl, rfl, rfl⟩
  case index =>
    intro i step here
    rw [(getElem?_firstSteps here).1, Nat.add_comm]
  case dictated =>
    intro step member
    refine ⟨_, _, getLast_states _, head_remaining _, fun action => ?_⟩
    rw [dictates_iff, (dictated member).2, Option.some.injEq, eq_comm]
  case leaves =>
    intro i step later here following
    obtain ⟨reached, acts⟩ := dictated (List.mem_of_getElem? here)
    refine leaves_of_after? acts ((getElem?_firstSteps here).2.1 later following) fun t among => ?_
    exact Grammar.ne_endMarker_of_tokenize tokenized t (reached.input_suffix.subset among)
  case unread =>
    intro i step here
    rw [remaining, input_firstSteps here]
    rfl
  case final =>
    intro i step here final
    obtain ⟨-, acts⟩ := dictated (List.mem_of_getElem? here)
    exact (getElem?_firstSteps here).2.2 ((after?_eq_none_iff acts).mpr final)
  case production =>
    intro step _ p
    constructor
    · exact StepAction.eq_of_production?
    · rintro ⟨next, reduces⟩
      rw [reduces]
      rfl

/-- A result says of the last step of its run how the run has ended. -/
theorem EndsWith.concludes {result : ParseResult} (ends : table.EndsWith g input result) :
    ∃ last, result.steps.getLast? = some last ∧ result.Concludes last := by
  obtain ⟨steps, traces, rfl⟩ := ends
  obtain ⟨earlier, last, rfl⟩ := traces.exists_last
  have final := (after?_eq_none_iff traces.reaches.2).mp traces.ends
  rw [ParseResult.ofSteps_append]
  refine ⟨last, List.getLast?_concat, final, ?_, ?_, ?_⟩
  all_goals
    rcases final with accepts | ⟨rejection, rejects⟩
    · simp [accepts, StepAction.rejection?]
    · simp [rejects, StepAction.rejection?]

/-- Any table whose reductions the grammar knows makes runs whose steps are recorded faithfully,
whether or not they end, and results that say how their runs have ended. -/
theorem simulation_recorded (tokenized : g.tokenize tokens = .ok input)
    (known : table.ReducesBy g) :
    (∀ count, table.Recorded g input ((initial input).firstSteps g table count 1) ∧
      (((initial input).firstSteps g table count 1).length = count ∨
        ∃ last ∈ (initial input).firstSteps g table count 1, last.action.Final)) ∧
    (∀ fuel, (∃ result, table.simulate g fuel tokens = .ok (some result)) ↔
      ∃ last ∈ (initial input).firstSteps g table fuel 1, last.action.Final) ∧
    ∀ fuel result, table.simulate g fuel tokens = .ok (some result) → result.input = input ∧
      result.steps = (initial input).firstSteps g table fuel 1 ∧
      ∃ last, result.steps.getLast? = some last ∧ result.Concludes last := by
  refine ⟨fun count => ⟨recorded_firstSteps tokenized count, length_firstSteps known⟩, ?_, ?_⟩
  · intro fuel
    constructor
    · rintro ⟨result, simulated⟩
      obtain ⟨ends, enough⟩ := Grammar.endsWith_of_simulate tokenized simulated
      obtain ⟨last, latest, concludes⟩ := ends.concludes
      rw [← ends.steps_eq enough]
      exact ⟨last, List.mem_of_getLast? latest, concludes.final⟩
    · rintro ⟨last, member, final⟩
      have traces := traces_firstSteps member final
      exact ⟨_, Grammar.simulate_eq_ok.mpr ⟨input, tokenized,
        run_eq_some_iff.mpr ⟨⟨_, traces, rfl⟩, length_firstSteps_le⟩⟩⟩
  · intro fuel result simulated
    obtain ⟨ends, enough⟩ := Grammar.endsWith_of_simulate tokenized simulated
    refine ⟨?_, ends.steps_eq enough, ends.concludes⟩
    obtain ⟨steps, -, rfl⟩ := ends
    rfl

/-- Shifts the end marker over an empty stack, and then reduces by three symbols. -/
def misfit : Table :=
  ⟨⟨[(0, ⟨⟨[(0, .decided (.shift 1))]⟩, .empty⟩), (1, ⟨⟨[(0, .decided (.reduce 1))]⟩, .empty⟩)]⟩⟩

theorem misfit_recorded : misfit.ReducesBy Grammar.parentheses ∧
    ∃ result, misfit.simulate Grammar.parentheses 4 [] = .ok (some result) ∧
      misfit.Recorded Grammar.parentheses [] result.steps ∧
      ∃ last, result.steps.getLast? = some last ∧ last.action = .error (.stackUnderflow 1) ∧
        last.configuration.remaining = [endMarker] := by
  have known : misfit.ReducesBy Grammar.parentheses := by
    intro s t p cell
    obtain ⟨row, rowFound, found⟩ := Option.bind_eq_some_iff.mp cell
    have rowListed := Cells.mem_of_get? rowFound
    have listed := Cells.mem_of_get? found
    simp only [misfit, List.mem_cons, Prod.mk.injEq, List.not_mem_nil, or_false] at rowListed
    rcases rowListed with ⟨-, rfl⟩ | ⟨-, rfl⟩
    · simp at listed
    · obtain ⟨-, rfl⟩ : t = 0 ∧ p = 1 := by simpa using listed
      exact ⟨_, rfl⟩
  have seen : (misfit.simulate Grammar.parentheses 4 []).toOption.map (fun ended =>
      ended.map ParseResult.error) = some (some (some (.stackUnderflow 1))) := by decide +kernel
  obtain ⟨ended, simulated, seen⟩ := Grammar.exists_of_toOption seen
  obtain ⟨result, rfl, rejected⟩ := Option.map_eq_some_iff.mp seen
  have tokenized : Grammar.parentheses.tokenize [] = .ok [] := rfl
  obtain ⟨recorded, -, results⟩ := simulation_recorded tokenized known
  obtain ⟨-, steps, last, latest, concludes⟩ := results 4 result simulated
  have faithful := (recorded 4).1
  rw [← steps] at faithful
  refine ⟨known, result, simulated, faithful, last, latest, (concludes.rejected _).mp rejected, ?_⟩
  -- One shift, of the end marker, stands before the last step.
  rw [List.getLast?_eq_getElem?] at latest
  rw [faithful.unread _ last latest, List.drop_nil, List.nil_append]

end Table

end CanonicalLR
