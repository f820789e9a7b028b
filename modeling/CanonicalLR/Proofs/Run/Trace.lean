import CanonicalLR.Proofs.Run.Turn
import CanonicalLR.Analysis
import CanonicalLR.Grammar.Definition

/-!
# Finished runs

The steps of a run that ends, told without a number of steps to stay within. A
run is recorded exactly when it ends within the steps that it is given.
-/

namespace CanonicalLR

namespace Configuration

variable {g : Grammar} {table : Table} {c later : Configuration} {index : Nat}

/-- The steps from a configuration to the end of its run. -/
inductive Traces (g : Grammar) (table : Table) : Nat → Configuration → List Step → Prop where
  | last {index : Nat} {c : Configuration} {action : StepAction}
      (acts : c.action? g table = some action) (ends : c.after? g action = none) :
      Traces g table index c [⟨index, c, action⟩]
  | next {index : Nat} {c later : Configuration} {action : StepAction} {steps : List Step}
      (acts : c.action? g table = some action) (goes : c.after? g action = some later)
      (rest : Traces g table (index + 1) later steps) :
      Traces g table index c (⟨index, c, action⟩ :: steps)

theorem trace_eq_some_iff {fuel : Nat} {steps : List Step} :
    c.trace g table fuel index = some steps ↔
      Traces g table index c steps ∧ steps.length ≤ fuel := by
  induction fuel generalizing index c steps with
  | zero =>
    constructor
    · exact fun none => nomatch none
    · rintro ⟨traces, none⟩
      cases traces <;> cases none
  | succ fuel ih =>
    unfold trace
    constructor
    · intro traced
      split at traced
      · cases traced
      · rename_i action acts
        dsimp only at traced
        split at traced
        · rename_i ends
          obtain rfl := Option.some.inj traced
          exact ⟨.last acts ends, Nat.succ_le_succ (Nat.zero_le fuel)⟩
        · rename_i goes
          obtain ⟨rest, before, rfl⟩ := Option.map_eq_some_iff.mp traced
          obtain ⟨traces, short⟩ := ih.mp before
          exact ⟨.next acts goes traces, Nat.succ_le_succ short⟩
    · rintro ⟨traces, short⟩
      cases traces with
      | last acts ends => simp only [acts, ends]
      | next acts goes rest =>
        have before := ih.mpr ⟨rest, Nat.le_of_succ_le_succ short⟩
        simp only [acts, goes, before, Option.map_some]

theorem Traces.unique {left right : List Step} (first : Traces g table index c left)
    (second : Traces g table index c right) : left = right := by
  induction first generalizing right with
  | last acts ends =>
    cases second with
    | last sameActs _ =>
      obtain rfl := Option.some.inj (acts.symm.trans sameActs)
      rfl
    | next sameActs goes _ =>
      obtain rfl := Option.some.inj (acts.symm.trans sameActs)
      exact absurd (ends.symm.trans goes) (by simp)
  | next acts goes _ ih =>
    cases second with
    | last sameActs ends =>
      obtain rfl := Option.some.inj (acts.symm.trans sameActs)
      exact absurd (ends.symm.trans goes) (by simp)
    | next sameActs sameGoes rest =>
      obtain rfl := Option.some.inj (acts.symm.trans sameActs)
      obtain rfl := Option.some.inj (goes.symm.trans sameGoes)
      rw [ih rest]

/-! ## Runs and the configurations they reach -/

theorem Reaches.trans {first second third : Configuration} (left : first.Reaches g table second)
    (right : second.Reaches g table third) : first.Reaches g table third :=
  Relation.ReflTransGen.trans left right

theorem Reaches.of_action {action : StepAction} (acts : c.action? g table = some action)
    (goes : c.after? g action = some later) : c.Reaches g table later :=
  .single (next?_eq_some.mpr ⟨action, acts, goes⟩)

/-- A run that reaches a last configuration ends with its action. -/
theorem Reaches.exists_traces {action : StepAction} (reached : c.Reaches g table later)
    (acts : later.action? g table = some action) (ends : later.after? g action = none)
    (index : Nat) : ∃ earlier last, Traces g table index c (earlier ++ [last]) ∧
      last.configuration = later ∧ last.action = action := by
  induction reached using Relation.ReflTransGen.head_induction_on generalizing index with
  | refl => exact ⟨[], _, .last acts ends, rfl, rfl⟩
  | head step _ ih =>
    obtain ⟨first, firstActs, goes⟩ := next?_eq_some.mp step
    obtain ⟨earlier, last, traces, same, action⟩ := ih (index + 1)
    exact ⟨_ :: earlier, last, .next firstActs goes traces, same, action⟩

/-- The rest of a run traces every configuration on its way. -/
theorem Traces.of_reaches {steps : List Step} (traces : Traces g table index c steps)
    (reached : c.Reaches g table later) :
    ∃ earlier rest number, steps = earlier ++ rest ∧ Traces g table number later rest := by
  induction reached with
  | refl => exact ⟨[], steps, index, rfl, traces⟩
  | @tail middle last _ step ih =>
    obtain ⟨action, acts, goes⟩ := next?_eq_some.mp step
    obtain ⟨earlier, rest, number, rfl, before⟩ := ih
    cases before with
    | last sameActs ends =>
      obtain rfl := Option.some.inj (acts.symm.trans sameActs)
      exact absurd (ends.symm.trans goes) (by simp)
    | next sameActs sameGoes after =>
      obtain rfl := Option.some.inj (acts.symm.trans sameActs)
      obtain rfl := Option.some.inj (goes.symm.trans sameGoes)
      exact ⟨earlier ++ [⟨number, middle, action⟩], _, _, by simp, after⟩

/-- Later steps of a run trace a configuration on its way. -/
theorem Traces.drop {earlier rest : List Step} (traces : Traces g table index c (earlier ++ rest))
    (more : rest ≠ []) : ∃ number later, c.Reaches g table later ∧
      Traces g table number later rest := by
  induction earlier generalizing index c with
  | nil => exact ⟨index, c, .refl, traces⟩
  | cons first earlier ih =>
    rw [List.cons_append] at traces
    generalize tail : earlier ++ rest = steps at traces
    cases traces with
    | last => exact absurd (List.append_eq_nil_iff.mp tail).2 more
    | next acts goes after =>
      obtain ⟨number, later, reached, traces⟩ := ih (tail ▸ after)
      exact ⟨number, later, (Reaches.of_action acts goes).trans reached, traces⟩

/-- Every recorded step starts from a configuration on the way, with the action it dictates. -/
theorem Traces.reaches {earlier rest : List Step} {step : Step}
    (traces : Traces g table index c (earlier ++ step :: rest)) :
    c.Reaches g table step.configuration ∧
      step.configuration.action? g table = some step.action := by
  obtain ⟨number, later, reached, traces⟩ := traces.drop (List.cons_ne_nil step rest)
  cases traces with
  | last acts _ => exact ⟨reached, acts⟩
  | next acts _ _ => exact ⟨reached, acts⟩

theorem Traces.next_step {earlier rest : List Step} {step following : Step}
    (traces : Traces g table index c (earlier ++ step :: following :: rest)) :
    step.configuration.after? g step.action = some following.configuration := by
  obtain ⟨number, later, -, traces⟩ := traces.drop (List.cons_ne_nil step (following :: rest))
  cases traces with
  | next acts goes after => cases after <;> exact goes

theorem Traces.ends {earlier : List Step} {last : Step}
    (traces : Traces g table index c (earlier ++ [last])) :
    last.configuration.after? g last.action = none := by
  obtain ⟨number, later, -, traces⟩ := traces.drop (List.cons_ne_nil last [])
  cases traces with
  | last acts ends => exact ends
  | next _ _ rest => cases rest

theorem Traces.exists_last {steps : List Step} (traces : Traces g table index c steps) :
    ∃ earlier last, steps = earlier ++ [last] := by
  cases traces with
  | last acts ends => exact ⟨[], _, rfl⟩
  | next acts goes rest => exact ⟨_, _, (List.dropLast_concat_getLast (List.cons_ne_nil _ _)).symm⟩

/-- Two actions that end the run of one configuration are the same. -/
theorem last_action_unique {first second : Configuration} {left right : StepAction}
    (reachedFirst : c.Reaches g table first) (actsFirst : first.action? g table = some left)
    (endsFirst : first.after? g left = none) (reachedSecond : c.Reaches g table second)
    (actsSecond : second.action? g table = some right)
    (endsSecond : second.after? g right = none) : left = right := by
  obtain ⟨earlier, last, traces, -, rfl⟩ := reachedFirst.exists_traces actsFirst endsFirst 1
  obtain ⟨others, other, tracesToo, -, rfl⟩ := reachedSecond.exists_traces actsSecond endsSecond 1
  have same := List.append_inj_right' (traces.unique tracesToo) rfl
  exact congrArg Step.action (List.singleton_inj.mp same)

/-- A run comes to an action that nothing follows. -/
def Finishes (g : Grammar) (table : Table) (c : Configuration) : Prop :=
  ∃ later action, c.Reaches g table later ∧ later.action? g table = some action ∧
    later.after? g action = none

theorem Reaches.finishes (reached : c.Reaches g table later) (finishes : later.Finishes g table) :
    c.Finishes g table := by
  obtain ⟨last, action, onward, acts, ends⟩ := finishes
  exact ⟨last, action, reached.trans onward, acts, ends⟩

theorem finishes_iff_traces (index : Nat) :
    c.Finishes g table ↔ ∃ steps, Traces g table index c steps := by
  constructor
  · rintro ⟨later, action, reached, acts, ends⟩
    obtain ⟨earlier, last, traces, -⟩ := reached.exists_traces acts ends index
    exact ⟨_, traces⟩
  · rintro ⟨steps, traces⟩
    obtain ⟨earlier, last, rfl⟩ := traces.exists_last
    obtain ⟨reached, acts⟩ := traces.reaches
    exact ⟨_, _, reached, acts, traces.ends⟩

end Configuration

/-! ## Results -/

/-- The action is the last one of its run. -/
def StepAction.Final (action : StepAction) : Prop :=
  action = .accept ∨ ∃ rejection, action = .error rejection

theorem StepAction.eq_of_rejection? {action : StepAction} {rejection : Rejection}
    (rejects : action.rejection? = some rejection) : action = .error rejection := by
  cases action with
  | error cause => rw [Option.some.inj rejects]
  | shift | reduce | accept => cases rejects

theorem ParseResult.ofSteps_append (input : List Nat) (earlier : List Step) (last : Step) :
    ParseResult.ofSteps input (earlier ++ [last]) =
      ⟨last.action.rejection?.isNone, earlier ++ [last], last.action.rejection?, input⟩ := by
  simp [ofSteps]

namespace Table

variable {g : Grammar} {table : Table} {input : List Nat}

/-- The run over an input ends, with a result. -/
def EndsWith (g : Grammar) (table : Table) (input : List Nat) (result : ParseResult) : Prop :=
  ∃ steps, (Configuration.initial input).Traces g table 1 steps ∧
    result = ParseResult.ofSteps input steps

theorem run_eq_some_iff {fuel : Nat} {result : ParseResult} :
    table.run g fuel input = some result ↔
      table.EndsWith g input result ∧ result.steps.length ≤ fuel := by
  unfold run
  rw [Option.map_eq_some_iff]
  constructor
  · rintro ⟨steps, traced, rfl⟩
    obtain ⟨traces, short⟩ := Configuration.trace_eq_some_iff.mp traced
    exact ⟨⟨steps, traces, rfl⟩, short⟩
  · rintro ⟨⟨steps, traces, rfl⟩, short⟩
    exact ⟨steps, Configuration.trace_eq_some_iff.mpr ⟨traces, short⟩, rfl⟩

theorem EndsWith.run_iff {result : ParseResult} (ends : table.EndsWith g input result)
    (fuel : Nat) : table.run g fuel input = some result ↔ result.steps.length ≤ fuel := by
  rw [run_eq_some_iff]
  exact ⟨And.right, fun enough => ⟨ends, enough⟩⟩

theorem EndsWith.unique {first second : ParseResult} (left : table.EndsWith g input first)
    (right : table.EndsWith g input second) : first = second := by
  obtain ⟨steps, traces, rfl⟩ := left
  obtain ⟨others, otherTraces, rfl⟩ := right
  rw [traces.unique otherTraces]

/-- The run over an input ends. -/
def Halts (g : Grammar) (table : Table) (input : List Nat) : Prop :=
  ∃ result, table.EndsWith g input result

theorem halts_iff_finishes : table.Halts g input ↔
    (Configuration.initial input).Finishes g table := by
  rw [Configuration.finishes_iff_traces 1]
  constructor
  · rintro ⟨_, steps, traces, -⟩
    exact ⟨steps, traces⟩
  · rintro ⟨steps, traces⟩
    exact ⟨_, steps, traces, rfl⟩

end Table

namespace Grammar

theorem simulate_eq_ok {g : Grammar} {table : Table} {fuel : Nat} {tokens : List String}
    {result : ParseResult} : table.simulate g fuel tokens = .ok (some result) ↔
      ∃ input, g.tokenize tokens = .ok input ∧ table.run g fuel input = some result := by
  unfold Table.simulate
  cases g.tokenize tokens with
  | error unknown => simp [Except.map]
  | ok input => simp [Except.map]

theorem endsWith_of_simulate {g : Grammar} {table : Table} {fuel : Nat} {tokens : List String}
    {input : List Nat} {result : ParseResult} (tokenized : g.tokenize tokens = .ok input)
    (simulated : table.simulate g fuel tokens = .ok (some result)) :
    table.EndsWith g input result ∧ result.steps.length ≤ fuel := by
  obtain ⟨same, sameTokenized, run⟩ := simulate_eq_ok.mp simulated
  obtain rfl := Except.ok.inj (tokenized.symm.trans sameTokenized)
  exact Table.run_eq_some_iff.mp run

/-- A run that ends is seen by all who give it that many steps. -/
theorem simulate_iff_of_endsWith {g : Grammar} {table : Table} {tokens : List String}
    {input : List Nat} {result : ParseResult} (ends : table.EndsWith g input result)
    (tokenized : g.tokenize tokens = .ok input) (fuel : Nat) :
    table.simulate g fuel tokens = .ok (some result) ↔ result.steps.length ≤ fuel := by
  rw [← ends.run_iff fuel, simulate_eq_ok]
  constructor
  · rintro ⟨same, sameTokenized, run⟩
    obtain rfl := Except.ok.inj (tokenized.symm.trans sameTokenized)
    exact run
  · exact fun run => ⟨input, tokenized, run⟩

theorem halts_iff_simulate {g : Grammar} {table : Table} {tokens : List String} {input : List Nat}
    (tokenized : g.tokenize tokens = .ok input) : table.Halts g input ↔
      ∃ fuel result, table.simulate g fuel tokens = .ok (some result) := by
  constructor
  · rintro ⟨result, ends⟩
    exact ⟨_, result, (simulate_iff_of_endsWith ends tokenized _).mpr (Nat.le_refl _)⟩
  · rintro ⟨fuel, result, simulated⟩
    exact ⟨result, (endsWith_of_simulate tokenized simulated).1⟩

/-- The number of steps that a run is given does not change its result. -/
theorem simulate_unique {g : Grammar} {table : Table} {fuel more : Nat} {tokens : List String}
    {first second : ParseResult} (left : table.simulate g fuel tokens = .ok (some first))
    (right : table.simulate g more tokens = .ok (some second)) : first = second := by
  obtain ⟨input, tokenized, -⟩ := simulate_eq_ok.mp left
  exact (endsWith_of_simulate tokenized left).1.unique (endsWith_of_simulate tokenized right).1

/-! ## Balanced parentheses -/

/-- `P -> ( P )` and `P -> ε`. -/
def parenthesesCalls : List Call :=
  [.terminal "(", .terminal ")", .nonterminal "P",
    .production 1 [.terminal 1, .nonterminal 1, .terminal 2], .production 1 []]

def parentheses : Grammar where
  terminals := #["$", "(", ")"]
  nonterminals := #["P'", "P"]
  productions := #[⟨0, [.nonterminal 1]⟩, ⟨1, [.terminal 1, .nonterminal 1, .terminal 2]⟩, ⟨1, []⟩]
  start := 1

theorem ofCalls_parentheses : Grammar.ofCalls parenthesesCalls = .ok parentheses := rfl

theorem exists_analysis_parentheses : ∃ analysis, parentheses.analyze {} = .ok analysis ∧
    analysis.table.hasConflicts = false := by
  have clean : (parentheses.analyze {}).toOption.map (fun analysis => analysis.table.hasConflicts) =
      some false := by decide +kernel
  exact exists_of_toOption clean

end Grammar

end CanonicalLR
