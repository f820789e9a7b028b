import CanonicalLR.Proofs.Run.Trace

/-!
# The first steps of a run

A run that never ends records steps all the same. Its first steps are told for
every number of them; where the run ends, there are no more than its trace has.
-/

namespace CanonicalLR

namespace Configuration

variable {g : Grammar} {table : Table} {c : Configuration} {index count : Nat}

/-- The first `count` steps of a run, or all of them if it ends before. -/
def firstSteps (g : Grammar) (table : Table) : Nat → Nat → Configuration → List Step
  | 0, _, _ => []
  | count + 1, index, c =>
    match c.action? g table with
    | none => []
    | some action =>
      ⟨index, c, action⟩ ::
        match c.after? g action with
        | none => []
        | some next => firstSteps g table count (index + 1) next

theorem firstSteps_of_last {action : StepAction} (acts : c.action? g table = some action)
    (ends : c.after? g action = none) :
    firstSteps g table (count + 1) index c = [⟨index, c, action⟩] := by
  simp only [firstSteps, acts, ends]

theorem firstSteps_of_next {later : Configuration} {action : StepAction}
    (acts : c.action? g table = some action) (goes : c.after? g action = some later) :
    firstSteps g table (count + 1) index c =
      ⟨index, c, action⟩ :: firstSteps g table count (index + 1) later := by
  simp only [firstSteps, acts, goes]

/-- Every step starts from a configuration of the run, with the action that the table dictates. -/
theorem reaches_of_mem_firstSteps {step : Step}
    (member : step ∈ firstSteps g table count index c) :
    c.Reaches g table step.configuration ∧
      step.configuration.action? g table = some step.action := by
  induction count generalizing index c with
  | zero => exact absurd member List.not_mem_nil
  | succ count ih =>
    cases acts : c.action? g table with
    | none => simp [firstSteps, acts] at member
    | some action =>
      cases goes : c.after? g action with
      | none =>
        rw [firstSteps_of_last acts goes] at member
        obtain rfl := List.mem_singleton.mp member
        exact ⟨.refl, acts⟩
      | some later =>
        rw [firstSteps_of_next acts goes] at member
        rcases List.mem_cons.mp member with rfl | after
        · exact ⟨.refl, acts⟩
        · obtain ⟨reached, laterActs⟩ := ih after
          exact ⟨(Reaches.of_action acts goes).trans reached, laterActs⟩

/-- The first steps of a run that ends begin its trace. -/
theorem Traces.firstSteps_eq {steps : List Step} (traces : Traces g table index c steps)
    (count : Nat) : firstSteps g table count index c = steps.take count := by
  induction traces generalizing count with
  | last acts ends =>
    cases count with
    | zero => rfl
    | succ count => rw [firstSteps_of_last acts ends, List.take_succ_cons, List.take_nil]
  | next acts goes _ ih =>
    cases count with
    | zero => rfl
    | succ count => rw [firstSteps_of_next acts goes, List.take_succ_cons, ih]

end Configuration

/-- A result records the first steps of its run, as many as there are. -/
theorem Table.EndsWith.steps_eq {g : Grammar} {table : Table} {input : List Nat}
    {result : ParseResult} (ends : table.EndsWith g input result) {count : Nat}
    (enough : result.steps.length ≤ count) :
    result.steps = (Configuration.initial input).firstSteps g table count 1 := by
  obtain ⟨steps, traces, rfl⟩ := ends
  rw [traces.firstSteps_eq]
  exact (List.take_of_length_le enough).symm

end CanonicalLR
