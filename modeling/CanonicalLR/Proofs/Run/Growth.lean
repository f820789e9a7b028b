import CanonicalLR.Proofs.Grammar.Forest
import CanonicalLR.Proofs.Run.Trace

/-!
# Runs that build trees

The replay of recorded steps does not look ahead, so that it can be followed
along with the run: each shift and each reduction changes the stack of trees as
it changes the configuration.
-/

namespace CanonicalLR

theorem Grammar.Forest.length_eq {g : Grammar} {symbols : List Symbol} {trees : List ParseTree}
    (forest : g.Forest symbols trees) : trees.length = symbols.length := by
  induction forest with
  | nil => rfl
  | leaf t _ ih => rw [List.length_cons, List.length_cons, ih]
  | node found _ _ _ ih => rw [List.length_cons, List.length_cons, ih]

namespace Configuration

variable {g : Grammar} {table : Table}

/-- A step of a run that does not end it, with what its replay makes of a stack of trees. -/
inductive Builds (g : Grammar) (table : Table) :
    Configuration × List ParseTree → Configuration × List ParseTree → Prop where
  | shift {c : Configuration} {next : Nat} (acts : c.action? g table = some (.shift next))
      (trees : List ParseTree) :
      Builds g table (c, trees) (c.shifted next, .leaf c.lookahead :: trees)
  | reduce {c : Configuration} {p next : Nat} {production : Production}
      {trees gathered : List ParseTree} (acts : c.action? g table = some (.reduce p next))
      (found : g.production? p = some production)
      (gathers : ParseTree.gather? g trees p = some gathered) :
      Builds g table (c, trees) (c.reduced production next, gathered)

/-- A later configuration of the same run, with what the replay makes of a stack of trees. -/
def Grows (g : Grammar) (table : Table) :
    Configuration × List ParseTree → Configuration × List ParseTree → Prop :=
  Relation.ReflTransGen (Builds g table)

variable {first second : Configuration × List ParseTree}

theorem Builds.steps (builds : Builds g table first second) : first.1.Steps g table second.1 := by
  cases builds with
  | shift acts trees => exact next?_eq_some.mpr ⟨_, acts, rfl⟩
  | reduce acts found _ =>
    refine next?_eq_some.mpr ⟨_, acts, ?_⟩
    rw [after?, found, Option.map_some]

theorem Grows.reaches (grows : Grows g table first second) :
    first.1.Reaches g table second.1 := by
  induction grows with
  | refl => exact .refl
  | tail _ builds ih => exact ih.tail builds.steps

theorem Builds.replay {index : Nat} {steps : List Step} (builds : Builds g table first second)
    (traces : Traces g table index first.1 steps) : ∃ rest,
      Traces g table (index + 1) second.1 rest ∧
      ParseTree.replay? g first.2 steps = ParseTree.replay? g second.2 rest := by
  obtain ⟨action, acts, goes⟩ := next?_eq_some.mp builds.steps
  cases traces with
  | last sameActs ends =>
    obtain rfl := Option.some.inj (acts.symm.trans sameActs)
    rw [ends] at goes
    cases goes
  | @next _ _ later same rest sameActs sameGoes after =>
    obtain rfl := Option.some.inj (acts.symm.trans sameActs)
    obtain rfl := Option.some.inj (goes.symm.trans sameGoes)
    refine ⟨rest, after, ?_⟩
    cases builds with
    | shift shifts trees =>
      obtain rfl := Option.some.inj (acts.symm.trans shifts)
      rfl
    | reduce reduces found gathers =>
      obtain rfl := Option.some.inj (acts.symm.trans reduces)
      simp only [ParseTree.replay?, gathers, Option.bind_some]

/-- The replay of a run goes on with the trees of any configuration on its way. -/
theorem Grows.replay {index : Nat} {steps : List Step} (grows : Grows g table first second)
    (traces : Traces g table index first.1 steps) : ∃ number rest,
      Traces g table number second.1 rest ∧
      ParseTree.replay? g first.2 steps = ParseTree.replay? g second.2 rest := by
  induction grows with
  | refl => exact ⟨index, steps, traces, rfl⟩
  | tail _ builds ih =>
    obtain ⟨number, rest, before, same⟩ := ih
    obtain ⟨later, after, sameLater⟩ := builds.replay before
    exact ⟨number + 1, later, after, same.trans sameLater⟩

end Configuration

end CanonicalLR
