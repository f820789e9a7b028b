import CanonicalLR.Proofs.Run.Trace
import Mathlib.Order.Preorder.Finite

/-!
# Runs that never end

A run that comes back to the entry on top of its stack and to the state below
it, and has not touched what lies below in between, does the same for ever. A
run over a canonical automaton that never ends does come back like that.
-/

namespace CanonicalLR

namespace Configuration

variable {g : Grammar} {table : Table} {c later : Configuration}

/-! ## Steps above a height -/

/-- What a step that is not the last one does. -/
theorem next?_cases (stepped : c.next? g table = some later) :
    (∃ next, table.action? c.state c.lookahead = some (.decided (.shift next)) ∧
      later = c.shifted next) ∨
    ∃ p production next, table.action? c.state c.lookahead = some (.decided (.reduce p)) ∧
      g.production? p = some production ∧ production.right.length ≤ c.stack.length ∧
      table.goto? (topState (c.stack.drop production.right.length)) production.left = some next ∧
      later = c.reduced production next := by
  obtain ⟨action, acts, goes⟩ := next?_eq_some.mp stepped
  unfold action? at acts
  split at acts
  · obtain rfl := Option.some.inj acts
    cases goes
  · obtain rfl := Option.some.inj acts
    cases goes
  · rename_i next cell
    obtain rfl := Option.some.inj acts
    exact .inl ⟨next, cell, (Option.some.inj goes).symm⟩
  · obtain rfl := Option.some.inj acts
    cases goes
  · rename_i p cell
    obtain ⟨production, found, made⟩ := Option.map_eq_some_iff.mp acts
    unfold reduction at made
    split at made
    · subst made
      cases goes
    · rename_i deep
      dsimp only at made
      split at made
      · rename_i next step
        subst made
        simp only [after?, found, Option.map_some] at goes
        exact .inr ⟨p, production, next, cell, found, Nat.le_of_not_lt deep, step,
          (Option.some.inj goes).symm⟩
      · subst made
        cases goes

theorem next?_of_shift {next : Nat}
    (cell : table.action? c.state c.lookahead = some (.decided (.shift next))) :
    c.next? g table = some (c.shifted next) := by
  rw [next?, action?, cell]
  rfl

theorem next?_of_reduce {p next : Nat} {production : Production}
    (cell : table.action? c.state c.lookahead = some (.decided (.reduce p)))
    (found : g.production? p = some production)
    (deep : production.right.length ≤ c.stack.length)
    (step : table.goto? (topState (c.stack.drop production.right.length)) production.left =
      some next) : c.next? g table = some (c.reduced production next) := by
  have reduction : c.reduction table p production = .reduce p next := by
    rw [Configuration.reduction, if_neg (Nat.not_lt_of_le deep)]
    simp only [step]
  rw [next?, action?, cell]
  simp only [found, Option.map_some, reduction, Option.bind_some, after?]

/-- A step that leaves the stack higher than a number of entries. -/
def StepsAbove (g : Grammar) (table : Table) (height : Nat) (c later : Configuration) : Prop :=
  c.next? g table = some later ∧ height < later.stack.length

theorem topState_append {above : List (Nat × Symbol)} (more : above ≠ [])
    (below : List (Nat × Symbol)) : topState (above ++ below) = topState above := by
  cases above with
  | nil => exact absurd rfl more
  | cons entry rest => rfl

theorem topState_append_congr (above : List (Nat × Symbol)) {below base : List (Nat × Symbol)}
    (same : topState base = topState below) :
    topState (above ++ base) = topState (above ++ below) := by
  cases above with
  | nil => exact same
  | cons entry rest => rfl

/-- A step above the lower part of a stack keeps that part and asks of it only its top state. -/
theorem StepsAbove.swap {above below : List (Nat × Symbol)} {input : List Nat}
    (stepped : StepsAbove g table below.length ⟨above ++ below, input⟩ later) (more : above ≠ []) :
    ∃ higher, higher ≠ [] ∧ later.stack = higher ++ below ∧
      ∀ base, topState base = topState below →
        next? g table ⟨above ++ base, input⟩ = some ⟨higher ++ base, later.input⟩ := by
  obtain ⟨stepped, high⟩ := stepped
  have states (base : List (Nat × Symbol)) :
      state ⟨above ++ base, input⟩ = state ⟨above ++ below, input⟩ := by
    rw [state, state, topState_append more, topState_append more]
  rcases next?_cases stepped with
    ⟨next, cell, rfl⟩ | ⟨p, production, next, cell, found, deep, step, rfl⟩
  · refine ⟨(next, .terminal (input.headD endMarker)) :: above, List.cons_ne_nil _ _, rfl, ?_⟩
    intro base _
    exact next?_of_shift (c := ⟨above ++ base, input⟩) (states base ▸ cell)
  · -- The reduction takes no more entries than there are above, as one new entry is put.
    have within : production.right.length ≤ above.length := by
      simp only [reduced, List.length_cons, List.length_drop, List.length_append] at high deep
      omega
    have dropped (base : List (Nat × Symbol)) :
        (above ++ base).drop production.right.length =
          above.drop production.right.length ++ base :=
      List.drop_append_of_le_length within
    refine ⟨(next, .nonterminal production.left) :: above.drop production.right.length,
      List.cons_ne_nil _ _, ?_, ?_⟩
    · rw [reduced, dropped, List.cons_append]
    · intro base same
      have enough : production.right.length ≤ (above ++ base).length := by
        rw [List.length_append]
        omega
      have onward : table.goto? (topState ((above ++ base).drop production.right.length))
          production.left = some next := by
        rw [dropped, topState_append_congr _ same, ← dropped]
        exact step
      have result := next?_of_reduce (c := ⟨above ++ base, input⟩) (states base ▸ cell) found
        enough onward
      rwa [reduced, dropped] at result

theorem transGen_swap {height : Nat} {above below : List (Nat × Symbol)} {input : List Nat}
    (reached : Relation.TransGen (StepsAbove g table height) c later)
    (start : c = ⟨above ++ below, input⟩) (bottom : below.length = height) (more : above ≠ []) :
    ∃ higher, higher ≠ [] ∧ later.stack = higher ++ below ∧
      ∀ base, topState base = topState below →
        Relation.TransGen (Steps g table)
          ⟨above ++ base, input⟩ ⟨higher ++ base, later.input⟩ := by
  subst start bottom
  induction reached with
  | single stepped =>
    obtain ⟨higher, nonempty, kept, swapped⟩ := stepped.swap more
    exact ⟨higher, nonempty, kept, fun base same => .single (swapped base same)⟩
  | @tail middle last _ stepped ih =>
    obtain ⟨between, nonempty, kept, before⟩ := ih
    obtain ⟨stack, unread⟩ := middle
    obtain rfl : stack = between ++ below := kept
    obtain ⟨higher, most, keptToo, swapped⟩ := stepped.swap nonempty
    exact ⟨higher, most, keptToo, fun base same => (before base same).tail (swapped base same)⟩

/-! ## Pumping -/

/-- The run comes back to the same topmost entry over the same state, without having touched the
entries below, and has read nothing. -/
def Pumps (g : Grammar) (table : Table) (c : Configuration) : Prop :=
  ∃ entry below more, c.stack = entry :: below ∧ topState (more ++ below) = topState below ∧
    Relation.TransGen (StepsAbove g table below.length) c ⟨entry :: (more ++ below), c.input⟩

theorem Traces.of_next? {index : Nat} {steps : List Step} (traces : Traces g table index c steps)
    (stepped : c.next? g table = some later) :
    ∃ first rest, steps = first :: rest ∧ Traces g table (index + 1) later rest := by
  obtain ⟨action, acts, goes⟩ := next?_eq_some.mp stepped
  cases traces with
  | last sameActs ends =>
    obtain rfl := Option.some.inj (acts.symm.trans sameActs)
    exact absurd (ends.symm.trans goes) (by simp)
  | next sameActs sameGoes rest =>
    obtain rfl := Option.some.inj (acts.symm.trans sameActs)
    obtain rfl := Option.some.inj (goes.symm.trans sameGoes)
    exact ⟨_, _, rfl, rest⟩

theorem Traces.of_transGen {index : Nat} {steps : List Step}
    (traces : Traces g table index c steps)
    (reached : Relation.TransGen (Steps g table) c later) :
    ∃ number rest, Traces g table number later rest ∧ rest.length < steps.length := by
  induction reached with
  | single stepped =>
    obtain ⟨first, rest, rfl, after⟩ := traces.of_next? stepped
    exact ⟨_, rest, after, Nat.lt_succ_self _⟩
  | tail _ stepped ih =>
    obtain ⟨number, middle, before, shorter⟩ := ih
    obtain ⟨first, rest, rfl, after⟩ := before.of_next? stepped
    exact ⟨_, rest, after, Nat.lt_trans (Nat.lt_succ_self _) shorter⟩

/-- A configuration from which another one of its kind follows has no last step to trace. -/
theorem not_traces_of_recurring {recurs : Configuration → Prop}
    (again : ∀ c, recurs c → ∃ later, recurs later ∧
      Relation.TransGen (Steps g table) c later)
    (here : recurs c) {index : Nat} {steps : List Step} : ¬ Traces g table index c steps := by
  intro traces
  generalize count : steps.length = length
  induction length using Nat.strong_induction_on generalizing c index steps with
  | _ length ih =>
    obtain ⟨later, there, reached⟩ := again c here
    obtain ⟨number, rest, traces, shorter⟩ := traces.of_transGen reached
    exact ih rest.length (count ▸ shorter) there traces rfl

theorem Pumps.not_finishes (pumps : c.Pumps g table) : ¬ c.Finishes g table := by
  obtain ⟨entry, below, more, stack, top, reached⟩ := pumps
  have start : c = ⟨[entry] ++ below, c.input⟩ := by
    obtain ⟨entries, input⟩ := c
    obtain rfl : entries = entry :: below := stack
    rfl
  obtain ⟨higher, -, kept, swapped⟩ :=
    transGen_swap reached start rfl (List.cons_ne_nil entry [])
  obtain rfl : entry :: more = higher := List.append_cancel_right kept
  let recurs (c' : Configuration) : Prop :=
    ∃ base, topState base = topState below ∧ c' = ⟨[entry] ++ base, c.input⟩
  have again : ∀ c', recurs c' → ∃ later, recurs later ∧
      Relation.TransGen (Steps g table) c' later := by
    rintro _ ⟨base, same, rfl⟩
    refine ⟨_, ⟨more ++ base, ?_, rfl⟩, swapped base same⟩
    rw [topState_append_congr more same, top]
  rw [finishes_iff_traces 1]
  rintro ⟨steps, traces⟩
  exact not_traces_of_recurring again ⟨below, rfl, start⟩ traces

theorem not_finishes_of_reaches (reached : c.Reaches g table later)
    (endless : ¬ later.Finishes g table) : ¬ c.Finishes g table := by
  rw [finishes_iff_traces 1]
  rintro ⟨steps, traces⟩
  obtain ⟨earlier, rest, number, -, after⟩ := traces.of_reaches reached
  exact endless ((finishes_iff_traces number).mpr ⟨rest, after⟩)

/-! ## Endless runs pump -/

/-- The configuration after a number of steps; the last one stays. -/
def afterSteps (g : Grammar) (table : Table) (c : Configuration) : Nat → Configuration
  | 0 => c
  | count + 1 =>
    let before := afterSteps g table c count
    (before.next? g table).getD before

/-- The stack after a number of steps is never lower again. -/
def Low (g : Grammar) (table : Table) (c : Configuration) (count : Nat) : Prop :=
  ∀ more, count ≤ more → (c.afterSteps g table count).stack.length ≤
    (c.afterSteps g table more).stack.length

/-- The transition by which the topmost entry of a stack was entered. -/
def topEdge? : List (Nat × Symbol) → Option Transition
  | [] => none
  | (s, symbol) :: below => some ⟨topState below, symbol, s⟩

theorem exists_topEdge {a : Automaton} {stack : List (Nat × Symbol)} (path : a.Path stack)
    (more : stack ≠ []) : ∃ transition ∈ a.transitions, topEdge? stack = some transition := by
  cases path with
  | nil => exact absurd rfl more
  | cons step _ => exact ⟨_, Automaton.mem_of_transition? step, rfl⟩

theorem topEdge?_eq_some {stack : List (Nat × Symbol)} {transition : Transition}
    (top : topEdge? stack = some transition) : ∃ below,
      stack = (transition.target, transition.symbol) :: below ∧
        topState below = transition.source := by
  cases stack with
  | nil => cases top
  | cons entry below =>
    obtain rfl := Option.some.inj top
    exact ⟨below, rfl, rfl⟩

theorem Steps.input_length_le (stepped : c.Steps g table later) :
    later.input = c.input ∨ later.input.length < c.input.length := by
  rcases next?_cases stepped with ⟨next, -, rfl⟩ | ⟨p, production, next, -, -, -, -, rfl⟩
  · obtain ⟨stack, input⟩ := c
    cases input with
    | nil => exact .inl rfl
    | cons t rest => exact .inr (Nat.lt_succ_self rest.length)
  · exact .inl rfl

theorem Steps.stack_ne_nil (stepped : c.Steps g table later) : later.stack ≠ [] := by
  rcases next?_cases stepped with ⟨next, -, rfl⟩ | ⟨p, production, next, -, -, -, -, rfl⟩
  · exact List.cons_ne_nil _ _
  · exact List.cons_ne_nil _ _

/-- From some place on, a sequence of numbers never falls below the number there. -/
theorem exists_low (f : Nat → Nat) (first : Nat) :
    ∃ n, first ≤ n ∧ ∀ m, n ≤ m → f n ≤ f m := by
  have attained : ∃ value n, first ≤ n ∧ f n = value := ⟨_, first, Nat.le_refl first, rfl⟩
  classical
  obtain ⟨n, late, least⟩ := Nat.find_spec attained
  refine ⟨n, late, fun m later => ?_⟩
  rw [least]
  exact Nat.find_min' attained ⟨m, Nat.le_trans late later, rfl⟩

section

variable {a : Automaton} (path : a.Path c.stack) (wellFormed : g.WellFormed)
variable (canonical : a.Canonical g) (endless : ¬ c.Finishes g (a.table g))
include path wellFormed canonical endless

theorem steps_of_endless (count : Nat) :
    c.Reaches g (a.table g) (c.afterSteps g (a.table g) count) ∧
      (c.afterSteps g (a.table g) count).Steps g (a.table g)
        (c.afterSteps g (a.table g) (count + 1)) := by
  have onward {later : Configuration} (reached : c.Reaches g (a.table g) later) :
      later.Steps g (a.table g) ((later.next? g (a.table g)).getD later) := by
    have here := path.reaches wellFormed canonical reached
    obtain ⟨action, acts, -⟩ := here.turn wellFormed canonical
    cases goes : later.after? g action with
    | none => exact absurd ⟨later, action, reached, acts, goes⟩ endless
    | some last =>
      have stepped : later.next? g (a.table g) = some last :=
        next?_eq_some.mpr ⟨action, acts, goes⟩
      rw [Steps, stepped, Option.getD_some]
  induction count with
  | zero => exact ⟨.refl, onward .refl⟩
  | succ count ih =>
    have reached := ih.1.tail ih.2
    exact ⟨reached, onward reached⟩

/-- From some step on, an endless run reads nothing. -/
theorem exists_unread_constant : ∃ first, ∀ count, first ≤ count →
    (c.afterSteps g (a.table g) count).input = (c.afterSteps g (a.table g) first).input := by
  let unread (count : Nat) : Nat := (c.afterSteps g (a.table g) count).input.length
  obtain ⟨first, -, least⟩ := exists_low unread 0
  refine ⟨first, fun count late => ?_⟩
  induction count, late using Nat.le_induction with
  | base => rfl
  | succ count late ih =>
    have step := (steps_of_endless path wellFormed canonical endless count).2
    rcases step.input_length_le with same | shorter
    · exact same.trans ih
    · have bound := least (count + 1) (Nat.le_succ_of_le late)
      rw [ih] at shorter
      exact absurd bound (Nat.not_le_of_lt shorter)

theorem transGen_of_low {first : Nat} {entry : Nat × Symbol} {below : List (Nat × Symbol)}
    (stack : (c.afterSteps g (a.table g) first).stack = entry :: below)
    (low : c.Low g (a.table g) first) {count : Nat} (late : first < count) :
    Relation.TransGen (StepsAbove g (a.table g) below.length)
      (c.afterSteps g (a.table g) first) (c.afterSteps g (a.table g) count) := by
  have above (count : Nat) (late : first ≤ count) :
      StepsAbove g (a.table g) below.length (c.afterSteps g (a.table g) count)
        (c.afterSteps g (a.table g) (count + 1)) := by
    refine ⟨(steps_of_endless path wellFormed canonical endless count).2, ?_⟩
    have high := low (count + 1) (Nat.le_succ_of_le late)
    rw [stack, List.length_cons] at high
    exact high
  induction count, late using Nat.le_induction with
  | base => exact .single (above first (Nat.le_refl first))
  | succ count late ih => exact ih.tail (above count (Nat.le_of_lt late))

/-- An endless run comes to low stacks again and again, so that two of them were entered by the
same transition. -/
theorem exists_entered_twice (first : Nat) : ∃ i j transition, first < i ∧ i < j ∧
    c.Low g (a.table g) i ∧
    topEdge? (c.afterSteps g (a.table g) i).stack = some transition ∧
    topEdge? (c.afterSteps g (a.table g) j).stack = some transition := by
  have infinite : {n | first < n ∧ c.Low g (a.table g) n}.Infinite := by
    apply Set.infinite_of_forall_exists_gt
    intro count
    obtain ⟨n, late, low⟩ := exists_low
      (fun n => (c.afterSteps g (a.table g) n).stack.length) (max first count + 1)
    exact ⟨n, ⟨by omega, low⟩, by omega⟩
  have entered : Set.MapsTo (fun n => topEdge? (c.afterSteps g (a.table g) n).stack)
      {n | first < n ∧ c.Low g (a.table g) n}
      (some '' {transition | transition ∈ a.transitions.toList}) := by
    rintro n ⟨late, -⟩
    obtain ⟨count, rfl⟩ := Nat.exists_eq_succ_of_ne_zero (Nat.ne_zero_of_lt late)
    have steps := steps_of_endless path wellFormed canonical endless
    obtain ⟨transition, member, top⟩ := exists_topEdge
      (path.reaches wellFormed canonical (steps (count + 1)).1) (steps count).2.stack_ne_nil
    exact ⟨transition, Array.mem_toList_iff.mpr member, top.symm⟩
  have finite := (List.finite_toSet a.transitions.toList).image some
  obtain ⟨i, ⟨late, low⟩, j, -, earlier, same⟩ :=
    infinite.exists_lt_map_eq_of_mapsTo entered finite
  obtain ⟨transition, -, top⟩ := entered ⟨late, low⟩
  exact ⟨i, j, transition, late, earlier, low, top.symm, (top.trans same).symm⟩

/-- An endless run pumps, as nothing below a low stack is touched on the way to the next one. -/
theorem exists_pumps : ∃ later, c.Reaches g (a.table g) later ∧ later.Pumps g (a.table g) := by
  have steps := steps_of_endless path wellFormed canonical endless
  obtain ⟨first, constant⟩ := exists_unread_constant path wellFormed canonical endless
  obtain ⟨i, j, transition, late, earlier, low, top, topLater⟩ :=
    exists_entered_twice path wellFormed canonical endless first
  obtain ⟨below, stack, bottom⟩ := topEdge?_eq_some top
  obtain ⟨under, stackLater, bottomLater⟩ := topEdge?_eq_some topLater
  have reached := transGen_of_low path wellFormed canonical endless stack low earlier
  have start : c.afterSteps g (a.table g) i =
      ⟨[(transition.target, transition.symbol)] ++ below, (c.afterSteps g (a.table g) i).input⟩ :=
    congrArg (Configuration.mk · _) stack
  obtain ⟨higher, more, kept, -⟩ := transGen_swap reached start rfl (List.cons_ne_nil _ [])
  obtain ⟨head, rest, rfl⟩ := List.exists_cons_of_ne_nil more
  have whole : (transition.target, transition.symbol) :: under = head :: (rest ++ below) :=
    stackLater.symm.trans kept
  obtain ⟨rfl, rfl⟩ := List.cons.inj whole
  have unread : (c.afterSteps g (a.table g) j).input = (c.afterSteps g (a.table g) i).input :=
    (constant j (by omega)).trans (constant i (Nat.le_of_lt late)).symm
  have goal : c.afterSteps g (a.table g) j = ⟨(transition.target, transition.symbol) ::
      (rest ++ below), (c.afterSteps g (a.table g) i).input⟩ := by
    rw [← unread, ← stackLater]
  exact ⟨_, (steps i).1, _, below, rest, stack, bottomLater.trans bottom.symm, goal ▸ reached⟩

end

/-- A run ends exactly if it does not come to where it pumps. -/
theorem finishes_iff_not_pumps {a : Automaton} (path : a.Path c.stack) (wellFormed : g.WellFormed)
    (canonical : a.Canonical g) : c.Finishes g (a.table g) ↔
      ¬ ∃ later, c.Reaches g (a.table g) later ∧ later.Pumps g (a.table g) := by
  constructor
  · rintro finishes ⟨later, reached, pumps⟩
    exact not_finishes_of_reaches reached pumps.not_finishes finishes
  · intro never
    by_contra endless
    exact never (exists_pumps path wellFormed canonical endless)

end Configuration

end CanonicalLR
