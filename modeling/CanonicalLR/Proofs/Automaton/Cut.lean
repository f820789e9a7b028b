import CanonicalLR.Proofs.Automaton.Finite
import CanonicalLR.Proofs.Automaton.ViablePrefix

/-!
# Limits cut the automaton and do not change it

An exceeded limit leaves the states that come before the first one without room,
with the transitions that were recorded before that state was entered. Limits
that are not exceeded leave no trace.
-/

namespace CanonicalLR

/-! ## Counting items -/

theorem itemTotal_append_singleton (states : List State) (state : State) :
    itemTotal (states ++ [state]) = itemTotal states + state.items.size := by
  rw [itemTotal, List.foldl_append]
  rfl

theorem itemTotal_perm {states more : List State} (perm : states.Perm more) :
    itemTotal states = itemTotal more := by
  unfold itemTotal
  exact perm.foldl_eq' (fun _ _ _ _ _ => Nat.add_right_comm ..) 0

theorem itemTotal_le_append (states more : List State) :
    itemTotal states ≤ itemTotal (states ++ more) := by
  induction more using List.reverseRecOn with
  | nil => rw [List.append_nil]
  | append_singleton more state ih =>
    rw [← List.append_assoc, itemTotal_append_singleton]
    exact Nat.le_add_right_of_le ih

theorem itemTotal_le_of_subperm {states more : List State} (part : states.Subperm more) :
    itemTotal states ≤ itemTotal more := by
  obtain ⟨same, perm, within⟩ := part
  obtain ⟨rest, whole⟩ := within.exists_perm_append
  rw [← itemTotal_perm perm, itemTotal_perm whole]
  exact itemTotal_le_append same rest

namespace Automaton

variable {rules : ClosureRules} {limits : Limits} {a final : Automaton}

/-- What has been built of an automaton when its state `k` is about to be entered. -/
def before (a : Automaton) (k : Nat) : Automaton where
  states := (a.states.toList.take k).toArray
  transitions := (a.transitions.toList.takeWhile fun transition => transition.target < k).toArray
  itemCount := itemTotal (a.states.toList.take k)
  itemCount_eq := rfl

/-- State `k` has no room under the limits, after the states before it. -/
def Exceeds (limits : Limits) (a : Automaton) (k : Nat) : Prop :=
  k < a.states.size ∧
    (limits.states ≤ k ∨ limits.items < itemTotal (a.states.toList.take (k + 1)))

/-- Which limit stands in the way of the next state. -/
def halt (limits : Limits) (a : Automaton) : Halted :=
  if limits.states ≤ a.states.size then ⟨.states, limits.states, a⟩
  else ⟨.items, limits.items, a⟩

theorem eq_of_toList {first second : Automaton}
    (states : first.states.toList = second.states.toList)
    (transitions : first.transitions.toList = second.transitions.toList) : first = second := by
  obtain ⟨⟨_⟩, ⟨_⟩, _, rfl⟩ := first
  obtain ⟨⟨_⟩, ⟨_⟩, _, rfl⟩ := second
  obtain rfl : _ = _ := states
  obtain rfl : _ = _ := transitions
  rfl

theorem states_before (a : Automaton) (k : Nat) :
    (a.before k).states.toList = a.states.toList.take k := rfl

theorem transitions_before (a : Automaton) (k : Nat) : (a.before k).transitions.toList =
    a.transitions.toList.takeWhile fun transition => transition.target < k := rfl

theorem size_states_before {k : Nat} (within : k ≤ a.states.size) :
    (a.before k).states.size = k := by
  simp [before, within]

/-! ## Where a construction is cut -/

theorem Awaits.states_eq {state : State} (awaits : a.Awaits state final) :
    final.states.toList.take (a.states.size + 1) = a.states.toList ++ [state] := by
  obtain ⟨rest, split⟩ := awaits.states
  rw [← split]
  exact List.take_left' (by simp)

theorem Awaits.lt_size {state : State} (awaits : a.Awaits state final) :
    a.states.size < final.states.size := by
  have longer := awaits.states.length_le
  rwa [List.length_append, Array.length_toList, Array.length_toList] at longer

/-- What there is when a state is missing is what comes before that state. -/
theorem Awaits.before_eq {state : State} (awaits : a.Awaits state final) (fits : a.Fits limits) :
    final.before a.states.size = a := by
  apply eq_of_toList
  · obtain ⟨rest, split⟩ := awaits.states
    rw [states_before, ← split, List.append_assoc]
    exact List.take_left' (by simp)
  · rw [transitions_before]
    rcases awaits.transitions with rfl | ⟨s, symbol, rest, split⟩
    · cases final.transitions.toList with
      | nil => rfl
      | cons first rest => exact List.takeWhile_cons_of_neg (by simp [empty])
    · have behind : ∀ transition ∈ a.transitions.toList,
          decide (transition.target < a.states.size) = true := by
        intro transition member
        exact decide_eq_true (fits.inside transition (Array.mem_toList_iff.mp member)).2
      rw [← split, List.append_assoc, List.takeWhile_append_of_pos behind, List.singleton_append,
        List.takeWhile_cons_of_neg (by simp), List.append_nil]

theorem enter_eq_error {state : State} {halted : Halted}
    (refused : a.enter limits state = .error halted) (named : a.states.size < stateIdCount) :
    halted = a.halt limits ∧
      (limits.states ≤ a.states.size ∨ limits.items < a.itemCount + state.items.size) := by
  unfold enter at refused
  unfold halt
  split at refused
  · rename_i full
    rw [if_pos full]
    exact ⟨(Except.error.inj refused).symm, .inl full⟩
  · rename_i room
    rw [if_neg room]
    split at refused
    · rename_i heavy
      exact ⟨(Except.error.inj refused).symm, .inr heavy⟩
    · rw [if_neg (Nat.not_le.mpr named)] at refused
      cases refused

theorem Fits.not_exceeds (fits : a.Fits limits) {k : Nat} (inside : k < a.states.size) :
    ¬ (limits.states ≤ k ∨ limits.items < itemTotal (a.states.toList.take (k + 1))) := by
  have counted := fits.items
  rw [a.itemCount_eq] at counted
  have less := itemTotal_le_of_subperm
    (List.take_sublist (k + 1) a.states.toList).subperm
  have room := fits.states
  omega

theorem Awaits.exceeds {state : State} {halted : Halted} (awaits : a.Awaits state final)
    (refused : a.enter limits state = .error halted) (named : a.states.size < stateIdCount) :
    final.Exceeds limits a.states.size := by
  refine ⟨awaits.lt_size, (enter_eq_error refused named).2.imp_right fun heavy => ?_⟩
  rw [awaits.states_eq, itemTotal_append_singleton, ← a.itemCount_eq]
  exact heavy

theorem Awaits.not_exceeds {state : State} (awaits : a.Awaits state final) (fits : a.Fits limits)
    {k : Nat} (earlier : k < a.states.size) : ¬ final.Exceeds limits k := by
  have shared : final.states.toList.take (k + 1) = a.states.toList.take (k + 1) := by
    obtain ⟨rest, split⟩ := awaits.states
    have within : k + 1 ≤ a.states.toList.length := by simpa using Nat.succ_le_of_lt earlier
    rw [← split, List.append_assoc, List.take_append_of_le_length within]
  rintro ⟨-, past⟩
  rw [shared] at past
  exact fits.not_exceeds earlier past

/-! ## What is left of it -/

/-- What is left of an automaton without its states from `k` on: nothing that was recorded before
state `k` is missing, and nothing leads out of it. -/
structure CutAt (a : Automaton) (k : Nat) : Prop where
  inside : ∀ transition ∈ (a.before k).transitions, transition.source < k ∧ transition.target < k
  looked : ∀ s symbol t, (a.before k).transition? s symbol = some t ↔
    ⟨s, symbol, t⟩ ∈ (a.before k).transitions
  first : 0 < k → ∃ s symbol rest, a.transitions.toList =
    (a.before k).transitions.toList ++ ⟨s, symbol, k⟩ :: rest

theorem Awaits.cutAt {state : State} (awaits : a.Awaits state final) (fits : a.Fits limits)
    (once : (final.transitions.toList.map fun transition =>
      (transition.source, transition.symbol)).Nodup) : final.CutAt a.states.size := by
  have same := awaits.before_eq fits
  refine ⟨?_, ?_, ?_⟩
  · rw [same]
    exact fits.inside
  · intro s symbol t
    apply transition?_eq_some_iff
    have part : (final.before a.states.size).transitions.toList.Sublist
        final.transitions.toList := List.takeWhile_sublist _
    exact once.sublist (part.map _)
  · intro later
    rw [same]
    rcases awaits.transitions with rfl | ⟨s, symbol, rest, split⟩
    · exact absurd later (Nat.lt_irrefl 0)
    · exact ⟨s, symbol, rest, by rw [← split, List.append_assoc, List.singleton_append]⟩

/-- The first state that has no room is the one that the automaton is cut at. -/
theorem collect_eq_error (settled : final.Settled rules) (named : final.states.size ≤ stateIdCount)
    {k : Nat} (exceeds : final.Exceeds limits k) (least : ∀ j < k, ¬ final.Exceeds limits j) :
    ∃ state, collect rules limits = .error ((final.before k).halt limits) ∧
      (final.before k).Fits limits ∧ (final.before k).Awaits state final := by
  have outcome : Outcome limits final (collect rules limits) := collect_outcome settled
  generalize collect rules limits = ended at outcome
  cases outcome with
  | whole fits => exact absurd exceeds.2 (fits.not_exceeds exceeds.1)
  | @cut a state halted fits awaits refused =>
    have first : a.states.size < stateIdCount := Nat.lt_of_lt_of_le awaits.lt_size named
    have here : a.states.size = k := by
      rcases Nat.lt_trichotomy a.states.size k with before | same | after
      · exact absurd (awaits.exceeds refused first) (least _ before)
      · exact same
      · exact absurd exceeds (awaits.not_exceeds fits after)
    subst here
    rw [awaits.before_eq fits, (enter_eq_error refused first).1]
    exact ⟨state, rfl, fits, awaits⟩

theorem collect_eq_ok (settled : final.Settled rules) (named : final.states.size ≤ stateIdCount)
    (room : ∀ k, ¬ final.Exceeds limits k) : collect rules limits = .ok final := by
  have outcome : Outcome limits final (collect rules limits) := collect_outcome settled
  generalize collect rules limits = ended at outcome
  cases outcome with
  | whole => rfl
  | cut _ awaits refused =>
    exact absurd (awaits.exceeds refused (Nat.lt_of_lt_of_le awaits.lt_size named)) (room _)

end Automaton

namespace Grammar

variable {g : Grammar} {settings : Settings}

theorem analyze_of_productions
    (many : settings.limits.productions < g.userProductionCount) : g.analyze settings =
      .error (.limitExceeded .productions settings.limits.productions 0 none) := by
  rw [analyze, if_pos many]

theorem analyze_of_cancelled (few : g.userProductionCount ≤ settings.limits.productions)
    (cancelled : settings.cancelled = true) : g.analyze settings = .error .cancelled := by
  rw [analyze, if_neg (Nat.not_lt.mpr few), if_pos cancelled]

theorem analyze_of_running (few : g.userProductionCount ≤ settings.limits.productions)
    (running : settings.cancelled = false) : g.analyze settings =
      match g.automaton g.firstSets settings.limits with
      | .error halted => .error (.ofHalted settings halted)
      | .ok a => .ok ⟨g.firstFollow, a, a.table g⟩ := by
  rw [analyze, if_neg (Nat.not_lt.mpr few), if_neg (by simp [running])]
  rfl

theorem analyze_eq_ok_iff {analysis : Analysis} : g.analyze settings = .ok analysis ↔
    g.userProductionCount ≤ settings.limits.productions ∧ settings.cancelled = false ∧
      g.automaton g.firstSets settings.limits = .ok analysis.automaton ∧
      analysis = ⟨g.firstFollow, analysis.automaton, analysis.automaton.table g⟩ := by
  constructor
  · intro analyzed
    by_cases few : g.userProductionCount ≤ settings.limits.productions
    · cases cancelled : settings.cancelled with
      | true =>
        rw [analyze_of_cancelled few cancelled] at analyzed
        cases analyzed
      | false =>
        rw [analyze_of_running few cancelled] at analyzed
        cases built : g.automaton g.firstSets settings.limits with
        | error halted =>
          rw [built] at analyzed
          cases analyzed
        | ok a =>
          rw [built] at analyzed
          obtain rfl := Except.ok.inj analyzed
          exact ⟨few, rfl, rfl, rfl⟩
    · rw [analyze_of_productions (Nat.lt_of_not_le few)] at analyzed
      cases analyzed
  · rintro ⟨few, running, built, same⟩
    rw [analyze_of_running few running, built, same]

/-- A retained automaton is what the construction had built when it halted. -/
theorem exists_halted_of_analyze {limit : Limit} {bound built : Nat} {a : Automaton}
    (analyzed : g.analyze settings = .error (.limitExceeded limit bound built (some a))) :
    ∃ halted, g.automaton g.firstSets settings.limits = .error halted ∧ halted.automaton = a := by
  by_cases few : g.userProductionCount ≤ settings.limits.productions
  · cases cancelled : settings.cancelled with
    | true =>
      rw [analyze_of_cancelled few cancelled] at analyzed
      cases analyzed
    | false =>
      rw [analyze_of_running few cancelled] at analyzed
      cases ended : g.automaton g.firstSets settings.limits with
      | ok whole =>
        rw [ended] at analyzed
        cases analyzed
      | error halted =>
        rw [ended] at analyzed
        obtain ⟨-, -, -, retained⟩ := AnalysisError.limitExceeded.inj (Except.error.inj analyzed)
        split at retained
        · exact ⟨halted, rfl, Option.some.inj retained⟩
        · cases retained
  · rw [analyze_of_productions (Nat.lt_of_not_le few)] at analyzed
    cases analyzed

/-- Under any limits the analysis comes to the automaton that there is without limits, or it
reports the limit that its first state without room exceeds and keeps what comes before that. -/
theorem limits_only_cut {calls : List Call} {g : Grammar}
    (defined : Grammar.ofCalls calls = .ok g) :
    ∃ a : Automaton, a.Settled (.ofGrammar g g.firstSets) ∧
      (a.states.size ≤ Automaton.stateIdCount → ∀ settings : Settings,
        (settings.limits.productions < g.userProductionCount →
          g.analyze settings =
            .error (.limitExceeded .productions settings.limits.productions 0 none)) ∧
        (g.userProductionCount ≤ settings.limits.productions →
          (settings.cancelled = true → g.analyze settings = .error .cancelled) ∧
          (settings.cancelled = false →
            (∀ k, a.Exceeds settings.limits k → (∀ j < k, ¬ a.Exceeds settings.limits j) →
              g.analyze settings = .error (.limitExceeded
                (if settings.limits.states ≤ k then .states else .items)
                (if settings.limits.states ≤ k then settings.limits.states
                  else settings.limits.items)
                k (if settings.retainPartial then some (a.before k) else none)) ∧
              a.CutAt k) ∧
            ((∀ k, ¬ a.Exceeds settings.limits k) →
              g.analyze settings = .ok ⟨g.firstFollow, a, a.table g⟩)))) := by
  obtain ⟨a, settled⟩ := Automaton.exists_settled (wellFormed_ofCalls defined)
  refine ⟨a, settled, fun named settings => ⟨analyze_of_productions, fun few =>
    ⟨analyze_of_cancelled few, fun running => ⟨?_, ?_⟩⟩⟩⟩
  · intro k exceeds least
    obtain ⟨state, cut, fits, awaits⟩ :=
      Automaton.collect_eq_error settled named exceeds least
    have size := Automaton.size_states_before (Nat.le_of_lt exceeds.1)
    constructor
    · rw [analyze_of_running few running, automaton, cut]
      simp only [AnalysisError.ofHalted, Automaton.halt, size]
      split <;> simp only [size]
    · have once := Automaton.origins_nodup settled.reached.sound.once
      exact size ▸ awaits.cutAt fits once
  · intro room
    rw [analyze_of_running few running, automaton, Automaton.collect_eq_ok settled named room]

theorem doubled_cut_at_four : ∃ a : Automaton, a.states.size = 10 ∧
    doubled.analyze { limits := { states := 4 }, retainPartial := true } =
      .error (.limitExceeded .states 4 4 (some (a.before 4))) ∧ a.CutAt 4 := by
  obtain ⟨a, settled, analyses⟩ := limits_only_cut ofCalls_doubled
  have counts : (doubled.automaton doubled.firstSets {}).toOption.map (fun a =>
      (a.states.size, a.itemCount)) = some (10, 26) := by decide +kernel
  obtain ⟨whole, built, counted⟩ := exists_of_toOption counts
  obtain rfl : whole = a := (Automaton.settled_of_collect built).1.unique settled
  obtain ⟨states, items⟩ := Prod.mk.inj counted
  have exceeds : whole.Exceeds { states := 4 } 4 := ⟨by omega, .inl (Nat.le_refl 4)⟩
  have least : ∀ j < 4, ¬ whole.Exceeds { states := 4 } j := by
    rintro j below ⟨-, full | heavy⟩
    · exact absurd full (Nat.not_le.mpr below)
    · have light := itemTotal_le_of_subperm
        (List.take_sublist (j + 1) whole.states.toList).subperm
      rw [← whole.itemCount_eq, items] at light
      exact absurd heavy (by simp only [Nat.not_lt]; omega)
  obtain ⟨-, running⟩ := analyses (by rw [states]; decide)
    { limits := { states := 4 }, retainPartial := true }
  obtain ⟨cut, rest⟩ := ((running (by decide)).2 rfl).1 4 exceeds least
  exact ⟨whole, states, cut, rest⟩

end Grammar

end CanonicalLR
