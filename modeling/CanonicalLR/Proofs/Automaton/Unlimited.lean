import CanonicalLR.Analysis
import Mathlib.Data.List.Basic

/-!
# The construction without limits

Visits go on for as long as some state has not been visited. Limits have no part
in what a visit adds: under limits the construction ends in the same automaton,
or it halts before the first state that there is no room for.
-/

namespace CanonicalLR

namespace Automaton

variable {rules : ClosureRules} {limits : Limits} {a later final : Automaton}

/-- Follow a symbol from the items of a source state, whatever room that takes. -/
def followFreely (rules : ClosureRules) (source : Nat) (items : ItemSet) (a : Automaton)
    (symbol : Symbol) : Automaton :=
  let kernel := items.gotoKernel rules.grammar symbol
  let goto := rules.close kernel.toList
  match a.find? goto with
  | some target => a.addTransition ⟨source, symbol, target⟩
  | none => (a.addState ⟨kernel, goto, some symbol⟩).addTransition ⟨source, symbol, a.states.size⟩

def visitFreely (rules : ClosureRules) (a : Automaton) (source : Nat) (items : ItemSet) :
    Automaton :=
  (items.symbolsAfterDot rules.grammar).foldl (followFreely rules source items) a

/-- The automaton once its first `n` states have been visited, or all if there are fewer. -/
def grown (rules : ClosureRules) : Nat → Automaton
  | 0 => empty.addState ⟨ItemSet.ofList [.start], rules.close [.start], none⟩
  | n + 1 =>
    let a := grown rules n
    match a.state? n with
    | none => a
    | some state => a.visitFreely rules n state.items

/-- No visit adds anything to the automaton any more. -/
def Settled (rules : ClosureRules) (a : Automaton) : Prop :=
  ∃ enough, ∀ n, enough ≤ n → grown rules n = a

/-! ## What the parts of a construction add -/

theorem mem_addTransition {a : Automaton} {added transition : Transition} :
    transition ∈ (a.addTransition added).transitions ↔
      transition ∈ a.transitions ∨ transition = added :=
  Array.mem_push

theorem state?_addState_size (a : Automaton) (state : State) :
    (a.addState state).state? a.states.size = some state :=
  Array.getElem?_push_size

theorem find?_eq_some {a : Automaton} {items : ItemSet} {s : Nat} (found : a.find? items = some s) :
    ∃ state, a.state? s = some state ∧ state.items = items := by
  obtain ⟨inside, same, -⟩ := Array.findIdx?_eq_some_iff_getElem.mp found
  exact ⟨_, Array.getElem?_eq_some_iff.mpr ⟨inside, rfl⟩, of_decide_eq_true same⟩

/-! ## Growing in order -/

/-- A later automaton lists the states and the transitions of an earlier one before its own. -/
structure Precedes (earlier later : Automaton) : Prop where
  states : earlier.states.toList <+: later.states.toList
  transitions : earlier.transitions.toList <+: later.transitions.toList

theorem Precedes.refl (a : Automaton) : a.Precedes a :=
  ⟨List.prefix_rfl, List.prefix_rfl⟩

theorem Precedes.trans {first second third : Automaton} (left : first.Precedes second)
    (right : second.Precedes third) : first.Precedes third :=
  ⟨left.states.trans right.states, left.transitions.trans right.transitions⟩

theorem Precedes.state? (precedes : a.Precedes later) {s : Nat} {state : State}
    (found : a.state? s = some state) : later.state? s = some state := by
  have inside := (Array.getElem?_eq_some_iff.mp found).1
  unfold Automaton.state? at found ⊢
  rw [← Array.getElem?_toList] at found ⊢
  rw [← found]
  exact (List.prefix_iff_getElem?.mp precedes.states s inside).trans
    (List.getElem?_eq_getElem inside).symm

theorem Precedes.mem_transitions (precedes : a.Precedes later) {transition : Transition}
    (member : transition ∈ a.transitions) : transition ∈ later.transitions :=
  Array.mem_toList_iff.mp (precedes.transitions.subset (Array.mem_toList_iff.mpr member))

theorem precedes_addTransition (a : Automaton) (transition : Transition) :
    a.Precedes (a.addTransition transition) :=
  ⟨List.prefix_rfl, by simp [addTransition]⟩

theorem precedes_addState (a : Automaton) (state : State) : a.Precedes (a.addState state) :=
  ⟨by simp [addState], List.prefix_rfl⟩

/-- Following a symbol adds a transition, and the state that it leads to unless there is one. -/
theorem followFreely_cases (rules : ClosureRules) (s : Nat) (items : ItemSet) (a : Automaton)
    (symbol : Symbol) :
    (∃ target, a.find? (rules.close (items.gotoKernel rules.grammar symbol).toList) =
        some target ∧
      followFreely rules s items a symbol = a.addTransition ⟨s, symbol, target⟩) ∨
    (a.find? (rules.close (items.gotoKernel rules.grammar symbol).toList) = none ∧
      followFreely rules s items a symbol =
        (a.addState ⟨items.gotoKernel rules.grammar symbol,
          rules.close (items.gotoKernel rules.grammar symbol).toList, some symbol⟩).addTransition
            ⟨s, symbol, a.states.size⟩) := by
  unfold followFreely
  dsimp only
  split
  · rename_i target known
    exact .inl ⟨target, known, rfl⟩
  · rename_i unknown
    exact .inr ⟨unknown, rfl⟩

theorem precedes_followFreely (rules : ClosureRules) (s : Nat) (items : ItemSet) (a : Automaton)
    (symbol : Symbol) :
    a.Precedes (followFreely rules s items a symbol) := by
  rcases followFreely_cases rules s items a symbol with ⟨target, -, same⟩ | ⟨-, same⟩
  · rw [same]
    exact precedes_addTransition ..
  · rw [same]
    exact (precedes_addState ..).trans (precedes_addTransition ..)

theorem precedes_foldl (s : Nat) (items : ItemSet) (symbols : List Symbol) (a : Automaton) :
    a.Precedes (symbols.foldl (followFreely rules s items) a) := by
  induction symbols generalizing a with
  | nil => exact .refl a
  | cons symbol rest ih => exact (precedes_followFreely rules s items a symbol).trans (ih _)

theorem grown_succ_of_state? {n : Nat} {state : State}
    (found : (grown rules n).state? n = some state) :
    grown rules (n + 1) = (grown rules n).visitFreely rules n state.items := by
  rw [grown, found]

theorem grown_succ_of_size_le {n : Nat} (visited : (grown rules n).states.size ≤ n) :
    grown rules (n + 1) = grown rules n := by
  have none : (grown rules n).state? n = none := Array.getElem?_eq_none_iff.mpr visited
  rw [grown, none]

theorem precedes_grown {n m : Nat} (earlier : n ≤ m) :
    (grown rules n).Precedes (grown rules m) := by
  induction earlier with
  | refl => exact .refl _
  | @step m _ ih =>
    cases found : (grown rules m).state? m with
    | none =>
      rw [Nat.succ_eq_add_one, grown_succ_of_size_le (Array.getElem?_eq_none_iff.mp found)]
      exact ih
    | some state =>
      rw [Nat.succ_eq_add_one, grown_succ_of_state? found]
      exact ih.trans (precedes_foldl ..)

/-- Once all states have been visited, no further state comes. -/
theorem grown_of_size_le {n m : Nat} (visited : (grown rules n).states.size ≤ n)
    (earlier : n ≤ m) : grown rules m = grown rules n := by
  induction earlier with
  | refl => rfl
  | @step m before ih =>
    rw [Nat.succ_eq_add_one, grown_succ_of_size_le (ih ▸ Nat.le_trans visited before), ih]

theorem settled_of_size_le {n : Nat} (visited : (grown rules n).states.size ≤ n) :
    (grown rules n).Settled rules :=
  ⟨n, fun _ later => grown_of_size_le visited later⟩

theorem Settled.precedes (settled : final.Settled rules) (n : Nat) :
    (grown rules n).Precedes final := by
  obtain ⟨enough, all⟩ := settled
  rw [← all (max enough n) (Nat.le_max_left ..)]
  exact precedes_grown (Nat.le_max_right ..)

theorem Settled.unique (left : a.Settled rules) (right : later.Settled rules) : a = later := by
  obtain ⟨enough, all⟩ := left
  obtain ⟨other, same⟩ := right
  rw [← all (max enough other) (Nat.le_max_left ..), same _ (Nat.le_max_right ..)]

/-! ## Induction along the construction -/

section

variable (holds : Nat → List Symbol → Automaton → Prop)
  (follows : ∀ {s : Nat} {source : State} {done rest : List Symbol} {symbol : Symbol}
    {a : Automaton}, holds s done a → a.state? s = some source →
      source.items.symbolsAfterDot rules.grammar = done ++ symbol :: rest →
        holds s (done ++ [symbol]) (followFreely rules s source.items a symbol))
include follows

theorem visitFreely_induction {s : Nat} {source : State} (found : a.state? s = some source)
    (initial : holds s [] a) :
    holds s (source.items.symbolsAfterDot rules.grammar)
      (a.visitFreely rules s source.items) := by
  have each : ∀ (rest done : List Symbol) (a : Automaton), a.state? s = some source →
      source.items.symbolsAfterDot rules.grammar = done ++ rest → holds s done a →
      holds s (done ++ rest) (rest.foldl (followFreely rules s source.items) a) := by
    intro rest
    induction rest with
    | nil =>
      intro done a _ _ before
      rwa [List.append_nil]
    | cons symbol rest ih =>
      intro done a found split before
      have onward := ih (done ++ [symbol]) (followFreely rules s source.items a symbol)
        ((precedes_followFreely ..).state? found) (by rw [split, List.append_assoc]; rfl)
        (follows before found split)
      rwa [List.append_assoc] at onward
  exact each _ [] a found rfl initial

/-- What each followed symbol keeps holds however many states have been visited. -/
theorem grown_induction
    (next : ∀ {s : Nat} {source : State} {a : Automaton},
      holds s (source.items.symbolsAfterDot rules.grammar) a → a.state? s = some source →
        holds (s + 1) [] a)
    (idle : ∀ {s : Nat} {a : Automaton}, holds s [] a → a.states.size ≤ s → holds (s + 1) [] a)
    (initial : holds 0 [] (grown rules 0)) (n : Nat) : holds n [] (grown rules n) := by
  induction n with
  | zero => exact initial
  | succ n ih =>
    cases found : (grown rules n).state? n with
    | none =>
      have visited := Array.getElem?_eq_none_iff.mp found
      rw [grown_succ_of_size_le visited]
      exact idle ih visited
    | some state =>
      rw [grown_succ_of_state? found]
      exact next (visitFreely_induction holds follows found ih)
        ((precedes_foldl ..).state? found)

end

/-! ## What limits do -/

/-- There is room for the automaton under the limits, and its transitions join its states. -/
structure Fits (limits : Limits) (a : Automaton) : Prop where
  states : a.states.size ≤ limits.states
  items : a.itemCount ≤ limits.items
  ids : a.states.size ≤ stateIdCount
  inside : ∀ transition ∈ a.transitions,
    transition.source < a.states.size ∧ transition.target < a.states.size

/-- The next state of a later automaton; but for the first, a transition comes with it. -/
structure Awaits (a : Automaton) (state : State) (later : Automaton) : Prop where
  states : a.states.toList ++ [state] <+: later.states.toList
  transitions : a = empty ∨ ∃ s symbol,
    a.transitions.toList ++ [⟨s, symbol, a.states.size⟩] <+: later.transitions.toList

/-- How a construction ends under limits that leads to `final` without them. -/
inductive Outcome (limits : Limits) (final : Automaton) : Except Halted Automaton → Prop where
  | whole (fits : final.Fits limits) : Outcome limits final (.ok final)
  | cut {a : Automaton} {state : State} {halted : Halted} (fits : a.Fits limits)
      (awaits : a.Awaits state final) (refused : a.enter limits state = .error halted) :
      Outcome limits final (.error halted)

theorem Awaits.precedes {state : State} (awaits : a.Awaits state later)
    (precedes : later.Precedes final) : a.Awaits state final where
  states := awaits.states.trans precedes.states
  transitions := awaits.transitions.imp_right fun ⟨s, symbol, ahead⟩ =>
    ⟨s, symbol, ahead.trans precedes.transitions⟩

theorem enter_eq_ok {state : State} (entered : a.enter limits state = .ok later) :
    a.states.size < limits.states ∧ a.itemCount + state.items.size ≤ limits.items ∧
      a.states.size < stateIdCount ∧ later = a.addState state := by
  unfold enter at entered
  split at entered
  · cases entered
  · rename_i below
    split at entered
    · cases entered
    · rename_i light
      split at entered
      · cases entered
      · rename_i named
        exact ⟨Nat.lt_of_not_le below, Nat.le_of_not_lt light, Nat.lt_of_not_le named,
          (Except.ok.inj entered).symm⟩

theorem Fits.addTransition (fits : a.Fits limits) {transition : Transition}
    (source : transition.source < a.states.size) (target : transition.target < a.states.size) :
    (a.addTransition transition).Fits limits where
  states := fits.states
  items := fits.items
  ids := fits.ids
  inside := by
    intro other member
    rcases mem_addTransition.mp member with old | rfl
    · exact fits.inside other old
    · exact ⟨source, target⟩

theorem Fits.enter (fits : a.Fits limits) {state : State}
    (entered : a.enter limits state = .ok later) : later.Fits limits := by
  obtain ⟨below, light, named, rfl⟩ := enter_eq_ok entered
  have more : (a.addState state).states.size = a.states.size + 1 := Array.size_push ..
  refine ⟨?_, light, ?_, ?_⟩
  · omega
  · omega
  · intro transition member
    have old := fits.inside transition member
    omega

theorem follow_outcome (rules : ClosureRules) (fits : a.Fits limits) {s : Nat}
    (here : s < a.states.size) (items : ItemSet) (symbol : Symbol) :
    Outcome limits (followFreely rules s items a symbol)
      (follow rules limits s items a symbol) := by
  unfold follow
  rcases followFreely_cases rules s items a symbol with ⟨target, known, same⟩ | ⟨unknown, same⟩
  · rw [same]
    simp only [known]
    obtain ⟨state, found, -⟩ := find?_eq_some known
    exact .whole (fits.addTransition here (Array.getElem?_eq_some_iff.mp found).1)
  · rw [same]
    simp only [unknown]
    split
    · rename_i entered
      have wider := fits.enter entered
      obtain ⟨-, -, -, rfl⟩ := enter_eq_ok entered
      have more : ∀ state, (a.addState state).states.size = a.states.size + 1 :=
        fun state => Array.size_push state
      exact .whole (wider.addTransition (by rw [more]; exact Nat.lt_succ_of_lt here)
        (by rw [more]; exact Nat.lt_succ_self _))
    · rename_i refused
      refine .cut fits ⟨?_, .inr ⟨s, symbol, ?_⟩⟩ refused
      · simp [Automaton.addTransition, addState]
      · simp [Automaton.addTransition, addState]

theorem visit_outcome (rules : ClosureRules) (fits : a.Fits limits) {s : Nat}
    (here : s < a.states.size) (items : ItemSet) :
    Outcome limits (a.visitFreely rules s items) (a.visit rules limits s items) := by
  unfold visit visitFreely
  generalize items.symbolsAfterDot rules.grammar = symbols
  induction symbols generalizing a with
  | nil => exact .whole fits
  | cons symbol rest ih =>
    have first := follow_outcome rules fits here items symbol
    rw [List.foldlM_cons, List.foldl_cons]
    have longer := precedes_followFreely rules s items a symbol
    generalize followFreely rules s items a symbol = next at first longer
    generalize follow rules limits s items a symbol = followed at first
    cases first with
    | whole fits => exact ih fits (Nat.lt_of_lt_of_le here longer.states.length_le)
    | cut fits awaits refused => exact .cut fits (awaits.precedes (precedes_foldl ..)) refused

theorem explore_outcome {fuel s : Nat} (fits : (grown rules s).Fits limits) :
    Outcome limits (grown rules (s + fuel)) (explore rules limits fuel s (grown rules s)) := by
  induction fuel generalizing s with
  | zero => exact .whole fits
  | succ fuel ih =>
    unfold explore
    split
    · rename_i none
      have visited := Array.getElem?_eq_none_iff.mp none
      rw [grown_of_size_le visited (Nat.le_add_right ..)]
      exact .whole fits
    · rename_i source found
      have first := visit_outcome rules fits (Array.getElem?_eq_some_iff.mp found).1
        source.items
      rw [← grown_succ_of_state? found] at first
      rw [← Nat.succ_add_eq_add_succ]
      generalize (grown rules s).visit rules limits s source.items = visited at first
      cases first with
      | whole fits => exact ih fits
      | cut fits awaits refused =>
        exact .cut fits (awaits.precedes (precedes_grown (Nat.le_add_right ..))) refused

theorem fits_empty (limits : Limits) : empty.Fits limits :=
  ⟨Nat.zero_le _, Nat.zero_le _, Nat.zero_le _,
    fun transition member => absurd member (Array.not_mem_empty transition)⟩

/-- As many visits as there may be states are enough under limits. -/
theorem collect_outcome_grown (rules : ClosureRules) (limits : Limits) :
    Outcome limits (grown rules limits.states) (collect rules limits) := by
  unfold collect
  dsimp only
  split
  · rename_i entered
    have fits := (fits_empty limits).enter entered
    obtain ⟨-, -, -, rfl⟩ := enter_eq_ok entered
    have explored : Outcome limits (grown rules (0 + limits.states))
      (explore rules limits limits.states 0 (grown rules 0)) := explore_outcome fits
    rwa [Nat.zero_add] at explored
  · rename_i refused
    exact .cut (fits_empty limits) ⟨(precedes_grown (Nat.zero_le _)).states, .inl rfl⟩ refused

/-- What the limits let pass is the whole automaton. -/
theorem settled_of_collect (collected : collect rules limits = .ok a) :
    a.Settled rules ∧ a.Fits limits := by
  have outcome := collect_outcome_grown rules limits
  rw [collected] at outcome
  cases outcome with
  | whole fits => exact ⟨settled_of_size_le fits.states, fits⟩

/-- Limits let the whole automaton pass, or they cut it. -/
theorem collect_outcome (settled : final.Settled rules) :
    Outcome limits final (collect rules limits) := by
  have outcome := collect_outcome_grown rules limits
  generalize collect rules limits = ended at outcome
  cases outcome with
  | whole fits =>
    rw [settled.unique (settled_of_size_le fits.states)]
    exact .whole fits
  | cut fits awaits refused => exact .cut fits (awaits.precedes (settled.precedes _)) refused

end Automaton

end CanonicalLR
