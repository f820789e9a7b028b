import CanonicalLR.Proofs.Automaton.Productivity
import CanonicalLR.Proofs.Run.Halting

/-!
# Errors are found at the first wrong token

Over a productive grammar the tokens that a run has shifted always begin a word.
A run that finds no action has just shifted, and no word goes on with the token
in front.
-/

namespace CanonicalLR

open CanonicalLR.Configuration

/-- The tokens that the steps have shifted. -/
def shiftedTokens (steps : List Step) : List Nat :=
  steps.filterMap fun step =>
    match step.action with
    | .shift _ => some step.configuration.lookahead
    | _ => none

namespace Grammar

variable {g : Grammar}

theorem Productive.unblocked (wellFormed : g.WellFormed) (productive : g.Productive) :
    g.Unblocked := by
  intro n reachable
  have inside : n < g.nonterminals.size := by
    rcases reachable.start_or_used with rfl | ⟨p, production, found, used⟩
    · exact wellFormed.start.2
    · have declared := wellFormed.declared_of_mem found used
      exact declared.2
  obtain ⟨word, derived⟩ := productive n inside
  cases word with
  | nil => exact .inl derived
  | cons t rest => exact .inr ⟨t, spelled rest, derived⟩

theorem parentheses_productive : parentheses.Productive := by
  have empty : parentheses.production? 2 = some ⟨1, []⟩ := rfl
  have start : parentheses.production? 0 = some ⟨0, [.nonterminal 1]⟩ := rfl
  intro n inside
  have few : n = 0 ∨ n = 1 := by
    have size : parentheses.nonterminals.size = 2 := rfl
    omega
  rcases few with rfl | rfl
  · exact ⟨[], (derives_right start).trans (derives_right empty)⟩
  · exact ⟨[], derives_right empty⟩

end Grammar

namespace Configuration

variable {g : Grammar} {table : Table}

/-! ## Runs over inputs with a common beginning -/

/-- The input counts only by the terminal in front. -/
theorem action?_congr {stack : List (Nat × Symbol)} {first second : List Nat}
    (front : first.headD endMarker = second.headD endMarker) :
    action? g table ⟨stack, first⟩ = action? g table ⟨stack, second⟩ := by
  unfold action?
  simp only [lookahead, front]
  rfl

theorem headD_append_congr {first second : List Nat} (shared : List Nat)
    (front : first.headD endMarker = second.headD endMarker) :
    (shared ++ first).headD endMarker = (shared ++ second).headD endMarker := by
  cases shared with
  | nil => exact front
  | cons t rest => rfl

section

variable {a : Automaton} (wellFormed : g.WellFormed) (canonical : a.Canonical g)
include wellFormed canonical

/-- A run does the same on every input up to a place where the same terminal is in front. -/
theorem Reaches.swap {stack last : List (Nat × Symbol)} {shared first second : List Nat}
    (reached : Reaches g (a.table g) ⟨stack, shared ++ first⟩ ⟨last, first⟩)
    (path : a.Path stack) (front : first.headD endMarker = second.headD endMarker) :
    Reaches g (a.table g) ⟨stack, shared ++ second⟩ ⟨last, second⟩ := by
  generalize start : (⟨stack, shared ++ first⟩ : Configuration) = c at reached
  induction reached using Relation.ReflTransGen.head_induction_on generalizing stack shared with
  | refl =>
    obtain ⟨rfl, same⟩ := Configuration.mk.inj start
    obtain rfl := List.append_left_eq_self.mp same
    exact .refl
  | @head c later stepped onward ih =>
    subst start
    have fewer : first.length ≤ later.input.length := Reaches.input_length_le onward
    have here : a.Path (Configuration.mk stack (shared ++ first)).stack := path
    have above := here.step wellFormed canonical stepped
    obtain ⟨action, acts, goes⟩ := next?_eq_some.mp stepped
    have same : action? g (a.table g) ⟨stack, shared ++ second⟩ = some action :=
      (action?_congr (headD_append_congr shared front)).symm.trans acts
    cases here.turn_of_action? wellFormed canonical acts with
    | noAction | conflict | accept => cases goes
    | @shift t next rest input _ =>
      obtain rfl := Option.some.inj goes
      -- What is shifted belongs to the common beginning, as the rest is still to be reached.
      cases shared with
      | nil =>
        have input : first = t :: rest := input
        have fewer : first.length ≤ first.tail.length := fewer
        rw [input, List.tail_cons, List.length_cons] at fewer
        exact absurd fewer (Nat.not_succ_le_self _)
      | cons head tail =>
        have split : Configuration.mk ((next, .terminal head) :: stack) (tail ++ first) =
          shifted ⟨stack, head :: tail ++ first⟩ next := rfl
        exact (Reaches.of_action same rfl).trans (ih above split)
    | @reduce p next before production found _ _ _ _ =>
      simp only [after?, found, Option.map_some] at goes
      obtain rfl := Option.some.inj goes
      have split : Configuration.mk ((next, .nonterminal production.left) ::
          stack.drop production.right.length) (shared ++ first) =
        reduced ⟨stack, shared ++ first⟩ production next := rfl
      refine (Reaches.of_action same ?_).trans (ih above split)
      simp only [after?, found, Option.map_some]
      rfl

/-! ## What has been shifted -/

/-- The steps of a run replace what stands on the stack by what it derives and what is shifted. -/
theorem Traces.derives_shiftedTokens {index : Nat} {c : Configuration}
    {earlier rest : List Step} {step : Step}
    (traces : Traces g (a.table g) index c (earlier ++ step :: rest)) (path : a.Path c.stack) :
    c.input = shiftedTokens earlier ++ step.configuration.input ∧
      g.Derives (readSymbols step.configuration.stack)
        (readSymbols c.stack ++ spelled (shiftedTokens earlier)) := by
  induction earlier generalizing index c with
  | nil =>
    have same : step.configuration = c := by cases traces <;> rfl
    rw [same]
    exact ⟨rfl, by simpa [shiftedTokens] using Grammar.derives_refl _⟩
  | cons first earlier ih =>
    rw [List.cons_append] at traces
    generalize tail : earlier ++ step :: rest = steps at traces
    cases traces with
    | last => simp at tail
    | @next _ _ later action _ acts goes after =>
      have above := path.step wellFormed canonical (next?_eq_some.mpr ⟨action, acts, goes⟩)
      obtain ⟨unread, derived⟩ := ih (tail ▸ after) above
      cases path.turn_of_action? wellFormed canonical acts with
      | noAction | conflict | accept => cases goes
      | @shift t next remaining input _ =>
        obtain rfl := Option.some.inj goes
        have tokens : shiftedTokens (⟨index, c, .shift next⟩ :: earlier) =
            c.lookahead :: shiftedTokens earlier := rfl
        have front : c.lookahead = t := by rw [lookahead, input, List.headD_cons]
        rw [tokens, front]
        constructor
        · have unread : c.input.tail = _ := unread
          rw [input, List.tail_cons] at unread
          rw [input, List.cons_append, unread]
        · simpa [shifted, front] using derived
      | @reduce p next before production found _ _ read _ =>
        simp only [after?, found, Option.map_some] at goes
        obtain rfl := Option.some.inj goes
        have tokens : shiftedTokens (⟨index, c, .reduce p next⟩ :: earlier) =
            shiftedTokens earlier := rfl
        rw [tokens]
        refine ⟨unread, derived.trans ?_⟩
        have exposed := (readSymbols_drop read).2
        have back :=
          (Grammar.derives_right found).inContext before (spelled (shiftedTokens earlier))
        rw [reduced, readSymbols_cons, exposed, read]
        exact back

/-! ## Where no action is found -/

/-- No word goes on with a terminal that a run over its beginning finds no action on. -/
theorem not_generates_of_noAction {stack : List (Nat × Symbol)} {shared unread more : List Nat}
    {s t : Nat} (reached : Reaches g (a.table g) (initial (shared ++ unread)) ⟨stack, unread⟩)
    (acts : action? g (a.table g) ⟨stack, unread⟩ = some (.error (.noAction s t)))
    (front : unread.headD endMarker = more.headD endMarker) : ¬ g.Generates (shared ++ more) := by
  intro generated
  have same := reached.swap wellFormed canonical .nil front
  have stops := (action?_congr front).symm.trans acts
  rcases generated.runs wellFormed canonical with ⟨later, there, kind, conflict⟩ |
    ⟨later, there, accepts⟩
  · exact absurd (last_action_unique same stops rfl there conflict rfl) (by simp)
  · exact absurd (last_action_unique same stops rfl there accepts rfl) (by simp)

/-- A run that finds no action has shifted what no word begins with, followed by the terminal in
front. -/
theorem Traces.no_word_goes_on {index : Nat} {input : List Nat} {earlier : List Step} {last : Step}
    {s t : Nat} (traces : Traces g (a.table g) index (initial input) (earlier ++ [last]))
    (silent : last.action = .error (.noAction s t)) : last.configuration.lookahead = t ∧
      ∀ more, more.headD endMarker = t → ¬ g.Generates (shiftedTokens earlier ++ more) := by
  have path : a.Path (initial input).stack := .nil
  obtain ⟨reached, acts⟩ := traces.reaches
  obtain ⟨unread, -⟩ := traces.derives_shiftedTokens wellFormed canonical path
  have here := path.reaches wellFormed canonical reached
  rw [silent] at acts
  have front : last.configuration.lookahead = t := by
    cases here.turn_of_action? wellFormed canonical acts
    rfl
  have unread : input = shiftedTokens earlier ++ last.configuration.input := unread
  refine ⟨front, fun more starts => ?_⟩
  exact not_generates_of_noAction wellFormed canonical (unread ▸ reached) acts
    (front.trans starts.symm)

/-- A reduction is never followed by a configuration without an action. -/
theorem Traces.shift_before_noAction (unblocked : g.Unblocked) {index : Nat} {c : Configuration}
    {earlier : List Step} {before last : Step} {s t : Nat}
    (traces : Traces g (a.table g) index c (earlier ++ [before, last])) (path : a.Path c.stack)
    (silent : last.action = .error (.noAction s t)) : ∃ next, before.action = .shift next := by
  obtain ⟨reached, acts⟩ := traces.reaches
  have goes := traces.next_step
  have here := path.reaches wellFormed canonical reached
  cases shape : before.action with
  | shift next => exact ⟨next, rfl⟩
  | accept => rw [shape] at goes; cases goes
  | error rejection => rw [shape] at goes; cases goes
  | reduce p next =>
    rw [shape] at acts goes
    have stepped : before.configuration.Steps g (a.table g) last.configuration :=
      next?_eq_some.mpr ⟨_, acts, goes⟩
    have stops : last.configuration.action? g (a.table g) = some (.error (.noAction s t)) := by
      have split : earlier ++ [before, last] = (earlier ++ [before]) ++ [last] := by simp
      rw [← silent]
      exact (split ▸ traces).reaches.2
    obtain ⟨later, onward, settled⟩ :=
      here.settles_of_reduce wellFormed canonical unblocked acts
    exfalso
    rcases Relation.ReflTransGen.cases_head onward with rfl | ⟨following, first, after⟩
    · exact absurd (settled.action acts) (by simp)
    · obtain rfl := Option.some.inj (stepped.symm.trans first)
      rcases Relation.ReflTransGen.cases_head after with rfl | ⟨_, more, -⟩
      · exact absurd (settled.action stops) (by simp)
      · obtain ⟨action, moves, leaves⟩ := next?_eq_some.mp more
        obtain rfl := Option.some.inj (stops.symm.trans moves)
        cases leaves

end

end Configuration

namespace Analysis

/-- Over a productive grammar every run ends, what it has shifted always begins a word, and it
rejects for want of an action right after a shift, at the first token that no word goes on with. -/
theorem rejects_first_wrong_token {calls : List Call} {g : Grammar} {settings : Settings}
    {analysis : Analysis} {tokens : List String} {input : List Nat}
    (defined : Grammar.ofCalls calls = .ok g) (productive : g.Productive)
    (analyzed : g.analyze settings = .ok analysis) (tokenized : g.tokenize tokens = .ok input) :
    ∃ result : ParseResult,
      (∀ fuel, analysis.simulate g fuel tokens = .ok (some result) ↔
        result.steps.length ≤ fuel) ∧
      (∀ earlier step rest, result.steps = earlier ++ step :: rest →
        input = shiftedTokens earlier ++ step.configuration.input ∧
        ∃ more, g.Generates (shiftedTokens earlier ++ more)) ∧
      (∀ s t, result.error = some (.noAction s t) → ∃ earlier last,
        result.steps = earlier ++ [last] ∧ last.action = .error (.noAction s t) ∧
        last.configuration.lookahead = t ∧
        (∀ before, earlier.getLast? = some before → ∃ next, before.action = .shift next) ∧
        (t ≠ endMarker → ∀ more, ¬ g.Generates (shiftedTokens earlier ++ t :: more)) ∧
        (t = endMarker → ¬ g.Generates (shiftedTokens earlier))) := by
  have wellFormed := Grammar.wellFormed_ofCalls defined
  obtain ⟨canonical, table⟩ := Grammar.analyze_eq_ok analyzed
  have unblocked := productive.unblocked wellFormed
  have path : analysis.automaton.Path (initial input).stack := .nil
  obtain ⟨steps, traces⟩ :=
    (finishes_iff_traces 1).mp (path.finishes wellFormed canonical unblocked)
  have ends : analysis.table.EndsWith g input (ParseResult.ofSteps input steps) :=
    ⟨steps, table ▸ traces, rfl⟩
  refine ⟨_, Grammar.simulate_iff_of_endsWith ends tokenized, ?_, ?_⟩
  · intro earlier step rest split
    have split : steps = earlier ++ step :: rest := split
    subst split
    obtain ⟨unread, derived⟩ := traces.derives_shiftedTokens wellFormed canonical path
    have here := path.reaches wellFormed canonical traces.reaches.1
    obtain ⟨item, valid⟩ := here.exists_valid wellFormed canonical
    exact ⟨unread, valid.exists_generates wellFormed productive derived⟩
  · intro s t rejected
    obtain ⟨earlier, last, rfl⟩ := traces.exists_last
    rw [ParseResult.ofSteps_append] at rejected
    have silent : last.action = .error (.noAction s t) := StepAction.eq_of_rejection? rejected
    obtain ⟨front, beyond⟩ := traces.no_word_goes_on wellFormed canonical silent
    refine ⟨earlier, last, rfl, silent, front, ?_, ?_, ?_⟩
    · intro before latest
      obtain ⟨start, rfl⟩ := List.getLast?_eq_some_iff.mp latest
      rw [List.append_assoc] at traces
      exact traces.shift_before_noAction wellFormed canonical unblocked path silent
    · exact fun _ more => beyond (t :: more) rfl
    · intro done
      have word := beyond [] done.symm
      rwa [List.append_nil] at word

theorem no_parentheses_closed_twice : ¬ ∃ more,
    Grammar.parentheses.Generates (1 :: 2 :: 2 :: more) := by
  have seen : (Grammar.parentheses.analyze {}).toOption.map (fun analysis =>
      (analysis.simulate Grammar.parentheses 8 ["(", ")", ")"]).toOption.map fun ended =>
        ended.map fun result => (result.error, shiftedTokens result.steps)) =
      some (some (some (some (.noAction 6 2), [1, 2]))) := by decide +kernel
  obtain ⟨analysis, analyzed, seen⟩ := Grammar.exists_of_toOption seen
  obtain ⟨ended, simulated, seen⟩ := Grammar.exists_of_toOption seen
  obtain ⟨result, rfl, same⟩ := Option.map_eq_some_iff.mp seen
  obtain ⟨rejected, shifted⟩ := Prod.mk.inj same
  have tokenized : Grammar.parentheses.tokenize ["(", ")", ")"] = .ok [1, 2, 2] := by
    decide +kernel
  obtain ⟨other, simulates, -, rejects⟩ := rejects_first_wrong_token Grammar.ofCalls_parentheses
    Grammar.parentheses_productive analyzed tokenized
  obtain rfl := Grammar.simulate_unique simulated ((simulates _).mpr (Nat.le_refl _))
  obtain ⟨earlier, last, split, silent, -, -, beyond, -⟩ := rejects 6 2 rejected
  have read : shiftedTokens earlier = [1, 2] := by
    rw [← shifted, split]
    simp [shiftedTokens, silent]
  rintro ⟨more, generated⟩
  have never := beyond (by decide) more
  rw [read] at never
  exact never generated

end Analysis

end CanonicalLR
