import CanonicalLR.Proofs.Automaton.Maps
import CanonicalLR.Proofs.Lookups.Stock

/-!
# Look-ups in the construction of the automaton

The construction keeps the states that have not been visited in a list and looks
each of them up, once for the symbols after its dots and again for every one of
them. Goto targets are looked up in a map of the states, and each transition is
put into another map when it is listed. All look-ups succeed, and both maps agree
with the lists, whatever the limits are, and whether or not one of them is
exceeded.
-/

namespace CanonicalLR

/-- What a limit leaves of a construction: the automaton with the map of its transitions. -/
abbrev Stopped := Halted × Std.HashMap (Nat × Symbol) Nat

/-- An automaton under construction, the maps of its transitions and of its states, and its states
that have not been visited. -/
structure Builder where
  automaton : Automaton
  edges : Std.HashMap (Nat × Symbol) Nat
  lookup : Std.HashMap ItemSet Nat
  pending : List Nat

namespace Builder

def empty : Builder :=
  ⟨.empty, ∅, ∅, []⟩

def addState (limits : Limits) (b : Builder) (state : State) : Except Stopped (Nat × Builder) :=
  let s := b.automaton.states.size
  match b.automaton.enter limits state with
  | .ok a => .ok (s, { b with
      automaton := a, lookup := b.lookup.insert state.items s, pending := b.pending ++ [s] })
  | .error halted => .error (halted, b.edges)

def addTransition (b : Builder) (transition : Transition) : Builder :=
  { b with
    automaton := b.automaton.addTransition transition
    edges := b.edges.insert (transition.source, transition.symbol) transition.target }

/-- Record a transition, and enter the state that it leads to if there is none with its items. -/
def record (limits : Limits) (b : Builder) (source : Nat) (symbol : Symbol) (state : State) :
    Except Stopped Builder :=
  match b.lookup[state.items]? with
  | some target => .ok (b.addTransition ⟨source, symbol, target⟩)
  | none => (b.addState limits state).map fun entered =>
      entered.2.addTransition ⟨source, symbol, entered.1⟩

def follow? (g : Grammar) (first : FirstSets) (limits : Limits) (source : Nat) (b : Builder)
    (symbol : Symbol) : ExceptT Stopped Option Builder := do
  let state ← b.automaton.state? source
  let kernel ← state.items.gotoKernel? g symbol
  if kernel.isEmpty then return b
  else
    let goto ← g.closure? first kernel.toList
    ExceptT.mk (some (b.record limits source symbol ⟨kernel, goto, some symbol⟩))

def visit? (g : Grammar) (first : FirstSets) (limits : Limits) (b : Builder) (source : Nat) :
    ExceptT Stopped Option Builder := do
  let state ← b.automaton.state? source
  let symbols ← state.items.symbolsAfterDot? g
  symbols.foldlM (follow? g first limits source) b

/-- Visit the states that wait, at most `fuel` of them. -/
def explore? (g : Grammar) (first : FirstSets) (limits : Limits) :
    Nat → Builder → ExceptT Stopped Option Builder
  | _, ⟨a, edges, lookup, []⟩ => return ⟨a, edges, lookup, []⟩
  | 0, ⟨_, _, _, _ :: _⟩ => ExceptT.mk none
  | fuel + 1, ⟨a, edges, lookup, source :: pending⟩ => do
      let b ← visit? g first limits ⟨a, edges, lookup, pending⟩ source
      explore? g first limits fuel b

end Builder

namespace Grammar

def build? (g : Grammar) (first : FirstSets) (limits : Limits) :
    ExceptT Stopped Option Builder := do
  let goto ← g.closure? first [.start]
  let start ← ExceptT.mk (some (Builder.empty.addState limits ⟨.ofList [.start], goto, none⟩))
  Builder.explore? g first limits limits.states start.2

/-- What is built, without the maps. -/
def automaton? (g : Grammar) (first : FirstSets) (limits : Limits) :
    ExceptT Halted Option Automaton :=
  ExceptT.mk ((g.build? first limits).run.map fun built =>
    (built.mapError Prod.fst).map Builder.automaton)

end Grammar

/-! ## Steps that may end a construction -/

section

variable {ε δ α β γ : Type}

theorem lift_bind_of_eq_some {value? : Option α} {value : α} (found : value? = some value)
    (next : α → ExceptT ε Option β) :
    ((liftM value? : ExceptT ε Option α) >>= next).run = (next value).run := by
  subst found
  rfl

/-- Where every step has a result, seen in another form, and the next step can go on from what it
leads to, so has the fold. -/
theorem foldlM_run_eq_some {step? : γ → α → ExceptT δ Option γ} {step : β → α → Except ε β}
    {view : β → γ} {cause : ε → δ} {inside : β → Prop} {items : List α}
    (kept : ∀ item ∈ items, ∀ value, inside value →
      (step? (view value) item).run = some (((step value item).mapError cause).map view) ∧
        ∀ next, step value item = .ok next → inside next)
    {value : β} (initial : inside value) :
    (items.foldlM step? (view value)).run =
        some (((items.foldlM step value).mapError cause).map view) ∧
      ∀ last, items.foldlM step value = .ok last → inside last := by
  induction items generalizing value with
  | nil => exact ⟨rfl, fun last same => Except.ok.inj same ▸ initial⟩
  | cons head tail ih =>
    obtain ⟨found, next⟩ := kept head List.mem_cons_self value initial
    rw [List.foldlM_cons, List.foldlM_cons, ExceptT.run_bind, found]
    cases stepped : step value head with
    | error cause => exact ⟨rfl, fun last none => nomatch none⟩
    | ok later =>
      exact ih (fun item listed => kept item (List.mem_cons_of_mem _ listed)) (next later stepped)

end

theorem ItemSet.isEmpty_gotoKernel {g : Grammar} {items : ItemSet} {symbol : Symbol}
    (after : symbol ∈ items.symbolsAfterDot g) : (items.gotoKernel g symbol).isEmpty = false := by
  obtain ⟨item, member, next⟩ := mem_symbolsAfterDot.mp after
  have moved : item.advance ∈ items.gotoKernel g symbol :=
    mem_gotoKernel.mpr ⟨item, member, next, rfl⟩
  exact List.isEmpty_eq_false_iff.mpr (List.ne_nil_of_mem moved)

/-! ## The construction -/

namespace Builder

open Automaton Grammar

variable {g : Grammar} {limits : Limits} {a : Automaton}

/-- The builder that has visited the states before `s`. -/
def visited (s : Nat) (a : Automaton) : Builder :=
  ⟨a, a.edges, a.lookup, List.range' s (a.states.size - s)⟩

/-- The builder in which no state waits any more. -/
def built (a : Automaton) : Builder :=
  ⟨a, a.edges, a.lookup, []⟩

def stopped (halted : Halted) : Stopped :=
  (halted, halted.automaton.edges)

theorem visited_of_size_le {s : Nat} (beyond : a.states.size ≤ s) : visited s a = built a := by
  rw [visited, Nat.sub_eq_zero_of_le beyond, List.range'_zero, built]

theorem visited_of_lt {s : Nat} (inside : s < a.states.size) :
    visited s a = ⟨a, a.edges, a.lookup, s :: (visited (s + 1) a).pending⟩ := by
  have more : a.states.size - s = a.states.size - (s + 1) + 1 := by omega
  rw [visited, more, List.range'_succ]
  rfl

theorem addTransition_visited (s : Nat) (transition : Transition) :
    (visited s a).addTransition transition = visited s (a.addTransition transition) := by
  rw [addTransition, visited, visited, edges_addTransition]
  rfl

/-- A state that is added waits behind all others. -/
theorem visited_addState {s : Nat} (inside : s ≤ a.states.size) (state : State) :
    visited s (a.addState state) = ⟨a.addState state, a.edges,
      a.lookup.insert state.items a.states.size, (visited s a).pending ++ [a.states.size]⟩ := by
  have more : (a.addState state).states.size - s = a.states.size - s + 1 := by
    rw [Automaton.addState, Array.size_push]
    omega
  have last : s + (a.states.size - s) = a.states.size := by omega
  rw [visited, visited, more, List.range'_1_concat, last, lookup_addState]
  rfl

theorem addState_visited {s : Nat} (inside : s ≤ a.states.size) (state : State) :
    (visited s a).addState limits state =
      ((a.enter limits state).mapError stopped).map fun later =>
        (a.states.size, visited s later) := by
  unfold addState
  dsimp only [visited]
  cases entered : a.enter limits state with
  | error halted =>
    rw [← automaton_of_enter entered]
    rfl
  | ok later =>
    obtain ⟨-, -, -, rfl⟩ := enter_eq_ok entered
    exact congrArg (fun b => Except.ok (a.states.size, b)) (visited_addState inside state).symm

theorem record_visited {s : Nat} (inside : s ≤ a.states.size)
    (distinct : a.itemGraph.found.Nodup) (source : Nat) (items : ItemSet) (symbol : Symbol) :
    (visited s a).record limits source symbol ⟨items.gotoKernel g symbol,
        items.goto g g.firstSets symbol, some symbol⟩ =
      ((follow (.ofGrammar g g.firstSets) limits source items a symbol).mapError stopped).map
        (visited s) := by
  let state : State := ⟨items.gotoKernel g symbol, items.goto g g.firstSets symbol, some symbol⟩
  have looked : (visited s a).lookup[state.items]? = a.find? state.items :=
    getElem?_lookup distinct state.items
  unfold record
  rw [looked, addState_visited inside]
  cases known : a.find? state.items with
  | some target =>
    rw [follow_of_known (a := a) known]
    exact congrArg Except.ok (addTransition_visited s ⟨source, symbol, target⟩)
  | none =>
    rw [follow_of_unknown (a := a) known]
    change Except.map _ (Except.map _ ((a.enter limits state).mapError stopped)) =
      Except.map _ (Except.mapError stopped ((a.enter limits state).map _))
    cases a.enter limits state with
    | error halted => rfl
    | ok later =>
      exact congrArg Except.ok (addTransition_visited s ⟨source, symbol, a.states.size⟩)

/-- What a visit relies on, and what it keeps. -/
structure Ready (g : Grammar) (limits : Limits) (a : Automaton) : Prop where
  stocked : a.Stocked g
  fits : a.Fits limits
  distinct : a.itemGraph.found.Nodup

section

variable (wellFormed : g.WellFormed)
include wellFormed

theorem ready_start (entered : Automaton.empty.enter limits
      ⟨ItemSet.ofList [.start], closure g g.firstSets [.start], none⟩ = .ok a) :
    Ready g limits a := by
  have fits := (fits_empty limits).enter entered
  obtain ⟨-, -, -, rfl⟩ := enter_eq_ok entered
  have distinct : Automaton.empty.itemGraph.found.Nodup := List.nodup_nil
  have unknown : Automaton.empty.find? (closure g g.firstSets [.start]) = none :=
    find?_eq_none.mpr List.not_mem_nil
  exact ⟨(stocked_empty g).addState (stocked_start wellFormed), fits,
    nodup_found_addState distinct unknown⟩

theorem Ready.follow (ready : Ready g limits a) {s : Nat} {state : State}
    (found : a.state? s = some state) {symbol : Symbol}
    (after : symbol ∈ state.items.symbolsAfterDot g) {next : Automaton}
    (followed : Automaton.follow (.ofGrammar g g.firstSets) limits s state.items a symbol =
      .ok next) : Ready g limits next ∧ next.state? s = some state := by
  have all := (ready.stocked.state found).items
  have outcome := follow_outcome (.ofGrammar g g.firstSets) ready.fits
    (Array.getElem?_eq_some_iff.mp found).1 state.items symbol
  rw [followed] at outcome
  cases outcome with
  | whole fits =>
    exact ⟨⟨ready.stocked.followFreely wellFormed all after, fits,
      nodup_found_followFreely ready.distinct ..⟩, (precedes_followFreely ..).state? found⟩

theorem follow?_visited (ready : Ready g limits a) {s : Nat} {state : State}
    (found : a.state? s = some state) {symbol : Symbol}
    (after : symbol ∈ state.items.symbolsAfterDot g) :
    (follow? g g.firstSets limits s (visited (s + 1) a) symbol).run =
      some (((follow (.ofGrammar g g.firstSets) limits s state.items a symbol).mapError
        stopped).map (visited (s + 1))) := by
  have all := (ready.stocked.state found).items
  have inside : s + 1 ≤ a.states.size := (Array.getElem?_eq_some_iff.mp found).1
  have looked : (visited (s + 1) a).automaton.state? s = some state := found
  have inhabited : ¬ (state.items.gotoKernel g symbol).isEmpty = true :=
    Bool.eq_false_iff.mp (ItemSet.isEmpty_gotoKernel after)
  unfold follow?
  rw [lift_bind_of_eq_some looked,
    lift_bind_of_eq_some (ItemSet.gotoKernel?_eq_some all wellFormed symbol), if_neg inhabited,
    lift_bind_of_eq_some (Grammar.closure?_eq_some wellFormed (hasItem_gotoKernel all symbol))]
  exact congrArg some (record_visited inside ready.distinct s state.items symbol)

theorem visit?_visited (ready : Ready g limits a) {s : Nat} {state : State}
    (found : a.state? s = some state) :
    (visit? g g.firstSets limits (visited (s + 1) a) s).run =
        some (((visit (.ofGrammar g g.firstSets) limits a s state.items).mapError stopped).map
          (visited (s + 1))) ∧
      ∀ later, visit (.ofGrammar g g.firstSets) limits a s state.items = .ok later →
        Ready g limits later := by
  -- The source is looked up again for every symbol, in an automaton that has grown.
  let inside (a : Automaton) : Prop := Ready g limits a ∧ a.state? s = some state
  have all := (ready.stocked.state found).items
  have looked : (visited (s + 1) a).automaton.state? s = some state := found
  have kept : ∀ symbol ∈ state.items.symbolsAfterDot g, ∀ a, inside a →
      (follow? g g.firstSets limits s (visited (s + 1) a) symbol).run =
          some (((follow (.ofGrammar g g.firstSets) limits s state.items a symbol).mapError
            stopped).map (visited (s + 1))) ∧
        ∀ next, follow (.ofGrammar g g.firstSets) limits s state.items a symbol = .ok next →
          inside next := by
    rintro symbol after a ⟨ready, found⟩
    exact ⟨follow?_visited wellFormed ready found after,
      fun next followed => ready.follow wellFormed found after followed⟩
  obtain ⟨folded, last⟩ := foldlM_run_eq_some kept ⟨ready, found⟩
  unfold visit?
  rw [lift_bind_of_eq_some looked, lift_bind_of_eq_some (ItemSet.symbolsAfterDot?_eq_some all)]
  exact ⟨folded, fun later visited => (last later visited).1⟩

theorem explore?_visited (ready : Ready g limits a) {fuel s : Nat}
    (enough : limits.states ≤ s + fuel) :
    (explore? g g.firstSets limits fuel (visited s a)).run =
      some (((explore (.ofGrammar g g.firstSets) limits fuel s a).mapError stopped).map built) := by
  induction fuel generalizing s a with
  | zero =>
    -- No more states have been entered than the limit lets in, and as many have been visited.
    have beyond : a.states.size ≤ s := Nat.le_trans ready.fits.states enough
    rw [visited_of_size_le beyond]
    rfl
  | succ fuel ih =>
    unfold explore
    cases found : a.states[s]? with
    | none =>
      rw [visited_of_size_le (Array.getElem?_eq_none_iff.mp found)]
      rfl
    | some state =>
      dsimp only
      have inside := (Array.getElem?_eq_some_iff.mp found).1
      obtain ⟨first, kept⟩ := visit?_visited wellFormed ready found
      have unfolded : explore? g g.firstSets limits (fuel + 1) (visited s a) =
          (visit? g g.firstSets limits (visited (s + 1) a) s >>=
            explore? g g.firstSets limits fuel) := by
        rw [visited_of_lt inside]
        rfl
      rw [unfolded, ExceptT.run_bind, first]
      cases stepped : visit (.ofGrammar g g.firstSets) limits a s state.items with
      | error halted => rfl
      | ok later =>
        have remaining : limits.states ≤ s + 1 + fuel := by omega
        exact ih (kept later stepped) remaining

end

end Builder

namespace Grammar

section

variable {g : Grammar} (wellFormed : g.WellFormed) (limits : Limits)
include wellFormed

/-- The automaton of a well-formed grammar is built, or refused, without a look-up that misses. -/
theorem build?_eq_some : (g.build? g.firstSets limits).run =
    some (((g.automaton g.firstSets limits).mapError Builder.stopped).map Builder.built) := by
  have all : ∀ item ∈ [Item.start], g.HasItem item := fun item listed =>
    List.mem_singleton.mp listed ▸ hasItem_start wellFormed
  let start : State := ⟨ItemSet.ofList [.start], closure g g.firstSets [.start], none⟩
  have collected : g.automaton g.firstSets limits = (Automaton.empty.enter limits start).bind
      (Automaton.explore (.ofGrammar g g.firstSets) limits limits.states initialState) :=
    Automaton.collect_eq_bind ..
  have first : Builder.empty.addState limits start =
      ((Automaton.empty.enter limits start).mapError Builder.stopped).map fun later =>
        (initialState, Builder.visited initialState later) :=
    Builder.addState_visited (Nat.le_refl _) start
  unfold build?
  rw [lift_bind_of_eq_some (closure?_eq_some wellFormed all), ExceptT.run_bind, collected, first]
  cases entered : Automaton.empty.enter limits start with
  | error halted => rfl
  | ok a =>
    exact Builder.explore?_visited wellFormed (Builder.ready_start wellFormed entered)
      (Nat.le_add_left ..)

theorem automaton?_eq_some :
    (g.automaton? g.firstSets limits).run = some (g.automaton g.firstSets limits) := by
  show (g.build? g.firstSets limits).run.map _ = _
  rw [build?_eq_some wellFormed limits]
  cases g.automaton g.firstSets limits <;> rfl

/-- The maps of what is built agree with its lists. -/
theorem build?_agrees {b : Builder} (built : (g.build? g.firstSets limits).run = some (.ok b)) :
    (∀ s symbol, b.edges[(s, symbol)]? = b.automaton.transition? s symbol) ∧
      (∀ items, b.lookup[items]? = b.automaton.find? items) ∧ b.pending = [] := by
  rw [build?_eq_some wellFormed limits] at built
  cases collected : g.automaton g.firstSets limits with
  | error halted =>
    rw [collected] at built
    cases built
  | ok a =>
    rw [collected] at built
    cases built
    have sound := (Automaton.reached_of_collect collected).sound
    exact ⟨Automaton.getElem?_edges (Automaton.origins_nodup sound.once),
      Automaton.getElem?_lookup sound.nodup, rfl⟩

/-- The map of the transitions agrees with their list also where a limit has stopped the
construction. -/
theorem edges_agree_of_stopped {halted : Halted} {edges : Std.HashMap (Nat × Symbol) Nat}
    (stopped : (g.build? g.firstSets limits).run = some (.error (halted, edges))) :
    ∀ s symbol, edges[(s, symbol)]? = halted.automaton.transition? s symbol := by
  rw [build?_eq_some wellFormed limits] at stopped
  cases collected : g.automaton g.firstSets limits with
  | ok a =>
    rw [collected] at stopped
    cases stopped
  | error reason =>
    rw [collected] at stopped
    cases stopped
    have outcome := Automaton.collect_outcome_grown (.ofGrammar g g.firstSets) limits
    change Automaton.Outcome _ _ (g.automaton g.firstSets limits) at outcome
    rw [collected] at outcome
    cases outcome with
    | cut fits awaits refused =>
      rw [Automaton.automaton_of_enter refused]
      exact Automaton.getElem?_edges (Automaton.origins_nodup_of_precedes awaits.earlier)

end

end Grammar

end CanonicalLR
