import CanonicalLR.Proofs.Automaton.ViablePrefix
import Mathlib.Data.Nat.Find

/-!
# States are numbered breadth first

The transitions are listed by their sources, and those of one source in the order
of its symbols. A state that is not known yet gets the next number, so that the
numbers follow the distances from the initial state.
-/

namespace CanonicalLR

namespace Automaton

variable {g : Grammar} {a : Automaton}

/-! ## One symbol -/

theorem outgoing_addTransition (a : Automaton) (added : Transition) (s : Nat) :
    (a.addTransition added).outgoing s =
      if added.source = s then a.outgoing s ++ [added] else a.outgoing s := by
  unfold outgoing addTransition
  rw [Array.filter_push]
  simp only [beq_iff_eq]
  split
  · exact Array.toList_push
  · rfl

/-- `a` is left as it is or gets one more state, so that it has the state `target`. -/
structure Provides (a base : Automaton) (target : Nat) : Prop where
  precedes : a.Precedes base
  transitions : base.transitions = a.transitions
  size : target < a.states.size ∧ base.states.size = a.states.size ∨
    target = a.states.size ∧ base.states.size = a.states.size + 1

/-- A followed symbol adds a transition, to a state that is known or to the next one. -/
theorem exists_provides (rules : ClosureRules) (s : Nat) (items : ItemSet) (a : Automaton)
    (symbol : Symbol) : ∃ base target, a.Provides base target ∧
      followFreely rules s items a symbol = base.addTransition ⟨s, symbol, target⟩ := by
  rcases followFreely_cases rules s items a symbol with ⟨target, known, same⟩ | ⟨-, same⟩
  · obtain ⟨state, found, -⟩ := find?_eq_some known
    have inside := (Array.getElem?_eq_some_iff.mp found).1
    exact ⟨a, target, ⟨.refl a, rfl, .inl ⟨inside, rfl⟩⟩, same⟩
  · exact ⟨_, _, ⟨precedes_addState .., rfl, .inr ⟨rfl, Array.size_push ..⟩⟩, same⟩

/-- The first of all sources that lead to `t` or to a state that is numbered later leads to `t`. -/
def EnteredFrom (a : Automaton) (p t : Nat) : Prop :=
  (∃ symbol, ⟨p, symbol, t⟩ ∈ a.transitions) ∧
    ∀ transition ∈ a.transitions, t ≤ transition.target → p ≤ transition.source

theorem EnteredFrom.addTransition {p t : Nat} {added : Transition} (entered : a.EnteredFrom p t)
    (later : p ≤ added.source) : (a.addTransition added).EnteredFrom p t := by
  obtain ⟨⟨symbol, member⟩, first⟩ := entered
  refine ⟨⟨symbol, mem_addTransition.mpr (.inl member)⟩, fun transition among ahead => ?_⟩
  rcases mem_addTransition.mp among with old | rfl
  · exact first transition old ahead
  · exact later

theorem enteredFrom_addTransition {s t : Nat} (symbol : Symbol)
    (unknown : ∀ transition ∈ a.transitions, transition.target < t) :
    (a.addTransition ⟨s, symbol, t⟩).EnteredFrom s t := by
  refine ⟨⟨symbol, mem_addTransition.mpr (.inr rfl)⟩, fun transition among ahead => ?_⟩
  rcases mem_addTransition.mp among with old | rfl
  · exact absurd ahead (Nat.not_le_of_lt (unknown transition old))
  · exact Nat.le_refl s

namespace Provides

variable {base : Automaton} {target : Nat} (provides : a.Provides base target)
include provides

theorem outgoing (r : Nat) : base.outgoing r = a.outgoing r := by
  rw [Automaton.outgoing, provides.transitions]
  rfl

theorem enteredFrom_iff {p t : Nat} : base.EnteredFrom p t ↔ a.EnteredFrom p t := by
  rw [EnteredFrom, EnteredFrom, provides.transitions]

theorem state?_of_lt {r : Nat} (inside : r < a.states.size) : base.state? r = a.state? r := by
  have found : a.state? r = some a.states[r] := Array.getElem?_eq_getElem inside
  rw [found, provides.precedes.state? found]

theorem toList_transitions (s : Nat) (symbol : Symbol) :
    (base.addTransition ⟨s, symbol, target⟩).transitions.toList =
      a.transitions.toList ++ [⟨s, symbol, target⟩] := by
  rw [Automaton.addTransition, Array.toList_push, provides.transitions]

theorem numbered {targets : List Nat} (numbered : targets.eraseDups = List.range a.states.size) :
    (targets ++ [target]).eraseDups = List.range base.states.size := by
  have known : target ∈ targets ↔ target < a.states.size := by
    rw [← List.mem_eraseDups, numbered, List.mem_range]
  rw [eraseDups_concat, numbered]
  rcases provides.size with ⟨seen, size⟩ | ⟨rfl, size⟩
  · rw [if_pos (known.mpr seen), size]
  · rw [if_neg (mt known.mp (Nat.lt_irrefl _)), size, List.range_succ]

end Provides

/-! ## Whole constructions -/

theorem Explored.outgoing_succ {s : Nat} {done : List Symbol} (explored : a.Explored g s done) :
    a.outgoing (s + 1) = [] := by
  refine List.eq_nil_iff_forall_not_mem.mpr fun transition member => ?_
  obtain ⟨among, source⟩ := mem_outgoing.mp member
  rcases explored.behind transition among with before | ⟨same, -⟩
  · omega
  · omega

/-- The order in the middle of a construction, which has followed all symbols of the states before
`s` and some symbols of state `s`. -/
structure BreadthFirst (g : Grammar) (s : Nat) (done : List Symbol) (a : Automaton) : Prop where
  explored : a.Explored g s done
  sorted : a.transitions.toList.Pairwise fun first second => first.source ≤ second.source
  before : ∀ r < s, ∀ state, a.state? r = some state →
    (a.outgoing r).map Transition.symbol = state.items.symbolsAfterDot g
  here : (a.outgoing s).map Transition.symbol = done
  numbered : (initialState :: a.transitions.toList.map Transition.target).eraseDups =
    List.range a.states.size
  entered : ∀ t, initialState < t → t < a.states.size → ∃ p, a.EnteredFrom p t

namespace BreadthFirst

variable {base : Automaton} {s target : Nat} {done : List Symbol}

theorem source_le (ordered : a.BreadthFirst g s done) {transition : Transition}
    (member : transition ∈ a.transitions) : transition.source ≤ s := by
  rcases ordered.explored.behind transition member with before | ⟨same, -⟩
  · exact Nat.le_of_lt before
  · exact Nat.le_of_eq same

/-- A state that is new is entered from `s`, all others from where they were. -/
theorem exists_enteredFrom (ordered : a.BreadthFirst g s done) (provides : a.Provides base target)
    (symbol : Symbol) {t : Nat} (positive : initialState < t) (inside : t < base.states.size) :
    ∃ p, (base.addTransition ⟨s, symbol, target⟩).EnteredFrom p t := by
  rcases Nat.lt_or_ge t a.states.size with old | new
  · obtain ⟨p, entered⟩ := ordered.entered t positive old
    obtain ⟨_, member⟩ := entered.1
    exact ⟨p, (provides.enteredFrom_iff.mpr entered).addTransition (ordered.source_le member)⟩
  · obtain rfl : t = target := by
      have size := provides.size
      omega
    have unknown : ∀ transition ∈ base.transitions, transition.target < t := by
      rw [provides.transitions]
      intro transition member
      exact Nat.lt_of_lt_of_le (ordered.explored.inside transition member).2 new
    exact ⟨s, enteredFrom_addTransition symbol unknown⟩

theorem record (ordered : a.BreadthFirst g s done) (provides : a.Provides base target)
    {symbol : Symbol} (inside : s < a.states.size)
    (explored : (base.addTransition ⟨s, symbol, target⟩).Explored g s (done ++ [symbol])) :
    (base.addTransition ⟨s, symbol, target⟩).BreadthFirst g s (done ++ [symbol]) where
  explored := explored
  sorted := by
    rw [provides.toList_transitions, List.pairwise_append]
    refine ⟨ordered.sorted, List.pairwise_singleton .., fun transition member last new => ?_⟩
    obtain rfl := List.mem_singleton.mp new
    exact ordered.source_le (Array.mem_toList_iff.mp member)
  before := by
    intro r below state found
    have known : a.state? r = some state :=
      (provides.state?_of_lt (Nat.lt_trans below inside)).symm.trans found
    rw [outgoing_addTransition, if_neg (Nat.ne_of_gt below), provides.outgoing]
    exact ordered.before r below state known
  here := by
    rw [outgoing_addTransition, if_pos rfl, provides.outgoing, List.map_append, ordered.here]
    rfl
  numbered := by
    rw [provides.toList_transitions, List.map_append, ← List.cons_append]
    exact provides.numbered ordered.numbered
  entered := fun _ positive below => ordered.exists_enteredFrom provides symbol positive below

theorem follow {source : State} {rest : List Symbol} {symbol : Symbol}
    (ordered : a.BreadthFirst g s done) (found : a.state? s = some source)
    (split : source.items.symbolsAfterDot g = done ++ symbol :: rest) :
    (followFreely (.ofGrammar g g.firstSets) s source.items a symbol).BreadthFirst g s
      (done ++ [symbol]) := by
  have explored := ordered.explored.follow found split
  obtain ⟨base, target, provides, same⟩ :=
    exists_provides (.ofGrammar g g.firstSets) s source.items a symbol
  rw [same] at explored ⊢
  exact ordered.record provides (Array.getElem?_eq_some_iff.mp found).1 explored

/-- A state is left behind when all its symbols have been followed, if there is such a state. -/
theorem next (ordered : a.BreadthFirst g s done)
    (all : ∀ state, a.state? s = some state → done = state.items.symbolsAfterDot g) :
    a.BreadthFirst g (s + 1) [] where
  explored := ordered.explored.next
  sorted := ordered.sorted
  before := by
    intro r below state found
    rcases Nat.lt_succ_iff_lt_or_eq.mp below with earlier | rfl
    · exact ordered.before r earlier state found
    · rw [ordered.here, all state found]
  here := by rw [ordered.explored.outgoing_succ, List.map_nil]
  numbered := ordered.numbered
  entered := ordered.entered

end BreadthFirst

/-- However many states have been visited, they were visited breadth first. -/
theorem breadthFirst_grown (g : Grammar) (n : Nat) :
    (grown (.ofGrammar g g.firstSets) n).BreadthFirst g n [] := by
  refine grown_induction (fun s done a => a.BreadthFirst g s done)
    (fun ordered found split => ordered.follow found split) ?_ ?_ ?_ n
  · intro s source a ordered found
    refine ordered.next fun state same => ?_
    rw [← Option.some.inj (found.symm.trans same)]
    rfl
  · intro s a ordered visited
    refine ordered.next fun state found => ?_
    exact absurd (Array.getElem?_eq_some_iff.mp found).1 (Nat.not_lt_of_le visited)
  · refine ⟨explored_grown g 0, .nil, fun r below => absurd below (Nat.not_lt_zero r), rfl, rfl, ?_⟩
    intro t positive below
    exact absurd positive (Nat.not_lt_of_le (Nat.le_of_lt_succ below))

/-! ## Distances -/

/-- The least number of transitions that lead from the initial state to `s`. -/
def Distance (a : Automaton) (s count : Nat) : Prop :=
  (∃ stack, a.Path stack ∧ Configuration.topState stack = s ∧ stack.length = count) ∧
    ∀ stack, a.Path stack → Configuration.topState stack = s → count ≤ stack.length

theorem Path.exists_distance {stack : List (Nat × Symbol)} (path : a.Path stack) :
    ∃ count, a.Distance (Configuration.topState stack) count := by
  classical
  have reached : ∃ count other, a.Path other ∧
      Configuration.topState other = Configuration.topState stack ∧ other.length = count :=
    ⟨_, stack, path, rfl, rfl⟩
  exact ⟨Nat.find reached, Nat.find_spec reached, fun other otherPath same =>
    Nat.find_min' reached ⟨other, otherPath, same, rfl⟩⟩

/-- A path is no shorter than some path to any state that is numbered earlier. -/
theorem BreadthFirst.exists_path_le {s i : Nat} {done : List Symbol}
    (ordered : a.BreadthFirst g s done) {stack : List (Nat × Symbol)} (path : a.Path stack)
    (earlier : i ≤ Configuration.topState stack) : ∃ other, a.Path other ∧
      Configuration.topState other = i ∧ other.length ≤ stack.length := by
  have once := origins_nodup ordered.explored.reached.sound.once
  induction path generalizing i with
  | nil =>
    obtain rfl := Nat.le_zero.mp earlier
    exact ⟨[], .nil, rfl, Nat.le_refl _⟩
  | @cons t symbol stack step below ih =>
    rcases Nat.eq_zero_or_pos i with rfl | positive
    · exact ⟨[], .nil, rfl, Nat.zero_le _⟩
    · have last := mem_of_transition? step
      have inside : i < a.states.size :=
        Nat.lt_of_le_of_lt earlier (ordered.explored.inside _ last).2
      -- The source that `i` is entered from is numbered no later than the last source of the path.
      obtain ⟨p, ⟨label, member⟩, first⟩ := ordered.entered i positive inside
      obtain ⟨other, otherPath, rfl, fewer⟩ := ih (first _ last earlier)
      exact ⟨(i, label) :: other, .cons ((transition?_eq_some_iff once).mpr member) otherPath, rfl,
        Nat.succ_le_succ fewer⟩

/-- The transitions are listed by their sources and, for one source, in the order of its symbols;
they lead to the states in the order of their numbers, as far as each is led to for the first time;
and no state is nearer to the initial state than one that is numbered earlier. -/
theorem numbered_breadth_first {limits : Limits}
    (built : g.automaton g.firstSets limits = .ok a) :
    (a.transitions.toList.Pairwise fun first second => first.source ≤ second.source) ∧
    (∀ s state, a.state? s = some state →
      (a.outgoing s).map Transition.symbol = state.items.symbolsAfterDot g) ∧
    (initialState :: a.transitions.toList.map Transition.target).eraseDups =
      List.range a.states.size ∧
    ∀ i j, i < j → j < a.states.size →
      ∃ near far, a.Distance i near ∧ a.Distance j far ∧ near ≤ far := by
  obtain ⟨enough, all⟩ := (settled_of_collect built).1
  have ordered := breadthFirst_grown g (max enough a.states.size)
  rw [all _ (Nat.le_max_left ..)] at ordered
  refine ⟨ordered.sorted, fun s state found => ?_, ordered.numbered, fun i j earlier inside => ?_⟩
  · have below := (Array.getElem?_eq_some_iff.mp found).1
    exact ordered.before s (Nat.lt_of_lt_of_le below (Nat.le_max_right ..)) state found
  · have found : a.state? j = some a.states[j] := Array.getElem?_eq_getElem inside
    obtain ⟨stack, path, rfl⟩ := exists_path_of_state? built found
    obtain ⟨far, ⟨shortest, shortestPath, same, rfl⟩, least⟩ := path.exists_distance
    obtain ⟨other, otherPath, rfl, fewer⟩ :=
      ordered.exists_path_le shortestPath (same ▸ Nat.le_of_lt earlier)
    obtain ⟨near, nearest⟩ := otherPath.exists_distance
    exact ⟨near, _, nearest, ⟨⟨shortest, shortestPath, same, rfl⟩, least⟩,
      Nat.le_trans (nearest.2 other otherPath rfl) fewer⟩

end Automaton

namespace Grammar

theorem doubled_numbered : ∃ a, doubled.automaton doubled.firstSets {} = .ok a ∧
    (initialState :: a.transitions.toList.map Transition.target).eraseDups = List.range 10 ∧
    ∃ near far, a.Distance 4 near ∧ a.Distance 9 far ∧ near ≤ far := by
  have size : (doubled.automaton doubled.firstSets {}).toOption.map (fun a => a.states.size) =
      some 10 := by decide +kernel
  obtain ⟨a, built, states⟩ := exists_of_toOption size
  obtain ⟨-, -, numbered, distances⟩ := Automaton.numbered_breadth_first built
  rw [states] at numbered
  exact ⟨a, built, numbered, distances 4 9 (by decide) (by omega)⟩

end Grammar

end CanonicalLR
