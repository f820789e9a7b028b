import CanonicalLR.Proofs.Automaton.Collection
import CanonicalLR.Proofs.Automaton.Exploration

/-!
# The states number the collected item sets

The construction of the automaton is an exploration of the item sets, breadth
first and complete. So each collected item set has exactly one state, and each
goto between them exactly one transition.
-/

namespace CanonicalLR

namespace Automaton

variable {limits : Limits} {a : Automaton}

/-! ## The item sets of an automaton -/

/-- The items of a state; there are none where there is no state. -/
def itemsAt (a : Automaton) (s : Nat) : ItemSet :=
  ((a.state? s).map State.items).getD ∅

theorem itemsAt_of_state? {s : Nat} {state : State} (found : a.state? s = some state) :
    a.itemsAt s = state.items := by
  rw [itemsAt, found, Option.map_some, Option.getD_some]

/-- A transition between the item sets of its states. -/
def edge (a : Automaton) (transition : Transition) : Edge :=
  ⟨a.itemsAt transition.source, transition.symbol, a.itemsAt transition.target⟩

/-- An automaton without its numbers. -/
def itemGraph (a : Automaton) : Exploration :=
  ⟨a.states.toList.map State.items, a.transitions.toList.map a.edge⟩

theorem mem_found_itemGraph {set : ItemSet} :
    set ∈ a.itemGraph.found ↔ ∃ s state, a.state? s = some state ∧ state.items = set := by
  simp only [itemGraph, List.mem_map, Array.mem_toList_iff, Array.mem_iff_getElem?, state?]
  constructor
  · rintro ⟨state, ⟨s, found⟩, same⟩
    exact ⟨s, state, found, same⟩
  · rintro ⟨s, state, found, same⟩
    exact ⟨state, ⟨s, found⟩, same⟩

theorem find?_eq_none {items : ItemSet} :
    a.find? items = none ↔ items ∉ a.itemGraph.found := by
  rw [find?, Array.findIdx?_eq_none_iff]
  simp only [itemGraph, List.mem_map, Array.mem_toList_iff, not_exists, not_and,
    decide_eq_false_iff_not]

theorem eq_of_items (nodup : a.itemGraph.found.Nodup) {i j : Nat} {first second : State}
    (left : a.state? i = some first) (right : a.state? j = some second)
    (same : first.items = second.items) : i = j := by
  have listed {s : Nat} {state : State} (found : a.state? s = some state) :
      a.itemGraph.found[s]? = some state.items := by
    rw [itemGraph, List.getElem?_map, Array.getElem?_toList]
    exact congrArg (Option.map State.items) found
  obtain ⟨inside, -⟩ := List.getElem?_eq_some_iff.mp (listed left)
  apply (List.getElem?_inj inside nodup).mp
  rw [listed left, listed right, same]

/-- No two transitions lead from one state over one symbol. -/
theorem origins_nodup (once : (a.itemGraph.followed.map Edge.origin).Nodup) :
    (a.transitions.toList.map fun transition => (transition.source, transition.symbol)).Nodup := by
  rw [itemGraph, List.map_map] at once
  apply List.Nodup.of_map fun origin : Nat × Symbol => (a.itemsAt origin.1, origin.2)
  rwa [List.map_map]

/-- A look-up finds each transition where there are no two to choose from. -/
theorem transition?_eq_some_iff {s t : Nat} {symbol : Symbol}
    (once : (a.transitions.toList.map fun transition =>
      (transition.source, transition.symbol)).Nodup) :
    a.transition? s symbol = some t ↔ ⟨s, symbol, t⟩ ∈ a.transitions := by
  constructor
  · exact mem_of_transition?
  · intro recorded
    obtain ⟨other, step⟩ := exists_transition? recorded
    have same := List.inj_on_of_nodup_map once (Array.mem_toList_iff.mpr recorded)
      (Array.mem_toList_iff.mpr (mem_of_transition? step)) rfl
    rw [step, (Transition.mk.inj same).2.2]

/-! ## The construction is an exploration -/

/-- The transitions join states, and none of them leaves a symbol that is still to be followed. -/
structure Explored (g : Grammar) (s : Nat) (done : List Symbol) (a : Automaton) : Prop where
  reached : a.itemGraph.Reached g
  inside : ∀ transition ∈ a.transitions,
    transition.source < a.states.size ∧ transition.target < a.states.size
  behind : ∀ transition ∈ a.transitions,
    transition.source < s ∨ transition.source = s ∧ transition.symbol ∈ done

theorem itemsAt_addState {state : State} {s : Nat} (inside : s < a.states.size) :
    (a.addState state).itemsAt s = a.itemsAt s := by
  have found : a.state? s = some a.states[s] := Array.getElem?_eq_getElem inside
  rw [itemsAt_of_state? found, itemsAt_of_state? ((precedes_addState a state).state? found)]

theorem itemGraph_addTransition (transition : Transition) :
    (a.addTransition transition).itemGraph =
      ⟨a.itemGraph.found, a.itemGraph.followed ++ [a.edge transition]⟩ := by
  simp [itemGraph, addTransition, edge, itemsAt, state?]

theorem itemGraph_addState {g : Grammar} {s : Nat} {done : List Symbol}
    (explored : a.Explored g s done) (state : State) :
    (a.addState state).itemGraph = ⟨a.itemGraph.found ++ [state.items], a.itemGraph.followed⟩ := by
  have followed : a.transitions.toList.map (a.addState state).edge =
      a.transitions.toList.map a.edge := by
    apply List.map_congr_left
    intro transition member
    obtain ⟨source, target⟩ := explored.inside transition (Array.mem_toList_iff.mp member)
    rw [edge, edge, itemsAt_addState source, itemsAt_addState target]
  unfold itemGraph
  simp only [addState, Array.toList_push, List.map_append, List.map_singleton]
  exact congrArg _ followed

theorem Explored.fresh {g : Grammar} {s : Nat} {source : State} {done : List Symbol}
    {symbol : Symbol} (explored : a.Explored g s done) (found : a.state? s = some source)
    (undone : symbol ∉ done) :
    (source.items, symbol) ∉ a.itemGraph.followed.map Edge.origin := by
  intro member
  obtain ⟨_, listed, same⟩ := List.mem_map.mp member
  obtain ⟨transition, among, rfl⟩ := List.mem_map.mp listed
  have among := Array.mem_toList_iff.mp among
  obtain ⟨items, rfl⟩ := Prod.mk.inj same
  have inside : transition.source < a.states.size := (explored.inside transition among).1
  have other : a.state? transition.source = some a.states[transition.source] :=
    Array.getElem?_eq_getElem inside
  rw [edge, itemsAt_of_state? other] at items
  have here : transition.source = s := eq_of_items explored.reached.sound.nodup other found items
  rcases explored.behind transition among with before | ⟨-, among⟩
  · omega
  · exact undone among

section

variable {g : Grammar}

/-- A transition over the next symbol is recorded between states that there are. -/
theorem Explored.record {base : Automaton} {s target : Nat} {done : List Symbol} {symbol : Symbol}
    (explored : a.Explored g s done)
    (reached : (base.addTransition ⟨s, symbol, target⟩).itemGraph.Reached g)
    (same : base.transitions = a.transitions) (grown : a.states.size ≤ base.states.size)
    (here : s < base.states.size) (there : target < base.states.size) :
    (base.addTransition ⟨s, symbol, target⟩).Explored g s (done ++ [symbol]) := by
  refine ⟨reached, ?_, ?_⟩
  · intro transition member
    rcases mem_addTransition.mp member with old | rfl
    · obtain ⟨left, right⟩ := explored.inside transition (same ▸ old)
      exact ⟨Nat.lt_of_lt_of_le left grown, Nat.lt_of_lt_of_le right grown⟩
    · exact ⟨here, there⟩
  · intro transition member
    rcases mem_addTransition.mp member with old | rfl
    · rcases explored.behind transition (same ▸ old) with before | ⟨source, among⟩
      · exact .inl before
      · exact .inr ⟨source, List.mem_append_left _ among⟩
    · exact .inr ⟨rfl, List.mem_append_right _ (List.mem_singleton_self _)⟩

theorem Explored.follow {s : Nat} {source : State} {done rest : List Symbol} {symbol : Symbol}
    (explored : a.Explored g s done) (found : a.state? s = some source)
    (split : source.items.symbolsAfterDot g = done ++ symbol :: rest) :
    (followFreely (.ofGrammar g g.firstSets) s source.items a symbol).Explored g s
      (done ++ [symbol]) := by
  have undone : symbol ∉ done := by
    have once := ItemSet.symbolsAfterDot_nodup g source.items
    rw [split, List.nodup_append] at once
    exact fun member => once.2.2 symbol member symbol List.mem_cons_self rfl
  let goto : Edge := ⟨source.items, symbol, source.items.goto g g.firstSets symbol⟩
  have listed : goto.source ∈ a.itemGraph.found := mem_found_itemGraph.mpr ⟨s, source, found, rfl⟩
  have leads : goto.Leads g := ⟨by simp [goto, split], rfl⟩
  have fresh : goto.origin ∉ a.itemGraph.followed.map Edge.origin := explored.fresh found undone
  have here : s < a.states.size := (Array.getElem?_eq_some_iff.mp found).1
  rcases followFreely_cases (.ofGrammar g g.firstSets) s source.items a symbol with
    ⟨target, known, same⟩ | ⟨unknown, same⟩
  · rw [same]
    obtain ⟨state, targetFound, items⟩ := find?_eq_some known
    have joined : a.edge ⟨s, symbol, target⟩ = goto := by
      rw [edge, itemsAt_of_state? found, itemsAt_of_state? targetFound, items]
      rfl
    have seen : goto.target ∈ a.itemGraph.found :=
      mem_found_itemGraph.mpr ⟨target, state, targetFound, items⟩
    apply explored.record _ rfl (Nat.le_refl _) here (Array.getElem?_eq_some_iff.mp targetFound).1
    rw [itemGraph_addTransition, joined]
    exact explored.reached.tail (.known listed leads fresh seen)
  · rw [same]
    have unseen : goto.target ∉ a.itemGraph.found := find?_eq_none.mp unknown
    let state : State := ⟨source.items.gotoKernel g symbol, goto.target, some symbol⟩
    have joined : (a.addState state).edge ⟨s, symbol, a.states.size⟩ = goto := by
      rw [edge, itemsAt_addState here, itemsAt_of_state? found,
        itemsAt_of_state? (state?_addState_size a state)]
    have more : (a.addState state).states.size = a.states.size + 1 := Array.size_push ..
    show ((a.addState state).addTransition _).Explored g s (done ++ [symbol])
    refine explored.record ?_ rfl (by omega) (by omega) (by omega)
    rw [itemGraph_addTransition, joined, itemGraph_addState explored]
    exact explored.reached.tail (.new listed leads fresh unseen)

theorem Explored.next {s : Nat} {done : List Symbol} (explored : a.Explored g s done) :
    a.Explored g (s + 1) [] where
  reached := explored.reached
  inside := explored.inside
  behind := by
    intro transition member
    rcases explored.behind transition member with before | ⟨same, -⟩
    · exact .inl (Nat.lt_succ_of_lt before)
    · exact .inl (same ▸ Nat.lt_succ_self _)

/-- However many states have been visited, the construction is an exploration. -/
theorem explored_grown (g : Grammar) (n : Nat) :
    (grown (.ofGrammar g g.firstSets) n).Explored g n [] := by
  refine grown_induction (fun s done a => a.Explored g s done)
    (fun explored found split => explored.follow found split)
    (fun explored _ => explored.next) (fun explored _ => explored.next) ?_ n
  exact ⟨.refl, fun _ none => absurd none (Array.not_mem_empty _),
    fun _ none => absurd none (Array.not_mem_empty _)⟩

theorem Settled.reached (settled : a.Settled (.ofGrammar g g.firstSets)) :
    a.itemGraph.Reached g := by
  obtain ⟨enough, all⟩ := settled
  rw [← all enough (Nat.le_refl _)]
  exact (explored_grown g enough).reached

theorem reached_of_collect (collected : collect (.ofGrammar g g.firstSets) limits = .ok a) :
    a.itemGraph.Reached g :=
  (settled_of_collect collected).1.reached

theorem Canonical.complete_itemGraph (canonical : a.Canonical g) : a.itemGraph.Complete g := by
  have followed {edge : Edge} (listed : edge.source ∈ a.itemGraph.found) (leads : edge.Leads g) :
      edge.origin ∈ a.itemGraph.followed.map Edge.origin := by
    obtain ⟨s, state, found, same⟩ := mem_found_itemGraph.mp listed
    obtain ⟨item, member, next⟩ := ItemSet.mem_symbolsAfterDot.mp (same ▸ leads.1)
    obtain ⟨target, step⟩ := canonical.followed found member next
    have recorded := Array.mem_toList_iff.mpr (mem_of_transition? step)
    refine List.mem_map.mpr ⟨_, List.mem_map_of_mem recorded, ?_⟩
    rw [Edge.origin, Automaton.edge, itemsAt_of_state? found, same]
    rfl
  intro later step
  cases step with
  | known listed leads fresh _ => exact fresh (followed listed leads)
  | new listed leads fresh _ => exact fresh (followed listed leads)

/-- The automaton has one state for each collected item set and one transition for each goto
between them, as has every other exploration that follows all gotos. -/
theorem canonical_collection (built : g.automaton g.firstSets limits = .ok a) :
    (∀ i j first second, a.state? i = some first → a.state? j = some second →
      first.items = second.items → i = j) ∧
    (∀ set, (∃ s state, a.state? s = some state ∧ state.items = set) ↔ g.Collected set) ∧
    (∀ s state symbol, a.state? s = some state →
      ((∃ item ∈ state.items, item.next? g = some symbol) → ∃ t target,
        a.transition? s symbol = some t ∧ a.state? t = some target ∧
        target.items = state.items.goto g g.firstSets symbol) ∧
      ((¬ ∃ item ∈ state.items, item.next? g = some symbol) →
        a.transition? s symbol = none)) ∧
    ((a.transitions.toList.map fun transition => (transition.source, transition.symbol)).Nodup ∧
      ∀ s symbol t, ⟨s, symbol, t⟩ ∈ a.transitions ↔ a.transition? s symbol = some t) ∧
    (a.itemGraph.Reached g ∧ a.itemGraph.Complete g ∧ ∀ e : Exploration, e.Reached g →
      e.followed.length ≤ a.itemGraph.followed.length ∧
      (e.Complete g → e.found.Perm a.itemGraph.found ∧
        e.followed.Perm a.itemGraph.followed)) := by
  have canonical := canonical_of_collect built
  have explored := reached_of_collect built
  have sound := explored.sound
  have complete := canonical.complete_itemGraph
  refine ⟨?_, ?_, ?_, ⟨origins_nodup sound.once, ?_⟩, explored, complete, ?_⟩
  · exact fun i j first second left right => eq_of_items sound.nodup left right
  · intro set
    rw [← sound.mem_found_iff complete, mem_found_itemGraph]
  · intro s state symbol found
    constructor
    · rintro ⟨item, member, next⟩
      obtain ⟨t, step⟩ := canonical.followed found member next
      obtain ⟨source, target, sourceFound, targetFound, -, items⟩ := canonical.linked step
      obtain rfl := Option.some.inj (sourceFound.symm.trans found)
      exact ⟨t, target, step, targetFound, items⟩
    · intro silent
      cases step : a.transition? s symbol with
      | none => rfl
      | some t =>
        obtain ⟨source, -, sourceFound, -, asked, -⟩ := canonical.linked step
        obtain rfl := Option.some.inj (sourceFound.symm.trans found)
        exact absurd asked silent
  · exact fun s symbol t => (transition?_eq_some_iff (origins_nodup sound.once)).symm
  · intro e reached
    exact ⟨reached.sound.length_followed_le sound complete,
      fun finished => reached.sound.perm finished sound complete⟩

end

end Automaton

namespace Grammar

/-- `S -> C C`, `C -> c C` and `C -> d`. -/
def doubled : Grammar where
  terminals := #["$", "c", "d"]
  nonterminals := #["S'", "S", "C"]
  productions := #[⟨0, [.nonterminal 1]⟩, ⟨1, [.nonterminal 2, .nonterminal 2]⟩,
    ⟨2, [.terminal 1, .nonterminal 2]⟩, ⟨2, [.terminal 2]⟩]
  start := 1

theorem explorations_doubled : ∃ a, doubled.automaton doubled.firstSets {} = .ok a ∧
    ∀ e : Exploration, e.Reached doubled → e.Complete doubled →
      e.found.length = 10 ∧ e.followed.length = 13 := by
  have sizes : (doubled.automaton doubled.firstSets {}).toOption.map (fun a =>
      (a.states.toList.length, a.transitions.toList.length)) = some (10, 13) := by decide +kernel
  obtain ⟨a, built, seen⟩ := exists_of_toOption sizes
  obtain ⟨states, transitions⟩ := Prod.mk.inj seen
  obtain ⟨-, -, -, -, -, -, others⟩ := Automaton.canonical_collection built
  refine ⟨a, built, fun e reached finished => ?_⟩
  obtain ⟨found, followed⟩ := (others e reached).2 finished
  rw [found.length_eq, followed.length_eq, Automaton.itemGraph, List.length_map, List.length_map]
  exact ⟨states, transitions⟩

end Grammar

end CanonicalLR
