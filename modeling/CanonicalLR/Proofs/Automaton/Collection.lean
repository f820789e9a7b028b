import CanonicalLR.Proofs.Automaton.Unlimited

/-!
# The collection follows every symbol

The construction ends in an automaton that has a transition over each symbol
after a dot, and each transition leads to the goto of its source.
-/

namespace CanonicalLR

namespace Automaton

variable {rules : ClosureRules} {limits : Limits} {a later : Automaton}

/-! ## What a single symbol adds -/

/-- The target of a transition has the items that the closure of the moved dots has. -/
def Links (rules : ClosureRules) (a : Automaton) (transition : Transition) : Prop :=
  ∃ source target, a.state? transition.source = some source ∧
    a.state? transition.target = some target ∧
    transition.symbol ∈ source.items.symbolsAfterDot rules.grammar ∧
    target.items = rules.close (source.items.gotoKernel rules.grammar transition.symbol).toList

theorem Links.precedes {transition : Transition} (links : a.Links rules transition)
    (longer : a.Precedes later) : later.Links rules transition := by
  obtain ⟨source, target, sourceFound, targetFound, after, items⟩ := links
  exact ⟨source, target, longer.state? sourceFound, longer.state? targetFound, after, items⟩

/-- The transition over a symbol is the only one that following the symbol adds. -/
theorem exists_followed_transition {s : Nat} {source : State} {symbol : Symbol}
    (found : a.state? s = some source)
    (after : symbol ∈ source.items.symbolsAfterDot rules.grammar) :
    ∃ target, (followFreely rules s source.items a symbol).transitions =
        a.transitions.push ⟨s, symbol, target⟩ ∧
      (followFreely rules s source.items a symbol).Links rules ⟨s, symbol, target⟩ := by
  rcases followFreely_cases rules s source.items a symbol with
    ⟨target, known, same⟩ | ⟨-, same⟩
  · obtain ⟨state, targetFound, items⟩ := find?_eq_some known
    rw [same]
    exact ⟨target, rfl, source, state, found, targetFound, after, items⟩
  · rw [same]
    exact ⟨a.states.size, rfl, source, _, (precedes_addState ..).state? found,
      state?_addState_size a _, after, rfl⟩

/-! ## Whole constructions -/

/-- Every symbol after a dot of a state has a transition. -/
def Followed (rules : ClosureRules) (a : Automaton) (s : Nat) : Prop :=
  ∃ source, a.state? s = some source ∧
    ∀ symbol ∈ source.items.symbolsAfterDot rules.grammar,
      ∃ target, ⟨s, symbol, target⟩ ∈ a.transitions

theorem Followed.precedes {s : Nat} (followed : a.Followed rules s)
    (longer : a.Precedes later) : later.Followed rules s := by
  obtain ⟨source, found, targets⟩ := followed
  refine ⟨source, longer.state? found, fun symbol after => ?_⟩
  obtain ⟨target, member⟩ := targets symbol after
  exact ⟨target, longer.mem_transitions member⟩

/-- All transitions lead where they should; none is missing from the states before `s`, nor over
the symbols of state `s` that are done. -/
structure Linked (rules : ClosureRules) (s : Nat) (done : List Symbol) (a : Automaton) : Prop where
  links : ∀ transition ∈ a.transitions, a.Links rules transition
  before : ∀ r < s, r < a.states.size → a.Followed rules r
  here : ∀ symbol ∈ done, ∃ target, ⟨s, symbol, target⟩ ∈ a.transitions

theorem Linked.follow {s : Nat} {done : List Symbol} (linked : a.Linked rules s done)
    {source : State} {symbol : Symbol} (found : a.state? s = some source)
    (after : symbol ∈ source.items.symbolsAfterDot rules.grammar) :
    (followFreely rules s source.items a symbol).Linked rules s (done ++ [symbol]) := by
  have longer := precedes_followFreely rules s source.items a symbol
  have inside : s < a.states.size := (Array.getElem?_eq_some_iff.mp found).1
  obtain ⟨target, transitions, links⟩ := exists_followed_transition found after
  refine ⟨?_, ?_, ?_⟩
  · intro transition member
    rcases Array.mem_push.mp (transitions ▸ member) with old | rfl
    · exact (linked.links transition old).precedes longer
    · exact links
  · intro r below _
    exact (linked.before r below (Nat.lt_trans below inside)).precedes longer
  · intro other member
    rcases List.mem_append.mp member with old | new
    · obtain ⟨goal, recorded⟩ := linked.here other old
      exact ⟨goal, longer.mem_transitions recorded⟩
    · obtain rfl := List.mem_singleton.mp new
      exact ⟨target, transitions ▸ Array.mem_push_self⟩

theorem Linked.next {s : Nat} {source : State}
    (linked : a.Linked rules s (source.items.symbolsAfterDot rules.grammar))
    (found : a.state? s = some source) : a.Linked rules (s + 1) [] where
  links := linked.links
  before r below inside := by
    rcases Nat.lt_succ_iff_lt_or_eq.mp below with earlier | rfl
    · exact linked.before r earlier inside
    · exact ⟨source, found, linked.here⟩
  here _ none := absurd none List.not_mem_nil

theorem Linked.idle {s : Nat} (linked : a.Linked rules s []) (visited : a.states.size ≤ s) :
    a.Linked rules (s + 1) [] where
  links := linked.links
  before r _ inside := linked.before r (Nat.lt_of_lt_of_le inside visited) inside
  here _ none := absurd none List.not_mem_nil

theorem linked_grown (rules : ClosureRules) (n : Nat) :
    (grown rules n).Linked rules n [] := by
  refine grown_induction (fun s done a => a.Linked rules s done) ?_
    (fun linked found => linked.next found) (fun linked visited => linked.idle visited) ?_ n
  · intro s source done rest symbol a linked found split
    exact linked.follow found (split ▸ List.mem_append_right _ List.mem_cons_self)
  · exact ⟨fun _ none => absurd none (Array.not_mem_empty _),
      fun r below => absurd below (Nat.not_lt_zero r), fun _ none => absurd none List.not_mem_nil⟩

/-- What makes an automaton the one of its grammar. -/
structure Canonical (g : Grammar) (a : Automaton) : Prop where
  start : ∃ state, a.state? initialState = some state ∧
    state.items = closure g g.firstSets [.start]
  linked : ∀ {s target : Nat} {symbol : Symbol}, a.transition? s symbol = some target →
    ∃ source state, a.state? s = some source ∧ a.state? target = some state ∧
      (∃ item ∈ source.items, item.next? g = some symbol) ∧
      state.items = source.items.goto g g.firstSets symbol
  followed : ∀ {s : Nat} {source : State} {item : Item} {symbol : Symbol},
    a.state? s = some source → item ∈ source.items → item.next? g = some symbol →
      ∃ target, a.transition? s symbol = some target

theorem mem_of_transition? {a : Automaton} {s target : Nat} {symbol : Symbol}
    (found : a.transition? s symbol = some target) : ⟨s, symbol, target⟩ ∈ a.transitions := by
  obtain ⟨⟨source, label, goal⟩, first, rfl⟩ := Option.map_eq_some_iff.mp found
  obtain ⟨member, rfl⟩ := mem_outgoing.mp (List.mem_of_find?_eq_some first)
  obtain rfl : label = symbol := by simpa using List.find?_some first
  exact member

theorem exists_transition? {a : Automaton} {s target : Nat} {symbol : Symbol}
    (member : ⟨s, symbol, target⟩ ∈ a.transitions) :
    ∃ other, a.transition? s symbol = some other := by
  have listed : ⟨s, symbol, target⟩ ∈ a.outgoing s := mem_outgoing.mpr ⟨member, rfl⟩
  cases first : (a.outgoing s).find? fun transition => transition.symbol = symbol with
  | none =>
    have absent := List.find?_eq_none.mp first _ listed
    simp at absent
  | some transition => exact ⟨transition.target, by simp [transition?, target?, first]⟩

theorem Settled.canonical {g : Grammar} (settled : a.Settled (.ofGrammar g g.firstSets)) :
    a.Canonical g := by
  obtain ⟨enough, all⟩ := id settled
  have linked := linked_grown (.ofGrammar g g.firstSets) (max enough a.states.size)
  rw [all _ (Nat.le_max_left ..)] at linked
  refine ⟨⟨_, (settled.precedes 0).state? (state?_addState_size empty _), rfl⟩, ?_, ?_⟩
  · intro s target symbol found
    obtain ⟨source, state, sourceFound, targetFound, after, items⟩ :=
      linked.links _ (mem_of_transition? found)
    exact ⟨source, state, sourceFound, targetFound, ItemSet.mem_symbolsAfterDot.mp after, items⟩
  · intro s source item symbol found member next
    obtain ⟨inside, -⟩ := Array.getElem?_eq_some_iff.mp found
    obtain ⟨same, sameFound, targets⟩ :=
      linked.before s (Nat.lt_of_lt_of_le inside (Nat.le_max_right ..)) inside
    obtain rfl := Option.some.inj (sameFound.symm.trans found)
    obtain ⟨target, listed⟩ :=
      targets symbol (ItemSet.mem_symbolsAfterDot.mpr ⟨item, member, next⟩)
    exact exists_transition? listed

theorem canonical_of_collect {g : Grammar}
    (collected : collect (.ofGrammar g g.firstSets) limits = .ok a) : a.Canonical g :=
  (settled_of_collect collected).1.canonical

end Automaton

namespace Grammar

variable {g : Grammar} {settings : Settings} {analysis : Analysis}

theorem automaton_of_analyze (analyzed : g.analyze settings = .ok analysis) :
    g.automaton g.firstSets settings.limits = .ok analysis.automaton ∧
      analysis.table = analysis.automaton.table g := by
  unfold analyze at analyzed
  split at analyzed
  · cases analyzed
  · split at analyzed
    · cases analyzed
    · dsimp only at analyzed
      split at analyzed
      · cases analyzed
      · rename_i collected
        obtain rfl := Except.ok.inj analyzed
        exact ⟨collected, rfl⟩

theorem analyze_eq_ok (analyzed : g.analyze settings = .ok analysis) :
    analysis.automaton.Canonical g ∧ analysis.table = analysis.automaton.table g := by
  obtain ⟨built, table⟩ := automaton_of_analyze analyzed
  exact ⟨Automaton.canonical_of_collect built, table⟩

end Grammar

end CanonicalLR
