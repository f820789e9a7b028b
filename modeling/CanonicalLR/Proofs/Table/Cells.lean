import CanonicalLR.Proofs.Automaton.Exploration
import CanonicalLR.Proofs.Automaton.Validity
import CanonicalLR.Table.Synthesis

/-!
# The cells of a synthesized table

A cell lists the moves that the valid items ask for before its terminal: it is
empty if they ask for none, and undecided if they ask for more than one.
-/

namespace CanonicalLR

theorem lookup_filterMap {α : Type} (value? : Nat → Option α) (keys : List Nat) (key : Nat) :
    (keys.filterMap fun key => (value? key).map fun value => (key, value)).lookup key =
      if key ∈ keys then value? key else none := by
  induction keys with
  | nil => rfl
  | cons head tail ih =>
    cases found : value? head with
    | none =>
      rw [List.filterMap_cons_none (by rw [found]; rfl), ih]
      by_cases same : key = head
      · simp [same, found]
      · simp [same]
    | some value =>
      rw [List.filterMap_cons_some (by rw [found]; rfl), Cells.lookup_cons, ih]
      by_cases same : key = head
      · simp [same, found]
      · simp [same]

theorem Cells.mem_of_get? {α : Type} {cells : Cells α} {key : Nat} {value : α}
    (found : cells.get? key = some value) : (key, value) ∈ cells.entries := by
  obtain ⟨_, _, split, -⟩ := List.lookup_eq_some_iff.mp found
  simp [split]

namespace Move

/-- The move that a complete item asks for. -/
def completing (p : Nat) : Move :=
  if p = augmentedProduction then .accept else .reduce p

theorem completing_injective {p q : Nat} (same : completing p = completing q) : p = q := by
  unfold completing at same
  split at same <;> split at same
  · rename_i first second
    exact first.trans second.symm
  · cases same
  · cases same
  · exact Move.reduce.inj same

theorem completing_ne_shift (p next : Nat) : completing p ≠ .shift next := by
  unfold completing
  split <;> simp

/-- A shift stands before acceptance, and both before the reductions, which ascend. -/
def Before : Move → Move → Prop
  | .shift _, .accept | .shift _, .reduce _ | .accept, .reduce _ => True
  | .reduce p, .reduce q => p < q
  | _, _ => False

instance : Std.Irrefl Before where
  irrefl move := by cases move <;> simp [Before]

instance : Std.Antisymm Before where
  antisymm first second before after := by
    cases first <;> cases second <;> simp_all [Before]
    omega

theorem Before.not_isShift {first second : Move} (before : first.Before second) :
    second.isShift = false := by
  cases second with
  | shift => cases first <;> cases before
  | accept => rfl
  | reduce => rfl

/-- Among moves in order only the first may be a shift. -/
theorem isShift_head? {moves : List Move} (ordered : moves.Pairwise Before) :
    moves.head?.any isShift = moves.any isShift := by
  cases moves with
  | nil => rfl
  | cons first rest =>
    have others : rest.any isShift = false := by
      rw [List.any_eq_false]
      intro move member
      simp [((List.pairwise_cons.mp ordered).1 move member).not_isShift]
    rw [List.head?_cons, Option.any_some, List.any_cons, others, Bool.or_false]

end Move

namespace Table

theorem hasConflicts_of_undecided {table : Table} {s t : Nat} {conflict : Conflict}
    (cell : table.action? s t = some (.undecided conflict)) : table.hasConflicts = true := by
  obtain ⟨row, rowFound, found⟩ := Option.bind_eq_some_iff.mp cell
  have listed : ⟨s, t, conflict⟩ ∈ table.conflicts := by
    refine List.mem_flatMap.mpr ⟨(s, row), Cells.mem_of_get? rowFound, ?_⟩
    exact List.mem_filterMap.mpr ⟨(t, .undecided conflict), Cells.mem_of_get? found, rfl⟩
  cases all : table.conflicts with
  | nil => exact absurd (all ▸ listed) List.not_mem_nil
  | cons first rest => simp [hasConflicts, all]

end Table

namespace State

variable {g : Grammar} {state : State} {outgoing : List Transition} {t : Nat} {move : Move}

theorem mem_shifts : move ∈ state.shifts g outgoing t ↔
    ∃ item ∈ state.items, item.next? g = some (.terminal t) ∧
      ∃ next, Automaton.target? outgoing (.terminal t) = some next ∧ move = .shift next := by
  unfold shifts
  split
  · rename_i asked
    obtain ⟨item, member, next⟩ := List.any_eq_true.mp asked
    have before : item.next? g = some (.terminal t) := of_decide_eq_true next
    constructor
    · intro listed
      obtain ⟨target, found, rfl⟩ := List.mem_map.mp listed
      exact ⟨item, member, before, target, Option.mem_toList.mp found, rfl⟩
    · rintro ⟨-, -, -, target, found, rfl⟩
      exact List.mem_map.mpr ⟨target, Option.mem_toList.mpr found, rfl⟩
  · rename_i unasked
    constructor
    · exact fun none => absurd none List.not_mem_nil
    · rintro ⟨item, member, next, -⟩
      exact absurd (List.any_eq_true.mpr ⟨item, member, decide_eq_true next⟩) unasked

theorem mem_completed {item : Item} : item ∈ state.completed g t ↔
    item ∈ state.items ∧ item.lookahead = t ∧ item.next? g = none := by
  simp [completed, ItemSet.mem_iff]

theorem mem_acceptances : move ∈ state.acceptances g t ↔
    ∃ item ∈ state.items, item.lookahead = t ∧ item.next? g = none ∧
      item.production = augmentedProduction ∧ move = .accept := by
  unfold acceptances
  split
  · rename_i asked
    obtain ⟨item, member, augmented⟩ := List.any_eq_true.mp asked
    obtain ⟨inside, ahead, complete⟩ := mem_completed.mp member
    constructor
    · intro listed
      obtain rfl := List.mem_singleton.mp listed
      exact ⟨item, inside, ahead, complete, of_decide_eq_true augmented, rfl⟩
    · rintro ⟨-, -, -, -, -, rfl⟩
      exact List.mem_singleton_self _
  · rename_i unasked
    constructor
    · exact fun none => absurd none List.not_mem_nil
    · rintro ⟨item, inside, ahead, complete, augmented, -⟩
      have listed := mem_completed.mpr ⟨inside, ahead, complete⟩
      exact absurd (List.any_eq_true.mpr ⟨item, listed, decide_eq_true augmented⟩) unasked

theorem mem_reductions : move ∈ state.reductions g t ↔
    ∃ item ∈ state.items, item.lookahead = t ∧ item.next? g = none ∧
      item.production ≠ augmentedProduction ∧ move = .reduce item.production := by
  simp only [reductions, List.mem_eraseDups, List.mem_filterMap, mem_completed]
  constructor
  · rintro ⟨item, ⟨inside, ahead, complete⟩, made⟩
    split at made
    · cases made
    · rename_i user
      exact ⟨item, inside, ahead, complete, user, (Option.some.inj made).symm⟩
  · rintro ⟨item, inside, ahead, complete, user, rfl⟩
    exact ⟨item, ⟨inside, ahead, complete⟩, if_neg user⟩

theorem reductions_pairwise (g : Grammar) (state : State) (t : Nat) :
    (state.reductions g t).Pairwise Move.Before := by
  have ascending : (state.completed g t).Pairwise fun first second =>
      first.production ≤ second.production := by
    refine (state.items.sorted.filter _).imp fun {first second} before => ?_
    unfold Item.Before at before
    omega
  have listed : (state.reductions g t).Pairwise fun first second =>
      first = second ∨ first.Before second := by
    refine .sublist (eraseDups_sublist _) (ascending.filterMap _ ?_)
    intro first second le move made other otherMade
    obtain rfl := Option.some.inj (Option.ite_none_left_eq_some.mp made).2
    obtain rfl := Option.some.inj (Option.ite_none_left_eq_some.mp otherMade).2
    exact (Nat.eq_or_lt_of_le le).imp_left (congrArg Move.reduce)
  exact (listed.and (nodup_eraseDups _)).imp fun both => both.1.resolve_left both.2

/-- The moves that are demanded for one cell stand in order, and none of them twice. -/
theorem demanded_pairwise (state : State) (g : Grammar) (outgoing : List Transition) (t : Nat) :
    (state.demanded g outgoing t).Pairwise Move.Before := by
  have shifts : (state.shifts g outgoing t).Pairwise Move.Before := by
    unfold State.shifts
    split
    · cases Automaton.target? outgoing (.terminal t) <;> simp
    · exact .nil
  have acceptances : (state.acceptances g t).Pairwise Move.Before := by
    unfold State.acceptances
    split <;> simp
  rw [demanded, List.pairwise_append, List.pairwise_append]
  refine ⟨⟨shifts, acceptances, ?_⟩, state.reductions_pairwise g t, ?_⟩
  · intro move shifted other accepted
    obtain ⟨-, -, -, next, -, rfl⟩ := mem_shifts.mp shifted
    obtain ⟨-, -, -, -, -, rfl⟩ := mem_acceptances.mp accepted
    trivial
  · intro move earlier other reduced
    obtain ⟨-, -, -, -, -, rfl⟩ := mem_reductions.mp reduced
    rcases List.mem_append.mp earlier with shifted | accepted
    · obtain ⟨-, -, -, next, -, rfl⟩ := mem_shifts.mp shifted
      trivial
    · obtain ⟨-, -, -, -, -, rfl⟩ := mem_acceptances.mp accepted
      trivial

theorem demanded_nodup (state : State) (g : Grammar) (outgoing : List Transition) (t : Nat) :
    (state.demanded g outgoing t).Nodup :=
  (state.demanded_pairwise g outgoing t).nodup

/-- A shift that is demanded stands before all other moves. -/
theorem isShift_head?_demanded : (state.demanded g outgoing t).head?.any Move.isShift =
    (state.demanded g outgoing t).any Move.isShift :=
  Move.isShift_head? (state.demanded_pairwise g outgoing t)

end State

namespace Automaton

variable {g : Grammar} {a : Automaton} {s : Nat} {state : State}

/-! ## Looking up a cell -/

theorem row_of_table (g : Grammar) (a : Automaton) (s : Nat) :
    (a.table g).rows.get? s = (a.state? s).map fun state => state.row g (a.outgoing s) := by
  have rows : rowOf g a = fun s =>
      ((a.state? s).map fun state => state.row g (a.outgoing s)).map fun row => (s, row) := by
    funext s
    rw [rowOf, Option.map_map]
    rfl
  rw [table, Cells.get?, rows, lookup_filterMap]
  split
  · rfl
  · rename_i outside
    have none : a.state? s = none :=
      Array.getElem?_eq_none_iff.mpr (Nat.le_of_not_lt (mt List.mem_range.mpr outside))
    rw [none, Option.map_none]

theorem action?_table (found : a.state? s = some state) (t : Nat) :
    (a.table g).action? s t =
      if t < g.terminals.size then state.action? g (a.outgoing s) t else none := by
  rw [Table.action?, row_of_table, found, Option.map_some, Option.bind_some, State.row, Cells.get?,
    lookup_filterMap, Grammar.terminalIds]
  simp only [List.mem_range]

theorem goto?_table (found : a.state? s = some state) (n : Nat) :
    (a.table g).goto? s n =
      if n < g.nonterminals.size then a.transition? s (.nonterminal n) else none := by
  rw [Table.goto?, row_of_table, found, Option.map_some, Option.bind_some, State.row, Cells.get?,
    lookup_filterMap, Grammar.nonterminalIds]
  simp only [List.mem_range]
  rfl

/-! ## Moves that are asked for -/

/-- The items that are valid at the end of a path ask for a move before a terminal. -/
inductive Asks (g : Grammar) (a : Automaton) (stack : List (Nat × Symbol)) (t : Nat) :
    Move → Prop where
  | shift {item : Item} {next : Nat} (valid : g.Valid (readSymbols stack) item)
      (before : item.next? g = some (.terminal t))
      (step : a.transition? (Configuration.topState stack) (.terminal t) = some next) :
      Asks g a stack t (.shift next)
  | accept {item : Item} (valid : g.Valid (readSymbols stack) item)
      (complete : item.next? g = none) (ahead : item.lookahead = t)
      (augmented : item.production = augmentedProduction) : Asks g a stack t .accept
  | reduce {item : Item} (valid : g.Valid (readSymbols stack) item)
      (complete : item.next? g = none) (ahead : item.lookahead = t)
      (user : item.production ≠ augmentedProduction) :
      Asks g a stack t (.reduce item.production)

variable {stack : List (Nat × Symbol)} {t : Nat} {move : Move}

theorem Asks.lt_size (wellFormed : g.WellFormed) (asks : a.Asks g stack t move) :
    t < g.terminals.size := by
  cases asks with
  | shift valid before step => exact (Item.declared_of_next? wellFormed before).2
  | accept valid _ ahead _ => exact ahead ▸ valid.lookahead_lt wellFormed
  | reduce valid _ ahead _ => exact ahead ▸ valid.lookahead_lt wellFormed

theorem mem_demanded_iff (meaning : ∀ item, item ∈ state.items ↔ g.Valid (readSymbols stack) item) :
    move ∈ state.demanded g (a.outgoing (Configuration.topState stack)) t ↔
      a.Asks g stack t move := by
  simp only [State.demanded, List.mem_append, State.mem_shifts, State.mem_acceptances,
    State.mem_reductions, meaning]
  constructor
  · rintro ((⟨item, valid, before, next, step, rfl⟩ |
      ⟨item, valid, ahead, complete, augmented, rfl⟩) | ⟨item, valid, ahead, complete, user, rfl⟩)
    · exact .shift valid before step
    · exact .accept valid complete ahead augmented
    · exact .reduce valid complete ahead user
  · intro asks
    cases asks with
    | shift valid before step => exact .inl (.inl ⟨_, valid, before, _, step, rfl⟩)
    | accept valid complete ahead augmented =>
      exact .inl (.inr ⟨_, valid, ahead, complete, augmented, rfl⟩)
    | reduce valid complete ahead user => exact .inr ⟨_, valid, ahead, complete, user, rfl⟩

section

variable (path : a.Path stack) (wellFormed : g.WellFormed) (canonical : a.Canonical g)
include path wellFormed canonical

/-- A cell holds the list of the moves that are asked for. -/
theorem Path.action?_table (t : Nat) : ∃ moves : List Move,
    (a.table g).action? (Configuration.topState stack) t = Action.ofMoves moves ∧
      ∀ move, move ∈ moves ↔ a.Asks g stack t move := by
  obtain ⟨state, found, meaning⟩ := path.mem_items_iff wellFormed canonical
  rw [Automaton.action?_table found]
  by_cases inside : t < g.terminals.size
  · rw [if_pos inside]
    exact ⟨_, rfl, fun move => mem_demanded_iff meaning⟩
  · rw [if_neg inside]
    refine ⟨[], rfl, fun move => ?_⟩
    constructor
    · exact fun none => absurd none List.not_mem_nil
    · exact fun asks => absurd (asks.lt_size wellFormed) inside

theorem Path.not_asks_of_empty
    (empty : (a.table g).action? (Configuration.topState stack) t = none) (move : Move) :
    ¬ a.Asks g stack t move := by
  obtain ⟨moves, cell, asked⟩ := path.action?_table wellFormed canonical t
  rw [empty] at cell
  rw [← asked, Action.ofMoves_eq_none.mp cell.symm]
  exact List.not_mem_nil

theorem Path.asks_of_decided
    (decided : (a.table g).action? (Configuration.topState stack) t = some (.decided move)) :
    a.Asks g stack t move := by
  obtain ⟨moves, cell, asked⟩ := path.action?_table wellFormed canonical t
  rw [decided] at cell
  rw [← asked, ← Action.candidates_of_ofMoves cell.symm]
  exact List.mem_singleton_self move

/-- A decided cell holds the only move that is asked for. -/
theorem Path.eq_of_decided
    (decided : (a.table g).action? (Configuration.topState stack) t = some (.decided move))
    {other : Move} (asks : a.Asks g stack t other) : other = move := by
  obtain ⟨moves, cell, asked⟩ := path.action?_table wellFormed canonical t
  rw [decided] at cell
  rw [← asked, ← Action.candidates_of_ofMoves cell.symm] at asks
  exact List.mem_singleton.mp asks

theorem Path.goto?_table {n : Nat} (inside : n < g.nonterminals.size) :
    (a.table g).goto? (Configuration.topState stack) n =
      a.transition? (Configuration.topState stack) (.nonterminal n) := by
  obtain ⟨state, found, -⟩ := path.mem_items_iff wellFormed canonical
  rw [Automaton.goto?_table found, if_pos inside]

end

end Automaton

end CanonicalLR
