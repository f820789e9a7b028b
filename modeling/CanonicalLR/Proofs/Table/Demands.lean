import CanonicalLR.Proofs.Automaton.Identity
import CanonicalLR.Proofs.Table.Clashes
import CanonicalLR.Proofs.Table.Gathering

/-!
# Tables and the demands of items

The items of a state demand moves before a terminal: those with their dot before
it a shift, and the complete ones with it ahead an acceptance or a reduction. The
cells of the table hold these moves and no others, each once and in order.
-/

namespace CanonicalLR

namespace Grammar

variable {g : Grammar} {item : Item}

theorem HasItem.isComplete_iff (has : g.HasItem item) :
    item.isComplete g = true ↔ item.next? g = none := by
  obtain ⟨production, found, -⟩ := has.production
  rw [Item.isComplete, Item.next?, found, Option.any_some, Option.bind_some, decide_eq_true_iff,
    List.getElem?_eq_none_iff]

/-- The augmented production is complete behind its only symbol. -/
theorem HasItem.complete_augmented_iff (has : g.HasItem item) (wellFormed : g.WellFormed) :
    item.next? g = none ∧ item.production = augmentedProduction ↔
      item = ⟨augmentedProduction, 1, item.lookahead⟩ := by
  obtain ⟨p, dot, t⟩ := item
  obtain ⟨production, found, within⟩ := has.production
  constructor
  · rintro ⟨complete, augmented⟩
    dsimp only at augmented found within
    subst augmented
    obtain rfl := Option.some.inj (found.symm.trans wellFormed.augmented)
    rw [Item.next?, wellFormed.augmented, Option.bind_some, List.getElem?_eq_none_iff] at complete
    obtain rfl : dot = 1 := Nat.le_antisymm within complete
    rfl
  · intro same
    obtain ⟨rfl, rfl⟩ : p = augmentedProduction ∧ dot = 1 := by simpa using same
    exact ⟨by simp [Item.next?, wellFormed.augmented], rfl⟩

end Grammar

namespace Automaton

/-- The items of a state demand a move before a terminal. -/
inductive Demands (g : Grammar) (a : Automaton) (s t : Nat) : Move → Prop where
  | shift {state : State} {item : Item} {next : Nat} (found : a.state? s = some state)
      (member : item ∈ state.items) (before : item.next? g = some (.terminal t))
      (step : a.transition? s (.terminal t) = some next) : Demands g a s t (.shift next)
  | accept {state : State} (found : a.state? s = some state)
      (member : (⟨augmentedProduction, 1, t⟩ : Item) ∈ state.items) : Demands g a s t .accept
  | reduce {state : State} {item : Item} (found : a.state? s = some state)
      (member : item ∈ state.items) (complete : item.isComplete g = true)
      (ahead : item.lookahead = t) (user : item.production ≠ augmentedProduction) :
      Demands g a s t (.reduce item.production)

end Automaton

/-- A conflict lists the moves that are demanded, and prefers the first of them. -/
structure Conflict.Lists (conflict : Conflict) (demanded : Move → Prop) : Prop where
  mem_iff : ∀ move, move ∈ conflict.candidates ↔ demanded move
  once : conflict.candidates.Nodup
  ordered : conflict.candidates.Pairwise Move.Before
  kind : conflict.kind = .shiftReduce ↔ ∃ next, demanded (.shift next)
  /-- A shift only competes with reductions. -/
  torn : conflict.kind = .shiftReduce → ¬ demanded .accept ∧ ∃ p, demanded (.reduce p)
  shift : ∀ next, demanded (.shift next) → conflict.preferred = .shift next
  accept : (∀ next, ¬ demanded (.shift next)) → demanded .accept → conflict.preferred = .accept
  reduce : (∀ next, ¬ demanded (.shift next)) → ¬ demanded .accept →
    ∃ p, conflict.preferred = .reduce p ∧ ∀ q, demanded (.reduce q) → p ≤ q

/-- The cells of a table are what the items of an automaton demand. -/
structure Table.Tabulates (table : Table) (g : Grammar) (a : Automaton) : Prop where
  rows : table.rows.entries.map Prod.fst = List.range a.states.size
  empty : ∀ s t, table.action? s t = none ↔ ∀ move, ¬ a.Demands g s t move
  decided : ∀ s t move, table.action? s t = some (.decided move) ↔
    ∀ other, a.Demands g s t other ↔ other = move
  undecided : ∀ s t conflict, table.action? s t = some (.undecided conflict) →
    conflict.Lists (a.Demands g s t)
  /-- No item with its dot before a terminal is passed over. -/
  shifts : ∀ s t state, a.state? s = some state →
    ∀ item ∈ state.items, item.next? g = some (.terminal t) →
      ∃ next, a.Demands g s t (.shift next)
  accepts : ∀ s t action, table.action? s t = some action → .accept ∈ action.candidates →
    t = endMarker ∧ a.acceptStates = [s]
  gotos : ∀ s, ∀ n ∈ g.userNonterminals, table.goto? s n = a.transition? s (.nonterminal n)
  /-- One pass over the items fills the cells, in whatever order and however often they come. -/
  gathered : ∀ s state items, a.state? s = some state →
    (∀ item, item ∈ items ↔ item ∈ state.items) →
      (∀ t, (table.action? s t).map Action.filling =
        ((Gathered.ofItems g (a.outgoing s) items).pending.get? t).map Pending.filling) ∧
      ∀ n ∈ g.userNonterminals, table.goto? s n =
        (Gathered.ofItems g (a.outgoing s) items).gotos.get? n

theorem Action.ofMoves_eq_decided {moves : List Move} {move : Move} :
    ofMoves moves = some (.decided move) ↔ moves = [move] := by
  match moves with
  | [] => simp [ofMoves]
  | [_] => simp [ofMoves]
  | _ :: _ :: _ => simp [ofMoves]

theorem Action.exists_undecided_of_mem {moves : List Move} {move other : Move}
    (member : move ∈ moves) (otherMember : other ∈ moves) (differ : move ≠ other) :
    ∃ conflict, ofMoves moves = some (.undecided conflict) ∧ conflict.candidates = moves := by
  match moves with
  | [] => exact absurd member List.not_mem_nil
  | [only] =>
    rw [List.mem_singleton] at member otherMember
    exact absurd (member.trans otherMember.symm) differ
  | _ :: _ :: _ => exact ⟨_, rfl, rfl⟩

namespace Conflict

variable {conflict : Conflict} {demanded : Move → Prop}

theorem eq_or_before (ordered : conflict.candidates.Pairwise Move.Before) {move : Move}
    (member : move ∈ conflict.candidates) :
    move = conflict.preferred ∨ conflict.preferred.Before move := by
  rcases List.mem_cons.mp member with same | later
  · exact .inl same
  · exact .inr ((List.pairwise_cons.mp ordered).1 move later)

theorem kind_eq_shiftReduce :
    conflict.kind = .shiftReduce ↔ ∃ next, conflict.preferred = .shift next := by
  unfold kind
  cases conflict.preferred <;> simp [Move.isShift]

theorem lists_of_ordered (ordered : conflict.candidates.Pairwise Move.Before)
    (mem_iff : ∀ move, move ∈ conflict.candidates ↔ demanded move)
    (apart : ∀ next, demanded (.shift next) → ¬ demanded .accept) : conflict.Lists demanded := by
  have preferred : demanded conflict.preferred := (mem_iff _).mp List.mem_cons_self
  have second : demanded conflict.second :=
    (mem_iff _).mp (List.mem_cons_of_mem _ List.mem_cons_self)
  have first {move : Move} (asked : demanded move) :
      move = conflict.preferred ∨ conflict.preferred.Before move :=
    eq_or_before ordered ((mem_iff move).mpr asked)
  have shift (next : Nat) (asked : demanded (.shift next)) : conflict.preferred = .shift next := by
    rcases first asked with same | before
    · exact same.symm
    · cases before.not_isShift
  constructor
  case mem_iff => exact mem_iff
  case once => exact ordered.nodup
  case ordered => exact ordered
  case shift => exact shift
  case kind =>
    rw [kind_eq_shiftReduce]
    constructor
    · rintro ⟨next, same⟩
      exact ⟨next, same ▸ preferred⟩
    · rintro ⟨next, asked⟩
      exact ⟨next, shift next asked⟩
  case torn =>
    intro torn
    obtain ⟨next, same⟩ := kind_eq_shiftReduce.mp torn
    have unaccepted := apart next (same ▸ preferred)
    refine ⟨unaccepted, ?_⟩
    -- The second candidate is no shift, as one stands before it, nor an acceptance.
    have later : conflict.second.isShift = false :=
      ((List.pairwise_cons.mp ordered).1 _ List.mem_cons_self).not_isShift
    cases rival : conflict.second with
    | shift other => rw [rival] at later; cases later
    | accept => exact absurd (rival ▸ second) unaccepted
    | reduce p => exact ⟨p, rival ▸ second⟩
  case accept =>
    intro unshifted asked
    rcases first asked with same | before
    · exact same.symm
    · cases rival : conflict.preferred with
      | shift next => exact absurd (rival ▸ preferred) (unshifted next)
      | accept => rfl
      | reduce p => rw [rival] at before; cases before
  case reduce =>
    intro unshifted unaccepted
    cases rival : conflict.preferred with
    | shift next => exact absurd (rival ▸ preferred) (unshifted next)
    | accept => exact absurd (rival ▸ preferred) unaccepted
    | reduce p =>
      refine ⟨p, rfl, fun q asked => ?_⟩
      rcases first asked with same | before
      · exact Nat.le_of_eq (Move.reduce.inj (same.trans rival)).symm
      · rw [rival] at before
        exact Nat.le_of_lt before

end Conflict

namespace Automaton

variable {g : Grammar} {a : Automaton} {limits : Limits} {s t : Nat} {state : State} {move : Move}

theorem keys_table (g : Grammar) (a : Automaton) :
    (a.table g).rows.entries.map Prod.fst = List.range a.states.size := by
  rw [table, List.map_filterMap]
  refine (List.filterMap_congr fun s listed => ?_).trans List.filterMap_some
  obtain ⟨state, found⟩ : ∃ state, a.state? s = some state :=
    ⟨_, Array.getElem?_eq_getElem (List.mem_range.mp listed)⟩
  rw [rowOf, found]
  rfl

section

variable (wellFormed : g.WellFormed) (settled : a.Settled (.ofGrammar g g.firstSets))
include wellFormed settled

theorem Settled.hasItem (found : a.state? s = some state) : ∀ item ∈ state.items, g.HasItem item :=
  (settled.enters found).collected.hasItem wellFormed

theorem Settled.demands_iff (found : a.state? s = some state) :
    a.Demands g s t move ↔ move ∈ state.demanded g (a.outgoing s) t := by
  have has := settled.hasItem wellFormed found
  simp only [State.demanded, List.mem_append, State.mem_shifts, State.mem_acceptances,
    State.mem_reductions]
  constructor
  · intro demands
    cases demands with
    | shift same member before step =>
      obtain rfl := Option.some.inj (same.symm.trans found)
      exact .inl (.inl ⟨_, member, before, _, step, rfl⟩)
    | accept same member =>
      obtain rfl := Option.some.inj (same.symm.trans found)
      obtain ⟨complete, -⟩ := ((has _ member).complete_augmented_iff wellFormed).mpr rfl
      exact .inl (.inr ⟨_, member, rfl, complete, rfl, rfl⟩)
    | reduce same member complete ahead user =>
      obtain rfl := Option.some.inj (same.symm.trans found)
      exact .inr ⟨_, member, ahead, (has _ member).isComplete_iff.mp complete, user, rfl⟩
  · rintro ((⟨item, member, before, next, step, rfl⟩ |
      ⟨item, member, rfl, complete, augmented, rfl⟩) | ⟨item, member, ahead, complete, user, rfl⟩)
    · exact .shift found member before step
    · have same := ((has _ member).complete_augmented_iff wellFormed).mp ⟨complete, augmented⟩
      rw [same] at member
      exact .accept found member
    · exact .reduce found member ((has _ member).isComplete_iff.mpr complete) ahead user

theorem Settled.lt_of_demands (demands : a.Demands g s t move) : t < g.terminals.size := by
  cases demands with
  | shift _ _ before _ => exact (Item.declared_of_next? wellFormed before).2
  | accept found member => exact (settled.hasItem wellFormed found _ member).lookahead
  | reduce found member _ ahead _ =>
    exact ahead ▸ (settled.hasItem wellFormed found _ member).lookahead

theorem Settled.action?_eq (found : a.state? s = some state) (t : Nat) :
    (a.table g).action? s t = state.action? g (a.outgoing s) t := by
  rw [action?_table found]
  split
  · rfl
  · rename_i outside
    have nothing : state.demanded g (a.outgoing s) t = [] := by
      rw [List.eq_nil_iff_forall_not_mem]
      intro move member
      have demands := (settled.demands_iff wellFormed found).mpr member
      exact outside (settled.lt_of_demands wellFormed demands)
    rw [State.action?, nothing]
    rfl

/-- Every cell comes from the moves that are demanded, in order. -/
theorem Settled.exists_demanded (s t : Nat) : ∃ moves : List Move,
    (a.table g).action? s t = Action.ofMoves moves ∧ moves.Pairwise Move.Before ∧
      ∀ move, move ∈ moves ↔ a.Demands g s t move := by
  cases found : a.state? s with
  | none =>
    refine ⟨[], ?_, .nil, fun move => ?_⟩
    · rw [Table.action?, row_of_table, found]
      rfl
    · have undemanded : ¬ a.Demands g s t move := by
        intro demands
        cases demands <;> simp_all
      exact iff_of_false List.not_mem_nil undemanded
  | some state =>
    exact ⟨_, settled.action?_eq wellFormed found t, state.demanded_pairwise ..,
      fun move => (settled.demands_iff wellFormed found).symm⟩

theorem Settled.demands_of_mem {action : Action} (filled : (a.table g).action? s t = some action)
    (member : move ∈ action.candidates) : a.Demands g s t move := by
  obtain ⟨moves, same, -, meaning⟩ := settled.exists_demanded wellFormed s t
  rw [← meaning, ← Action.candidates_of_ofMoves (same.symm.trans filled)]
  exact member

/-- Two moves that are demanded for one cell make it a conflict. -/
theorem Settled.exists_undecided {other : Move} (demands : a.Demands g s t move)
    (otherDemands : a.Demands g s t other) (differ : move ≠ other) : ∃ conflict,
      (a.table g).action? s t = some (.undecided conflict) ∧
        move ∈ conflict.candidates ∧ other ∈ conflict.candidates := by
  obtain ⟨moves, filled, -, meaning⟩ := settled.exists_demanded wellFormed s t
  rw [← meaning] at demands otherDemands
  obtain ⟨conflict, undecided, rfl⟩ :=
    Action.exists_undecided_of_mem demands otherDemands differ
  exact ⟨conflict, filled.trans undecided, demands, otherDemands⟩

end

/-- The end marker is never shifted. -/
theorem not_accept_of_shift (wellFormed : g.WellFormed)
    (built : g.automaton g.firstSets limits = .ok a) {next : Nat}
    (shifts : a.Demands g s t (.shift next)) : ¬ a.Demands g s t .accept := by
  intro accepts
  cases shifts with
  | shift _ _ before _ =>
    cases accepts with
    | accept found member =>
      obtain ⟨-, rfl⟩ := (accepts_iff wellFormed built found).mp member
      exact absurd (Item.declared_of_next? wellFormed before).1 (Nat.lt_irrefl _)

theorem Settled.goto?_eq (settled : a.Settled (.ofGrammar g g.firstSets)) {n : Nat}
    (inside : n < g.nonterminals.size) :
    (a.table g).goto? s n = a.transition? s (.nonterminal n) := by
  cases found : a.state? s with
  | none =>
    cases step : a.transition? s (.nonterminal n) with
    | none => rw [Table.goto?, row_of_table, found, Option.map_none, Option.bind_none]
    | some next =>
      obtain ⟨source, -, listed, -⟩ := settled.canonical.linked step
      cases listed.symm.trans found
  | some state => rw [goto?_table found, if_pos inside]

/-- The cells of a synthesized table are what the items demand. -/
theorem tabulates_table {calls : List Call} (defined : Grammar.ofCalls calls = .ok g)
    (built : g.automaton g.firstSets limits = .ok a) : (a.table g).Tabulates g a := by
  have wellFormed := Grammar.wellFormed_ofCalls defined
  have settled := (settled_of_collect built).1
  have cell := settled.exists_demanded wellFormed
  constructor
  case rows =>
    exact keys_table g a
  case empty =>
    intro s t
    obtain ⟨moves, filled, -, meaning⟩ := cell s t
    rw [filled, Action.ofMoves_eq_none, List.eq_nil_iff_forall_not_mem]
    simp only [meaning]
  case decided =>
    intro s t move
    obtain ⟨moves, filled, ordered, meaning⟩ := cell s t
    rw [filled, Action.ofMoves_eq_decided]
    simp only [← meaning]
    constructor
    · rintro rfl other
      exact List.mem_singleton
    · intro only
      exact ordered.eq_of_mem_iff (List.pairwise_singleton ..) (by simpa using only)
  case undecided =>
    intro s t conflict undecided
    obtain ⟨moves, filled, ordered, meaning⟩ := cell s t
    rw [undecided] at filled
    have candidates : conflict.candidates = moves := Action.candidates_of_ofMoves filled.symm
    refine Conflict.lists_of_ordered (candidates ▸ ordered) (candidates ▸ meaning) ?_
    exact fun next => not_accept_of_shift wellFormed built
  case shifts =>
    intro s t state found item member before
    obtain ⟨next, step⟩ := settled.canonical.followed found member before
    exact ⟨next, .shift found member before step⟩
  case accepts =>
    intro s t action filled member
    obtain ⟨moves, same, -, meaning⟩ := cell s t
    rw [filled] at same
    have demands := (meaning .accept).mp (Action.candidates_of_ofMoves same.symm ▸ member)
    cases demands with
    | accept found inside =>
      obtain ⟨step, ahead⟩ := (accepts_iff wellFormed built found).mp inside
      obtain ⟨r, other, all⟩ := exists_acceptStates wellFormed built
      obtain rfl := Option.some.inj (step.symm.trans other)
      exact ⟨ahead, all⟩
  case gotos =>
    intro s n user
    exact settled.goto?_eq (Grammar.mem_userNonterminals.mp user).2
  case gathered =>
    intro s state items found same
    constructor
    · intro t
      rw [settled.action?_eq wellFormed found]
      exact state.filling_ofItems same t
    · intro n user
      rw [settled.canonical.gotos_ofItems found same]
      exact settled.goto?_eq (Grammar.mem_userNonterminals.mp user).2

end Automaton

namespace Grammar

/-- Where an `S` may be over before an `e`, a shift and one reduction are demanded. -/
theorem dangling_demands : ∃ a, dangling.automaton dangling.firstSets {} = .ok a ∧
    (a.table dangling).Tabulates dangling a ∧
    ∀ move, a.Demands dangling 7 2 move ↔ move = .shift 9 ∨ move = .reduce 1 := by
  have torn : (dangling.automaton dangling.firstSets {}).toOption.map (fun a =>
      (a.table dangling).action? 7 2) =
        some (some (.undecided ⟨.shift 9, .reduce 1, []⟩)) := by decide +kernel
  obtain ⟨a, built, cell⟩ := exists_of_toOption torn
  have tabulates := Automaton.tabulates_table ofCalls_dangling built
  refine ⟨a, built, tabulates, fun move => ?_⟩
  rw [← (tabulates.undecided 7 2 _ cell).mem_iff]
  simp [Conflict.candidates]

end Grammar

end CanonicalLR
