import CanonicalLR.Proofs.Renaming.Table
import CanonicalLR.Proofs.Restriction.Automaton
import CanonicalLR.Proofs.Table.Demands
import Mathlib.Data.List.Sort

/-!
# Tables of parts

The cells of the whole are those of the part, in the same order and with the same
candidates in the same order. The nonterminals that the part lacks have no cells.
-/

namespace CanonicalLR

/-- Where only carried numbers have a value, their values are all that there are, in order. -/
theorem filterMap_range_eq {α : Type} {value? : Nat → Option α} {carry : Nat → Nat}
    {count bound : Nat} (inside : ∀ n < count, carry n < bound)
    (ascending : ∀ {n m : Nat}, n < m → m < count → carry n < carry m)
    (carried : ∀ n value, value? n = some value → ∃ m < count, carry m = n) :
    (List.range bound).filterMap value? = ((List.range count).map carry).filterMap value? := by
  have having (numbers : List Nat) : numbers.filterMap value? =
      (numbers.filter fun n => (value? n).isSome).filterMap value? := by
    rw [List.filterMap_filter]
    congr 1
    funext n
    cases value? n <;> rfl
  have ordered : ((List.range count).map carry).Pairwise (· < ·) := by
    rw [List.pairwise_map]
    exact List.pairwise_lt_range.imp_of_mem fun _ member below =>
      ascending below (List.mem_range.mp member)
  rw [having, having ((List.range count).map carry)]
  congr 1
  refine (List.pairwise_lt_range.filter _).eq_of_mem_iff (ordered.filter _) fun n => ?_
  simp only [List.mem_filter, List.mem_map, List.mem_range, Option.isSome_iff_exists]
  constructor
  · rintro ⟨-, value, found⟩
    exact ⟨carried n value found, value, found⟩
  · rintro ⟨⟨m, below, rfl⟩, found⟩
    exact ⟨inside m below, found⟩

namespace Renaming

variable (r : Renaming)

def conflict (conflict : Conflict) : Conflict :=
  ⟨r.inPlace.move conflict.preferred, r.inPlace.move conflict.second,
    conflict.others.map r.inPlace.move⟩

/-- An action with the productions of its moves renamed. -/
def action : Action → Action
  | .decided move => .decided (r.inPlace.move move)
  | .undecided conflict => .undecided (r.conflict conflict)

def row (row : Row) : Row where
  actions := ⟨row.actions.entries.map fun entry => (entry.1, r.action entry.2)⟩
  gotos := ⟨row.gotos.entries.map fun entry => (r.nonterminals entry.1, entry.2)⟩

/-- A table with the ids in its cells renamed, everything where it stands. -/
def table (table : Table) : Table :=
  ⟨⟨table.rows.entries.map fun entry => (entry.1, r.row entry.2)⟩⟩

theorem ofMoves_map (moves : List Move) :
    Action.ofMoves (moves.map r.inPlace.move) = (Action.ofMoves moves).map r.action := by
  match moves with
  | [] => rfl
  | [_] => rfl
  | _ :: _ :: _ => rfl

end Renaming

/-! ## Looking up a cell -/

theorem lookup_map {α β : Type} {carry : Nat → Nat} (injective : Function.Injective carry)
    (view : α → β) (entries : List (Nat × α)) (key : Nat) :
    (entries.map fun entry => (carry entry.1, view entry.2)).lookup (carry key) =
      (entries.lookup key).map view := by
  induction entries with
  | nil => rfl
  | cons entry rest ih =>
    obtain ⟨other, value⟩ := entry
    rw [List.map_cons, Cells.lookup_cons, Cells.lookup_cons, ih]
    by_cases same : key = other
    · simp [same]
    · simp [same, injective.eq_iff]

namespace Renaming

variable (r : Renaming) (table : Table) (s : Nat)

theorem row_table : (r.table table).rows.get? s = (table.rows.get? s).map r.row :=
  lookup_map (fun _ _ => id) r.row table.rows.entries s

theorem action?_table (t : Nat) :
    (r.table table).action? s t = (table.action? s t).map r.action := by
  rw [Table.action?, row_table, Table.action?]
  cases table.rows.get? s with
  | none => rfl
  | some row => exact lookup_map (fun _ _ => id) r.action row.actions.entries t

theorem goto?_table (n : Nat) :
    (r.table table).goto? s (r.nonterminals n) = table.goto? s n := by
  rw [Table.goto?, row_table, Table.goto?]
  cases table.rows.get? s with
  | none => rfl
  | some row =>
    exact (lookup_map r.nonterminals.injective id row.gotos.entries n).trans
      (congrFun Option.map_id _)

theorem alike_action (cell : Option Action) : Alike r.inPlace.move cell (cell.map r.action) := by
  rcases cell with _ | (move | conflict)
  · exact .empty
  · exact .decided move
  · refine .undecided ?_ (.refl _)
    rw [Conflict.kind, Conflict.kind, Renaming.conflict, Renumbering.isShift_move]

end Renaming

namespace Embeds

variable {r : Renaming} {part whole : Grammar} (embeds : Embeds r part whole)
include embeds

theorem augmentedProduction_iff {p : Nat} :
    r.productions p = CanonicalLR.augmentedProduction ↔ p = CanonicalLR.augmentedProduction := by
  constructor
  · exact fun same => r.productions.injective (same.trans embeds.augmentedProduction.symm)
  · rintro rfl
    exact embeds.augmentedProduction

section

variable {state : State} (all : ∀ item ∈ state.items, part.HasItem item)
include all

theorem shifts (outgoing : List Transition) (t : Nat) :
    (r.state state).shifts whole (outgoing.map r.inPlace.transition) t =
      (state.shifts part outgoing t).map r.inPlace.move := by
  have label : r.symbol (.terminal t) = .terminal t := by
    rw [Renaming.symbol, embeds.terminal_eq]
  have asked : ((r.itemSet state.items).toList.any fun item =>
      item.next? whole = some (.terminal t)) =
        state.items.toList.any fun item => item.next? part = some (.terminal t) := by
    rw [embeds.toList_itemSet all, List.any_map, Bool.eq_iff_iff, List.any_eq_true,
      List.any_eq_true]
    refine exists_congr fun item => and_congr_right fun member => ?_
    rw [Function.comp_apply, decide_eq_true_iff, decide_eq_true_iff, ← label,
      embeds.next?_eq_some_iff (all item member), label]
  have steps := r.target?_map outgoing (.terminal t)
  rw [label] at steps
  rw [State.shifts, State.shifts, Renaming.state, asked, steps]
  split
  · cases Automaton.target? outgoing (.terminal t) <;> rfl
  · rfl

theorem completed (t : Nat) :
    (r.state state).completed whole t = (state.completed part t).map r.item := by
  rw [State.completed, State.completed, Renaming.state, embeds.toList_itemSet all,
    List.filter_map]
  congr 1
  refine List.filter_congr fun item member => ?_
  have ahead : (r.item item).lookahead = item.lookahead := embeds.terminal_eq _
  have ended : (r.item item).next? whole = none ↔ item.next? part = none := by
    rw [embeds.next? (all item member), Option.map_eq_none_iff]
  simp only [Function.comp_apply, ahead, ended]

theorem acceptances (t : Nat) :
    (r.state state).acceptances whole t = (state.acceptances part t).map r.inPlace.move := by
  have asked : ((r.state state).completed whole t).any
      (fun item => item.production = CanonicalLR.augmentedProduction) =
        (state.completed part t).any fun item =>
          item.production = CanonicalLR.augmentedProduction := by
    rw [embeds.completed all, List.any_map]
    congr 1
    funext item
    exact decide_eq_decide.mpr embeds.augmentedProduction_iff
  rw [State.acceptances, State.acceptances, asked]
  split <;> rfl

theorem reductions (t : Nat) :
    (r.state state).reductions whole t = (state.reductions part t).map r.inPlace.move := by
  rw [State.reductions, State.reductions, embeds.completed all, List.filterMap_map,
    ← eraseDups_map_of_injective r.inPlace.move_injective, List.map_filterMap]
  congr 1
  refine List.filterMap_congr fun item _ => ?_
  simp only [Function.comp_apply, Renaming.item, embeds.augmentedProduction_iff]
  split <;> rfl

/-- The same moves are demanded in the same order. -/
theorem demanded (outgoing : List Transition) (t : Nat) :
    (r.state state).demanded whole (outgoing.map r.inPlace.transition) t =
      (state.demanded part outgoing t).map r.inPlace.move := by
  rw [State.demanded, State.demanded, embeds.shifts all, embeds.acceptances all,
    embeds.reductions all, List.map_append, List.map_append]

theorem actions (outgoing : List Transition) :
    ((r.state state).row whole (outgoing.map r.inPlace.transition)).actions =
      (r.row (state.row part outgoing)).actions := by
  have ids : whole.terminalIds = part.terminalIds := by
    rw [Grammar.terminalIds, Grammar.terminalIds, embeds.terminals]
  rw [State.row, State.row, Renaming.row, ids, List.map_filterMap]
  refine congrArg Cells.mk (List.filterMap_congr fun t _ => ?_)
  rw [State.action?, embeds.demanded all, r.ofMoves_map, State.action?, Option.map_map,
    Option.map_map]
  rfl

end

theorem nonterminal_lt {n : Nat} (inside : n < part.nonterminals.size) :
    r.nonterminals n < whole.nonterminals.size := by
  have named := embeds.nonterminalName? n inside
  rw [Grammar.nonterminalName?, Grammar.nonterminalName?, Array.getElem?_eq_getElem inside] at named
  exact (Array.getElem?_eq_some_iff.mp named).1

/-- Gotos are listed for the nonterminals of the part, in the same order. -/
theorem gotos {outgoing : List Transition} (state : State)
    (declared : ∀ n next, Automaton.target? outgoing (.nonterminal n) = some next →
      n < part.nonterminals.size) :
    ((r.state state).row whole (outgoing.map r.inPlace.transition)).gotos =
      (r.row (state.row part outgoing)).gotos := by
  have steps (n : Nat) : Automaton.target? (outgoing.map r.inPlace.transition)
      (.nonterminal (r.nonterminals n)) = Automaton.target? outgoing (.nonterminal n) :=
    r.target?_map outgoing (.nonterminal n)
  rw [State.row, State.row, Renaming.row, Grammar.nonterminalIds, Grammar.nonterminalIds]
  refine congrArg Cells.mk ?_
  rw [filterMap_range_eq (fun n => embeds.nonterminal_lt) embeds.ascending, List.filterMap_map,
    List.map_filterMap]
  · refine List.filterMap_congr fun n _ => ?_
    rw [Function.comp_apply, steps, Option.map_map]
    rfl
  · intro n entry listed
    obtain ⟨next, step, -⟩ := Option.map_eq_some_iff.mp listed
    obtain ⟨m, rfl⟩ := r.nonterminals.surjective n
    exact ⟨m, declared m next ((steps m).symm.trans step), rfl⟩

/-- The table of the whole automaton is that of the part, with its ids renamed. -/
theorem table (partFormed : part.WellFormed) {a : Automaton}
    (settled : a.Settled (.ofGrammar part part.firstSets)) :
    (r.automaton a).table whole = r.table (a.table part) := by
  rw [Automaton.table, Automaton.table, Renaming.table, r.size_states_automaton,
    List.map_filterMap]
  refine congrArg (fun rows => Table.mk (.mk rows)) (List.filterMap_congr fun s _ => ?_)
  rw [Automaton.rowOf, Automaton.rowOf, r.state?_automaton, Option.map_map, Option.map_map]
  cases found : a.state? s with
  | none => rfl
  | some state =>
    have declared (n next : Nat) (step : Automaton.target? (a.outgoing s) (.nonterminal n) =
        some next) : n < part.nonterminals.size := by
      obtain ⟨-, -, -, -, ⟨item, -, before⟩, -⟩ := settled.canonical.linked step
      exact (Item.declared_of_next? partFormed before).2
    have cells := embeds.actions (settled.hasItem partFormed found) (a.outgoing s)
    have others := embeds.gotos state declared
    simp only [Option.map_some, Function.comp_apply, r.outgoing_automaton]
    exact congrArg (fun row => some (s, row)) (Row.mk.injEq .. ▸ ⟨cells, others⟩)

end Embeds

end CanonicalLR
