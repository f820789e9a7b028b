import CanonicalLR.Analysis
import CanonicalLR.Proofs.Lookups.Automaton
import CanonicalLR.Proofs.Table.Cells

/-!
# Look-ups in the analysis

The last phase looks up the production of every item in every state, and reports
conflicts by the names of their terminals. What it puts into the rows belongs to
the grammar, so that all later look-ups by the cells of a row succeed as well.
-/

namespace CanonicalLR

namespace Automaton

/-- The row of a state, with the look-ups that its items and its conflicts give rise to. -/
def rowOf? (g : Grammar) (a : Automaton) (s : Nat) : Option (Nat × Row) := do
  let state ← a.state? s
  let _ ← state.items.toList.mapM (Item.checkedNext? g)
  let row := state.row g (a.outgoing s)
  let _ ← (Table.rowConflicts (s, row)).mapM fun cell => g.terminalName? cell.terminal
  return (s, row)

def table? (g : Grammar) (a : Automaton) : Option Table := do
  let rows ← (List.range a.states.size).mapM (rowOf? g a)
  return ⟨⟨rows⟩⟩

end Automaton

def Grammar.analyze? (g : Grammar) (settings : Settings) :
    Option (Except AnalysisError Analysis) := do
  let declared ← minus? g.productions.size 1
  if settings.limits.productions < declared then
    return .error (.limitExceeded .productions settings.limits.productions 0 none)
  else if settings.cancelled then return .error .cancelled
  else
    let sets ← g.firstFollow?
    match ← (g.automaton? sets.first settings.limits).run with
    | .error halted => return .error (.ofHalted settings halted)
    | .ok automaton =>
      let table ← automaton.table? g
      return .ok ⟨sets, automaton, table⟩

/-! ## What is stored in a table -/

/-- A reduction is by a production of the grammar. -/
def Move.Known (g : Grammar) : Move → Prop
  | .reduce p => ∃ production, g.production? p = some production
  | _ => True

structure Row.Stocked (g : Grammar) (row : Row) : Prop where
  terminals : ∀ cell ∈ row.actions.entries, cell.1 < g.terminals.size
  moves : ∀ cell ∈ row.actions.entries, ∀ move ∈ cell.2.candidates, move.Known g
  nonterminals : ∀ cell ∈ row.gotos.entries, cell.1 < g.nonterminals.size

def Table.Stocked (g : Grammar) (table : Table) : Prop :=
  ∀ entry ∈ table.rows.entries, entry.2.Stocked g

theorem State.known_of_mem_demanded {g : Grammar} {state : State} (stocked : state.Stocked g)
    {outgoing : List Transition} {t : Nat} {move : Move}
    (member : move ∈ state.demanded g outgoing t) : move.Known g := by
  rcases List.mem_append.mp member with earlier | reduced
  · rcases List.mem_append.mp earlier with shifted | accepted
    · obtain ⟨-, -, -, next, -, rfl⟩ := mem_shifts.mp shifted
      trivial
    · obtain ⟨-, -, -, -, -, rfl⟩ := mem_acceptances.mp accepted
      trivial
  · obtain ⟨item, inside, -, -, -, rfl⟩ := mem_reductions.mp reduced
    obtain ⟨production, found, -⟩ := (stocked.items item inside).production
    exact ⟨production, found⟩

theorem State.stocked_row {g : Grammar} {state : State} (stocked : state.Stocked g)
    (outgoing : List Transition) : (state.row g outgoing).Stocked g := by
  refine ⟨?_, ?_, ?_⟩
  · intro cell member
    obtain ⟨t, listed, made⟩ := List.mem_filterMap.mp member
    obtain ⟨action, -, rfl⟩ := Option.map_eq_some_iff.mp made
    exact List.mem_range.mp listed
  · intro cell member move candidate
    obtain ⟨t, -, made⟩ := List.mem_filterMap.mp member
    obtain ⟨action, cellFound, rfl⟩ := Option.map_eq_some_iff.mp made
    rw [Action.candidates_of_ofMoves cellFound] at candidate
    exact known_of_mem_demanded stocked candidate
  · intro cell member
    obtain ⟨n, listed, made⟩ := List.mem_filterMap.mp member
    obtain ⟨next, -, rfl⟩ := Option.map_eq_some_iff.mp made
    exact List.mem_range.mp listed

namespace Automaton

variable {g : Grammar} {a : Automaton} (stocked : a.Stocked g)
include stocked

theorem stocked_table : (a.table g).Stocked g := by
  intro entry member
  obtain ⟨s, -, made⟩ := List.mem_filterMap.mp member
  obtain ⟨state, found, rfl⟩ := Option.map_eq_some_iff.mp made
  exact State.stocked_row (stocked.state found) _

theorem rowOf?_eq_some {s : Nat} {state : State} (found : a.state? s = some state) :
    a.rowOf? g s = some (s, state.row g (a.outgoing s)) := by
  have stock := stocked.state found
  have nexts : state.items.toList.mapM (Item.checkedNext? g) =
      some (state.items.toList.map (Item.next? g)) :=
    mapM_eq_some fun item member => (stock.items item member).admits.checkedNext?_eq_some
  have named : ∀ cell ∈ Table.rowConflicts (s, state.row g (a.outgoing s)),
      (g.terminalName? cell.terminal).isSome := by
    intro cell member
    obtain ⟨⟨t, action⟩, listed, made⟩ := List.mem_filterMap.mp member
    obtain ⟨conflict, -, rfl⟩ := Option.map_eq_some_iff.mp made
    exact Grammar.isSome_terminalName? ((State.stocked_row stock _).terminals _ listed)
  unfold rowOf?
  simp only [found, Option.bind_eq_bind, Option.bind_some, nexts, mapM_eq_filterMap named]
  rfl

theorem table?_eq_some : a.table? g = some (a.table g) := by
  have rows : ∀ s ∈ List.range a.states.size,
      a.rowOf? g s = rowOf g a s ∧ (a.rowOf? g s).isSome := by
    intro s listed
    have inside := List.mem_range.mp listed
    have found : a.state? s = some a.states[s] := Array.getElem?_eq_getElem inside
    rw [rowOf?_eq_some stocked found, rowOf, found]
    exact ⟨rfl, rfl⟩
  rw [table?, mapM_eq_filterMap fun s listed => (rows s listed).2,
    List.filterMap_congr fun s listed => (rows s listed).1]
  rfl

end Automaton

/-- A well-formed grammar is analyzed without a look-up that misses. -/
theorem Grammar.analyze?_eq_some {g : Grammar} (wellFormed : g.WellFormed) (settings : Settings) :
    g.analyze? settings = some (g.analyze settings) := by
  have augmented : 1 ≤ g.productions.size :=
    (Array.getElem?_eq_some_iff.mp wellFormed.augmented).1
  have built : (g.automaton? g.firstFollow.first settings.limits).run =
    some (g.automaton g.firstFollow.first settings.limits) := automaton?_eq_some wellFormed _
  have table {a : Automaton} (collected : g.automaton g.firstFollow.first settings.limits = .ok a) :
      a.table? g = some (a.table g) :=
    Automaton.table?_eq_some (Automaton.stocked_of_collect wellFormed collected)
  unfold analyze? analyze userProductionCount
  simp only [minus?_eq_some augmented, Option.bind_eq_bind, Option.bind_some,
    firstFollow?_eq_some wellFormed, built]
  split
  · rfl
  · split
    · rfl
    · cases collected : g.automaton g.firstFollow.first settings.limits with
      | error halted => rfl
      | ok a =>
        simp only [table collected, Option.bind_some]
        rfl

end CanonicalLR
