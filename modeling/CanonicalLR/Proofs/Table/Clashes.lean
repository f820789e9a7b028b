import CanonicalLR.Proofs.Automaton.ViablePrefix
import CanonicalLR.Proofs.Table.Cells

/-!
# What the conflicts of a table mean

Two rightmost derivations clash where one of them reduces what has been read,
and the other one reduces it by a different production or reads on, although
the same terminal comes next. Over a productive grammar the table has a conflict
exactly if there is such a clash.
-/

namespace CanonicalLR

namespace Grammar

/-- Two rightmost derivations agree on what is read and on what comes next. The handle of one ends
where the reading ends; that of the other does so as well and comes from a different production, or
it ends later. -/
def Clashes (g : Grammar) : Prop :=
  ∃ read p after q beyond more, g.HandleEnds read [] after p ∧ g.HandleEnds read beyond more q ∧
    after.head? = (beyond ++ more).head? ∧ (beyond = [] ∧ p ≠ q ∨ beyond ≠ [])

/-- A valid item has nothing after its dot, and a given lookahead. -/
structure Completes (g : Grammar) (read : List Symbol) (t : Nat) (item : Item) : Prop where
  valid : g.Valid read item
  complete : item.next? g = none
  ahead : item.lookahead = t

/-- Before one terminal a valid item is complete, and another one is so as well or reads on. -/
def Rivals (g : Grammar) : Prop :=
  ∃ read t first second, g.Completes read t first ∧
    (g.Completes read t second ∧ first.production ≠ second.production ∨
      g.Valid read second ∧ second.next? g = some (.terminal t))

variable {g : Grammar} {read : List Symbol} {t p : Nat} {item : Item}

/-! ## Handles and items -/

/-- The end marker stands for the end where a word does not contain it. -/
theorem head?_congr {first second : List Nat}
    (same : first.headD endMarker = second.headD endMarker)
    (firstUnmarked : ∀ t ∈ first, t ≠ endMarker) (secondUnmarked : ∀ t ∈ second, t ≠ endMarker) :
    first.head? = second.head? := by
  cases first with
  | nil =>
    cases second with
    | nil => rfl
    | cons t rest => exact absurd same.symm (secondUnmarked t List.mem_cons_self)
  | cons t rest =>
    cases second with
    | nil => exact absurd same (firstUnmarked t List.mem_cons_self)
    | cons other more => exact congrArg some same

theorem handleEnds_cons {beyond after : List Nat} :
    g.HandleEnds read (t :: beyond) after p ↔
      g.HandleEnds (read ++ [.terminal t]) beyond after p := by
  simp only [HandleEnds, spelled_cons, List.append_assoc, List.singleton_append]

section

variable (wellFormed : g.WellFormed)
include wellFormed

/-- A handle leaves a complete item where it ends. -/
theorem HandleEnds.exists_completes {beyond after : List Nat}
    (ends : g.HandleEnds read beyond after p) : ∃ item,
      g.Completes (read ++ spelled beyond) (after.headD endMarker) item ∧ item.production = p := by
  obtain ⟨before, production, expands, split⟩ := ends
  refine ⟨_, ⟨split ▸ expands.valid wellFormed, ?_, rfl⟩, rfl⟩
  simp [Item.next?, expands.found]

/-- A handle that ends later leaves an item with its dot before the terminal that comes next. -/
theorem HandleEnds.expects {beyond after : List Nat}
    (ends : g.HandleEnds read (t :: beyond) after p) :
    ∃ source, g.Valid read source ∧ source.next? g = some (.terminal t) := by
  obtain ⟨item, completes, -⟩ := ends.exists_completes wellFormed
  exact completes.valid.exists_source_before

theorem HandleEnds.ne_endMarker {beyond after : List Nat}
    (ends : g.HandleEnds read beyond after p) :
    ∀ t ∈ beyond ++ after, t ≠ endMarker := by
  intro t member
  apply ends.sentential.ne_endMarker wellFormed
  exact List.mem_append_right _ (List.mem_map_of_mem member)

variable (productive : g.Productive)
include productive

theorem Completes.handleEnds (completes : g.Completes read t item) :
    ∃ after, g.HandleEnds read [] after item.production ∧ after.headD endMarker = t := by
  obtain ⟨before, production, opens, found, split⟩ := completes.valid.complete completes.complete
  obtain ⟨after, expands, front⟩ := opens.expands wellFormed productive found
  refine ⟨after, ⟨before, production, expands, ?_⟩, front.trans completes.ahead⟩
  rw [split, spelled_nil, List.append_nil]

theorem Valid.handleEnds (valid : g.Valid read item) (next : item.next? g = some (.terminal t)) :
    ∃ beyond after q, g.HandleEnds read (t :: beyond) after q := by
  obtain ⟨before, production, opens, found, -, rfl⟩ := valid
  obtain ⟨after, expands, -⟩ := opens.expands wellFormed productive found
  have split := Item.right_eq_of_next? found next
  rw [← List.singleton_append, ← List.append_assoc] at split
  have declared (symbol : Symbol) (member : symbol ∈ item.rest g) :=
    Item.declared_of_mem_rest wellFormed member
  obtain ⟨word, derived⟩ := productive.exists_derives declared
  obtain ⟨beyond, more, q, ends⟩ := expands.exists_handleEnds split derived
  refine ⟨beyond, more, q, handleEnds_cons.mpr ?_⟩
  rwa [List.append_assoc]

theorem clashes_iff_rivals : g.Clashes ↔ g.Rivals := by
  constructor
  · rintro ⟨read, p, after, q, beyond, more, ends, otherEnds, front, differ⟩
    obtain ⟨first, completes, rfl⟩ := ends.exists_completes wellFormed
    rw [spelled_nil, List.append_nil] at completes
    refine ⟨read, after.headD endMarker, first, ?_⟩
    rw [List.headD_eq_head?_getD, front] at completes ⊢
    cases beyond with
    | nil =>
      obtain ⟨second, otherCompletes, rfl⟩ := otherEnds.exists_completes wellFormed
      rw [spelled_nil, List.append_nil, List.headD_eq_head?_getD] at otherCompletes
      have others : first.production ≠ second.production := by simpa using differ
      exact ⟨second, completes, .inl ⟨otherCompletes, others⟩⟩
    | cons t beyond =>
      obtain ⟨second, valid, next⟩ := otherEnds.expects wellFormed
      exact ⟨second, completes, .inr ⟨valid, next⟩⟩
  · rintro ⟨read, t, first, second, completes, rival⟩
    obtain ⟨after, ends, front⟩ := completes.handleEnds wellFormed productive
    have clash {q : Nat} {beyond more : List Nat} (otherEnds : g.HandleEnds read beyond more q)
        (same : (beyond ++ more).headD endMarker = t)
        (differ : beyond = [] ∧ first.production ≠ q ∨ beyond ≠ []) : g.Clashes :=
      ⟨read, _, after, q, beyond, more, ends, otherEnds, head?_congr (front.trans same.symm)
        (ends.ne_endMarker wellFormed) (otherEnds.ne_endMarker wellFormed), differ⟩
    rcases rival with ⟨otherCompletes, others⟩ | ⟨valid, next⟩
    · obtain ⟨more, otherEnds, otherFront⟩ := otherCompletes.handleEnds wellFormed productive
      exact clash otherEnds otherFront (.inl ⟨rfl, others⟩)
    · obtain ⟨beyond, more, q, otherEnds⟩ := valid.handleEnds wellFormed productive next
      exact clash otherEnds rfl (.inr (List.cons_ne_nil _ _))

end

end Grammar

/-! ## Conflicting moves -/

namespace Automaton

variable {g : Grammar} {a : Automaton}

theorem exists_undecided (conflicts : (a.table g).hasConflicts = true) :
    ∃ s state t conflict, a.state? s = some state ∧
      state.action? g (a.outgoing s) t = some (.undecided conflict) := by
  have listed : (a.table g).conflicts ≠ [] := by simpa [Table.hasConflicts] using conflicts
  obtain ⟨cell, member⟩ := List.exists_mem_of_ne_nil _ listed
  obtain ⟨_, rows, inside⟩ := List.mem_flatMap.mp member
  obtain ⟨s, -, made⟩ := List.mem_filterMap.mp rows
  obtain ⟨state, found, rfl⟩ := Option.map_eq_some_iff.mp made
  obtain ⟨_, cells, conflicted⟩ := List.mem_filterMap.mp inside
  obtain ⟨t, -, filled⟩ := List.mem_filterMap.mp cells
  obtain ⟨action, demanded, rfl⟩ := Option.map_eq_some_iff.mp filled
  obtain ⟨conflict, undecided, -⟩ := Option.map_eq_some_iff.mp conflicted
  refine ⟨s, state, t, conflict, found, ?_⟩
  cases action with
  | decided move => cases undecided
  | undecided other =>
    obtain rfl := Option.some.inj undecided
    exact demanded

variable {stack : List (Nat × Symbol)} {t : Nat} {move other : Move}

theorem Asks.shift_or_completes (asks : a.Asks g stack t move) :
    (∃ item next, g.Valid (readSymbols stack) item ∧ item.next? g = some (.terminal t) ∧
      a.transition? (Configuration.topState stack) (.terminal t) = some next ∧
      move = .shift next) ∨
    ∃ item, g.Completes (readSymbols stack) t item ∧ move = .completing item.production := by
  cases asks with
  | @shift item next valid before step => exact .inl ⟨item, next, valid, before, step, rfl⟩
  | accept valid complete ahead augmented =>
    exact .inr ⟨_, ⟨valid, complete, ahead⟩, (if_pos augmented).symm⟩
  | reduce valid complete ahead user =>
    exact .inr ⟨_, ⟨valid, complete, ahead⟩, (if_neg user).symm⟩

theorem asks_completing {item : Item} (completes : g.Completes (readSymbols stack) t item) :
    a.Asks g stack t (.completing item.production) := by
  obtain ⟨valid, complete, ahead⟩ := completes
  unfold Move.completing
  split
  · rename_i augmented
    exact .accept valid complete ahead augmented
  · rename_i user
    exact .reduce valid complete ahead user

theorem Asks.rivals (asks : a.Asks g stack t move) (otherAsks : a.Asks g stack t other)
    (differ : move ≠ other) : g.Rivals := by
  rcases asks.shift_or_completes with ⟨item, next, valid, before, step, rfl⟩ |
    ⟨item, completes, rfl⟩
  · rcases otherAsks.shift_or_completes with ⟨_, _, -, -, again, rfl⟩ | ⟨first, completes, rfl⟩
    · obtain rfl := Option.some.inj (step.symm.trans again)
      exact absurd rfl differ
    · exact ⟨_, t, first, item, completes, .inr ⟨valid, before⟩⟩
  · rcases otherAsks.shift_or_completes with ⟨second, _, valid, before, -, rfl⟩ |
      ⟨second, others, rfl⟩
    · exact ⟨_, t, item, second, completes, .inr ⟨valid, before⟩⟩
    · refine ⟨_, t, item, second, completes, .inl ⟨others, fun same => differ ?_⟩⟩
      rw [same]

section

variable (wellFormed : g.WellFormed) (canonical : a.Canonical g)
include wellFormed canonical

theorem Path.hasConflicts_of_asks (path : a.Path stack) (asks : a.Asks g stack t move)
    (otherAsks : a.Asks g stack t other) (differ : move ≠ other) :
    (a.table g).hasConflicts = true := by
  cases cell : (a.table g).action? (Configuration.topState stack) t with
  | none => exact absurd asks (path.not_asks_of_empty wellFormed canonical cell move)
  | some action =>
    cases action with
    | undecided conflict => exact Table.hasConflicts_of_undecided cell
    | decided only =>
      have same := path.eq_of_decided wellFormed canonical cell asks
      have otherSame := path.eq_of_decided wellFormed canonical cell otherAsks
      exact absurd (same.trans otherSame.symm) differ

end

section

variable {limits : Limits} (wellFormed : g.WellFormed)
  (built : g.automaton g.firstSets limits = .ok a)
include wellFormed built

theorem hasConflicts_iff_rivals : (a.table g).hasConflicts = true ↔ g.Rivals := by
  have canonical := canonical_of_collect built
  constructor
  · intro conflicts
    obtain ⟨s, state, t, conflict, found, undecided⟩ := exists_undecided conflicts
    obtain ⟨stack, path, rfl⟩ := exists_path_of_state? built found
    obtain ⟨same, sameFound, meaning⟩ := path.mem_items_iff wellFormed canonical
    obtain rfl := Option.some.inj (found.symm.trans sameFound)
    have candidates := Action.candidates_of_ofMoves undecided
    have once := state.demanded_nodup g (a.outgoing (Configuration.topState stack)) t
    rw [← candidates] at once
    have differ : conflict.preferred ≠ conflict.second :=
      fun same => (List.nodup_cons.mp once).1 (same ▸ List.mem_cons_self)
    have asks : a.Asks g stack t conflict.preferred :=
      (mem_demanded_iff meaning).mp (candidates ▸ List.mem_cons_self)
    have otherAsks : a.Asks g stack t conflict.second :=
      (mem_demanded_iff meaning).mp (candidates ▸ List.mem_cons_of_mem _ List.mem_cons_self)
    exact asks.rivals otherAsks differ
  · rintro ⟨read, t, first, second, completes, rival⟩
    obtain ⟨stack, path, rfl⟩ := exists_path_of_valid wellFormed canonical completes.valid
    have asks : a.Asks g stack t (.completing first.production) := asks_completing completes
    rcases rival with ⟨otherCompletes, others⟩ | ⟨valid, next⟩
    · apply path.hasConflicts_of_asks wellFormed canonical asks (asks_completing otherCompletes)
      exact fun same => others (Move.completing_injective same)
    · obtain ⟨target, step⟩ := path.exists_transition wellFormed canonical valid next
      have shifts : a.Asks g stack t (.shift target) := .shift valid next step
      exact path.hasConflicts_of_asks wellFormed canonical asks shifts
        (Move.completing_ne_shift _ _)

end

end Automaton

namespace Analysis

/-- Over a productive grammar a conflict is reported exactly if two rightmost derivations clash. -/
theorem hasConflicts_iff_clashes {calls : List Call} {g : Grammar} {settings : Settings}
    {analysis : Analysis} (defined : Grammar.ofCalls calls = .ok g) (productive : g.Productive)
    (analyzed : g.analyze settings = .ok analysis) :
    analysis.table.hasConflicts = true ↔ g.Clashes := by
  have wellFormed := Grammar.wellFormed_ofCalls defined
  obtain ⟨built, table⟩ := Grammar.automaton_of_analyze analyzed
  rw [table, Automaton.hasConflicts_iff_rivals wellFormed built,
    Grammar.clashes_iff_rivals wellFormed productive]

end Analysis

namespace Grammar

/-! ## The dangling else -/

/-- `S -> i S`, `S -> i S e S` and `S -> x`. -/
def danglingCalls : List Call :=
  [.terminal "i", .terminal "e", .terminal "x", .nonterminal "S",
    .production 1 [.terminal 1, .nonterminal 1],
    .production 1 [.terminal 1, .nonterminal 1, .terminal 2, .nonterminal 1],
    .production 1 [.terminal 3]]

def dangling : Grammar where
  terminals := #["$", "i", "e", "x"]
  nonterminals := #["S'", "S"]
  productions := #[⟨0, [.nonterminal 1]⟩, ⟨1, [.terminal 1, .nonterminal 1]⟩,
    ⟨1, [.terminal 1, .nonterminal 1, .terminal 2, .nonterminal 1]⟩, ⟨1, [.terminal 3]⟩]
  start := 1

theorem ofCalls_dangling : Grammar.ofCalls danglingCalls = .ok dangling := rfl

theorem dangling_productive : dangling.Productive := by
  have augmented : dangling.production? 0 = some ⟨0, [.nonterminal 1]⟩ := rfl
  have single : dangling.production? 3 = some ⟨1, [.terminal 3]⟩ := rfl
  have start : dangling.Derives [.nonterminal 1] (spelled [3]) := derives_right single
  intro n inside
  have few : n = 0 ∨ n = 1 := by
    have size : dangling.nonterminals.size = 2 := rfl
    omega
  rcases few with rfl | rfl
  · exact ⟨[3], (derives_right augmented).trans start⟩
  · exact ⟨[3], start⟩

theorem dangling_clashes_doubled_not : dangling.Clashes ∧ ¬ doubled.Clashes := by
  have torn : (dangling.analyze {}).toOption.map (fun analysis => analysis.table.hasConflicts) =
      some true := by decide +kernel
  have clean : (doubled.analyze {}).toOption.map (fun analysis => analysis.table.hasConflicts) =
      some false := by decide +kernel
  obtain ⟨_, analyzed, conflicts⟩ := exists_of_toOption torn
  obtain ⟨_, analyzedToo, none⟩ := exists_of_toOption clean
  have reported := Analysis.hasConflicts_iff_clashes ofCalls_dangling dangling_productive analyzed
  have silent := Analysis.hasConflicts_iff_clashes ofCalls_doubled doubled_productive analyzedToo
  refine ⟨reported.mp conflicts, fun clashes => ?_⟩
  rw [silent.mpr clashes] at none
  cases none

end Grammar

end CanonicalLR
