import CanonicalLR.Automaton.Printer
import CanonicalLR.Grammar.Printer
import CanonicalLR.Proofs.Lookups.Run
import CanonicalLR.Run.Printer
import CanonicalLR.Sets.Printer
import CanonicalLR.Table.Printer

/-!
# Look-ups in written results

Every text names the symbols and the productions that it speaks of. Grammars,
sets, automata, tables, runs and trees speak of those of the grammar only, so
that each of them has a text.
-/

namespace CanonicalLR

variable {g : Grammar}

/-! ## Grammars and sets -/

namespace Grammar

variable (wellFormed : g.WellFormed)
include wellFormed

theorem WellFormed.isSome_productionText? {p : Nat} {production : Production}
    (found : g.production? p = some production) : (production.text? g).isSome :=
  isSome_bind (isSome_nonterminalName? (wellFormed.left_lt found)) fun _ =>
    isSome_bind (isSome_mapM fun _ member => wellFormed.symbolName?_isSome found member) fun _ => rfl

theorem WellFormed.isSome_text? : g.text?.isSome := by
  have nonterminals : ∀ n ∈ g.nonterminalIds, (g.nonterminalLine? n).isSome := fun n listed =>
    isSome_bind (isSome_nonterminalName? (List.mem_range.mp listed)) fun _ => rfl
  have productions : ∀ p ∈ g.productionIds, (g.productionLine? p).isSome := by
    intro p listed
    have found : g.production? p = some _ := Array.getElem?_eq_getElem (List.mem_range.mp listed)
    exact isSome_bind_of_eq_some found
      (isSome_bind (wellFormed.isSome_productionText? found) fun _ => rfl)
  exact isSome_bind (isSome_mapM nonterminals) fun _ => isSome_bind (isSome_mapM productions)
    fun _ => rfl

/-- The sets that are written are found, and their members have names. -/
theorem WellFormed.isSome_setsText? : (g.firstFollow.text? g).isSome := by
  have declared {n : Nat} (listed : n ∈ g.userNonterminals) : (g.nonterminalName? n).isSome :=
    isSome_nonterminalName? (List.mem_range.mp (List.mem_of_mem_drop listed))
  have firsts : ∀ n ∈ g.userNonterminals,
      (FirstFollow.firstLine? g g.firstFollow.first n).isSome := fun n listed =>
    isSome_bind (declared listed) fun _ => isSome_bind (isSome_mapM fun t member =>
      isSome_terminalName? (lt_of_mem_first wellFormed (IdSet.mem_toList.mp member))) fun _ => rfl
  have follows : ∀ n ∈ g.userNonterminals,
      (FirstFollow.followLine? g g.firstFollow.follow n).isSome := fun n listed =>
    isSome_bind (declared listed) fun _ => isSome_bind (isSome_mapM fun t member =>
      isSome_terminalName? (lt_of_mem_follow wellFormed (IdSet.mem_toList.mp member))) fun _ => rfl
  exact isSome_bind (isSome_mapM firsts) fun _ => isSome_bind (isSome_mapM follows) fun _ => rfl

end Grammar

/-! ## Automata -/

section

variable (wellFormed : g.WellFormed)
include wellFormed

theorem Grammar.HasItem.isSome_text? {item : Item} (has : g.HasItem item) :
    (item.text? g).isSome := by
  obtain ⟨production, found, -⟩ := has.production
  exact isSome_bind_of_eq_some found <|
    isSome_bind (isSome_nonterminalName? (wellFormed.left_lt found)) fun _ =>
      isSome_bind (isSome_mapM fun _ member => wellFormed.symbolName?_isSome found member) fun _ =>
        isSome_bind (isSome_terminalName? has.lookahead) fun _ => rfl

theorem ItemSet.isSome_text? {set : ItemSet} (all : ∀ item ∈ set, g.HasItem item) :
    (set.text? g).isSome :=
  isSome_bind (isSome_mapM fun item member => (all item member).isSome_text? wellFormed)
    fun _ => rfl

omit wellFormed in
theorem State.Stocked.isSome_heading? {state : State} (stocked : state.Stocked g) (s : Nat) :
    (state.heading? g s).isSome := by
  unfold State.heading?
  cases accessing : state.accessing with
  | none => rfl
  | some symbol =>
    have named := Grammar.isSome_symbolName? (stocked.accessing symbol accessing)
    exact isSome_bind (by simpa using named) fun _ => rfl

theorem Automaton.Stocked.isSome_text? {a : Automaton} (stocked : a.Stocked g) :
    (a.text? g).isSome := by
  refine isSome_bind (isSome_mapM fun s listed => ?_) fun _ => rfl
  have found : a.state? s = some _ := Array.getElem?_eq_getElem (List.mem_range.mp listed)
  have stock := stocked.state found
  have transitions : ∀ transition ∈ a.outgoing s, (transition.text? g).isSome := by
    intro transition member
    have listed := Array.mem_toList_iff.mpr (mem_outgoing.mp member).1
    exact isSome_bind (Grammar.isSome_symbolName? (stocked.transitions transition listed))
      fun _ => rfl
  exact isSome_bind_of_eq_some found <|
    isSome_bind (stock.isSome_heading? s) fun _ =>
      isSome_bind (ItemSet.isSome_text? wellFormed stock.kernel) fun _ =>
        isSome_bind (ItemSet.isSome_text? wellFormed stock.items) fun _ =>
          isSome_bind (isSome_mapM transitions) fun _ => rfl

/-! ## Tables -/

theorem Move.Known.isSome_text? {move : Move} (known : move.Known g) : (move.text? g).isSome := by
  cases move with
  | shift next => rfl
  | accept => rfl
  | reduce p =>
    obtain ⟨production, found⟩ := known
    exact isSome_bind_of_eq_some found
      (isSome_bind (wellFormed.isSome_productionText? found) fun _ => rfl)

theorem Action.isSome_text? {action : Action} (known : ∀ move ∈ action.candidates, move.Known g) :
    (action.text? g).isSome := by
  cases action with
  | decided move => exact (known move (List.mem_singleton_self move)).isSome_text? wellFormed
  | undecided conflict =>
    exact isSome_bind
      (isSome_mapM fun move member => (known move member).isSome_text? wellFormed) fun _ => rfl

theorem Row.isSome_actionLines? {t : Nat} {action : Action} (inside : t < g.terminals.size)
    (known : ∀ move ∈ action.candidates, move.Known g) : (Row.actionLines? g t action).isSome := by
  refine isSome_bind (Grammar.isSome_terminalName? inside) fun _ =>
    isSome_bind (Action.isSome_text? wellFormed known) fun _ => ?_
  cases action with
  | decided move => rfl
  | undecided conflict =>
    have preferred := (known _ List.mem_cons_self).isSome_text? wellFormed
    exact isSome_bind (by simpa [Action.conflict?] using preferred) fun _ => rfl

theorem Table.Stocked.isSome_text? {table : Table} (stocked : table.Stocked g) :
    (table.text? g).isSome := by
  refine isSome_bind (isSome_mapM fun entry listed => ?_) fun _ => rfl
  have stock := stocked entry listed
  exact isSome_bind (isSome_mapM fun cell member =>
      Row.isSome_actionLines? wellFormed (stock.terminals cell member) (stock.moves cell member))
    fun _ => isSome_bind (isSome_mapM fun cell member =>
      isSome_bind (Grammar.isSome_nonterminalName? (stock.nonterminals cell member)) fun _ => rfl)
    fun _ => rfl

/-! ## Runs -/

namespace Configuration

variable {table : Table} {c : Configuration} {action : StepAction}

theorem isSome_reductionText? {p : Nat} {production : Production}
    (found : g.production? p = some production) :
    ((c.reduction table p production).text? g).isSome := by
  unfold reduction
  split
  · rfl
  · dsimp only
    split
    · exact isSome_bind_of_eq_some found
        (isSome_bind (wellFormed.isSome_productionText? found) fun _ => rfl)
    · exact isSome_bind (isSome_bind
        (Grammar.isSome_nonterminalName? (wellFormed.left_lt found)) fun _ => rfl) fun _ => rfl

/-- Whatever a table dictates can be told. -/
theorem Named.isSome_actionText? (named : c.Named g)
    (acts : c.action? g table = some action) : (action.text? g).isSome := by
  have front := named.lookahead wellFormed
  unfold action? at acts
  split at acts
  · obtain rfl := Option.some.inj acts
    exact isSome_bind (isSome_bind front fun _ => rfl) fun _ => rfl
  · obtain rfl := Option.some.inj acts
    exact isSome_bind (isSome_bind front fun _ => rfl) fun _ => rfl
  · obtain rfl := Option.some.inj acts
    rfl
  · obtain rfl := Option.some.inj acts
    rfl
  · obtain ⟨production, found, rfl⟩ := Option.map_eq_some_iff.mp acts
    exact isSome_reductionText? wellFormed found

theorem Named.isSome_stepText? (named : c.Named g) (acts : c.action? g table = some action)
    (index : Nat) : ((Step.mk index c action).text? g).isSome := by
  have symbols : ∀ symbol ∈ c.symbols, (g.symbolName? symbol).isSome := by
    intro symbol member
    obtain ⟨entry, listed, rfl⟩ := List.mem_map.mp (List.mem_reverse.mp member)
    exact named.stack entry listed
  have remaining : ∀ t ∈ c.remaining, (g.terminalName? t).isSome := by
    intro t member
    rcases List.mem_append.mp member with ahead | last
    · exact named.input t ahead
    · rw [List.mem_singleton.mp last]
      exact Grammar.isSome_terminalName? wellFormed.terminals
  exact isSome_bind (isSome_mapM symbols) fun _ => isSome_bind (isSome_mapM remaining) fun _ =>
    isSome_bind (named.isSome_actionText? wellFormed acts) fun _ => rfl

end Configuration

/-- Every result can be told, whether the input was accepted or rejected. -/
theorem Table.EndsWith.isSome_text? {table : Table} {tokens : List String} {input : List Nat}
    {result : ParseResult} (ends : table.EndsWith g input result)
    (tokenized : g.tokenize tokens = .ok input) : (result.text? g).isSome := by
  have dictated := ends.dictated wellFormed tokenized
  have read : ∀ t ∈ input, (g.terminalName? t).isSome := fun t member =>
    Grammar.isSome_terminalName? (Grammar.declared_of_tokenize tokenized t member).2
  have steps : ∀ step ∈ result.steps, (step.text? g).isSome := fun step listed =>
    (dictated step listed).named.isSome_stepText? wellFormed (dictated step listed).acts step.index
  obtain ⟨recorded, -, rfl⟩ := ends
  have verdict : ((ParseResult.ofSteps input recorded).verdict? g).isSome := by
    unfold ParseResult.verdict?
    cases rejected : (ParseResult.ofSteps input recorded).error with
    | none => rfl
    | some rejection =>
      obtain ⟨last, ends, rejects⟩ := Option.bind_eq_some_iff.mp rejected
      have step := dictated last (List.mem_of_getLast? ends)
      have told := step.named.isSome_actionText? wellFormed step.acts
      rw [StepAction.eq_of_rejection? rejects] at told
      exact isSome_bind (Option.isSome_of_isSome_bind told) fun _ => rfl
  exact isSome_bind (isSome_mapM read) fun _ => isSome_bind (isSome_mapM steps) fun _ =>
    isSome_bind verdict fun _ => rfl

/-! ## Trees -/

namespace ParseTree

omit wellFormed in
theorem isSome_allLines? {trees : List ParseTree} {depth : Nat}
    (all : ∀ tree ∈ trees, (tree.lines? g depth).isSome) : (allLines? g depth trees).isSome := by
  induction trees with
  | nil => rfl
  | cons tree rest ih =>
    obtain ⟨first, later⟩ := List.forall_mem_cons.mp all
    exact isSome_bind first fun _ => isSome_bind (ih later) fun _ => rfl

/-- Trees are gathered under a node that is written like its production. -/
theorem isSome_lines?_of_gather? {stack gathered : List ParseTree} {p : Nat}
    (all : ∀ tree ∈ stack, ∀ depth, (tree.lines? g depth).isSome)
    (gathers : gather? g stack p = some gathered) :
    ∀ tree ∈ gathered, ∀ depth, (tree.lines? g depth).isSome := by
  obtain ⟨production, found, -, rfl⟩ := gather?_eq_some_iff.mp gathers
  refine List.forall_mem_cons.mpr ⟨fun depth => ?_, fun tree member =>
    all tree (List.mem_of_mem_drop member)⟩
  have below : (allLines? g (depth + 1)
      (stack.take production.right.length).reverse).isSome :=
    isSome_allLines? fun tree member =>
      all tree (List.mem_of_mem_take (List.mem_reverse.mp member)) _
  exact isSome_bind_of_eq_some found <| isSome_bind (wellFormed.isSome_productionText? found)
    fun _ => isSome_bind below fun _ => rfl

/-- A replay puts together trees of named terminals and known productions. -/
theorem isSome_lines?_of_replay? {table : Table} {steps : List Step}
    (dictated : ∀ step ∈ steps, step.Dictated g table)
    {stack : List ParseTree} (all : ∀ tree ∈ stack, ∀ depth, (tree.lines? g depth).isSome)
    {tree : ParseTree} (replayed : replay? g stack steps = some tree) (depth : Nat) :
    (tree.lines? g depth).isSome := by
  induction steps generalizing stack with
  | nil => cases replayed
  | cons step rest ih =>
    obtain ⟨first, later⟩ := List.forall_mem_cons.mp dictated
    unfold replay? at replayed
    cases action : step.action with
    | shift next =>
      simp only [action] at replayed
      refine ih later (List.forall_mem_cons.mpr ⟨fun depth => ?_, all⟩) replayed
      exact isSome_bind (first.named.lookahead wellFormed) fun _ => rfl
    | reduce p next =>
      simp only [action] at replayed
      obtain ⟨gathered, gathers, onward⟩ := Option.bind_eq_some_iff.mp replayed
      exact ih later (isSome_lines?_of_gather? wellFormed all gathers) onward
    | accept =>
      simp only [action] at replayed
      split at replayed
      · exact Option.some.inj replayed ▸ all _ (List.mem_singleton_self _) depth
      · cases replayed
    | error rejection =>
      simp only [action] at replayed
      cases replayed

end ParseTree

theorem ParseResult.isSome_treeText? {table : Table} {result : ParseResult}
    (dictated : ∀ step ∈ result.steps, step.Dictated g table)
    {tree : ParseTree} (built : result.tree? g = some tree) : (tree.text? g).isSome := by
  unfold tree? at built
  split at built
  · have empty : ∀ tree ∈ ([] : List ParseTree), ∀ depth, (tree.lines? g depth).isSome :=
      fun _ none => absurd none List.not_mem_nil
    exact isSome_bind (ParseTree.isSome_lines?_of_replay? wellFormed dictated empty built 0)
      fun _ => rfl
  · cases built

end

end CanonicalLR
