import CanonicalLR.Proofs.Run.Growth

/-!
# Every word is accepted or runs into a conflict

The leaves of a forest drive a run that reads them and leaves the symbols above
them on the stack: a leaf is shifted, and the children of a node are gathered by
a reduction. Only a conflict in a cell stops it on the way.
-/

namespace CanonicalLR

open CanonicalLR.Configuration

namespace Grammar

variable {g : Grammar}

/-- The terminal behind a forest's leaves may begin what stands behind its symbols. -/
theorem Forest.mem_firstBefore (wellFormed : g.WellFormed) {symbols after : List Symbol}
    {trees : List ParseTree} (forest : g.Forest symbols trees) {rest : List Nat} {lookahead : Nat}
    (ahead : rest.headD endMarker ∈ g.firstSets.firstBefore after lookahead) :
    (ParseTree.frontiers trees ++ rest).headD endMarker ∈
      g.firstSets.firstBefore (symbols ++ after) lookahead := by
  rw [mem_firstBefore_iff wellFormed] at ahead ⊢
  cases leaves : ParseTree.frontiers trees with
  | cons t word =>
    exact .inl ((forest.begins leaves).append_right after)
  | nil =>
    have vanishing : g.Erases symbols := ⟨trees, forest, leaves⟩
    rcases ahead with begins | ⟨erased, same⟩
    · exact .inl (begins.append_left vanishing)
    · exact .inr ⟨erases_append.mpr ⟨vanishing, erased⟩, same⟩

end Grammar

namespace Configuration

/-- A reduction takes off the symbols of its right-hand side. -/
theorem reduced_append {pushed stack : List (Nat × Symbol)} {input : List Nat}
    {production : Production} (read : readSymbols pushed = production.right) (next : Nat) :
    reduced ⟨pushed ++ stack, input⟩ production next =
      ⟨(next, .nonterminal production.left) :: stack, input⟩ := by
  have count : production.right.length = pushed.length := by
    rw [← read, length_readSymbols]
  rw [reduced, count, List.drop_left]

/-- A run reaches a cell with a conflict. -/
def MeetsConflict (g : Grammar) (table : Table) (c : Configuration) : Prop :=
  ∃ later, c.Reaches g table later ∧ later.Conflicted g table

theorem Reaches.meetsConflict {g : Grammar} {table : Table} {c later : Configuration}
    (reached : c.Reaches g table later) (meets : later.MeetsConflict g table) :
    c.MeetsConflict g table := by
  obtain ⟨last, after, conflicted⟩ := meets
  exact ⟨last, reached.trans after, conflicted⟩

/-- A run pushes the given symbols and comes to the rest of its input, unless it reaches a cell
with a conflict on the way. -/
def Gathers (g : Grammar) (table : Table) (c : Configuration) (symbols : List Symbol)
    (rest : List Nat) : Prop :=
  c.MeetsConflict g table ∨
    ∃ pushed, readSymbols pushed = symbols ∧ c.Reaches g table ⟨pushed ++ c.stack, rest⟩

/-- A run pushes the given symbols, as its replay does the given trees, and comes to the rest of its
input, unless it reaches a cell with a conflict on the way. -/
def Raises (g : Grammar) (table : Table) (c : Configuration) (below : List ParseTree)
    (symbols : List Symbol) (trees : List ParseTree) (rest : List Nat) : Prop :=
  c.MeetsConflict g table ∨ ∃ pushed, readSymbols pushed = symbols ∧
    Grows g table (c, below) (⟨pushed ++ c.stack, rest⟩, trees.reverse ++ below)

theorem Raises.gathers {g : Grammar} {table : Table} {c : Configuration} {symbols : List Symbol}
    {below trees : List ParseTree} {rest : List Nat}
    (raises : c.Raises g table below symbols trees rest) : c.Gathers g table symbols rest := by
  rcases raises with meets | ⟨pushed, read, grows⟩
  · exact .inl meets
  · exact .inr ⟨pushed, read, grows.reaches⟩

theorem Grows.raises {g : Grammar} {table : Table} {stack : List (Nat × Symbol)}
    {input between rest : List Nat} {s : Nat} {symbol : Symbol} {symbols : List Symbol}
    {tree : ParseTree} {below trees : List ParseTree}
    (grows : Grows g table (⟨stack, input⟩, below) (⟨(s, symbol) :: stack, between⟩, tree :: below))
    (raises : Raises g table ⟨(s, symbol) :: stack, between⟩ (tree :: below) symbols trees rest) :
    Raises g table ⟨stack, input⟩ below (symbol :: symbols) (tree :: trees) rest := by
  rcases raises with meets | ⟨pushed, read, onward⟩
  · exact .inl (grows.reaches.meetsConflict meets)
  · refine .inr ⟨pushed ++ [(s, symbol)], ?_, ?_⟩
    · rw [readSymbols_append, read]
      rfl
    · rw [List.append_assoc, List.reverse_cons, List.append_assoc]
      exact grows.trans onward

end Configuration

section

variable {g : Grammar} {a : Automaton} (wellFormed : g.WellFormed) (canonical : a.Canonical g)
include wellFormed canonical

namespace Automaton

/-- A terminal that a valid item expects is shifted, unless its cell is in conflict. -/
theorem Path.shifts {stack : List (Nat × Symbol)} (path : a.Path stack) {item : Item} {t : Nat}
    (rest : List Nat) (valid : g.Valid (readSymbols stack) item)
    (expected : item.next? g = some (.terminal t)) :
    Conflicted g (a.table g) ⟨stack, t :: rest⟩ ∨ ∃ next,
      Configuration.action? g (a.table g) ⟨stack, t :: rest⟩ = some (.shift next) := by
  obtain ⟨next, step⟩ := path.exists_transition wellFormed canonical valid expected
  let c : Configuration := ⟨stack, t :: rest⟩
  have asks : a.Asks g c.stack c.lookahead (.shift next) := .shift valid expected step
  have here : a.Path c.stack := path
  rcases here.decided_or_conflicted wellFormed canonical asks with cell | conflicted
  · refine .inr ⟨next, ?_⟩
    rw [Configuration.action?, cell]
  · exact .inl conflicted

/-- A complete item whose lookahead is in front is reduced, unless its cell is in conflict. -/
theorem Path.reduces_or_conflicted {pushed stack : List (Nat × Symbol)}
    (path : a.Path (pushed ++ stack)) {p t : Nat} {production : Production} {input : List Nat}
    (opens : g.Opens (readSymbols stack) p t) (found : g.production? p = some production)
    (user : p ≠ augmentedProduction) (read : readSymbols pushed = production.right)
    (front : input.headD endMarker = t) :
    Conflicted g (a.table g) ⟨pushed ++ stack, input⟩ ∨ ∃ next,
      Configuration.action? g (a.table g) ⟨pushed ++ stack, input⟩ = some (.reduce p next) := by
  let c : Configuration := ⟨pushed ++ stack, input⟩
  have here : a.Path c.stack := path
  let item : Item := ⟨p, production.right.length, t⟩
  have valid : g.Valid (readSymbols c.stack) item := by
    refine ⟨readSymbols stack, production, opens, found, Nat.le_refl _, ?_⟩
    rw [readSymbols_append, read, List.take_length]
  have complete : item.next? g = none := by
    rw [Item.next?_eq_head?, Item.remaining, found, Option.map_some, Option.getD_some,
      List.drop_length, List.head?_nil]
  have ahead : item.lookahead = c.lookahead := front.symm
  have asks : a.Asks g c.stack c.lookahead (.reduce p) := .reduce valid complete ahead user
  rcases here.decided_or_conflicted wellFormed canonical asks with cell | conflicted
  · obtain ⟨next, acts, -⟩ := here.reduces wellFormed canonical valid complete ahead user cell
    exact .inr ⟨next, acts⟩
  · exact .inl conflicted

theorem Path.gathers {pushed stack : List (Nat × Symbol)} (path : a.Path (pushed ++ stack))
    {p t : Nat} {production : Production} {input : List Nat}
    (opens : g.Opens (readSymbols stack) p t) (found : g.production? p = some production)
    (user : p ≠ augmentedProduction) (read : readSymbols pushed = production.right)
    (front : input.headD endMarker = t) :
    Conflicted g (a.table g) ⟨pushed ++ stack, input⟩ ∨ ∃ next,
      Reaches g (a.table g) ⟨pushed ++ stack, input⟩
        ⟨(next, .nonterminal production.left) :: stack, input⟩ := by
  rcases path.reduces_or_conflicted wellFormed canonical opens found user read front with
    conflicted | ⟨next, acts⟩
  · exact .inl conflicted
  · refine .inr ⟨next, .of_action acts ?_⟩
    rw [after?, found, Option.map_some, reduced_append read]

end Automaton

namespace Grammar

/-- A forest below what an item expects is read and built again, unless a conflict is met. -/
theorem Forest.grows {symbols : List Symbol} {trees : List ParseTree}
    (forest : g.Forest symbols trees) {stack : List (Nat × Symbol)} (path : a.Path stack)
    {item : Item} (valid : g.Valid (readSymbols stack) item) {after : List Symbol}
    (expected : item.remaining g = symbols ++ after) {rest : List Nat}
    (ahead : rest.headD endMarker ∈ g.firstSets.firstBefore after item.lookahead)
    (lower : List ParseTree) :
    Raises g (a.table g) ⟨stack, ParseTree.frontiers trees ++ rest⟩ lower symbols trees rest := by
  induction forest generalizing stack item after rest lower with
  | nil => exact .inr ⟨[], rfl, .refl⟩
  | @leaf t symbols trees forest ih =>
    have next : item.next? g = some (.terminal t) := Item.next?_of_remaining expected
    simp only [ParseTree.frontiers, ParseTree.frontier, List.cons_append, List.nil_append]
    rcases path.shifts wellFormed canonical (ParseTree.frontiers trees ++ rest) valid next with
      conflicted | ⟨target, acts⟩
    · exact .inl ⟨_, .refl, conflicted⟩
    · have shifted : Grows g (a.table g) _ _ := .single (.shift acts lower)
      have remaining : item.advance.remaining g = symbols ++ after :=
        Item.rest_of_remaining expected
      have onward : a.Path ((target, .terminal t) :: stack) :=
        Automaton.Path.reaches path wellFormed canonical shifted.reaches
      have advanced := valid.push next target
      exact shifted.raises (ih onward advanced remaining ahead _)
  | @node p production symbols children trees found below forest ihBelow ihRest =>
    have next : item.next? g = some (.nonterminal production.left) :=
      Item.next?_of_remaining expected
    simp only [ParseTree.frontiers, ParseTree.frontier, List.append_assoc]
    -- The children are opened with the terminal that comes behind their leaves.
    have opened : g.Predicts item
        ⟨p, 0, (ParseTree.frontiers trees ++ rest).headD endMarker⟩ := by
      apply Predicts.begin found next
      rw [Item.rest_of_remaining expected]
      exact forest.mem_firstBefore wellFormed ahead
    have inner := valid.predicts opened
    have expectedBelow : Item.remaining g
        ⟨p, 0, (ParseTree.frontiers trees ++ rest).headD endMarker⟩ = production.right ++ [] := by
      rw [Item.remaining_begin found, List.append_nil]
    rcases ihBelow path inner expectedBelow (mem_firstBefore_nil wellFormed _) lower with
      meets | ⟨pushed, read, grown⟩
    · exact .inl meets
    · have above : a.Path (pushed ++ stack) :=
        Automaton.Path.reaches path wellFormed canonical grown.reaches
      rcases above.reduces_or_conflicted wellFormed canonical inner.opens found
        (opened.user wellFormed) read rfl with conflicted | ⟨target, acts⟩
      · exact .inl ⟨_, grown.reaches, conflicted⟩
      · have gathered := grown.tail (.reduce acts found (ParseTree.gather?_reverse_append found below.length_eq _))
        rw [reduced_append read] at gathered
        have remaining : item.advance.remaining g = symbols ++ after :=
          Item.rest_of_remaining expected
        have onward : a.Path ((target, .nonterminal production.left) :: stack) :=
          Automaton.Path.reaches path wellFormed canonical (Grows.reaches gathered)
        have advanced := valid.push next target
        exact Grows.raises gathered (ihRest onward advanced remaining ahead _)

theorem Forest.runs {symbols : List Symbol} {trees : List ParseTree}
    (forest : g.Forest symbols trees) {stack : List (Nat × Symbol)} (path : a.Path stack)
    {item : Item} (valid : g.Valid (readSymbols stack) item) {after : List Symbol}
    (expected : item.remaining g = symbols ++ after) {rest : List Nat}
    (ahead : rest.headD endMarker ∈ g.firstSets.firstBefore after item.lookahead) :
    Gathers g (a.table g) ⟨stack, ParseTree.frontiers trees ++ rest⟩ symbols rest :=
  (forest.grows wellFormed canonical path valid expected ahead []).gathers

/-- The run over the leaves of a tree meets a conflict, or builds the tree and comes to accept. -/
theorem Forest.grows_to_accept {trees : List ParseTree}
    (forest : g.Forest [.nonterminal g.start] trees) :
    MeetsConflict g (a.table g) (initial (ParseTree.frontiers trees)) ∨ ∃ last,
      Grows g (a.table g) (initial (ParseTree.frontiers trees), []) (last, trees.reverse) ∧
      last.action? g (a.table g) = some .accept := by
  have start : g.Valid (readSymbols []) .start := Opens.start.valid wellFormed
  have expected : Item.start.remaining g = [.nonterminal g.start] ++ [] :=
    Item.remaining_begin wellFormed.augmented
  have ahead : ([] : List Nat).headD endMarker ∈
      g.firstSets.firstBefore [] Item.start.lookahead := mem_firstBefore_nil wellFormed _
  have outcome := forest.grows wellFormed canonical .nil start expected ahead []
  rw [List.append_nil] at outcome
  rcases outcome with meets | ⟨pushed, read, grows⟩
  · exact .inl meets
  · let last : Configuration := ⟨pushed ++ [], []⟩
    have path : a.Path last.stack := Automaton.Path.reaches .nil wellFormed canonical grows.reaches
    have next : Item.start.next? g = some (.nonterminal g.start) :=
      Item.next?_of_remaining expected
    have valid : g.Valid (readSymbols last.stack) Item.start.advance := by
      rw [readSymbols_append, read]
      exact start.advance next
    have complete : Item.start.advance.next? g = none := by
      rw [Item.next?_eq_head?, Item.remaining_advance, Item.rest_of_remaining expected]
      rfl
    have asks : a.Asks g last.stack last.lookahead .accept := .accept valid complete rfl rfl
    rcases path.decided_or_conflicted wellFormed canonical asks with cell | conflicted
    · rw [List.append_nil trees.reverse] at grows
      refine .inr ⟨last, grows, ?_⟩
      rw [Configuration.action?, cell]
    · exact .inl ⟨last, grows.reaches, conflicted⟩

/-- The run over a word of the language meets a conflict or comes to accept. -/
theorem Generates.runs {word : List Nat} (generated : g.Generates word) :
    MeetsConflict g (a.table g) (initial word) ∨ ∃ later,
      Reaches g (a.table g) (initial word) later ∧ later.action? g (a.table g) = some .accept := by
  obtain ⟨trees, forest, rfl⟩ := exists_forest_of_derives generated
  rcases forest.grows_to_accept wellFormed canonical with meets | ⟨last, grows, accepts⟩
  · exact .inl meets
  · exact .inr ⟨last, grows.reaches, accepts⟩

end Grammar

end

namespace Grammar

theorem parentheses_generates_pair : parentheses.Generates [1, 2] := by
  have empty : parentheses.production? 2 = some ⟨1, []⟩ := rfl
  have wrapped : parentheses.production? 1 =
    some ⟨1, [.terminal 1, .nonterminal 1, .terminal 2]⟩ := rfl
  have inside : parentheses.Forest [.terminal 1, .nonterminal 1, .terminal 2]
      [.leaf 1, .node 2 [], .leaf 2] :=
    .leaf 1 (.node empty .nil (.leaf 2 .nil))
  exact (Forest.single wrapped inside).derives

end Grammar

namespace Analysis

/-- The run over a word of the language ends, accepting it unless it meets a conflict. -/
theorem run_accepts_or_conflicts {calls : List Call} {g : Grammar} {settings : Settings}
    {analysis : Analysis} {word : List Nat} (defined : Grammar.ofCalls calls = .ok g)
    (analyzed : g.analyze settings = .ok analysis) (generated : g.Generates word) :
    ∃ result : ParseResult,
      (∀ fuel, analysis.table.run g fuel word = some result ↔ result.steps.length ≤ fuel) ∧
      (∀ tokens fuel, g.tokenize tokens = .ok word → result.steps.length ≤ fuel →
        analysis.simulate g fuel tokens = .ok (some result)) ∧
      (result.accepted = true ∨ ∃ s t kind, result.error = some (.conflict s t kind)) ∧
      (analysis.table.hasConflicts = false → result.accepted = true) := by
  have wellFormed := Grammar.wellFormed_ofCalls defined
  obtain ⟨canonical, table⟩ := Grammar.analyze_eq_ok analyzed
  have outcome : ∃ later action,
      Configuration.Reaches g analysis.table (.initial word) later ∧
      later.action? g analysis.table = some action ∧ later.after? g action = none ∧
      (action = .accept ∨ later.Conflicted g analysis.table ∧
        ∃ s t kind, action = .error (.conflict s t kind)) := by
    rcases generated.runs wellFormed canonical with ⟨later, reached, kind, acts⟩ |
      ⟨later, reached, acts⟩
    · rw [← table] at reached acts
      exact ⟨later, _, reached, acts, rfl, .inr ⟨⟨kind, acts⟩, _, _, _, rfl⟩⟩
    · rw [← table] at reached acts
      exact ⟨later, .accept, reached, acts, rfl, .inl rfl⟩
  obtain ⟨later, action, reached, acts, ends, good⟩ := outcome
  obtain ⟨earlier, last, traces, -, same⟩ := reached.exists_traces acts ends 1
  let result := ParseResult.ofSteps word (earlier ++ [last])
  have finished : analysis.table.EndsWith g word result := ⟨_, traces, rfl⟩
  have verdict : result = ⟨action.rejection?.isNone, earlier ++ [last], action.rejection?, word⟩ :=
    same ▸ ParseResult.ofSteps_append word earlier last
  refine ⟨result, finished.run_iff, ?_, ?_, ?_⟩
  · intro tokens fuel tokenized enough
    exact (Grammar.simulate_iff_of_endsWith finished tokenized fuel).mpr enough
  · rcases good with rfl | ⟨-, s, t, kind, rfl⟩
    · exact .inl (by rw [verdict]; rfl)
    · exact .inr ⟨s, t, kind, by rw [verdict]; rfl⟩
  · intro clean
    rcases good with rfl | ⟨conflicted, -⟩
    · rw [verdict]
      rfl
    · exact absurd conflicted.hasConflicts (by simp [clean])

theorem simulate_accepts_parentheses_pair : ∃ analysis result,
    Grammar.parentheses.analyze {} = .ok analysis ∧
    analysis.simulate Grammar.parentheses result.steps.length ["(", ")"] = .ok (some result) ∧
    result.accepted = true := by
  obtain ⟨analysis, analyzed, clean⟩ := Grammar.exists_analysis_parentheses
  obtain ⟨result, -, simulates, -, accepts⟩ := run_accepts_or_conflicts
    Grammar.ofCalls_parentheses analyzed Grammar.parentheses_generates_pair
  have tokenized : Grammar.parentheses.tokenize ["(", ")"] = .ok [1, 2] := by decide +kernel
  exact ⟨analysis, result, analyzed, simulates _ _ tokenized (Nat.le_refl _), accepts clean⟩

end Analysis

end CanonicalLR
