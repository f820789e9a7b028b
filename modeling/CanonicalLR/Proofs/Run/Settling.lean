import CanonicalLR.Proofs.Run.Completeness

/-!
# Reductions settle

Where every nonterminal that can be reached vanishes or begins with a terminal,
the reductions before one terminal come to an end: the terminal is shifted, the
input is accepted, or a conflict is met.
-/

namespace CanonicalLR

open CanonicalLR.Configuration

namespace Grammar

variable {g : Grammar}

/-- Every reachable nonterminal derives the empty string or a string with a terminal in front. -/
def Unblocked (g : Grammar) : Prop :=
  ∀ n, g.Reachable n → g.Derives [.nonterminal n] [] ∨
    ∃ t rest, g.Derives [.nonterminal n] (.terminal t :: rest)

/-- The nonterminals of every opened production are reachable. -/
theorem Opens.reachable (wellFormed : g.WellFormed) {before : List Symbol} {p t n : Nat}
    {production : Production} (opens : g.Opens before p t)
    (found : g.production? p = some production) (used : .nonterminal n ∈ production.right) :
    g.Reachable n := by
  induction opens generalizing n production with
  | start =>
    rw [wellFormed.augmented] at found
    obtain rfl := Option.some.inj found
    obtain rfl := Symbol.nonterminal.inj (List.mem_singleton.mp used)
    exact ⟨[], [], derives_refl _⟩
  | predict _ outerFound predicts ih =>
    obtain ⟨sameFound, next, -⟩ := predicts
    obtain rfl := Option.some.inj (sameFound.symm.trans found)
    obtain ⟨outer, sameOuter, demanded⟩ := Item.mem_right_of_next? next
    exact (ih sameOuter demanded).of_production found used

theorem Unblocked.exists_mem_firstBefore (wellFormed : g.WellFormed) (unblocked : g.Unblocked)
    {symbols : List Symbol} (reachable : ∀ n, .nonterminal n ∈ symbols → g.Reachable n)
    (lookahead : Nat) : ∃ t, t ∈ g.firstSets.firstBefore symbols lookahead := by
  simp only [mem_firstBefore_iff wellFormed]
  induction symbols with
  | nil => exact ⟨lookahead, .inr ⟨erases_nil, rfl⟩⟩
  | cons symbol rest ih =>
    cases symbol with
    | terminal t => exact ⟨t, .inl (.terminal t rest)⟩
    | nonterminal n =>
      rcases unblocked n (reachable n List.mem_cons_self) with empty | ⟨t, more, derived⟩
      · have vanishing := erases_iff_derives.mpr empty
        obtain ⟨t, begins | ⟨erased, same⟩⟩ :=
          ih fun m later => reachable m (List.mem_cons_of_mem _ later)
        · exact ⟨t, .inl (.skip vanishing begins)⟩
        · exact ⟨t, .inr ⟨erases_cons.mpr ⟨vanishing, erased⟩, same⟩⟩
      · have begins := begins_iff_derives.mpr ⟨more, derived⟩
        exact ⟨t, .inl (begins.append_right rest)⟩

theorem Valid.exists_mem_firstBefore (wellFormed : g.WellFormed) (unblocked : g.Unblocked)
    {read : List Symbol} {item : Item} (valid : g.Valid read item) :
    ∃ t, t ∈ g.firstSets.firstBefore (item.rest g) item.lookahead := by
  obtain ⟨before, production, opens, found, -⟩ := valid
  apply unblocked.exists_mem_firstBefore wellFormed
  intro n used
  apply opens.reachable wellFormed found
  simp only [Item.rest, found, Option.map_some, Option.getD_some] at used
  exact List.mem_of_mem_drop used

end Grammar

namespace Configuration

/-- The next action shifts or accepts, or the cell is in conflict. -/
def Settled (g : Grammar) (table : Table) (c : Configuration) : Prop :=
  (∃ next, c.action? g table = some (.shift next)) ∨ c.action? g table = some .accept ∨
    c.Conflicted g table

def Settles (g : Grammar) (table : Table) (c : Configuration) : Prop :=
  ∃ later, c.Reaches g table later ∧ later.Settled g table

variable {g : Grammar} {table : Table} {c later : Configuration}

theorem Settled.action {action : StepAction} (settled : c.Settled g table)
    (acts : c.action? g table = some action) : (∃ next, action = .shift next) ∨
      action = .accept ∨ ∃ s t kind, action = .error (.conflict s t kind) := by
  rcases settled with ⟨next, shift⟩ | accept | ⟨kind, conflict⟩
  · exact .inl ⟨next, Option.some.inj (acts.symm.trans shift)⟩
  · exact .inr (.inl (Option.some.inj (acts.symm.trans accept)))
  · exact .inr (.inr ⟨_, _, kind, Option.some.inj (acts.symm.trans conflict)⟩)

theorem Reaches.settles (reached : c.Reaches g table later) (settles : later.Settles g table) :
    c.Settles g table := by
  obtain ⟨last, onward, settled⟩ := settles
  exact ⟨last, reached.trans onward, settled⟩

theorem MeetsConflict.settles (meets : c.MeetsConflict g table) : c.Settles g table := by
  obtain ⟨later, reached, conflicted⟩ := meets
  exact ⟨later, reached, .inr (.inr conflicted)⟩

end Configuration

namespace Grammar

variable {g : Grammar} {a : Automaton} (wellFormed : g.WellFormed) (canonical : a.Canonical g)
include wellFormed canonical

/-- A vanishing string that a valid item expects is gathered, unless a conflict is met. -/
theorem Erases.runs {symbols : List Symbol} (vanishing : g.Erases symbols)
    {stack : List (Nat × Symbol)} (path : a.Path stack) {item : Item}
    (valid : g.Valid (readSymbols stack) item) {after : List Symbol}
    (expected : item.remaining g = symbols ++ after) {input : List Nat}
    (ahead : input.headD endMarker ∈ g.firstSets.firstBefore after item.lookahead) :
    Gathers g (a.table g) ⟨stack, input⟩ symbols input := by
  obtain ⟨trees, forest, bare⟩ := vanishing
  have outcome := forest.runs wellFormed canonical path valid expected ahead
  rwa [bare, List.nil_append] at outcome

/-- The run settles if the terminal in front may begin what a valid item expects. -/
theorem Begins.settles (unblocked : g.Unblocked) {symbols : List Symbol} {t : Nat}
    (begins : g.Begins symbols t) {stack : List (Nat × Symbol)} (path : a.Path stack)
    {item : Item} (valid : g.Valid (readSymbols stack) item)
    (expected : item.remaining g = symbols) {input : List Nat}
    (front : input.headD endMarker = t) : Settles g (a.table g) ⟨stack, input⟩ := by
  induction begins generalizing stack item with
  | terminal t rest =>
    have next : item.next? g = some (.terminal t) := Item.next?_of_remaining expected
    have declared := Item.declared_of_next? wellFormed next
    have split : input = t :: input.tail :=
      input_of_lookahead (c := ⟨stack, input⟩) front (Nat.ne_of_gt declared.1)
    rw [split]
    rcases path.shifts wellFormed canonical input.tail valid next with conflicted | shift
    · exact ⟨_, .refl, .inr (.inr conflicted)⟩
    · exact ⟨_, .refl, .inl shift⟩
  | @skip n t rest vanishing later ih =>
    have ahead : input.headD endMarker ∈ g.firstSets.firstBefore rest item.lookahead :=
      (mem_firstBefore_iff wellFormed).mpr (.inl (front ▸ later))
    rcases vanishing.runs wellFormed canonical path valid expected ahead with
      meets | ⟨pushed, read, reached⟩
    · exact meets.settles
    · have next : item.next? g = some (.nonterminal n) := Item.next?_of_remaining expected
      have advanced : g.Valid (readSymbols (pushed ++ stack)) item.advance := by
        rw [readSymbols_append, read]
        exact valid.advance next
      have onward : a.Path (pushed ++ stack) :=
        Automaton.Path.reaches path wellFormed canonical reached
      have remaining : item.advance.remaining g = rest := Item.rest_of_remaining expected
      exact reached.settles (ih onward advanced remaining front)
  | @enter p t production found below rest ih =>
    have next : item.next? g = some (.nonterminal production.left) :=
      Item.next?_of_remaining expected
    obtain ⟨u, ahead⟩ := valid.exists_mem_firstBefore wellFormed unblocked
    exact ih path (valid.predicts (.begin found next ahead)) (Item.remaining_begin found) front

/-- The run settles on a terminal that may come next at a valid item, unless it gathers all that
the item expects. -/
theorem Valid.settles_or_gathers (unblocked : g.Unblocked) {stack : List (Nat × Symbol)}
    {item : Item} (valid : g.Valid (readSymbols stack) item) (path : a.Path stack)
    {input : List Nat} (ahead : input.headD endMarker ∈
      g.firstSets.firstBefore (item.remaining g) item.lookahead) :
    Settles g (a.table g) ⟨stack, input⟩ ∨ input.headD endMarker = item.lookahead ∧
      ∃ pushed, readSymbols pushed = item.remaining g ∧
        Reaches g (a.table g) ⟨stack, input⟩ ⟨pushed ++ stack, input⟩ := by
  rcases (mem_firstBefore_iff wellFormed).mp ahead with begins | ⟨vanishing, same⟩
  · exact .inl (begins.settles wellFormed canonical unblocked path valid rfl rfl)
  · have behind : input.headD endMarker ∈ g.firstSets.firstBefore [] item.lookahead :=
      (mem_firstBefore_iff wellFormed).mpr (.inr ⟨erases_nil, same⟩)
    rcases vanishing.runs wellFormed canonical path valid (List.append_nil _).symm behind with
      meets | gathers
    · exact .inl meets.settles
    · exact .inr ⟨same, gathers⟩

/-- The run settles if a complete item is valid whose lookahead is in front. -/
theorem Opens.settles (unblocked : g.Unblocked) {before : List Symbol} {p t : Nat}
    (opens : g.Opens before p t) {stack : List (Nat × Symbol)} (path : a.Path stack)
    {production : Production} (found : g.production? p = some production)
    (read : readSymbols stack = before ++ production.right) {input : List Nat}
    (front : input.headD endMarker = t) : Settles g (a.table g) ⟨stack, input⟩ := by
  induction opens generalizing stack production with
  | start =>
    let c : Configuration := ⟨stack, input⟩
    have here : a.Path c.stack := path
    have valid : g.Valid (readSymbols c.stack)
        ⟨augmentedProduction, production.right.length, endMarker⟩ :=
      ⟨[], production, .start, found, Nat.le_refl _, by rw [List.take_length, ← read]⟩
    have complete : Item.next? g
        ⟨augmentedProduction, production.right.length, endMarker⟩ = none := by
      simp [Item.next?, found]
    have asks : a.Asks g c.stack c.lookahead .accept := .accept valid complete front.symm rfl
    rcases here.decided_or_conflicted wellFormed canonical asks with cell | conflicted
    · refine ⟨c, .refl, .inr (.inl ?_)⟩
      rw [Configuration.action?, cell]
    · exact ⟨c, .refl, .inr (.inr conflicted)⟩
  | @predict before p t dot outer other opened outerFound predicts ih =>
    have within : dot ≤ outer.right.length := Nat.le_of_lt (predicts.dot_lt outerFound)
    have user := predicts.user wellFormed
    obtain ⟨pushed, below, rfl, exposed, topmost⟩ := readSymbols_split read
    have source : g.Valid (readSymbols below) ⟨p, dot, t⟩ :=
      exposed ▸ ⟨before, outer, opened, outerFound, within, rfl⟩
    obtain ⟨q, unmoved, u⟩ := other
    obtain rfl : unmoved = 0 := predicts.dot_eq_zero
    have inner := source.predicts predicts
    obtain ⟨sameFound, next, ahead⟩ := predicts
    obtain rfl := Option.some.inj (found.symm.trans sameFound)
    rcases path.gathers wellFormed canonical inner.opens found user topmost front with
      conflicted | ⟨target, gathered⟩
    · exact ⟨_, .refl, .inr (.inr conflicted)⟩
    · -- The dot of the item that predicted the production has moved over its left-hand side.
      have advanced := source.push next target
      have onward := Automaton.Path.reaches path wellFormed canonical gathered
      have ahead : input.headD endMarker ∈ g.firstSets.firstBefore
          (Item.remaining g (Item.advance ⟨p, dot, t⟩)) t := front ▸ ahead
      apply gathered.settles
      rcases advanced.settles_or_gathers wellFormed canonical unblocked onward ahead with
        settles | ⟨same, more, readMore, reached⟩
      · exact settles
      · apply reached.settles
        apply ih _ outerFound _ same
        · exact Automaton.Path.reaches onward wellFormed canonical reached
        · rw [readSymbols_append, readSymbols_cons, readMore, exposed, Item.remaining_advance]
          conv_rhs => rw [Item.right_eq_of_next? outerFound next]
          simp [List.append_assoc]

end Grammar

end CanonicalLR
