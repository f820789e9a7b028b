import CanonicalLR.Proofs.Table.Cells

/-!
# What a configuration does

A configuration whose stack is a path of the automaton takes an action that its
valid items justify. A reduction always finds its right-hand side on top of the
stack and a transition below it, so that the stack remains a path.
-/

namespace CanonicalLR

namespace Configuration

/-- The configuration that comes next, unless the run ends. -/
def next? (g : Grammar) (table : Table) (c : Configuration) : Option Configuration :=
  (c.action? g table).bind (c.after? g)

def Steps (g : Grammar) (table : Table) (c later : Configuration) : Prop :=
  c.next? g table = some later

/-- A later configuration of the same run. -/
def Reaches (g : Grammar) (table : Table) : Configuration → Configuration → Prop :=
  Relation.ReflTransGen (Steps g table)

/-- The cell of a configuration holds a conflict. -/
def Conflicted (g : Grammar) (table : Table) (c : Configuration) : Prop :=
  ∃ kind, c.action? g table = some (.error (.conflict c.state c.lookahead kind))

theorem next?_eq_some {g : Grammar} {table : Table} {c later : Configuration} :
    c.next? g table = some later ↔
      ∃ action, c.action? g table = some action ∧ c.after? g action = some later :=
  Option.bind_eq_some_iff

theorem Conflicted.hasConflicts {g : Grammar} {table : Table} {c : Configuration}
    (conflicted : c.Conflicted g table) : table.hasConflicts = true := by
  obtain ⟨kind, acts⟩ := conflicted
  cases cell : table.action? c.state c.lookahead with
  | none => simp [action?, cell] at acts
  | some action =>
    cases action with
    | undecided conflict => exact Table.hasConflicts_of_undecided cell
    | decided move =>
      cases move with
      | shift next => simp [action?, cell] at acts
      | accept => simp [action?, cell] at acts
      | reduce p =>
        simp only [action?, cell, Option.map_eq_some_iff] at acts
        obtain ⟨production, -, reduced⟩ := acts
        unfold reduction at reduced
        grind

theorem input_of_lookahead {c : Configuration} {t : Nat} (front : c.lookahead = t)
    (unread : t ≠ endMarker) : c.input = t :: c.input.tail := by
  obtain ⟨stack, input⟩ := c
  cases input with
  | nil => exact absurd front.symm unread
  | cons head tail => exact congrArg (· :: tail) front

/-- An action with what justifies it. -/
inductive Turn (g : Grammar) (a : Automaton) (c : Configuration) : StepAction → Prop where
  | noAction (unasked : ∀ move, ¬ a.Asks g c.stack c.lookahead move) :
      Turn g a c (.error (.noAction c.state c.lookahead))
  | conflict (kind : ConflictKind) : Turn g a c (.error (.conflict c.state c.lookahead kind))
  | shift {t next : Nat} {rest : List Nat} (input : c.input = t :: rest)
      (step : a.transition? c.state (.terminal t) = some next) : Turn g a c (.shift next)
  | reduce {p next : Nat} {before : List Symbol} {production : Production}
      (found : g.production? p = some production) (user : p ≠ augmentedProduction)
      (opens : g.Opens before p c.lookahead)
      (read : readSymbols c.stack = before ++ production.right)
      (step : a.transition? (topState (c.stack.drop production.right.length))
        (.nonterminal production.left) = some next) : Turn g a c (.reduce p next)
  | accept (read : readSymbols c.stack = [.nonterminal g.start])
      (done : c.lookahead = endMarker) : Turn g a c .accept

end Configuration

open CanonicalLR.Configuration

namespace Automaton

variable {g : Grammar} {a : Automaton} {c later : Configuration}
variable (path : a.Path c.stack) (wellFormed : g.WellFormed) (canonical : a.Canonical g)
include path wellFormed canonical

/-- A reduction that is asked for pops its right-hand side and goes on from below it. -/
theorem Path.reduces {item : Item} (valid : g.Valid (readSymbols c.stack) item)
    (complete : item.next? g = none) (ahead : item.lookahead = c.lookahead)
    (user : item.production ≠ augmentedProduction)
    (cell : (a.table g).action? c.state c.lookahead = some (.decided (.reduce item.production))) :
    ∃ next, c.action? g (a.table g) = some (.reduce item.production next) ∧
      Turn g a c (.reduce item.production next) := by
  obtain ⟨before, production, opens, found, read⟩ := valid.complete complete
  obtain ⟨deep, exposed⟩ := readSymbols_drop read
  obtain ⟨source, sourceValid, predicts⟩ := opens.exists_source user
  obtain ⟨sameFound, demanded, -⟩ := predicts
  obtain rfl := Option.some.inj (found.symm.trans sameFound)
  have lower := path.drop production.right.length
  rw [← exposed] at sourceValid
  obtain ⟨next, step⟩ := lower.exists_transition wellFormed canonical sourceValid demanded
  refine ⟨next, ?_, .reduce found user (ahead ▸ opens) read step⟩
  have reduced : c.reduction (a.table g) item.production production =
      .reduce item.production next := by
    unfold Configuration.reduction
    rw [if_neg (Nat.not_lt_of_le deep)]
    dsimp only
    rw [lower.goto?_table wellFormed canonical (wellFormed.left_lt found), step]
  rw [Configuration.action?, cell]
  simp only [found, Option.map_some, reduced]

/-- Every configuration on a path has an action, and the valid items justify it. -/
theorem Path.turn : ∃ action, c.action? g (a.table g) = some action ∧ Turn g a c action := by
  cases cell : (a.table g).action? c.state c.lookahead with
  | none =>
    refine ⟨_, ?_, .noAction (path.not_asks_of_empty wellFormed canonical cell)⟩
    rw [Configuration.action?, cell]
  | some action =>
    cases action with
    | undecided conflict =>
      refine ⟨_, ?_, .conflict conflict.kind⟩
      rw [Configuration.action?, cell]
    | decided move =>
      cases path.asks_of_decided wellFormed canonical cell with
      | @shift item next valid before step =>
        have declared := Item.declared_of_next? wellFormed before
        refine ⟨.shift next, ?_, .shift (input_of_lookahead rfl (Nat.ne_of_gt declared.1)) step⟩
        rw [Configuration.action?, cell]
      | accept valid complete ahead augmented =>
        refine ⟨.accept, ?_, ?_⟩
        · rw [Configuration.action?, cell]
        · obtain ⟨before, production, opens, found, read⟩ := valid.complete complete
          rw [augmented] at opens found
          obtain ⟨rfl, done⟩ := opens.augmented wellFormed
          rw [wellFormed.augmented] at found
          obtain rfl := Option.some.inj found
          exact .accept read (ahead ▸ done)
      | reduce valid complete ahead user =>
        obtain ⟨next, acts, turn⟩ :=
          path.reduces wellFormed canonical valid complete ahead user cell
        exact ⟨_, acts, turn⟩

theorem Path.turn_of_action? {action : StepAction}
    (acts : c.action? g (a.table g) = some action) : Turn g a c action := by
  obtain ⟨same, found, turn⟩ := path.turn wellFormed canonical
  exact Option.some.inj (found.symm.trans acts) ▸ turn

/-- A cell that a move is asked for in holds that move alone or a conflict. -/
theorem Path.decided_or_conflicted {move : Move} (asks : a.Asks g c.stack c.lookahead move) :
    (a.table g).action? c.state c.lookahead = some (.decided move) ∨
      c.Conflicted g (a.table g) := by
  cases cell : (a.table g).action? c.state c.lookahead with
  | none => exact absurd asks (path.not_asks_of_empty wellFormed canonical cell move)
  | some action =>
    cases action with
    | undecided conflict =>
      refine .inr ⟨conflict.kind, ?_⟩
      rw [Configuration.action?, cell]
    | decided other =>
      obtain rfl := path.eq_of_decided wellFormed canonical cell asks
      exact .inl rfl

/-! ## Steps -/

theorem Path.step (stepped : c.next? g (a.table g) = some later) : a.Path later.stack := by
  obtain ⟨action, acts, followed⟩ := next?_eq_some.mp stepped
  cases path.turn_of_action? wellFormed canonical acts with
  | noAction | conflict | accept => cases followed
  | @shift t next rest input step =>
    obtain rfl := Option.some.inj followed
    have front : c.lookahead = t := by rw [lookahead, input, List.headD_cons]
    exact .cons (front ▸ step) path
  | reduce found _ _ _ step =>
    simp only [after?, found, Option.map_some] at followed
    obtain rfl := Option.some.inj followed
    exact .cons step (path.drop _)

theorem Path.reaches (reached : c.Reaches g (a.table g) later) : a.Path later.stack := by
  induction reached with
  | refl => exact path
  | tail _ stepped ih => exact ih.step wellFormed canonical stepped

end Automaton

end CanonicalLR
