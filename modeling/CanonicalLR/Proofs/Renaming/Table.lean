import CanonicalLR.Proofs.Renaming.States
import CanonicalLR.Proofs.Table.Cells

/-!
# Renumbered tables

Corresponding cells hold corresponding moves. A conflict may list them in
another order, but it is of the same kind, as a shift always comes first.
-/

namespace CanonicalLR

def Renumbering.move (r : Renumbering) : Move → Move
  | .shift next => .shift (r.states next)
  | .accept => .accept
  | .reduce p => .reduce (r.productions p)

theorem Renumbering.move_injective (r : Renumbering) : Function.Injective r.move := by
  intro first second same
  cases first <;> cases second <;> simp_all [Renumbering.move]

theorem Renumbering.isShift_move (r : Renumbering) (move : Move) :
    (r.move move).isShift = move.isShift := by
  cases move <;> rfl

/-- Two cells hold the same moves up to a renaming; the candidates of a conflict may be listed in
different orders. -/
inductive Alike (rename : Move → Move) : Option Action → Option Action → Prop where
  | empty : Alike rename none none
  | decided (move : Move) : Alike rename (some (.decided move)) (some (.decided (rename move)))
  | undecided {first second : Conflict} (kind : second.kind = first.kind)
      (candidates : second.candidates.Perm (first.candidates.map rename)) :
      Alike rename (some (.undecided first)) (some (.undecided second))

theorem alike_ofMoves {rename : Move → Move} {first second : List Move}
    (perm : second.Perm (first.map rename))
    (leads : second.head?.any Move.isShift = first.head?.any Move.isShift) :
    Alike rename (Action.ofMoves first) (Action.ofMoves second) := by
  match first with
  | [] =>
    obtain rfl := perm.eq_nil
    exact .empty
  | [move] =>
    obtain rfl := List.perm_singleton.mp perm
    exact .decided move
  | preferred :: next :: others =>
    match second with
    | [] => exact absurd perm.length_eq (by simp)
    | [_] => exact absurd perm.length_eq (by simp)
    | _ :: _ :: _ =>
      refine .undecided ?_ perm
      simp only [List.head?_cons, Option.any_some] at leads
      rw [Conflict.kind, Conflict.kind, leads]

namespace Renumbers

variable {r : Renumbering} {g h : Grammar} {a b : Automaton} (renumbers : Renumbers r g h a b)
  {state : State} {s t : Nat} {move : Move}
include renumbers

theorem mem_shifts_iff :
    move ∈ (r.state state).shifts h (b.outgoing (r.states s)) (r.terminals t) ↔
      ∃ source ∈ state.shifts g (a.outgoing s) t, r.move source = move := by
  have steps : Automaton.target? (b.outgoing (r.states s)) (.terminal (r.terminals t)) =
      (Automaton.target? (a.outgoing s) (.terminal t)).map r.states :=
    renumbers.transition? s (.terminal t)
  rw [State.mem_shifts, steps]
  constructor
  · rintro ⟨_, member, before, _, step, rfl⟩
    obtain ⟨item, inside, rfl⟩ := r.mem_itemSet.mp member
    obtain ⟨next, found, rfl⟩ := Option.map_eq_some_iff.mp step
    exact ⟨.shift next, State.mem_shifts.mpr
      ⟨item, inside, renumbers.next?_eq_some_iff.mp before, next, found, rfl⟩, rfl⟩
  · rintro ⟨source, member, rfl⟩
    obtain ⟨item, inside, before, next, found, rfl⟩ := State.mem_shifts.mp member
    exact ⟨r.item item, r.item_mem_itemSet.mpr inside, renumbers.next?_eq_some_iff.mpr before,
      r.states next, by rw [found, Option.map_some], rfl⟩

theorem mem_acceptances_iff : move ∈ (r.state state).acceptances h (r.terminals t) ↔
    ∃ source ∈ state.acceptances g t, r.move source = move := by
  rw [State.mem_acceptances]
  constructor
  · rintro ⟨_, member, ahead, complete, augmented, rfl⟩
    obtain ⟨item, inside, rfl⟩ := r.mem_itemSet.mp member
    exact ⟨.accept, State.mem_acceptances.mpr ⟨item, inside, r.terminals.injective ahead,
      renumbers.next?_eq_none_iff.mp complete, renumbers.augmentedProduction_iff.mp augmented, rfl⟩,
      rfl⟩
  · rintro ⟨source, member, rfl⟩
    obtain ⟨item, inside, ahead, complete, augmented, rfl⟩ := State.mem_acceptances.mp member
    exact ⟨r.item item, r.item_mem_itemSet.mpr inside, congrArg r.terminals ahead,
      renumbers.next?_eq_none_iff.mpr complete, renumbers.augmentedProduction_iff.mpr augmented,
      rfl⟩

theorem mem_reductions_iff : move ∈ (r.state state).reductions h (r.terminals t) ↔
    ∃ source ∈ state.reductions g t, r.move source = move := by
  rw [State.mem_reductions]
  constructor
  · rintro ⟨_, member, ahead, complete, user, rfl⟩
    obtain ⟨item, inside, rfl⟩ := r.mem_itemSet.mp member
    exact ⟨.reduce item.production, State.mem_reductions.mpr ⟨item, inside,
      r.terminals.injective ahead, renumbers.next?_eq_none_iff.mp complete,
      mt renumbers.augmentedProduction_iff.mpr user, rfl⟩, rfl⟩
  · rintro ⟨source, member, rfl⟩
    obtain ⟨item, inside, ahead, complete, user, rfl⟩ := State.mem_reductions.mp member
    exact ⟨r.item item, r.item_mem_itemSet.mpr inside, congrArg r.terminals ahead,
      renumbers.next?_eq_none_iff.mpr complete, mt renumbers.augmentedProduction_iff.mp user, rfl⟩

/-- The same moves are demanded, up to the renumbering. -/
theorem demanded_perm :
    ((r.state state).demanded h (b.outgoing (r.states s)) (r.terminals t)).Perm
      ((state.demanded g (a.outgoing s) t).map r.move) := by
  apply (List.perm_ext_iff_of_nodup (State.demanded_nodup ..)
    ((State.demanded_nodup ..).map r.move_injective)).mpr
  intro move
  simp only [State.demanded, List.mem_map, List.mem_append, or_and_right, exists_or,
    renumbers.mem_shifts_iff, renumbers.mem_acceptances_iff, renumbers.mem_reductions_iff]

theorem alike_demanded :
    Alike r.move (state.action? g (a.outgoing s) t)
      ((r.state state).action? h (b.outgoing (r.states s)) (r.terminals t)) := by
  have perm : ((r.state state).demanded h (b.outgoing (r.states s)) (r.terminals t)).Perm
      ((state.demanded g (a.outgoing s) t).map r.move) := renumbers.demanded_perm
  apply alike_ofMoves perm
  rw [State.isShift_head?_demanded, State.isShift_head?_demanded, perm.any_eq, List.any_map]
  exact congrArg _ (funext r.isShift_move)

/-- Corresponding cells are filled alike. -/
theorem action? (s t : Nat) : Alike r.move ((a.table g).action? s t)
    ((b.table h).action? (r.states s) (r.terminals t)) := by
  have numbered := renumbers.state? s
  cases found : a.state? s with
  | none =>
    rw [found, Option.map_none] at numbered
    rw [Table.action?, Table.action?, Automaton.row_of_table, Automaton.row_of_table, found,
      numbered]
    exact .empty
  | some state =>
    rw [found, Option.map_some] at numbered
    rw [Automaton.action?_table found, Automaton.action?_table numbered]
    by_cases inside : t < g.terminals.size
    · rw [if_pos inside, if_pos (renumbers.terminal_lt_iff.mpr inside)]
      exact renumbers.alike_demanded
    · rw [if_neg inside, if_neg (mt renumbers.terminal_lt_iff.mp inside)]
      exact .empty

theorem goto? (s n : Nat) : (b.table h).goto? (r.states s) (r.nonterminals n) =
    ((a.table g).goto? s n).map r.states := by
  have numbered := renumbers.state? s
  cases found : a.state? s with
  | none =>
    rw [found, Option.map_none] at numbered
    rw [Table.goto?, Table.goto?, Automaton.row_of_table, Automaton.row_of_table, found, numbered]
    rfl
  | some state =>
    rw [found, Option.map_some] at numbered
    rw [Automaton.goto?_table found, Automaton.goto?_table numbered]
    by_cases inside : n < g.nonterminals.size
    · rw [if_pos inside, if_pos (renumbers.nonterminal_lt_iff.mpr inside)]
      exact renumbers.transition? s (.nonterminal n)
    · rw [if_neg inside, if_neg (mt renumbers.nonterminal_lt_iff.mp inside)]
      rfl

end Renumbers

end CanonicalLR
