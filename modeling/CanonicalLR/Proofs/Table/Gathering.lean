import CanonicalLR.Proofs.Table.Cells
import Mathlib.Data.List.Sort

/-!
# Cells gathered item by item

The cells of a state can be gathered in one pass over its items, in any order and
with repetitions. For each terminal a record keeps the shift, whether a word ends
there, and the productions to reduce by; only at the end it is told whether the
record is one move or a conflict. The pass comes to the cells of the table.
-/

namespace CanonicalLR

/-- What a cell is filled with. A conflict keeps its kind beside its candidates. -/
inductive Filling where
  | move (move : Move)
  | conflict (kind : ConflictKind) (candidates : List Move)
deriving DecidableEq

def Action.filling : Action → Filling
  | .decided move => .move move
  | .undecided conflict => .conflict conflict.kind conflict.candidates

/-! ## The record of a terminal -/

/-- What the items seen so far ask for before a terminal. -/
structure Pending where
  shift? : Option Nat
  accepts : Bool
  reduces : List Nat

namespace Pending

def idle : Pending :=
  ⟨none, false, []⟩

def add (pending : Pending) : Move → Pending
  | .shift next => { pending with shift? := some next }
  | .accept => { pending with accepts := true }
  | .reduce p =>
      if p ∈ pending.reduces then pending
      else { pending with reduces := pending.reduces ++ [p] }

def Has (pending : Pending) : Move → Prop
  | .shift next => pending.shift? = some next
  | .accept => pending.accepts = true
  | .reduce p => p ∈ pending.reduces

def ascending (pending : Pending) : List Nat :=
  pending.reduces.mergeSort

def candidates (pending : Pending) : List Move :=
  pending.shift?.toList.map .shift ++ (if pending.accepts then [.accept] else []) ++
    pending.ascending.map .reduce

def filling (pending : Pending) : Filling :=
  match pending.shift?, pending.accepts, pending.ascending with
  | some next, false, [] => .move (.shift next)
  | none, true, [] => .move .accept
  | none, false, [p] => .move (.reduce p)
  | shift?, _, _ =>
      .conflict (if shift?.isSome then .shiftReduce else .reduceReduce) pending.candidates

variable {pending : Pending} {move other : Move}

theorem not_has_idle (move : Move) : ¬ idle.Has move := by
  cases move <;> simp [Has, idle]

theorem mem_candidates : move ∈ pending.candidates ↔ pending.Has move := by
  cases move with
  | shift next => simp [candidates, Has]
  | accept => simp [candidates, Has]
  | reduce p => simp [candidates, Has, ascending]

theorem add_reduce_known {p : Nat} (known : p ∈ pending.reduces) :
    pending.add (.reduce p) = pending :=
  if_pos known

theorem add_reduce_new {p : Nat} (new : p ∉ pending.reduces) :
    pending.add (.reduce p) = { pending with reduces := pending.reduces ++ [p] } :=
  if_neg new

/-- A record takes a move in, and keeps what it has unless that is a shift elsewhere. -/
theorem has_add (once : ∀ next earlier, move = .shift next → pending.Has (.shift earlier) →
    earlier = next) : (pending.add move).Has other ↔ other = move ∨ pending.Has other := by
  cases move with
  | shift next =>
    cases other with
    | shift earlier =>
      rw [Move.shift.injEq]
      constructor
      · exact fun same => .inl (Option.some.inj same).symm
      · rintro (rfl | has)
        · rfl
        · exact congrArg some (once next earlier rfl has).symm
    | accept => simp [add, Has]
    | reduce q => simp [add, Has]
  | accept => cases other <;> simp [add, Has]
  | reduce p =>
    by_cases known : p ∈ pending.reduces
    · rw [add_reduce_known known]
      exact ⟨.inr, fun either => either.elim (fun same => same ▸ known) id⟩
    · rw [add_reduce_new known]
      cases other <;> simp [Has, or_comm]

theorem nodup_add (once : pending.reduces.Nodup) (move : Move) :
    (pending.add move).reduces.Nodup := by
  cases move with
  | shift => exact once
  | accept => exact once
  | reduce p =>
    by_cases known : p ∈ pending.reduces
    · rwa [add_reduce_known known]
    · rw [add_reduce_new known]
      exact once.append (List.nodup_singleton p) (by simpa using known)

theorem candidates_pairwise (once : pending.reduces.Nodup) :
    pending.candidates.Pairwise Move.Before := by
  have ascending : pending.ascending.Pairwise (· < ·) := by
    have sorted : pending.ascending.Pairwise (· ≤ ·) := List.pairwise_mergeSort' (· ≤ ·) _
    have distinct : pending.ascending.Nodup := (List.mergeSort_perm ..).nodup_iff.mpr once
    exact (sorted.and distinct).imp fun both => Nat.lt_of_le_of_ne both.1 both.2
  rw [candidates, List.pairwise_append, List.pairwise_append, List.pairwise_map]
  refine ⟨⟨?_, ?_, ?_⟩, List.pairwise_map.mpr ascending, ?_⟩
  · cases pending.shift? <;> simp
  · split <;> simp
  · intro earlier shifted later accepted
    obtain ⟨next, -, rfl⟩ := List.mem_map.mp shifted
    obtain ⟨-, rfl⟩ : pending.accepts = true ∧ later = .accept := by simpa using accepted
    trivial
  · intro earlier among later reduced
    obtain ⟨p, -, rfl⟩ := List.mem_map.mp reduced
    rcases List.mem_append.mp among with shifted | accepted
    · obtain ⟨next, -, rfl⟩ := List.mem_map.mp shifted
      trivial
    · obtain ⟨-, rfl⟩ : pending.accepts = true ∧ earlier = .accept := by simpa using accepted
      trivial

/-- Matched by cases a record is filled as the list of its candidates is. -/
theorem filling_eq (busy : pending.candidates ≠ []) :
    (Action.ofMoves pending.candidates).map Action.filling = some pending.filling := by
  revert busy
  unfold filling candidates
  cases pending.shift? <;> cases pending.accepts <;>
    rcases pending.ascending with _ | ⟨p, _ | ⟨q, rest⟩⟩ <;>
    first
      | exact fun _ => rfl
      | exact fun busy => (busy rfl).elim

end Pending

/-! ## Requests -/

/-- What an item asks a row for. -/
inductive Request where
  | claim (t : Nat) (move : Move)
  | pass (n next : Nat)
deriving DecidableEq

/-- An item without a transition over the symbol after its dot asks for nothing. -/
def Item.request? (g : Grammar) (outgoing : List Transition) (item : Item) : Option Request :=
  match item.next? g with
  | some (.terminal t) =>
      (Automaton.target? outgoing (.terminal t)).map fun next => .claim t (.shift next)
  | some (.nonterminal n) =>
      (Automaton.target? outgoing (.nonterminal n)).map fun next => .pass n next
  | none => some (.claim item.lookahead (.completing item.production))

/-- The records of the terminals, and the next states on nonterminals. -/
structure Gathered where
  pending : Cells Pending
  gotos : Cells Nat

namespace Gathered

def empty : Gathered :=
  ⟨.empty, .empty⟩

def recordAt (gathered : Gathered) (t : Nat) : Pending :=
  (gathered.pending.get? t).getD .idle

def grant (gathered : Gathered) : Request → Gathered
  | .claim t move =>
      { gathered with pending := gathered.pending.put t ((gathered.recordAt t).add move) }
  | .pass n next => { gathered with gotos := gathered.gotos.put n next }

/-- One pass over the items. -/
def ofItems (g : Grammar) (outgoing : List Transition) (items : List Item) : Gathered :=
  (items.filterMap (Item.request? g outgoing)).foldl grant .empty

end Gathered

/-- The requests ask for no two targets of one symbol. -/
structure Request.Agree (requests : List Request) : Prop where
  shift : ∀ t next other, .claim t (.shift next) ∈ requests → .claim t (.shift other) ∈ requests →
    next = other
  pass : ∀ n next other, .pass n next ∈ requests → .pass n other ∈ requests → next = other

namespace Gathered

variable {requests rest : List Request} {request : Request} {gathered : Gathered} {t : Nat}

theorem recordAt_claim (gathered : Gathered) (t u : Nat) (move : Move) :
    (gathered.grant (.claim t move)).recordAt u =
      if u = t then (gathered.recordAt t).add move else gathered.recordAt u := by
  rw [recordAt, grant, Cells.get?_put]
  split <;> rfl

/-- The records have what was requested, and there are no others. -/
structure Grants (requests : List Request) (gathered : Gathered) : Prop where
  claims : ∀ t move, (gathered.recordAt t).Has move ↔ .claim t move ∈ requests
  busy : ∀ t pending, gathered.pending.get? t = some pending → ∃ move, pending.Has move
  once : ∀ t, (gathered.recordAt t).reduces.Nodup
  passes : ∀ n next, gathered.gotos.get? n = some next ↔ .pass n next ∈ requests

theorem grants_empty : Grants [] empty where
  claims _ move := iff_of_false (Pending.not_has_idle move) List.not_mem_nil
  busy _ _ found := by cases found
  once _ := List.nodup_nil
  passes _ _ := iff_of_false (by simp [empty, Cells.get?, Cells.empty]) List.not_mem_nil

theorem Grants.grant (grants : Grants requests gathered)
    (agree : Request.Agree (requests ++ [request])) :
    Grants (requests ++ [request]) (gathered.grant request) := by
  have earlier {old : Request} (member : old ∈ requests) : old ∈ requests ++ [request] :=
    List.mem_append_left _ member
  have latest : request ∈ requests ++ [request] := by simp
  cases request with
  | claim t move =>
    have added (other : Move) : ((gathered.recordAt t).add move).Has other ↔
        other = move ∨ (gathered.recordAt t).Has other := by
      refine Pending.has_add ?_
      rintro next old rfl has
      exact agree.shift t old next (earlier ((grants.claims t _).mp has)) latest
    constructor
    · intro u other
      rw [recordAt_claim, List.mem_append, List.mem_singleton, Request.claim.injEq, ← grants.claims]
      split
      · rename_i same
        rw [added, same, eq_self, true_and, or_comm]
      · rename_i different
        simp [different]
    · intro u pending found
      rw [Gathered.grant, Cells.get?_put] at found
      split at found
      · obtain rfl := Option.some.inj found
        exact ⟨move, (added move).mpr (.inl rfl)⟩
      · exact grants.busy u pending found
    · intro u
      rw [recordAt_claim]
      split
      · exact Pending.nodup_add (grants.once t) move
      · exact grants.once u
    · intro n next
      rw [List.mem_append, List.mem_singleton, or_iff_left (by simp)]
      exact grants.passes n next
  | pass n next =>
    refine ⟨fun u move => ?_, grants.busy, grants.once, fun m other => ?_⟩
    · rw [List.mem_append, List.mem_singleton, or_iff_left (by simp)]
      exact grants.claims u move
    · rw [Gathered.grant, Cells.get?_put, List.mem_append, List.mem_singleton, ← grants.passes,
        Request.pass.injEq]
      split
      · rename_i same
        subst same
        rw [Option.some.injEq, eq_self, true_and, eq_comm]
        refine (or_iff_right_of_imp fun found => ?_).symm
        exact agree.pass m other next (earlier ((grants.passes m other).mp found)) latest
      · rename_i different
        simp [different]

theorem Grants.foldl (grants : Grants requests gathered)
    (agree : Request.Agree (requests ++ rest)) :
    Grants (requests ++ rest) (rest.foldl Gathered.grant gathered) := by
  induction rest generalizing requests gathered with
  | nil => rwa [List.append_nil]
  | cons request rest ih =>
    rw [List.append_cons] at agree ⊢
    have first : Request.Agree (requests ++ [request]) := by
      have within : requests ++ [request] ⊆ requests ++ [request] ++ rest :=
        List.subset_append_left ..
      exact ⟨fun t next other left right => agree.shift t next other (within left) (within right),
        fun n next other left right => agree.pass n next other (within left) (within right)⟩
    exact ih (grants.grant first) agree

end Gathered

/-! ## What items request -/

/-- The requests that an item may make. -/
inductive Item.Requests (g : Grammar) (outgoing : List Transition) (item : Item) :
    Request → Prop where
  | shift {t next : Nat} (before : item.next? g = some (.terminal t))
      (step : Automaton.target? outgoing (.terminal t) = some next) :
      Requests g outgoing item (.claim t (.shift next))
  | pass {n next : Nat} (before : item.next? g = some (.nonterminal n))
      (step : Automaton.target? outgoing (.nonterminal n) = some next) :
      Requests g outgoing item (.pass n next)
  | complete (ended : item.next? g = none) :
      Requests g outgoing item (.claim item.lookahead (.completing item.production))

variable {g : Grammar} {outgoing : List Transition} {items : List Item} {item : Item}
  {request : Request}

theorem Item.request?_eq_some :
    item.request? g outgoing = some request ↔ item.Requests g outgoing request := by
  unfold request?
  constructor
  · intro made
    split at made
    · rename_i t before
      obtain ⟨next, step, rfl⟩ := Option.map_eq_some_iff.mp made
      exact .shift before step
    · rename_i n before
      obtain ⟨next, step, rfl⟩ := Option.map_eq_some_iff.mp made
      exact .pass before step
    · rename_i ended
      obtain rfl := Option.some.inj made
      exact .complete ended
  · intro requests
    cases requests with
    | shift before step => simp [before, step]
    | pass before step => simp [before, step]
    | complete ended => simp [ended]

theorem Item.Requests.target?_of_shift {t next : Nat}
    (requests : item.Requests g outgoing (.claim t (.shift next))) :
    Automaton.target? outgoing (.terminal t) = some next := by
  generalize same : Request.claim t (.shift next) = request at requests
  cases requests with
  | shift before step =>
    obtain ⟨rfl, rfl⟩ : t = _ ∧ next = _ := by simpa using same
    exact step
  | pass => cases same
  | complete => exact absurd (Request.claim.inj same).2.symm (Move.completing_ne_shift _ _)

theorem Item.Requests.target?_of_pass {n next : Nat}
    (requests : item.Requests g outgoing (.pass n next)) :
    Automaton.target? outgoing (.nonterminal n) = some next := by
  cases requests with
  | pass _ step => exact step

theorem mem_requests : request ∈ items.filterMap (Item.request? g outgoing) ↔
    ∃ item ∈ items, item.Requests g outgoing request := by
  simp only [List.mem_filterMap, Item.request?_eq_some]

theorem Gathered.grants_ofItems (g : Grammar) (outgoing : List Transition) (items : List Item) :
    Gathered.Grants (items.filterMap (Item.request? g outgoing))
      (Gathered.ofItems g outgoing items) := by
  refine grants_empty.foldl ⟨?_, ?_⟩
  · intro t next other left right
    obtain ⟨_, -, first⟩ := mem_requests.mp left
    obtain ⟨_, -, second⟩ := mem_requests.mp right
    exact Option.some.inj (first.target?_of_shift.symm.trans second.target?_of_shift)
  · intro n next other left right
    obtain ⟨_, -, first⟩ := mem_requests.mp left
    obtain ⟨_, -, second⟩ := mem_requests.mp right
    exact Option.some.inj (first.target?_of_pass.symm.trans second.target?_of_pass)

/-! ## The cells of a state -/

namespace State

variable {state : State} {t : Nat} {move : Move}

theorem mem_demanded_iff_requests : move ∈ state.demanded g outgoing t ↔
    ∃ item ∈ state.items, item.Requests g outgoing (.claim t move) := by
  simp only [demanded, List.mem_append, mem_shifts, mem_acceptances, mem_reductions]
  constructor
  · rintro ((⟨item, member, before, next, step, rfl⟩ |
      ⟨item, member, rfl, ended, augmented, rfl⟩) | ⟨item, member, rfl, ended, user, rfl⟩)
    · exact ⟨item, member, .shift before step⟩
    · have same : Move.completing item.production = .accept := if_pos augmented
      exact ⟨item, member, same ▸ .complete ended⟩
    · have same : Move.completing item.production = .reduce item.production := if_neg user
      exact ⟨item, member, same ▸ .complete ended⟩
  · rintro ⟨item, member, requests⟩
    generalize same : Request.claim t move = request at requests
    cases requests with
    | @shift u next before step =>
      obtain ⟨rfl, rfl⟩ := Request.claim.inj same
      exact .inl (.inl ⟨item, member, before, next, step, rfl⟩)
    | pass => cases same
    | complete ended =>
      obtain ⟨rfl, rfl⟩ := Request.claim.inj same
      by_cases augmented : item.production = augmentedProduction
      · exact .inl (.inr ⟨item, member, rfl, ended, augmented, if_pos augmented⟩)
      · exact .inr ⟨item, member, rfl, ended, augmented, if_neg augmented⟩

/-- The record of a terminal is filled as its cell is. -/
theorem filling_ofItems (same : ∀ item, item ∈ items ↔ item ∈ state.items) (t : Nat) :
    (state.action? g outgoing t).map Action.filling =
      ((Gathered.ofItems g outgoing items).pending.get? t).map Pending.filling := by
  have grants := Gathered.grants_ofItems g outgoing items
  have meaning (move : Move) : move ∈ state.demanded g outgoing t ↔
      ((Gathered.ofItems g outgoing items).recordAt t).Has move := by
    rw [grants.claims, mem_requests, mem_demanded_iff_requests]
    simp only [same]
  cases found : (Gathered.ofItems g outgoing items).pending.get? t with
  | none =>
    have nothing : state.demanded g outgoing t = [] := by
      rw [List.eq_nil_iff_forall_not_mem]
      intro move member
      have has := (meaning move).mp member
      rw [Gathered.recordAt, found] at has
      exact Pending.not_has_idle move has
    rw [State.action?, nothing]
    rfl
  | some pending =>
    have record : (Gathered.ofItems g outgoing items).recordAt t = pending := by
      rw [Gathered.recordAt, found, Option.getD_some]
    have ordered := Pending.candidates_pairwise (grants.once t)
    rw [record] at meaning ordered
    -- Both lists stand in order, so that they are the same if they have the same members.
    have all : state.demanded g outgoing t = pending.candidates :=
      (state.demanded_pairwise g outgoing t).eq_of_mem_iff ordered fun move =>
        (meaning move).trans Pending.mem_candidates.symm
    obtain ⟨move, has⟩ := grants.busy t pending found
    have busy : pending.candidates ≠ [] := List.ne_nil_of_mem (Pending.mem_candidates.mpr has)
    rw [State.action?, all, Pending.filling_eq busy]
    rfl

end State

/-- The nonterminals that items pass over are those that the state has transitions for. -/
theorem Automaton.Canonical.gotos_ofItems {a : Automaton} (canonical : a.Canonical g) {s : Nat}
    {state : State} (found : a.state? s = some state)
    (same : ∀ item, item ∈ items ↔ item ∈ state.items) (n : Nat) :
    (Gathered.ofItems g (a.outgoing s) items).gotos.get? n = a.transition? s (.nonterminal n) := by
  have grants := Gathered.grants_ofItems g (a.outgoing s) items
  ext next
  rw [grants.passes, mem_requests]
  constructor
  · rintro ⟨item, -, requests⟩
    exact requests.target?_of_pass
  · intro step
    obtain ⟨source, -, listed, -, ⟨item, member, before⟩, -⟩ := canonical.linked step
    obtain rfl := Option.some.inj (listed.symm.trans found)
    exact ⟨item, (same item).mpr member, .pass before step⟩

end CanonicalLR
