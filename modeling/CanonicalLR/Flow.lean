import CanonicalLR.IdSet

/-!
# Flows between id sets

A family of sets, one per node, grows along flows: a flow whose source set has
a member adds its gain to the target set, and if it relays, the source set as
well. Passes over all flows are repeated until one of them changes nothing.
-/

namespace CanonicalLR

/-- Repeat a step until it changes nothing, at most `fuel` times. -/
@[specialize] def stabilize {α : Type} [DecidableEq α] (step : α → α) : Nat → α → α
  | 0, value => value
  | fuel + 1, value =>
      let next := step value
      if next = value then value else stabilize step fuel next

theorem stabilize_induction {α : Type} [DecidableEq α] {step : α → α} {holds : α → Prop}
    (kept : ∀ value, holds value → holds (step value)) (fuel : Nat) {value : α}
    (initial : holds value) : holds (stabilize step fuel value) := by
  induction fuel generalizing value with
  | zero => exact initial
  | succ fuel ih =>
    unfold stabilize
    dsimp only
    split
    · exact initial
    · exact ih (kept value initial)

/-- Fuel above the room that a growing measure leaves reaches a fixed point. -/
theorem stabilize_fixed {α : Type} [DecidableEq α] {step : α → α} {inside : α → Prop}
    (kept : ∀ value, inside value → inside (step value)) (measure : α → Nat) (bound : Nat)
    (bounded : ∀ value, inside value → measure value ≤ bound)
    (grows : ∀ value, inside value → step value ≠ value → measure value < measure (step value))
    (fuel : Nat) {value : α} (initial : inside value) (enough : bound < measure value + fuel) :
    step (stabilize step fuel value) = stabilize step fuel value := by
  induction fuel generalizing value with
  | zero => exact absurd (bounded value initial) (by omega)
  | succ fuel ih =>
    unfold stabilize
    dsimp only
    split
    · assumption
    · rename_i changed
      have larger := grows value initial changed
      exact ih (kept value initial) (by omega)

structure Flow where
  source : Nat
  target : Nat
  gain : IdSet
  relay : Bool
deriving DecidableEq

namespace Flow

/-- A flow that passes its source set on and adds nothing of its own. -/
def copy (source target : Nat) : Flow :=
  ⟨source, target, ∅, true⟩

/-- What a flow brings to its target while its source holds `set`. -/
def carry (flow : Flow) (set : IdSet) : IdSet :=
  if set.isEmpty then ∅
  else if flow.relay then flow.gain ∪ set
  else flow.gain

theorem mem_carry {flow : Flow} {set : IdSet} {id : Nat} :
    id ∈ flow.carry set ↔
      (∃ other, other ∈ set) ∧ (id ∈ flow.gain ∨ flow.relay = true ∧ id ∈ set) := by
  unfold carry
  split
  · rename_i none
    rw [IdSet.isEmpty_iff.mp none]
    simp
  · rename_i some
    have inhabited := IdSet.isEmpty_eq_false_iff.mp (Bool.eq_false_iff.mpr some)
    split <;> simp_all

theorem mem_carry_copy {source target : Nat} {set : IdSet} {id : Nat} :
    id ∈ (copy source target).carry set ↔ id ∈ set := by
  rw [mem_carry]
  constructor
  · rintro ⟨_, member | ⟨_, member⟩⟩
    · exact absurd member (IdSet.not_mem_empty id)
    · exact member
  · intro member
    exact ⟨⟨id, member⟩, .inr ⟨rfl, member⟩⟩

end Flow

abbrev IdSets := Array IdSet

namespace IdSets

/-- The set of a node; nodes outside the family have none. -/
def setAt (sets : IdSets) (node : Nat) : IdSet :=
  sets.getD node ∅

def add (sets : IdSets) (node : Nat) (more : IdSet) : IdSets :=
  if inside : node < sets.size then sets.set node (sets[node] ∪ more) else sets

@[simp] theorem size_add (sets : IdSets) (node : Nat) (more : IdSet) :
    (sets.add node more).size = sets.size := by
  unfold add
  split <;> simp

theorem mem_setAt_add {sets : IdSets} {node other id : Nat} {more : IdSet} :
    id ∈ (sets.add node more).setAt other ↔
      id ∈ sets.setAt other ∨ other = node ∧ node < sets.size ∧ id ∈ more := by
  unfold add IdSets.setAt
  split
  · rename_i inside
    by_cases same : node = other
    · subst same
      simp [inside]
    · simp [Array.getD_eq_getD_getElem?, same, Ne.symm same]
  · rename_i outside
    simp [outside]

def flow (sets : IdSets) (flow : Flow) : IdSets :=
  let carried := flow.carry (sets.setAt flow.source)
  sets.add flow.target carried

def pass (flows : List Flow) (sets : IdSets) : IdSets :=
  flows.foldl IdSets.flow sets

/--
The least family that contains the seeds and agrees with every flow, for ids
below `width`: a pass that changes a set adds one of finitely many members.
-/
def saturate (width : Nat) (flows : List Flow) (seeds : IdSets) : IdSets :=
  stabilize (pass flows) (seeds.size * width + 1) seeds

end IdSets

end CanonicalLR
