import CanonicalLR.Flow
import Mathlib.Data.Finset.Prod

/-!
# Saturated families

Saturation ends at the least family that contains the seeds and agrees with
every flow: an id is a member at a node exactly if the flows carry it there.
-/

namespace CanonicalLR

/-- A step whose values are seen as growing parts of one finite set reaches a fixed point. -/
theorem stabilize_fixed_of_view {α ι : Type} [DecidableEq α] {step : α → α} {inside : α → Prop}
    (kept : ∀ value, inside value → inside (step value)) (view : α → Finset ι) (all : Finset ι)
    (bounded : ∀ value, inside value → view value ⊆ all)
    (grows : ∀ value, inside value → view value ⊆ view (step value))
    (faithful : ∀ value, inside value → view (step value) ⊆ view value → step value = value)
    (fuel : Nat) {value : α} (initial : inside value) (enough : all.card < fuel) :
    step (stabilize step fuel value) = stabilize step fuel value := by
  refine stabilize_fixed kept (fun value => (view value).card) all.card ?_ ?_ fuel initial
    (by omega)
  · intro value within
    exact Finset.card_le_card (bounded value within)
  · intro value within changed
    apply Finset.card_lt_card
    exact ⟨grows value within, fun back => changed (faithful value within back)⟩

/-- A step is repeated while it changes the value, and this ends. -/
inductive Converges {α : Type} (step : α → α) : α → α → Prop where
  | idle {value : α} (same : step value = value) : Converges step value value
  | again {value final : α} (changed : step value ≠ value)
      (later : Converges step (step value) final) : Converges step value final

/-- With fuel for a fixed point, the repetition is the one without fuel. -/
theorem converges_stabilize {α : Type} [DecidableEq α] {step : α → α} {fuel : Nat} {value : α}
    (fixed : step (stabilize step fuel value) = stabilize step fuel value) :
    Converges step value (stabilize step fuel value) := by
  induction fuel generalizing value with
  | zero => exact .idle fixed
  | succ fuel ih =>
    unfold stabilize at fixed ⊢
    dsimp only at fixed ⊢
    split
    · rename_i same
      exact .idle same
    · rename_i changed
      rw [if_neg changed] at fixed
      exact .again changed (ih fixed)

/-- An id comes to a node, from a seed and along flows. -/
inductive Carried (flows : List Flow) (seeds : IdSets) : Nat → Nat → Prop where
  | seed {node id : Nat} (planted : id ∈ seeds.setAt node) : Carried flows seeds node id
  | gain {flow : Flow} {other id : Nat} (listed : flow ∈ flows)
      (awake : Carried flows seeds flow.source other) (gained : id ∈ flow.gain) :
      Carried flows seeds flow.target id
  | relay {flow : Flow} {id : Nat} (listed : flow ∈ flows) (relays : flow.relay = true)
      (before : Carried flows seeds flow.source id) : Carried flows seeds flow.target id

namespace Flow

theorem mem_carry_mono {flow : Flow} {first second : IdSet} {id : Nat} (within : first ⊆ second)
    (member : id ∈ flow.carry first) : id ∈ flow.carry second := by
  rw [mem_carry] at member ⊢
  obtain ⟨⟨other, inhabited⟩, brought⟩ := member
  refine ⟨⟨other, within other inhabited⟩, ?_⟩
  rcases brought with gained | ⟨relays, passed⟩
  · exact .inl gained
  · exact .inr ⟨relays, within id passed⟩

end Flow

namespace IdSets

theorem lt_size_of_mem {sets : IdSets} {node id : Nat} (member : id ∈ sets.setAt node) :
    node < sets.size := by
  by_cases inside : node < sets.size
  · exact inside
  · have none : sets.setAt node = ∅ := by simp [setAt, inside]
    rw [none] at member
    exact absurd member (IdSet.not_mem_empty id)

theorem setAt_replicate (count node : Nat) : setAt (Array.replicate count ∅) node = ∅ := by
  unfold setAt
  rw [Array.getD_eq_getD_getElem?, Array.getElem?_replicate]
  split <;> rfl

theorem eq_of_setAt {first second : IdSets} (sameSize : first.size = second.size)
    (same : ∀ node, first.setAt node = second.setAt node) : first = second := by
  apply Array.ext sameSize
  intro node left right
  have equal := same node
  simpa [setAt, left, right] using equal

/-- What a fold puts into a family, where one step puts what its item brings. -/
theorem mem_foldl {α : Type} {step : IdSets → α → IdSets} {brings : α → Nat → Nat → Prop}
    (sizes : ∀ sets item, (step sets item).size = sets.size)
    (members : ∀ sets item node id, id ∈ (step sets item).setAt node ↔
      id ∈ sets.setAt node ∨ node < sets.size ∧ brings item node id)
    {items : List α} {sets : IdSets} {node id : Nat} :
    id ∈ (items.foldl step sets).setAt node ↔
      id ∈ sets.setAt node ∨ node < sets.size ∧ ∃ item ∈ items, brings item node id := by
  induction items generalizing sets with
  | nil => simp
  | cons head tail ih =>
    rw [List.foldl_cons, ih, members, sizes, List.exists_mem_cons_iff, and_or_left, or_assoc]

theorem size_foldl {α : Type} {step : IdSets → α → IdSets}
    (sizes : ∀ sets item, (step sets item).size = sets.size) (items : List α) (sets : IdSets) :
    (items.foldl step sets).size = sets.size := by
  induction items generalizing sets with
  | nil => rfl
  | cons head tail ih => rw [List.foldl_cons, ih, sizes]

/-! ## One pass -/

@[simp] theorem size_flow (sets : IdSets) (flow : Flow) : (sets.flow flow).size = sets.size :=
  size_add ..

@[simp] theorem size_pass (flows : List Flow) (sets : IdSets) :
    (pass flows sets).size = sets.size :=
  size_foldl size_flow flows sets

theorem mem_setAt_flow {sets : IdSets} {flow : Flow} {node id : Nat} :
    id ∈ (sets.flow flow).setAt node ↔ id ∈ sets.setAt node ∨
      node = flow.target ∧ flow.target < sets.size ∧ id ∈ flow.carry (sets.setAt flow.source) :=
  mem_setAt_add

theorem mem_pass_of_mem {flows : List Flow} {sets : IdSets} {node id : Nat}
    (member : id ∈ sets.setAt node) : id ∈ (pass flows sets).setAt node := by
  unfold pass
  induction flows generalizing sets with
  | nil => exact member
  | cons flow rest ih => exact ih (mem_setAt_flow.mpr (.inl member))

theorem mem_pass_of_carry {flows : List Flow} {sets : IdSets} {flow : Flow} {id : Nat}
    (listed : flow ∈ flows) (inside : flow.target < sets.size)
    (carried : id ∈ flow.carry (sets.setAt flow.source)) :
    id ∈ (pass flows sets).setAt flow.target := by
  induction flows generalizing sets with
  | nil => exact absurd listed List.not_mem_nil
  | cons first rest ih =>
    rcases List.mem_cons.mp listed with rfl | later
    · have brought : id ∈ (sets.flow flow).setAt flow.target :=
        mem_setAt_flow.mpr (.inr ⟨rfl, inside, carried⟩)
      show id ∈ (pass rest (sets.flow flow)).setAt flow.target
      exact mem_pass_of_mem brought
    · have grown : sets.setAt flow.source ⊆ (sets.flow first).setAt flow.source :=
        fun _ member => mem_setAt_flow.mpr (.inl member)
      exact ih later (by rwa [size_flow]) (Flow.mem_carry_mono grown carried)

/-- A node that is copied to itself stays as it is. -/
theorem flow_copy_self (sets : IdSets) (node : Nat) : sets.flow (.copy node node) = sets := by
  apply eq_of_setAt (size_flow ..)
  intro other
  ext id
  rw [mem_setAt_flow, Flow.mem_carry_copy]
  constructor
  · rintro (old | ⟨rfl, -, old⟩)
    · exact old
    · exact old
  · exact .inl

/-- Copies of a node to itself may be left out of a pass. -/
theorem pass_filter_copies {flows : List Flow}
    (copies : ∀ flow ∈ flows, ∃ source target, flow = .copy source target) :
    pass (flows.filter fun flow => flow.source ≠ flow.target) = pass flows := by
  funext sets
  unfold pass
  induction flows generalizing sets with
  | nil => rfl
  | cons flow rest ih =>
    have others := ih fun other later => copies other (List.mem_cons_of_mem _ later)
    obtain ⟨source, target, rfl⟩ := copies flow List.mem_cons_self
    by_cases loop : source = target
    · subst loop
      rw [List.filter_cons_of_neg (by simp [Flow.copy]), others, List.foldl_cons, flow_copy_self]
    · rw [List.filter_cons_of_pos (by simp [Flow.copy, loop]), List.foldl_cons, others,
        List.foldl_cons]

/-- What a pass brings has been carried. -/
theorem carried_of_mem_pass {flows all : List Flow} {seeds sets : IdSets} {node id : Nat}
    (listed : ∀ flow ∈ flows, flow ∈ all)
    (sound : ∀ node id, id ∈ sets.setAt node → Carried all seeds node id)
    (member : id ∈ (pass flows sets).setAt node) : Carried all seeds node id := by
  induction flows generalizing sets with
  | nil => exact sound node id member
  | cons flow rest ih =>
    apply ih (fun other later => listed other (List.mem_cons_of_mem _ later)) _ member
    intro node id present
    rcases mem_setAt_flow.mp present with old | ⟨rfl, -, brought⟩
    · exact sound node id old
    · have here := listed flow List.mem_cons_self
      obtain ⟨⟨other, inhabited⟩, gained | ⟨relays, passed⟩⟩ := Flow.mem_carry.mp brought
      · exact .gain here (sound _ other inhabited) gained
      · exact .relay here relays (sound _ id passed)

/-! ## The fixed point -/

/-- Every member of every set is below a width. -/
def Below (width : Nat) (sets : IdSets) : Prop :=
  ∀ node id, id ∈ sets.setAt node → id < width

theorem below_pass {width : Nat} {flows : List Flow} {sets : IdSets} (below : Below width sets)
    (gains : ∀ flow ∈ flows, ∀ id, id ∈ flow.gain → id < width) :
    Below width (pass flows sets) := by
  induction flows generalizing sets with
  | nil => exact below
  | cons flow rest ih =>
    apply ih _ fun other later => gains other (List.mem_cons_of_mem _ later)
    intro node id present
    rcases mem_setAt_flow.mp present with old | ⟨-, -, brought⟩
    · exact below node id old
    · rcases (Flow.mem_carry.mp brought).2 with gained | ⟨-, passed⟩
      · exact gains flow List.mem_cons_self id gained
      · exact below _ id passed

/-- The pairs of a node and a member of its set. -/
def pairs (width : Nat) (sets : IdSets) : Finset (Nat × Nat) :=
  (Finset.range sets.size ×ˢ Finset.range width).filter fun pair => pair.2 ∈ sets.setAt pair.1

theorem mem_pairs {width : Nat} {sets : IdSets} {node id : Nat} (below : Below width sets) :
    (node, id) ∈ pairs width sets ↔ id ∈ sets.setAt node := by
  simp only [pairs, Finset.mem_filter, Finset.mem_product, Finset.mem_range, and_iff_right_iff_imp]
  intro member
  exact ⟨lt_size_of_mem member, below node id member⟩

/-- Fuel for every pair of a node and an id below the width lets growing steps over a family reach
a fixed point. -/
theorem stabilize_growing {width : Nat} {step : IdSets → IdSets} {inside : IdSets → Prop}
    (kept : ∀ sets, inside sets → inside (step sets))
    (below : ∀ sets, inside sets → Below width sets)
    (sizes : ∀ sets, (step sets).size = sets.size)
    (grows : ∀ {sets node id}, id ∈ setAt sets node → id ∈ (step sets).setAt node)
    {seeds : IdSets} (initial : inside seeds) :
    step (stabilize step (seeds.size * width + 1) seeds) =
      stabilize step (seeds.size * width + 1) seeds := by
  let sized (sets : IdSets) : Prop := inside sets ∧ sets.size = seeds.size
  have sizedKept : ∀ sets, sized sets → sized (step sets) :=
    fun sets within => ⟨kept sets within.1, (sizes sets).trans within.2⟩
  refine stabilize_fixed_of_view sizedKept (pairs width)
    (Finset.range seeds.size ×ˢ Finset.range width) ?_ ?_ ?_ _ ⟨initial, rfl⟩ (by simp)
  · intro sets within
    exact within.2 ▸ Finset.filter_subset _ _
  · intro sets within (node, id) member
    exact (mem_pairs (below _ (kept sets within.1))).mpr
      (grows ((mem_pairs (below sets within.1)).mp member))
  · intro sets within back
    apply eq_of_setAt (sizes sets)
    intro node
    ext id
    constructor
    · intro member
      exact (mem_pairs (below sets within.1)).mp
        (back ((mem_pairs (below _ (kept sets within.1))).mpr member))
    · exact grows

section

variable {width : Nat} {flows : List Flow} {seeds : IdSets}

theorem pass_saturate (below : Below width seeds)
    (gains : ∀ flow ∈ flows, ∀ id, id ∈ flow.gain → id < width) :
    pass flows (saturate width flows seeds) = saturate width flows seeds :=
  stabilize_growing (fun _ within => below_pass within gains) (fun _ within => within)
    (size_pass flows) mem_pass_of_mem below

theorem size_saturate : (saturate width flows seeds).size = seeds.size := by
  have kept : ∀ sets : IdSets, sets.size = seeds.size → (pass flows sets).size = seeds.size :=
    fun sets same => (size_pass flows sets).trans same
  exact stabilize_induction kept _ rfl

theorem below_saturate (below : Below width seeds)
    (gains : ∀ flow ∈ flows, ∀ id, id ∈ flow.gain → id < width) :
    Below width (saturate width flows seeds) :=
  stabilize_induction (fun _ before => below_pass before gains) _ below

theorem mem_saturate_of_mem {node id : Nat} (planted : id ∈ seeds.setAt node) :
    id ∈ (saturate width flows seeds).setAt node := by
  have kept : ∀ sets : IdSets, id ∈ sets.setAt node → id ∈ (pass flows sets).setAt node :=
    fun _ member => mem_pass_of_mem member
  exact stabilize_induction kept _ planted

theorem carried_of_mem_saturate {node id : Nat}
    (member : id ∈ (saturate width flows seeds).setAt node) : Carried flows seeds node id := by
  let sound (sets : IdSets) : Prop :=
    ∀ node id, id ∈ sets.setAt node → Carried flows seeds node id
  have kept : ∀ sets : IdSets, sound sets → sound (pass flows sets) :=
    fun _ before _ _ => carried_of_mem_pass (fun _ listed => listed) before
  have final : sound (saturate width flows seeds) :=
    stabilize_induction kept _ fun _ _ planted => .seed planted
  exact final node id member

/-- A family is saturated with what the flows carry from its seeds, and with nothing else. -/
theorem mem_saturate (below : Below width seeds)
    (gains : ∀ flow ∈ flows, ∀ id, id ∈ flow.gain → id < width)
    (targets : ∀ flow ∈ flows, flow.target < seeds.size) {node id : Nat} :
    id ∈ (saturate width flows seeds).setAt node ↔ Carried flows seeds node id := by
  constructor
  · exact carried_of_mem_saturate
  · intro carried
    have brought {flow : Flow} {id : Nat} (listed : flow ∈ flows)
        (carry : id ∈ flow.carry ((saturate width flows seeds).setAt flow.source)) :
        id ∈ (saturate width flows seeds).setAt flow.target := by
      have inside : flow.target < (saturate width flows seeds).size := by
        rw [size_saturate]
        exact targets flow listed
      rw [← pass_saturate below gains]
      exact mem_pass_of_carry listed inside carry
    induction carried with
    | seed planted => exact mem_saturate_of_mem planted
    | gain listed _ gained ih => exact brought listed (Flow.mem_carry.mpr ⟨⟨_, ih⟩, .inl gained⟩)
    | relay listed relays _ ih =>
      exact brought listed (Flow.mem_carry.mpr ⟨⟨_, ih⟩, .inr ⟨relays, ih⟩⟩)

end

end IdSets

end CanonicalLR
