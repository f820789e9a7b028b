/-!
# Sets of ids

A finite set of natural numbers, kept as the bits of one number. Membership is
the view: every operation is described by the members of its result, and two
sets with the same members are equal.
-/

namespace CanonicalLR

structure IdSet where
  bits : Nat
deriving DecidableEq

namespace IdSet

instance : Membership Nat IdSet :=
  ⟨fun set id => set.bits.testBit id = true⟩

instance (id : Nat) (set : IdSet) : Decidable (id ∈ set) :=
  inferInstanceAs (Decidable (set.bits.testBit id = true))

theorem mem_iff {id : Nat} {set : IdSet} : id ∈ set ↔ set.bits.testBit id = true :=
  Iff.rfl

@[ext] theorem ext {first second : IdSet} (same : ∀ id, id ∈ first ↔ id ∈ second) :
    first = second := by
  cases first with
  | mk left =>
    cases second with
    | mk right =>
      exact congrArg IdSet.mk (Nat.eq_of_testBit_eq fun id =>
        Bool.eq_iff_iff.mpr (same id))

instance : EmptyCollection IdSet :=
  ⟨⟨0⟩⟩

instance : Inhabited IdSet :=
  ⟨∅⟩

@[simp] theorem not_mem_empty (id : Nat) : id ∉ (∅ : IdSet) := by
  intro member
  have bit : (0 : Nat).testBit id = true := member
  simp at bit

def isEmpty (set : IdSet) : Bool :=
  set.bits == 0

theorem isEmpty_iff {set : IdSet} : set.isEmpty = true ↔ set = ∅ := by
  cases set with
  | mk bits =>
    constructor
    · intro none
      exact congrArg IdSet.mk (by simpa [isEmpty] using none)
    · intro none
      have zero : bits = 0 := congrArg IdSet.bits none
      simp [isEmpty, zero]

theorem isEmpty_eq_false_iff {set : IdSet} : set.isEmpty = false ↔ ∃ id, id ∈ set := by
  constructor
  · intro some
    have nonzero : set.bits ≠ 0 := by simpa [isEmpty] using some
    exact Nat.exists_testBit_of_ne_zero nonzero
  · intro ⟨id, member⟩
    cases none : set.isEmpty with
    | false => rfl
    | true =>
      rw [isEmpty_iff.mp none] at member
      exact absurd member (not_mem_empty id)

def insert (set : IdSet) (id : Nat) : IdSet :=
  ⟨set.bits ||| 1 <<< id⟩

theorem testBit_one_shiftLeft (id other : Nat) :
    (1 <<< id : Nat).testBit other = decide (other = id) := by
  rw [Nat.one_shiftLeft, Nat.testBit_two_pow]
  exact decide_eq_decide.mpr eq_comm

@[simp] theorem mem_insert {set : IdSet} {id other : Nat} :
    other ∈ set.insert id ↔ other = id ∨ other ∈ set := by
  rw [mem_iff, insert, Nat.testBit_or, testBit_one_shiftLeft, Bool.or_eq_true,
    decide_eq_true_eq, or_comm, mem_iff]

def ofList (ids : List Nat) : IdSet :=
  ids.foldl insert ∅

theorem mem_foldl_insert {ids : List Nat} {set : IdSet} {id : Nat} :
    id ∈ ids.foldl insert set ↔ id ∈ ids ∨ id ∈ set := by
  induction ids generalizing set with
  | nil => simp
  | cons head tail ih =>
    rw [List.foldl_cons, ih, mem_insert, List.mem_cons]
    constructor
    · rintro (member | rfl | member)
      · exact .inl (.inr member)
      · exact .inl (.inl rfl)
      · exact .inr member
    · rintro ((rfl | member) | member)
      · exact .inr (.inl rfl)
      · exact .inl member
      · exact .inr (.inr member)

@[simp] theorem mem_ofList {ids : List Nat} {id : Nat} : id ∈ ofList ids ↔ id ∈ ids := by
  simp [ofList, mem_foldl_insert]

instance : Union IdSet :=
  ⟨fun first second => ⟨first.bits ||| second.bits⟩⟩

@[simp] theorem mem_union {first second : IdSet} {id : Nat} :
    id ∈ first ∪ second ↔ id ∈ first ∨ id ∈ second := by
  have bits : (first ∪ second).bits = first.bits ||| second.bits := rfl
  simp [mem_iff, bits, Nat.testBit_or]

instance : HasSubset IdSet :=
  ⟨fun first second => ∀ id, id ∈ first → id ∈ second⟩

theorem subset_iff_union_eq {first second : IdSet} :
    first ⊆ second ↔ first ∪ second = second := by
  constructor
  · intro within
    ext id
    rw [mem_union]
    exact ⟨fun member => member.elim (within id) (fun inside => inside), .inr⟩
  · intro absorbed id member
    rw [← absorbed, mem_union]
    exact .inl member

instance (first second : IdSet) : Decidable (first ⊆ second) :=
  decidable_of_iff _ subset_iff_union_eq.symm

/-- The places of the lowest `1 <<< depth` bits that are set, counted from `offset`. -/
def places : Nat → Nat → Nat → List Nat
  | 0, offset, bits => if bits.testBit 0 then [offset] else []
  | depth + 1, offset, bits =>
      if bits = 0 then []
      else places depth offset (bits % (1 <<< (1 <<< depth))) ++
        places depth (offset + 1 <<< depth) (bits >>> (1 <<< depth))

theorem mem_places {depth offset bits id : Nat} :
    id ∈ places depth offset bits ↔
      offset ≤ id ∧ id < offset + 1 <<< depth ∧ bits.testBit (id - offset) = true := by
  induction depth generalizing offset bits with
  | zero =>
    unfold places
    constructor
    · intro member
      split at member
      · rename_i bit
        obtain rfl := List.mem_singleton.mp member
        simpa using bit
      · exact absurd member List.not_mem_nil
    · rintro ⟨above, below, bit⟩
      obtain rfl : id = offset := by simp at below; omega
      rw [Nat.sub_self] at bit
      simp [bit]
  | succ depth ih =>
    have double : 1 <<< (depth + 1) = 1 <<< depth + 1 <<< depth := by
      rw [Nat.shiftLeft_succ, Nat.two_mul]
    unfold places
    split
    · rename_i zero
      simp [zero]
    · rw [List.mem_append, ih, ih, double, Nat.one_shiftLeft (1 <<< depth),
        Nat.testBit_mod_two_pow, Nat.testBit_shiftRight, Bool.and_eq_true, decide_eq_true_eq]
      constructor
      · rintro (⟨above, below, _, bit⟩ | ⟨above, below, bit⟩)
        · exact ⟨above, by omega, bit⟩
        · refine ⟨by omega, by omega, ?_⟩
          rwa [show 1 <<< depth + (id - (offset + 1 <<< depth)) = id - offset by omega] at bit
      · rintro ⟨above, below, bit⟩
        by_cases low : id < offset + 1 <<< depth
        · exact .inl ⟨above, low, by omega, bit⟩
        · refine .inr ⟨by omega, by omega, ?_⟩
          rwa [show 1 <<< depth + (id - (offset + 1 <<< depth)) = id - offset by omega]

theorem places_pairwise (depth offset bits : Nat) :
    (places depth offset bits).Pairwise (· < ·) := by
  induction depth generalizing offset bits with
  | zero =>
    unfold places
    split <;> simp
  | succ depth ih =>
    unfold places
    split
    · exact .nil
    · refine List.pairwise_append.mpr ⟨ih _ _, ih _ _, ?_⟩
      intro low lowMember high highMember
      exact Nat.lt_of_lt_of_le (mem_places.mp lowMember).2.1 (mem_places.mp highMember).1

/-- The members in ascending order. -/
def toList (set : IdSet) : List Nat :=
  places (set.bits.log2.log2 + 1) 0 set.bits

@[simp] theorem mem_toList {set : IdSet} {id : Nat} : id ∈ set.toList ↔ id ∈ set := by
  rw [toList, mem_places, mem_iff, Nat.sub_zero, Nat.zero_add]
  refine ⟨fun inside => inside.2.2, fun member => ⟨Nat.zero_le id, ?_, member⟩⟩
  have reached : 2 ^ id ≤ set.bits := Nat.ge_two_pow_of_testBit member
  have nonzero : set.bits ≠ 0 := by
    intro zero
    rw [zero] at reached
    exact absurd reached (Nat.not_le.mpr (Nat.two_pow_pos id))
  rw [Nat.one_shiftLeft]
  exact Nat.lt_of_le_of_lt ((Nat.le_log2 nonzero).mpr reached) Nat.lt_log2_self

theorem toList_pairwise (set : IdSet) : set.toList.Pairwise (· < ·) :=
  places_pairwise _ _ _

def size (set : IdSet) : Nat :=
  set.toList.length

end IdSet

end CanonicalLR
