import CanonicalLR.Item.Basic

/-!
# Item sets

Sets of items in canonical order. Each set has one representation, so that two
sets are equal when they have the same members.
-/

namespace CanonicalLR

structure ItemSet where
  toList : List Item
  sorted : toList.Pairwise Item.Before
deriving DecidableEq, Hashable

namespace ItemSet

instance : Membership Item ItemSet :=
  ⟨fun set item => item ∈ set.toList⟩

theorem mem_iff {item : Item} {set : ItemSet} : item ∈ set ↔ item ∈ set.toList :=
  Iff.rfl

instance (item : Item) (set : ItemSet) : Decidable (item ∈ set) :=
  inferInstanceAs (Decidable (item ∈ set.toList))

instance : EmptyCollection ItemSet :=
  ⟨⟨[], .nil⟩⟩

instance : Inhabited ItemSet :=
  ⟨∅⟩

@[simp] theorem not_mem_empty (item : Item) : item ∉ (∅ : ItemSet) :=
  List.not_mem_nil

/-- Insert an item at its place in an ascending list. -/
def insertSorted (item : Item) : List Item → List Item
  | [] => [item]
  | head :: tail =>
      if item.Before head then item :: head :: tail
      else if item = head then head :: tail
      else head :: insertSorted item tail

@[simp] theorem mem_insertSorted {item other : Item} {items : List Item} :
    other ∈ insertSorted item items ↔ other = item ∨ other ∈ items := by
  induction items with
  | nil => simp [insertSorted]
  | cons head tail ih =>
    unfold insertSorted
    split
    · simp
    · split
      · rename_i same
        simp [same]
      · simp only [List.mem_cons, ih]
        exact or_left_comm

theorem insertSorted_pairwise {item : Item} {items : List Item}
    (sorted : items.Pairwise Item.Before) :
    (insertSorted item items).Pairwise Item.Before := by
  induction items with
  | nil => simp [insertSorted]
  | cons head tail ih =>
    obtain ⟨below, rest⟩ := List.pairwise_cons.mp sorted
    unfold insertSorted
    split
    · rename_i before
      refine List.pairwise_cons.mpr ⟨?_, sorted⟩
      intro other member
      rcases List.mem_cons.mp member with same | later
      · exact same ▸ before
      · exact before.trans (below other later)
    · split
      · exact sorted
      · rename_i notBefore different
        refine List.pairwise_cons.mpr ⟨?_, ih rest⟩
        intro other member
        rcases mem_insertSorted.mp member with same | later
        · subst same
          rcases Item.eq_or_before_or_before other head with equal | before | after
          · exact absurd equal different
          · exact absurd before notBefore
          · exact after
        · exact below other later

def insert (set : ItemSet) (item : Item) : ItemSet :=
  ⟨insertSorted item set.toList, insertSorted_pairwise set.sorted⟩

@[simp] theorem mem_insert {set : ItemSet} {item other : Item} :
    other ∈ set.insert item ↔ other = item ∨ other ∈ set :=
  mem_insertSorted

def ofList (items : List Item) : ItemSet :=
  items.foldr (fun item set => set.insert item) ∅

@[simp] theorem mem_ofList {items : List Item} {item : Item} :
    item ∈ ofList items ↔ item ∈ items := by
  induction items with
  | nil => simp [ofList]
  | cons head tail ih =>
    have step : ofList (head :: tail) = (ofList tail).insert head := rfl
    rw [step, mem_insert, ih, List.mem_cons]

def addAll (set : ItemSet) (items : List Item) : ItemSet :=
  items.foldl insert set

@[simp] theorem mem_addAll {set : ItemSet} {items : List Item} {item : Item} :
    item ∈ set.addAll items ↔ item ∈ items ∨ item ∈ set := by
  unfold addAll
  induction items generalizing set with
  | nil => simp
  | cons head tail ih =>
    rw [List.foldl_cons, ih, mem_insert, List.mem_cons]
    constructor
    · rintro (member | same | member)
      · exact .inl (.inr member)
      · exact .inl (.inl same)
      · exact .inr member
    · rintro ((same | member) | member)
      · exact .inr (.inl same)
      · exact .inl member
      · exact .inr (.inr member)

/-- Ascending lists with the same members are the same list. -/
theorem eq_of_pairwise {first second : List Item} (left : first.Pairwise Item.Before)
    (right : second.Pairwise Item.Before) (same : ∀ item, item ∈ first ↔ item ∈ second) :
    first = second := by
  induction first generalizing second with
  | nil =>
    cases second with
    | nil => rfl
    | cons head tail => exact absurd ((same head).mpr List.mem_cons_self) List.not_mem_nil
  | cons head tail ih =>
    cases second with
    | nil => exact absurd ((same head).mp List.mem_cons_self) List.not_mem_nil
    | cons other rest =>
      obtain ⟨aboveHead, sortedTail⟩ := List.pairwise_cons.mp left
      obtain ⟨aboveOther, sortedRest⟩ := List.pairwise_cons.mp right
      have heads : head = other := by
        rcases List.mem_cons.mp ((same head).mp List.mem_cons_self) with equal | later
        · exact equal
        · rcases List.mem_cons.mp ((same other).mpr List.mem_cons_self) with equal | after
          · exact equal.symm
          · exact absurd (aboveHead other after) (aboveOther head later).asymm
      subst heads
      refine congrArg (head :: ·) (ih sortedTail sortedRest fun item => ?_)
      constructor
      · intro member
        rcases List.mem_cons.mp ((same item).mp (List.mem_cons_of_mem _ member)) with equal | later
        · exact absurd (equal ▸ aboveHead item member) (Item.Before.irrefl _)
        · exact later
      · intro member
        rcases List.mem_cons.mp ((same item).mpr (List.mem_cons_of_mem _ member)) with equal | later
        · exact absurd (equal ▸ aboveOther item member) (Item.Before.irrefl _)
        · exact later

@[ext] theorem ext {first second : ItemSet} (same : ∀ item, item ∈ first ↔ item ∈ second) :
    first = second := by
  cases first with
  | mk left leftSorted =>
    cases second with
    | mk right rightSorted =>
      obtain rfl : left = right := eq_of_pairwise leftSorted rightSorted same
      rfl

def size (set : ItemSet) : Nat :=
  set.toList.length

def isEmpty (set : ItemSet) : Bool :=
  set.toList.isEmpty

/-- Lexicographic comparison of ascending lists. -/
def compareLists : List Item → List Item → Ordering
  | [], [] => .eq
  | [], _ :: _ => .lt
  | _ :: _, [] => .gt
  | first :: firsts, second :: seconds =>
      (first.compare second).then (compareLists firsts seconds)

def compare (first second : ItemSet) : Ordering :=
  compareLists first.toList second.toList

/-- The symbols right after a dot, in order of their first item. -/
def symbolsAfterDot (g : Grammar) (set : ItemSet) : List Symbol :=
  (set.toList.filterMap (Item.next? g)).eraseDups

/-- The items in which the dot has just moved over a symbol. -/
def gotoKernel (g : Grammar) (set : ItemSet) (symbol : Symbol) : ItemSet :=
  ofList ((set.toList.filter fun item => item.next? g = some symbol).map Item.advance)

theorem mem_symbolsAfterDot {g : Grammar} {set : ItemSet} {symbol : Symbol} :
    symbol ∈ set.symbolsAfterDot g ↔ ∃ item ∈ set, item.next? g = some symbol := by
  simp [symbolsAfterDot, mem_iff]

theorem mem_gotoKernel {g : Grammar} {set : ItemSet} {symbol : Symbol} {item : Item} :
    item ∈ set.gotoKernel g symbol ↔
      ∃ source ∈ set, source.next? g = some symbol ∧ source.advance = item := by
  rw [gotoKernel, mem_ofList]
  simp [mem_iff, and_assoc]

end ItemSet

end CanonicalLR
