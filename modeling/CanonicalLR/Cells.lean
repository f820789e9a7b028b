/-!
# Numbered cells

Entries keyed by numbers, in the order in which they were put. A key occurs at
most once; putting under a known key replaces the entry in place.
-/

namespace CanonicalLR

structure Cells (α : Type) where
  entries : List (Nat × α)
deriving DecidableEq

namespace Cells

variable {α : Type}

def empty : Cells α :=
  ⟨[]⟩

def get? (cells : Cells α) (key : Nat) : Option α :=
  cells.entries.lookup key

def replaceOrAppend (key : Nat) (value : α) : List (Nat × α) → List (Nat × α)
  | [] => [(key, value)]
  | entry :: rest =>
      if entry.1 = key then (key, value) :: rest
      else entry :: replaceOrAppend key value rest

def put (cells : Cells α) (key : Nat) (value : α) : Cells α :=
  ⟨replaceOrAppend key value cells.entries⟩

def erase (cells : Cells α) (key : Nat) : Cells α :=
  ⟨cells.entries.filter fun entry => entry.1 ≠ key⟩

def isEmpty (cells : Cells α) : Bool :=
  cells.entries.isEmpty

theorem lookup_cons (key other : Nat) (value : α) (rest : List (Nat × α)) :
    ((other, value) :: rest).lookup key = if key = other then some value else rest.lookup key := by
  by_cases same : key = other
  · simp [same]
  · simp [List.lookup_cons, same, beq_false_of_ne same]

theorem get?_put (cells : Cells α) (key other : Nat) (value : α) :
    (cells.put key value).get? other = if other = key then some value else cells.get? other := by
  obtain ⟨entries⟩ := cells
  unfold put get?
  dsimp only
  induction entries with
  | nil => simp only [replaceOrAppend, lookup_cons]
  | cons entry rest ih =>
    obtain ⟨first, kept⟩ := entry
    unfold replaceOrAppend
    split
    · rename_i same
      dsimp only at same
      simp only [lookup_cons, same]
      split <;> rfl
    · rename_i different
      simp only [lookup_cons, ih]
      split
      · rename_i same
        subst same
        exact (if_neg different).symm
      · rfl

theorem get?_erase (cells : Cells α) (key other : Nat) :
    (cells.erase key).get? other = if other = key then none else cells.get? other := by
  obtain ⟨entries⟩ := cells
  unfold erase get?
  dsimp only
  induction entries with
  | nil => simp
  | cons entry rest ih =>
    obtain ⟨first, kept⟩ := entry
    by_cases same : first = key
    · subst same
      rw [List.filter_cons_of_neg (by simp), ih, lookup_cons]
      split <;> rfl
    · rw [List.filter_cons_of_pos (by simpa using same), lookup_cons, lookup_cons, ih]
      split
      · rename_i found
        subst found
        exact (if_neg same).symm
      · rfl

end Cells

end CanonicalLR
