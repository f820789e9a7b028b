import CanonicalLR.Cells
import CanonicalLR.Proofs.Grammar.Declarations

/-!
# How a grammar is put together

The augmented production is entered after all others and sorted to the front,
and the productions of each left-hand side are collected one by one. Both come
to what a grammar tells of its list of productions.
-/

namespace CanonicalLR

namespace Declarations

/-- The declared productions with their ids, which are counted from one. -/
def entries (d : Declarations) : List (Production × Nat) :=
  d.productions.zipIdx 1

def augmented (d : Declarations) : Production :=
  ⟨augmentedStart, [.nonterminal d.start]⟩

/-- All productions in the order of their ids; the augmented one was entered last. -/
def sorted (d : Declarations) : List (Production × Nat) :=
  (d.entries ++ [(d.augmented, augmentedProduction)]).mergeSort
    fun first second => first.2 ≤ second.2

/-- Add a production to the others with its left-hand side. -/
def collect (groups : Cells (List Nat)) (entry : Production × Nat) : Cells (List Nat) :=
  groups.put entry.1.left ((groups.get? entry.1.left).getD [] ++ [entry.2])

/-- The productions of each left-hand side; that of the augmented start symbol is put in last. -/
def groups (d : Declarations) : Cells (List Nat) :=
  (d.entries.foldl collect .empty).put augmentedStart [augmentedProduction]

variable {d : Declarations}

theorem sorted_eq : d.sorted = (d.augmented :: d.productions).zipIdx := by
  have front : (d.augmented :: d.productions).zipIdx =
      (d.augmented, augmentedProduction) :: d.entries := rfl
  have perm : d.sorted.Perm (d.augmented :: d.productions).zipIdx := by
    rw [front]
    exact (List.mergeSort_perm ..).trans (List.perm_append_singleton ..)
  have ascending : (d.augmented :: d.productions).zipIdx.Pairwise
      fun first second => first.2 ≤ second.2 := by
    have ids : ((d.augmented :: d.productions).zipIdx.map Prod.snd).Pairwise (· < ·) := by
      rw [List.zipIdx_map_snd]
      exact List.pairwise_lt_range'
    exact (List.pairwise_map.mp ids).imp Nat.le_of_lt
  refine List.Perm.eq_of_pairwise ?_ ?_ ascending perm
  · intro first second member other below above
    have same : first.2 = second.2 := Nat.le_antisymm below above
    have listed := List.mk_mem_zipIdx_iff_getElem?.mp (perm.mem_iff.mp member)
    have otherListed := List.mk_mem_zipIdx_iff_getElem?.mp other
    rw [same, otherListed] at listed
    exact Prod.ext (Option.some.inj listed).symm same
  · have ordered : d.sorted.Pairwise fun first second => decide (first.2 ≤ second.2) = true := by
      apply List.pairwise_mergeSort
      · simp only [decide_eq_true_eq]
        exact fun _ _ _ => Nat.le_trans
      · simp only [Bool.or_eq_true, decide_eq_true_eq]
        exact fun _ _ => Nat.le_total ..
    simpa using ordered

/-- Collecting adds to each left-hand side the ids of its productions, in order. -/
theorem get?_foldl_collect (entries : List (Production × Nat)) (groups : Cells (List Nat))
    (n : Nat) : ((entries.foldl collect groups).get? n).getD [] =
      (groups.get? n).getD [] ++ (entries.filter (·.1.left == n)).map Prod.snd := by
  induction entries generalizing groups with
  | nil => simp
  | cons entry rest ih =>
    rw [List.foldl_cons, ih, collect, Cells.get?_put]
    by_cases same : n = entry.1.left
    · subst same
      simp
    · have other : (entry.1.left == n) = false := by simpa using Ne.symm same
      simp [same, other]

end Declarations

namespace Grammar

variable {g : Grammar}

theorem productionsOf_eq (n : Nat) : g.productionsOf n =
    (g.productions.toList.zipIdx.filter (·.1.left == n)).map Prod.snd := by
  have ids : g.productionIds = g.productions.toList.zipIdx.map Prod.snd := by
    rw [List.zipIdx_map_snd, ← List.range_eq_range']
    rfl
  rw [productionsOf, ids, List.filter_map]
  congr 1
  apply List.filter_congr
  rintro ⟨production, p⟩ listed
  have found : g.production? p = some production := by
    simpa [production?] using List.mk_mem_zipIdx_iff_getElem?.mp listed
  simp [found]

end Grammar

end CanonicalLR
