/-!
# Worklists

Values waiting in first-in, first-out order. A value that is already waiting is
not put again. The waiting values are kept as a front part and a reversed back
part; `toList` lists them in the order in which they leave.
-/

namespace CanonicalLR

structure Worklist (α : Type) where
  front : List α
  back : List α
deriving DecidableEq

namespace Worklist

variable {α : Type}

def empty : Worklist α :=
  ⟨[], []⟩

def toList (work : Worklist α) : List α :=
  work.front ++ work.back.reverse

section

variable [DecidableEq α]

def contains (work : Worklist α) (value : α) : Bool :=
  work.front.contains value || work.back.contains value

def push (work : Worklist α) (value : α) : Worklist α :=
  if work.contains value then work else { work with back := value :: work.back }

def ofList (values : List α) : Worklist α :=
  values.foldl push empty

@[simp] theorem contains_iff {work : Worklist α} {value : α} :
    work.contains value = true ↔ value ∈ work.toList := by
  simp [contains, toList]

theorem toList_push (work : Worklist α) (value : α) :
    (work.push value).toList =
      if value ∈ work.toList then work.toList else work.toList ++ [value] := by
  unfold push
  split
  · rename_i waiting
    rw [if_pos (contains_iff.mp waiting)]
  · rename_i absent
    rw [if_neg fun waiting => absent (contains_iff.mpr waiting)]
    simp [toList]

end

/-- Take the value that has waited longest. -/
def pop? (work : Worklist α) : Option (α × Worklist α) :=
  match work.front with
  | value :: front => some (value, { work with front := front })
  | [] =>
    match work.back.reverse with
    | value :: front => some (value, ⟨front, []⟩)
    | [] => none

theorem pop?_toList (work : Worklist α) :
    work.pop?.map (fun taken => taken.1 :: taken.2.toList) =
      if work.toList.isEmpty then none else some work.toList := by
  obtain ⟨front, back⟩ := work
  cases front with
  | cons value rest => simp [pop?, toList]
  | nil =>
    cases reversed : back.reverse with
    | nil => simp [pop?, toList, reversed]
    | cons value rest => simp [pop?, toList, reversed]

theorem pop?_of_nil {work : Worklist α} (none : work.toList = []) : work.pop? = .none := by
  have taken := work.pop?_toList
  simpa [none] using taken

theorem pop?_of_cons {work : Worklist α} {value : α} {rest : List α}
    (listed : work.toList = value :: rest) :
    ∃ later, work.pop? = some (value, later) ∧ later.toList = rest := by
  have taken := work.pop?_toList
  simp only [listed, List.isEmpty_cons, Bool.false_eq_true, if_false, Option.map_eq_some_iff,
    List.cons.injEq, Prod.exists] at taken
  obtain ⟨first, later, popped, rfl, same⟩ := taken
  exact ⟨later, popped, same⟩

end Worklist

end CanonicalLR
