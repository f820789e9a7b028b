import Mathlib.Data.List.Nodup

/-!
# Lists of first occurrences

Names, symbols and moves are listed once each, in the order in which they first
occur. Such a list keeps the order of the whole list and grows at its end when
the whole list does.
-/

namespace CanonicalLR

variable {α : Type} [DecidableEq α]

theorem eraseDups_sublist (values : List α) : values.eraseDups.Sublist values :=
  match values with
  | [] => .slnil
  | head :: tail => by
    rw [List.eraseDups_cons]
    exact ((eraseDups_sublist _).trans List.filter_sublist).cons_cons head
termination_by values.length
decreasing_by exact Nat.lt_succ_of_le (List.length_filter_le ..)

theorem nodup_eraseDups (values : List α) : values.eraseDups.Nodup :=
  match values with
  | [] => by simp
  | head :: tail => by
    rw [List.eraseDups_cons, List.nodup_cons, List.mem_eraseDups]
    exact ⟨by simp, nodup_eraseDups _⟩
termination_by values.length
decreasing_by exact Nat.lt_succ_of_le (List.length_filter_le ..)

theorem eraseDups_prefix_append (values more : List α) :
    values.eraseDups <+: (values ++ more).eraseDups := by
  rw [List.eraseDups_append]
  exact List.prefix_append ..

theorem eraseDups_concat (values : List α) (value : α) :
    (values ++ [value]).eraseDups =
      if value ∈ values then values.eraseDups else values.eraseDups ++ [value] := by
  rw [List.eraseDups_append, List.removeAll]
  by_cases earlier : value ∈ values
  · simp [earlier]
  · simp [earlier, List.eraseDups_cons]

theorem eraseDups_map_of_injective {β : Type} [DecidableEq β] {carry : α → β}
    (injective : Function.Injective carry) (values : List α) :
    (values.map carry).eraseDups = values.eraseDups.map carry :=
  match values with
  | [] => rfl
  | head :: tail => by
    have others : (tail.map carry).filter (fun value => !value == carry head) =
        (tail.filter fun value => !value == head).map carry := by
      rw [List.filter_map]
      congr 1
      refine List.filter_congr fun value _ => ?_
      simp [injective.eq_iff]
    rw [List.map_cons, List.eraseDups_cons, List.eraseDups_cons, others, List.map_cons,
      eraseDups_map_of_injective injective]
termination_by values.length
decreasing_by exact Nat.lt_succ_of_le (List.length_filter_le ..)

end CanonicalLR
