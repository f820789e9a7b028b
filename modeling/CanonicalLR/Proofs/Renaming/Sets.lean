import CanonicalLR.Proofs.Renaming.Basic
import CanonicalLR.Proofs.Sets.Follow

/-!
# Renamed derivations

Derivations of one grammar are derivations of the other under a renaming, and
with them the nonterminals that vanish and the FIRST and FOLLOW sets.
-/

namespace CanonicalLR

/-- A renamed right-hand side splits where the right-hand side does. -/
theorem Renaming.right_eq (r : Renaming) {production : Production} {before rest : List Symbol}
    {n : Nat} (split : production.right = before ++ .nonterminal n :: rest) :
    (r.production production).right =
      before.map r.symbol ++ .nonterminal (r.nonterminals n) :: rest.map r.symbol := by
  rw [Renaming.production, split, List.map_append, List.map_cons]
  rfl

namespace Carries

variable {r : Renaming} {g h : Grammar} (carries : Carries r g h)
include carries

theorem rewrites {first second : List Symbol} (step : g.Rewrites first second) :
    h.Rewrites (first.map r.symbol) (second.map r.symbol) := by
  obtain ⟨found, before, after⟩ := step
  have there := Grammar.Rewrites.replace (carries.production?_of found) (before.map r.symbol)
    (after.map r.symbol)
  simpa [Renaming.production, Renaming.symbol] using there

theorem derives {first second : List Symbol} (derived : g.Derives first second) :
    h.Derives (first.map r.symbol) (second.map r.symbol) := by
  induction derived with
  | refl => exact Grammar.derives_refl _
  | tail _ step ih => exact ih.tail (carries.rewrites step)

theorem erases {symbols : List Symbol} (erased : g.Erases symbols) :
    h.Erases (symbols.map r.symbol) :=
  Grammar.erases_iff_derives.mpr (carries.derives (Grammar.erases_iff_derives.mp erased))

theorem begins {symbols : List Symbol} {t : Nat} (begun : g.Begins symbols t) :
    h.Begins (symbols.map r.symbol) (r.terminals t) := by
  induction begun with
  | terminal t rest => exact .terminal _ _
  | skip vanishing _ ih => exact .skip (carries.erases vanishing) ih
  | enter found _ rest ih => exact .enter (carries.production?_of found) ih _

theorem mem_firstBefore (left : g.WellFormed) (right : h.WellFormed) {symbols : List Symbol}
    {lookahead t : Nat} (ahead : t ∈ g.firstSets.firstBefore symbols lookahead) :
    r.terminals t ∈
      h.firstSets.firstBefore (symbols.map r.symbol) (r.terminals lookahead) := by
  rw [Grammar.mem_firstBefore_iff right]
  rcases (Grammar.mem_firstBefore_iff left).mp ahead with begun | ⟨erased, rfl⟩
  · exact .inl (carries.begins begun)
  · exact .inr ⟨carries.erases erased, rfl⟩

end Carries

namespace Renames

variable {r : Renaming} {g h : Grammar} (renames : Renames r g h)
include renames

theorem erases_iff {symbols : List Symbol} :
    h.Erases (symbols.map r.symbol) ↔ g.Erases symbols := by
  constructor
  · intro erased
    have back := renames.inverse.carries.erases erased
    rwa [r.inverse_symbols] at back
  · exact renames.carries.erases

theorem begins_iff {symbols : List Symbol} {t : Nat} :
    h.Begins (symbols.map r.symbol) (r.terminals t) ↔ g.Begins symbols t := by
  constructor
  · intro begun
    have back := renames.inverse.carries.begins begun
    rwa [r.inverse_symbols, Renaming.inverse, Equiv.symm_apply_apply] at back
  · exact renames.carries.begins

theorem follows {n t : Nat} (after : g.Follows n t) :
    h.Follows (r.nonterminals n) (r.terminals t) := by
  have carries := renames.carries
  induction after with
  | augmented =>
    rw [renames.augmentedStart, renames.endMarker]
    exact .augmented
  | start =>
    rw [← renames.start, renames.endMarker]
    exact .start
  | behind found split begun =>
    exact .behind (carries.production?_of found) (r.right_eq split) (carries.begins begun)
  | passed found split erased _ ih =>
    exact .passed (carries.production?_of found) (r.right_eq split) (carries.erases erased) ih

theorem follows_iff {n t : Nat} :
    h.Follows (r.nonterminals n) (r.terminals t) ↔ g.Follows n t := by
  constructor
  · intro after
    have back := renames.inverse.follows after
    rwa [Renaming.inverse, Equiv.symm_apply_apply, Equiv.symm_apply_apply] at back
  · exact renames.follows

/-! ## The computed sets -/

section

variable (left : g.WellFormed) (right : h.WellFormed)
include left right

theorem mem_nullable_iff {n : Nat} : r.nonterminals n ∈ h.nullable ↔ n ∈ g.nullable := by
  have carried : h.Erases ([.nonterminal n].map r.symbol) ↔ g.Erases [.nonterminal n] :=
    renames.erases_iff
  rwa [← Grammar.mem_nullable left, List.map_singleton, Renaming.symbol,
    ← Grammar.mem_nullable right] at carried

theorem mem_first_iff {n t : Nat} :
    r.terminals t ∈ h.firstSets.first (r.nonterminals n) ↔ t ∈ g.firstSets.first n := by
  have carried : h.Begins ([.nonterminal n].map r.symbol) (r.terminals t) ↔
      g.Begins [.nonterminal n] t := renames.begins_iff
  rwa [← Grammar.mem_first left, List.map_singleton, Renaming.symbol,
    ← Grammar.mem_first right] at carried

theorem mem_follow_iff {n t : Nat} :
    r.terminals t ∈ (h.followSets h.firstSets).follow (r.nonterminals n) ↔
      t ∈ (g.followSets g.firstSets).follow n := by
  rw [Grammar.mem_follow right, Grammar.mem_follow left]
  exact renames.follows_iff

end

end Renames

end CanonicalLR
