import CanonicalLR.Proofs.FirstOccurrences
import CanonicalLR.Proofs.Item.Closure

/-!
# Explorations of the item sets

From the closure of the start item gotos lead to further item sets. They may be
followed in any order: once none is left to follow, every exploration has found
the same item sets and has followed the same gotos between them, each of them
once.
-/

namespace CanonicalLR

namespace Grammar

/-- The item sets that gotos lead to from the closure of the start item. -/
inductive Collected (g : Grammar) : ItemSet → Prop where
  | start : g.Collected (closure g g.firstSets [.start])
  | goto {set : ItemSet} (earlier : g.Collected set) (symbol : Symbol)
      (inhabited : set.goto g g.firstSets symbol ≠ ∅) :
      g.Collected (set.goto g g.firstSets symbol)

end Grammar

namespace ItemSet

variable {g : Grammar} {set : ItemSet} {symbol : Symbol}

theorem closure_nil (g : Grammar) : closure g g.firstSets [] = ∅ := by
  ext item
  rw [closure, ClosureRules.mem_close, ClosureRules.mem_predicted]
  constructor
  · rintro (none | ⟨production, -, -, ahead⟩)
    · exact absurd none List.not_mem_nil
    · obtain ⟨source, ⟨origin, none, -⟩, -⟩ :=
        ClosureRules.exists_demands_of_carried (IdSets.carried_of_mem_saturate ahead)
      exact absurd none List.not_mem_nil
  · exact fun none => absurd none (not_mem_empty item)

/-- A goto is empty unless its symbol stands after a dot. -/
theorem goto_ne_empty_iff :
    set.goto g g.firstSets symbol ≠ ∅ ↔ symbol ∈ set.symbolsAfterDot g := by
  constructor
  · intro inhabited
    by_contra absent
    apply inhabited
    have bare : (set.gotoKernel g symbol).toList = [] := by
      rw [List.eq_nil_iff_forall_not_mem]
      intro item member
      obtain ⟨source, listed, next, -⟩ := mem_gotoKernel.mp (mem_iff.mpr member)
      exact absent (mem_symbolsAfterDot.mpr ⟨source, listed, next⟩)
    rw [goto, bare, closure_nil]
  · intro after empty
    obtain ⟨item, listed, next⟩ := mem_symbolsAfterDot.mp after
    have moved : item.advance ∈ set.goto g g.firstSets symbol :=
      ClosureRules.mem_close.mpr (.inl (mem_gotoKernel.mpr ⟨item, listed, next, rfl⟩))
    rw [empty] at moved
    exact not_mem_empty _ moved

theorem symbolsAfterDot_nodup (g : Grammar) (set : ItemSet) : (set.symbolsAfterDot g).Nodup :=
  nodup_eraseDups _

end ItemSet

/-- A goto that has been followed. -/
structure Edge where
  source : ItemSet
  symbol : Symbol
  target : ItemSet

namespace Edge

def origin (edge : Edge) : ItemSet × Symbol :=
  (edge.source, edge.symbol)

/-- The symbol stands after a dot of the source, and the target is the goto over it. -/
def Leads (g : Grammar) (edge : Edge) : Prop :=
  edge.symbol ∈ edge.source.symbolsAfterDot g ∧
    edge.target = edge.source.goto g g.firstSets edge.symbol

end Edge

/-- The item sets found so far and the gotos followed so far. -/
structure Exploration where
  found : List ItemSet
  followed : List Edge

namespace Exploration

def start (g : Grammar) : Exploration :=
  ⟨[closure g g.firstSets [.start]], []⟩

/-- Any goto that has not been followed yet may be followed next. -/
inductive Follows (g : Grammar) (e : Exploration) : Exploration → Prop where
  | known {edge : Edge} (listed : edge.source ∈ e.found) (leads : edge.Leads g)
      (fresh : edge.origin ∉ e.followed.map Edge.origin) (seen : edge.target ∈ e.found) :
      e.Follows g ⟨e.found, e.followed ++ [edge]⟩
  | new {edge : Edge} (listed : edge.source ∈ e.found) (leads : edge.Leads g)
      (fresh : edge.origin ∉ e.followed.map Edge.origin) (unseen : edge.target ∉ e.found) :
      e.Follows g ⟨e.found ++ [edge.target], e.followed ++ [edge]⟩

/-- What the steps of an exploration come to, in whichever order they are taken. -/
def Reached (g : Grammar) : Exploration → Prop :=
  Relation.ReflTransGen (Follows g) (start g)

/-- No goto is left to follow. -/
def Complete (g : Grammar) (e : Exploration) : Prop :=
  ∀ later, ¬ e.Follows g later

/-- What every exploration keeps. -/
structure Sound (g : Grammar) (e : Exploration) : Prop where
  nodup : e.found.Nodup
  start : closure g g.firstSets [.start] ∈ e.found
  collected : ∀ set ∈ e.found, g.Collected set
  once : (e.followed.map Edge.origin).Nodup
  leads : ∀ edge ∈ e.followed, edge.source ∈ e.found ∧ edge.target ∈ e.found ∧ edge.Leads g

variable {g : Grammar} {e later : Exploration}

theorem sound_start (g : Grammar) : (start g).Sound g where
  nodup := List.nodup_singleton _
  start := List.mem_singleton_self _
  collected _ member := List.mem_singleton.mp member ▸ .start
  once := List.nodup_nil
  leads _ none := absurd none List.not_mem_nil

/-! ## One step -/

theorem Sound.collected_target (sound : e.Sound g) {edge : Edge} (listed : edge.source ∈ e.found)
    (leads : edge.Leads g) : g.Collected edge.target := by
  obtain ⟨after, same⟩ := leads
  rw [same]
  exact .goto (sound.collected _ listed) edge.symbol (ItemSet.goto_ne_empty_iff.mpr after)

theorem Sound.once_append (sound : e.Sound g) {edge : Edge}
    (fresh : edge.origin ∉ e.followed.map Edge.origin) :
    ((e.followed ++ [edge]).map Edge.origin).Nodup := by
  rw [List.map_append, List.map_singleton, ← List.concat_eq_append]
  exact sound.once.concat fresh

theorem Sound.follows (sound : e.Sound g) (step : e.Follows g later) : later.Sound g := by
  cases step with
  | @known edge listed leads fresh seen =>
    refine ⟨sound.nodup, sound.start, sound.collected, sound.once_append fresh, ?_⟩
    intro other member
    rcases List.mem_append.mp member with old | new
    · exact sound.leads other old
    · obtain rfl := List.mem_singleton.mp new
      exact ⟨listed, seen, leads⟩
  | @new edge listed leads fresh unseen =>
    refine ⟨?_, List.mem_append_left _ sound.start, ?_, sound.once_append fresh, ?_⟩
    · rw [← List.concat_eq_append]
      exact sound.nodup.concat unseen
    · intro set member
      rcases List.mem_append.mp member with old | new
      · exact sound.collected set old
      · obtain rfl := List.mem_singleton.mp new
        exact sound.collected_target listed leads
    · intro other member
      rcases List.mem_append.mp member with old | new
      · obtain ⟨source, target, leads⟩ := sound.leads other old
        exact ⟨List.mem_append_left _ source, List.mem_append_left _ target, leads⟩
      · obtain rfl := List.mem_singleton.mp new
        exact ⟨List.mem_append_left _ listed,
          List.mem_append_right _ (List.mem_singleton_self _), leads⟩

/-! ## Whole explorations -/

theorem Reached.sound (reached : e.Reached g) : e.Sound g := by
  induction reached with
  | refl => exact sound_start g
  | tail _ step ih => exact ih.follows step

theorem Complete.mem_followed (complete : e.Complete g) {edge : Edge}
    (listed : edge.source ∈ e.found) (leads : edge.Leads g) :
    edge.origin ∈ e.followed.map Edge.origin := by
  by_contra fresh
  by_cases seen : edge.target ∈ e.found
  · exact complete _ (.known listed leads fresh seen)
  · exact complete _ (.new listed leads fresh seen)

theorem eq_of_origin {first second : Edge} (same : first.origin = second.origin)
    (left : first.Leads g) (right : second.Leads g) : first = second := by
  obtain ⟨source, symbol⟩ := Prod.mk.inj same
  have target : first.target = second.target := by rw [left.2, right.2, source, symbol]
  cases first
  cases second
  simp only [Edge.mk.injEq]
  exact ⟨source, symbol, target⟩

/-- A complete exploration has found the collected sets. -/
theorem Sound.mem_found_iff (sound : e.Sound g) (complete : e.Complete g) {set : ItemSet} :
    set ∈ e.found ↔ g.Collected set := by
  constructor
  · exact sound.collected set
  · intro collected
    induction collected with
    | start => exact sound.start
    | @goto set _ symbol inhabited listed =>
      let edge : Edge := ⟨set, symbol, set.goto g g.firstSets symbol⟩
      have leads : edge.Leads g := ⟨ItemSet.goto_ne_empty_iff.mp inhabited, rfl⟩
      obtain ⟨other, member, same⟩ := List.mem_map.mp (complete.mem_followed listed leads)
      obtain ⟨-, target, otherLeads⟩ := sound.leads other member
      obtain rfl : other = edge := eq_of_origin same otherLeads leads
      exact target

/-- A complete exploration has followed the gotos that leave the collected sets. -/
theorem Sound.mem_followed_iff (sound : e.Sound g) (complete : e.Complete g) {edge : Edge} :
    edge ∈ e.followed ↔ g.Collected edge.source ∧ edge.Leads g := by
  constructor
  · intro member
    obtain ⟨source, -, leads⟩ := sound.leads edge member
    exact ⟨sound.collected _ source, leads⟩
  · rintro ⟨collected, leads⟩
    have listed := (sound.mem_found_iff complete).mpr collected
    obtain ⟨other, member, same⟩ := List.mem_map.mp (complete.mem_followed listed leads)
    exact eq_of_origin same (sound.leads other member).2.2 leads ▸ member

/-- An exploration has followed no more gotos than a complete one. -/
theorem Sound.length_followed_le (sound : e.Sound g) (all : later.Sound g)
    (complete : later.Complete g) : e.followed.length ≤ later.followed.length := by
  apply List.Subperm.length_le
  apply List.Nodup.subperm sound.once.of_map
  intro edge member
  obtain ⟨source, -, leads⟩ := sound.leads edge member
  exact (all.mem_followed_iff complete).mpr ⟨sound.collected _ source, leads⟩

/-- Complete explorations have found the same item sets and followed the same gotos. -/
theorem Sound.perm (left : e.Sound g) (leftComplete : e.Complete g) (right : later.Sound g)
    (rightComplete : later.Complete g) :
    e.found.Perm later.found ∧ e.followed.Perm later.followed := by
  constructor
  · apply (List.perm_ext_iff_of_nodup left.nodup right.nodup).mpr
    intro set
    rw [left.mem_found_iff leftComplete, right.mem_found_iff rightComplete]
  · apply (List.perm_ext_iff_of_nodup left.once.of_map right.once.of_map).mpr
    intro edge
    rw [left.mem_followed_iff leftComplete, right.mem_followed_iff rightComplete]

end Exploration

end CanonicalLR
