import CanonicalLR.Notice
import CanonicalLR.Proofs.Grammar.Declarations
import CanonicalLR.Proofs.Grammar.Derivation
import CanonicalLR.Proofs.Saturation
import CanonicalLR.Proofs.Sets.Nullable

/-!
# Unreachable nonterminals

A nonterminal is reachable if the augmented start symbol derives a string that it
occurs in. To find these nonterminals a cursor goes along a list that grows at its
end while it is read. The notices name the declared nonterminals that are not in
the list once the cursor has come to its end.
-/

namespace CanonicalLR

namespace Grammar

/-- The augmented start symbol derives a string that a nonterminal occurs in. -/
def Occurs (g : Grammar) (n : Nat) : Prop :=
  ∃ form, g.Derives [.nonterminal augmentedStart] form ∧ .nonterminal n ∈ form

/-- The nonterminals in the productions of a nonterminal, as they are written. -/
def usedBy (g : Grammar) (n : Nat) : List Nat :=
  (g.productionsOf n).flatMap fun p =>
    ((g.production? p).map fun production => production.right.filterMap Symbol.nonterminal?).getD []

/-- Put a number at the end of a list, unless it is listed. -/
def enlist (found : List Nat) (n : Nat) : List Nat :=
  if n ∈ found then found else found ++ [n]

/-- The cursor goes along the list, and what the nonterminal at its place uses is put at the end,
until no nonterminal is left to come to. -/
inductive Walks (g : Grammar) : Nat → List Nat → List Nat → Prop where
  | done {cursor : Nat} {found : List Nat} (behind : found[cursor]? = none) :
      g.Walks cursor found found
  | step {cursor n : Nat} {found final : List Nat} (here : found[cursor]? = some n)
      (later : g.Walks (cursor + 1) ((g.usedBy n).foldl enlist found) final) :
      g.Walks cursor found final

variable {g : Grammar}

/-! ## What occurs -/

theorem occurs_augmentedStart (g : Grammar) : g.Occurs augmentedStart :=
  ⟨_, derives_refl _, List.mem_singleton_self _⟩

theorem Occurs.of_production {p n : Nat} {production : Production}
    (occurs : g.Occurs production.left) (found : g.production? p = some production)
    (used : .nonterminal n ∈ production.right) : g.Occurs n := by
  obtain ⟨form, derived, member⟩ := occurs
  obtain ⟨before, after, rfl⟩ := List.append_of_mem member
  exact ⟨_, derived.tail (.replace found before after),
    List.mem_append_left _ (List.mem_append_right _ used)⟩

/-- Besides the augmented start symbol there occurs what the start symbol reaches. -/
theorem WellFormed.occurs_iff (wellFormed : g.WellFormed) {n : Nat} :
    g.Occurs n ↔ n = augmentedStart ∨ g.Reachable n := by
  constructor
  · rintro ⟨form, derived, member⟩
    rcases Relation.ReflTransGen.cases_head derived with rfl | ⟨second, step, later⟩
    · exact .inl (Symbol.nonterminal.inj (List.mem_singleton.mp member))
    · -- The first step can only be that of the augmented production.
      generalize split : [Symbol.nonterminal augmentedStart] = first at step
      obtain ⟨found, before, after⟩ := step
      rcases List.append_eq_singleton_iff.mp split.symm with ⟨rfl, alone⟩ | ⟨-, none⟩
      · obtain ⟨same, rfl⟩ := List.cons.inj alone
        obtain rfl := wellFormed.eq_augmented found (Symbol.nonterminal.inj same)
        obtain rfl := Option.some.inj (found.symm.trans wellFormed.augmented)
        obtain ⟨front, back, rfl⟩ := List.append_of_mem member
        exact .inr ⟨front, back, by simpa [Derives] using later⟩
      · cases none
  · rintro (rfl | ⟨before, after, derived⟩)
    · exact occurs_augmentedStart g
    · exact ⟨_, (derives_right wellFormed.augmented).trans derived, by simp⟩

/-- What the augmented start symbol has, and what passes from left-hand sides to right-hand sides,
is had by all that occurs. -/
@[elab_as_elim] theorem Occurs.induction (wellFormed : g.WellFormed) {motive : Nat → Prop}
    (augmented : motive augmentedStart)
    (inside : ∀ {p n : Nat} {production : Production}, g.production? p = some production →
      motive production.left → .nonterminal n ∈ production.right → motive n)
    {n : Nat} (occurs : g.Occurs n) : motive n := by
  rcases wellFormed.occurs_iff.mp occurs with rfl | reachable
  · exact augmented
  · exact Reachable.induction
      (inside wellFormed.augmented augmented (List.mem_singleton_self _)) inside reachable

/-! ## The marks -/

theorem mem_reachFlows {flow : Flow} : flow ∈ g.reachFlows ↔
    ∃ p production n, g.production? p = some production ∧ .nonterminal n ∈ production.right ∧
      flow = .copy production.left n := by
  simp only [reachFlows, List.mem_flatMap, List.mem_map, List.mem_filterMap,
    Symbol.nonterminal?_eq_some, mem_productions_iff]
  constructor
  · rintro ⟨production, ⟨p, found⟩, n, ⟨_, used, rfl⟩, rfl⟩
    exact ⟨p, production, n, found, used, rfl⟩
  · rintro ⟨p, production, n, found, used, rfl⟩
    exact ⟨production, ⟨p, found⟩, n, ⟨_, used, rfl⟩, rfl⟩

theorem mem_reachSeeds {n id : Nat} : id ∈ g.reachSeeds.setAt n ↔
    n = augmentedStart ∧ augmentedStart < g.nonterminals.size ∧ id = mark := by
  rw [reachSeeds, IdSets.mem_setAt_add, IdSets.setAt_replicate]
  simp

/-- The mark comes to what occurs, and to nothing else. -/
theorem carried_mark_iff (wellFormed : g.WellFormed) {n : Nat} :
    Carried g.reachFlows g.reachSeeds n mark ↔ g.Occurs n := by
  constructor
  · generalize mark = id
    intro carried
    induction carried with
    | seed planted =>
      obtain ⟨rfl, -⟩ := mem_reachSeeds.mp planted
      exact occurs_augmentedStart g
    | gain listed _ gained =>
      obtain ⟨p, production, n, -, -, rfl⟩ := mem_reachFlows.mp listed
      exact absurd gained (IdSet.not_mem_empty _)
    | relay listed _ _ ih =>
      obtain ⟨p, production, n, found, used, rfl⟩ := mem_reachFlows.mp listed
      exact ih.of_production found used
  · intro occurs
    refine Occurs.induction wellFormed ?_ ?_ occurs
    · exact .seed (mem_reachSeeds.mpr ⟨rfl, wellFormed.nonterminals, rfl⟩)
    · intro p n production found before used
      exact .relay (mem_reachFlows.mpr ⟨p, production, n, found, used, rfl⟩) rfl before

theorem mem_unreachable (wellFormed : g.WellFormed) {n : Nat} :
    n ∈ g.unreachable ↔ n ∈ g.userNonterminals ∧ ¬ g.Occurs n := by
  have below : IdSets.Below 1 g.reachSeeds := by
    intro node id planted
    obtain ⟨-, -, rfl⟩ := mem_reachSeeds.mp planted
    exact Nat.zero_lt_one
  have gains : ∀ flow ∈ g.reachFlows, ∀ id, id ∈ flow.gain → id < 1 := by
    intro flow listed id gained
    obtain ⟨p, production, n, -, -, rfl⟩ := mem_reachFlows.mp listed
    exact absurd gained (IdSet.not_mem_empty id)
  have targets : ∀ flow ∈ g.reachFlows, flow.target < g.reachSeeds.size := by
    intro flow listed
    obtain ⟨p, production, n, found, used, rfl⟩ := mem_reachFlows.mp listed
    rw [reachSeeds, IdSets.size_add, Array.size_replicate]
    exact (wellFormed.declared_of_mem found used).2
  have marked : mark ∈ g.marks.setAt n ↔ g.Occurs n := by
    rw [marks, IdSets.mem_saturate below gains targets, carried_mark_iff wellFormed]
  rw [unreachable, List.mem_filter, decide_eq_true_eq, marked]

/-! ## The walk -/

theorem mem_usedBy {n m : Nat} : m ∈ g.usedBy n ↔
    ∃ p production, g.production? p = some production ∧ production.left = n ∧
      .nonterminal m ∈ production.right := by
  simp only [usedBy, List.mem_flatMap, mem_productionsOf]
  constructor
  · rintro ⟨p, ⟨production, found, same⟩, used⟩
    rw [found, Option.map_some, Option.getD_some, List.mem_filterMap] at used
    obtain ⟨symbol, member, seen⟩ := used
    exact ⟨p, production, found, same, Symbol.nonterminal?_eq_some.mp seen ▸ member⟩
  · rintro ⟨p, production, found, same, used⟩
    refine ⟨p, ⟨production, found, same⟩, ?_⟩
    rw [found, Option.map_some, Option.getD_some, List.mem_filterMap]
    exact ⟨_, used, rfl⟩

theorem Occurs.usedBy {n m : Nat} (occurs : g.Occurs n) (used : m ∈ g.usedBy n) : g.Occurs m := by
  obtain ⟨p, production, found, rfl, member⟩ := mem_usedBy.mp used
  exact occurs.of_production found member

theorem Occurs.lt (wellFormed : g.WellFormed) {n : Nat} (occurs : g.Occurs n) :
    n < g.nonterminals.size := by
  refine Occurs.induction wellFormed wellFormed.nonterminals ?_ occurs
  intro p n production found _ used
  exact (wellFormed.declared_of_mem found used).2

theorem mem_enlist {found : List Nat} {n m : Nat} : m ∈ enlist found n ↔ m ∈ found ∨ m = n := by
  unfold enlist
  split
  · rename_i listed
    constructor
    · exact .inl
    · rintro (member | rfl)
      · exact member
      · exact listed
  · simp

theorem mem_foldl_enlist {found used : List Nat} {m : Nat} :
    m ∈ used.foldl enlist found ↔ m ∈ found ∨ m ∈ used := by
  induction used generalizing found with
  | nil => simp
  | cons head tail ih => rw [List.foldl_cons, ih, mem_enlist, List.mem_cons, or_assoc]

theorem prefix_foldl_enlist (used found : List Nat) : found <+: used.foldl enlist found := by
  induction used generalizing found with
  | nil => exact List.prefix_rfl
  | cons head tail ih =>
    refine List.IsPrefix.trans ?_ (ih (enlist found head))
    unfold enlist
    split
    · exact List.prefix_rfl
    · exact List.prefix_append ..

theorem nodup_foldl_enlist {found : List Nat} (nodup : found.Nodup) (used : List Nat) :
    (used.foldl enlist found).Nodup := by
  induction used generalizing found with
  | nil => exact nodup
  | cons head tail ih =>
    apply ih
    unfold enlist
    split
    · exact nodup
    · rename_i fresh
      rw [← List.concat_eq_append]
      exact nodup.concat fresh

/-- What the walk keeps: all that is listed occurs, and what the nonterminals before the cursor use
is listed. -/
structure Walking (g : Grammar) (cursor : Nat) (found : List Nat) : Prop where
  nodup : found.Nodup
  start : augmentedStart ∈ found
  occurs : ∀ n ∈ found, g.Occurs n
  closed : ∀ n ∈ found.take cursor, ∀ m ∈ g.usedBy n, m ∈ found

theorem walking_start (g : Grammar) : g.Walking 0 [augmentedStart] where
  nodup := List.nodup_singleton _
  start := List.mem_singleton_self _
  occurs _ member := List.mem_singleton.mp member ▸ occurs_augmentedStart g
  closed _ none := absurd none List.not_mem_nil

theorem Walking.step {cursor n : Nat} {found : List Nat} (walking : g.Walking cursor found)
    (here : found[cursor]? = some n) :
    g.Walking (cursor + 1) ((g.usedBy n).foldl enlist found) where
  nodup := nodup_foldl_enlist walking.nodup _
  start := mem_foldl_enlist.mpr (.inl walking.start)
  occurs m member := by
    rcases mem_foldl_enlist.mp member with old | used
    · exact walking.occurs m old
    · exact (walking.occurs n (List.mem_of_getElem? here)).usedBy used
  closed := by
    obtain ⟨inside, same⟩ := List.getElem?_eq_some_iff.mp here
    obtain ⟨more, grown⟩ := prefix_foldl_enlist (g.usedBy n) found
    have visited : ((g.usedBy n).foldl enlist found).take (cursor + 1) =
        found.take cursor ++ [n] := by
      rw [← grown, List.take_append_of_le_length inside, List.take_add_one, here]
      rfl
    intro m member other used
    rw [visited, List.mem_append, List.mem_singleton] at member
    rcases member with old | rfl
    · exact mem_foldl_enlist.mpr (.inl (walking.closed m old other used))
    · exact mem_foldl_enlist.mpr (.inr used)

/-- Where the walk ends, all that occurs has been listed. -/
theorem Walking.mem_final_iff (wellFormed : g.WellFormed) {cursor : Nat} {found final : List Nat}
    (walks : g.Walks cursor found final) (walking : g.Walking cursor found) {n : Nat} :
    n ∈ final ↔ g.Occurs n := by
  induction walks with
  | @done cursor found behind =>
    refine ⟨walking.occurs n, fun occurs => ?_⟩
    have all : found.take cursor = found :=
      List.take_of_length_le (List.getElem?_eq_none_iff.mp behind)
    refine Occurs.induction wellFormed walking.start ?_ occurs
    intro p m production listed before used
    exact walking.closed _ (all.symm ▸ before) m
      (mem_usedBy.mpr ⟨p, production, listed, rfl, used⟩)
  | step here _ ih => exact ih (walking.step here)

/-- There are no more nonterminals to list than the grammar has. -/
theorem Walking.length_le (wellFormed : g.WellFormed) {cursor : Nat} {found : List Nat}
    (walking : g.Walking cursor found) : found.length ≤ g.nonterminals.size := by
  have inside : found ⊆ List.range g.nonterminals.size := fun n member =>
    List.mem_range.mpr ((walking.occurs n member).lt wellFormed)
  simpa using (walking.nodup.subperm inside).length_le

theorem Walking.exists_walks (wellFormed : g.WellFormed) {cursor : Nat} {found : List Nat}
    (walking : g.Walking cursor found) : ∃ final, g.Walks cursor found final := by
  generalize left : g.nonterminals.size - cursor = room
  induction room generalizing cursor found with
  | zero =>
    have few := walking.length_le wellFormed
    exact ⟨found, .done (List.getElem?_eq_none (by omega))⟩
  | succ room ih =>
    cases here : found[cursor]? with
    | none => exact ⟨found, .done here⟩
    | some n =>
      obtain ⟨final, later⟩ := ih (walking.step here) (by omega)
      exact ⟨final, .step here later⟩

/-! ## The notices -/

theorem map_nonterminalName? (g : Grammar) :
    g.userNonterminals.map g.nonterminalName? = g.nonterminals.toList.tail.map some := by
  have all : g.nonterminalIds.map g.nonterminalName? = g.nonterminals.toList.map some := by
    apply List.ext_getElem?
    intro n
    by_cases inside : n < g.nonterminals.size
    · simp [nonterminalIds, nonterminalName?, inside]
    · simp [nonterminalIds, inside]
  rw [userNonterminals, List.map_drop, all, List.drop_one, List.map_tail]

theorem unreachable_pairwise (g : Grammar) : g.unreachable.Pairwise (· < ·) := by
  have ascending : g.userNonterminals.Pairwise (· < ·) := List.pairwise_lt_range.drop
  exact ascending.filter _

theorem tail_nonterminals_ofCalls {calls : List Call} (defined : Grammar.ofCalls calls = .ok g) :
    g.nonterminals.toList.tail = (declarations calls).nonterminals := by
  obtain ⟨start, -, -, -, rfl⟩ := Definition.finish_eq_ok defined
  simp [Definition.augment, (Definition.records_ofCalls calls).nonterminals]

theorem unreachableNotices_eq {names : List String}
    (named : g.unreachable.map g.nonterminalName? = names.map some) :
    g.unreachableNotices = names.map .unreachable := by
  have through : g.unreachableNotices =
      (g.unreachable.map g.nonterminalName?).filterMap (·.map .unreachable) := by
    rw [List.filterMap_map]
    rfl
  rw [through, named, List.filterMap_map]
  exact congrFun List.filterMap_eq_map' names

/-- The walk ends with what occurs in the strings that the augmented start symbol derives. In the
order of their declarations, the declared nonterminals that occur in none of them are reported, each
once, and no other nonterminals are. -/
theorem unreachable_reported {calls : List Call} (defined : Grammar.ofCalls calls = .ok g) :
    (∃ reached, g.Walks 0 [augmentedStart] reached) ∧
    (∀ reached, g.Walks 0 [augmentedStart] reached →
      (∀ n, n ∈ reached ↔ g.Occurs n) ∧
        g.unreachable = g.userNonterminals.filter (· ∉ reached)) ∧
    g.unreachable.Pairwise (· < ·) ∧
    (∀ n, n ∈ g.unreachable ↔ n ∈ g.userNonterminals ∧ ¬ g.Occurs n) ∧
    ∃ names : List String, g.unreachable.map g.nonterminalName? = names.map some ∧
      names.Sublist (declarations calls).nonterminals ∧
      g.notices = g.duplicateNotices ++ names.map .unreachable ∧
      ∀ name, .unreachable name ∉ g.duplicateNotices := by
  have wellFormed := wellFormed_ofCalls defined
  have ends {reached : List Nat} (walks : g.Walks 0 [augmentedStart] reached) (n : Nat) :
      n ∈ reached ↔ g.Occurs n := (walking_start g).mem_final_iff wellFormed walks
  have all : (g.unreachable.map g.nonterminalName?).Sublist
      ((declarations calls).nonterminals.map some) := by
    rw [← tail_nonterminals_ofCalls defined, ← map_nonterminalName?]
    exact List.filter_sublist.map _
  obtain ⟨names, within, named⟩ := List.sublist_map_iff.mp all
  refine ⟨(walking_start g).exists_walks wellFormed, fun reached walks => ⟨ends walks, ?_⟩,
    unreachable_pairwise g, fun n => mem_unreachable wellFormed, names, named, within, ?_, ?_⟩
  · apply List.filter_congr
    intro n listed
    have same : n ∈ g.unreachable ↔ n ∉ reached := by
      rw [mem_unreachable wellFormed, ends walks, and_iff_right listed]
    rw [unreachable, List.mem_filter, and_iff_right listed, decide_eq_true_eq] at same
    exact decide_eq_decide.mpr same
  · rw [notices, unreachableNotices_eq named]
  · intro name listed
    obtain ⟨production, -, reported⟩ := List.mem_filterMap.mp listed
    obtain ⟨left, -, other⟩ := Option.map_eq_some_iff.mp reported
    cases other

/-- `B` and `C` use each other and `S`, but nothing that `S` derives uses them, and nothing at all
uses `D`. -/
def islandCalls : List Call :=
  [.terminal "a", .nonterminal "B", .nonterminal "S", .nonterminal "A", .nonterminal "C",
    .nonterminal "D", .start 2, .production 2 [.terminal 1, .nonterminal 3],
    .production 1 [.nonterminal 4, .nonterminal 2], .production 3 [.nonterminal 3],
    .production 4 [.nonterminal 1], .production 3 [], .production 3 []]

def island : Grammar where
  terminals := #["$", "a"]
  nonterminals := #["S'", "B", "S", "A", "C", "D"]
  productions := #[⟨0, [.nonterminal 2]⟩, ⟨2, [.terminal 1, .nonterminal 3]⟩,
    ⟨1, [.nonterminal 4, .nonterminal 2]⟩, ⟨3, [.nonterminal 3]⟩, ⟨4, [.nonterminal 1]⟩, ⟨3, []⟩,
    ⟨3, []⟩]
  start := 2

theorem ofCalls_island : Grammar.ofCalls islandCalls = .ok island := rfl

theorem island_unreachable_reported : island.Walks 0 [0] [0, 2, 3] ∧
    (∀ n, n ∈ [0, 2, 3] ↔ island.Occurs n) ∧
    island.notices = [.duplicateProduction "A", .unreachable "B", .unreachable "C",
      .unreachable "D"] := by
  have walks : island.Walks 0 [0] [0, 2, 3] :=
    .step rfl (.step rfl (.step rfl (.done rfl)))
  obtain ⟨-, ends, -, -, names, named, -, notices, -⟩ := unreachable_reported ofCalls_island
  obtain ⟨occur, same⟩ := ends _ walks
  have spelled : island.unreachable.map island.nonterminalName? = ["B", "C", "D"].map some := by
    rw [same]
    rfl
  obtain rfl := (Option.some_injective _).list_map (named.symm.trans spelled)
  exact ⟨walks, occur, notices⟩

end Grammar

end CanonicalLR
