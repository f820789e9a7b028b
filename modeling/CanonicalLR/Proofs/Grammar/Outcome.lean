import CanonicalLR.Proofs.Grammar.Assembly

/-!
# What a definition yields

Every sequence of calls has one of four outcomes: no nonterminal has been
declared, the start symbol has no production, some other nonterminal that is
used has none, or there is a grammar. What has been declared tells which.
-/

namespace CanonicalLR

/-- The first value that is kept, where some are left out. -/
theorem find?_filterMap_eq {α β : Type} {view : α → Option β} {kept : β → Bool} {values : List α} :
    values.findSome? (fun value => (view value).filter kept) =
      (values.filterMap view).find? kept := by
  induction values with
  | nil => rfl
  | cons head tail ih =>
    cases seen : view head with
    | none => simp [seen, ih]
    | some value =>
      cases hit : kept value with
      | true => simp [seen, hit]
      | false => simp [seen, hit, ih]

namespace Declarations

/-- The nonterminals on the right-hand sides, in order, each with its left-hand side. -/
def uses (d : Declarations) : List (Nat × Nat) :=
  d.productions.flatMap fun production =>
    (production.right.filterMap Symbol.nonterminal?).map (·, production.left)

/-- The first nonterminal on a right-hand side that has no production. -/
def FirstUndefined (d : Declarations) (n left : Nat) : Prop :=
  ∃ before after, d.uses = before ++ (n, left) :: after ∧ ¬ d.Defines n ∧
    ∀ use ∈ before, d.Defines use.1

/-- A grammar has what has been declared, the reserved entries in front. Its productions are those
that were sorted by their ids, and each left-hand side has those that were collected for it. -/
structure Yields (d : Declarations) (g : Grammar) : Prop where
  start : g.start = d.start
  terminals : g.terminals.toList = endMarkerName :: d.terminals
  nonterminals : ∃ name, d.nonterminalName? d.start = some name ∧
    g.nonterminals.toList = (name ++ "'") :: d.nonterminals
  ids : g.productionIds = List.range (d.productions.length + 1)
  augmented : g.production? augmentedProduction = some ⟨augmentedStart, [.nonterminal g.start]⟩
  declared : ∀ i, g.production? (i + 1) = d.productions[i]?
  sorted : d.sorted = g.productions.toList.zip g.productionIds
  reserved : ∀ p production, g.production? p = some production →
    (production.left = augmentedStart ↔ p = augmentedProduction) ∧
      .nonterminal augmentedStart ∉ production.right ∧ .terminal endMarker ∉ production.right
  symbols : ∀ p production, g.production? p = some production →
    production.right.length ≤ Definition.lengthLimit ∧
      ∀ symbol ∈ production.right, (g.symbolName? symbol).isSome
  defined : ∀ p production n, g.production? p = some production →
    .nonterminal n ∈ production.right → g.productionsOf n ≠ []
  groups : ∀ n, (d.groups.get? n).getD [] = g.productionsOf n
  productionsOf : ∀ n p, p ∈ g.productionsOf n ↔
    ∃ production, g.production? p = some production ∧ production.left = n
  ascending : ∀ n, (g.productionsOf n).Pairwise (· < ·)

/-- What the final check makes of what has been declared. -/
inductive Outcome (d : Declarations) : Except GrammarError Grammar → Prop where
  | empty (bare : d.nonterminals = []) : d.Outcome (.error .emptyGrammar)
  | unreachable {name : String} (listed : d.nonterminals ≠ []) (undefined : ¬ d.Defines d.start)
      (named : d.nonterminalName? d.start = some name) :
      d.Outcome (.error (.unreachableStart name))
  | undefined {n left : Nat} {name leftName : String} (listed : d.nonterminals ≠ [])
      (start : d.Defines d.start) (first : d.FirstUndefined n left)
      (named : d.nonterminalName? n = some name)
      (leftNamed : d.nonterminalName? left = some leftName) :
      d.Outcome (.error (.undefinedSymbol name leftName))
  | grammar {g : Grammar} (listed : d.nonterminals ≠ []) (start : d.Defines d.start)
      (defined : ∀ use ∈ d.uses, d.Defines use.1) (yields : d.Yields g) : d.Outcome (.ok g)

instance (d : Declarations) (n : Nat) : Decidable (d.Defines n) :=
  inferInstanceAs (Decidable (∃ production ∈ d.productions, production.left = n))

variable {d : Declarations}

/-! ## There is only one outcome -/

theorem firstUndefined_iff {n left : Nat} :
    d.FirstUndefined n left ↔ d.uses.find? (fun use => ¬ d.Defines use.1) = some (n, left) := by
  rw [List.find?_eq_some_iff_append]
  simp only [FirstUndefined, decide_eq_true_eq, decide_not, Bool.not_eq_true', Bool.not_not,
    decide_eq_false_iff_not]
  constructor
  · rintro ⟨before, after, split, undefined, earlier⟩
    exact ⟨undefined, before, after, split, earlier⟩
  · rintro ⟨undefined, before, after, split, earlier⟩
    exact ⟨before, after, split, undefined, earlier⟩

theorem mem_uses {n left : Nat} : (n, left) ∈ d.uses ↔
    ∃ production ∈ d.productions, production.left = left ∧ .nonterminal n ∈ production.right := by
  simp only [uses, List.mem_flatMap, List.mem_map, List.mem_filterMap, Symbol.nonterminal?_eq_some,
    Prod.mk.injEq]
  constructor
  · rintro ⟨production, listed, _, ⟨_, used, rfl⟩, rfl, rfl⟩
    exact ⟨production, listed, rfl, used⟩
  · rintro ⟨production, listed, rfl, used⟩
    exact ⟨production, listed, n, ⟨_, used, rfl⟩, rfl, rfl⟩

theorem FirstUndefined.undefined {n left : Nat} (first : d.FirstUndefined n left) :
    ¬ d.Defines n := by
  obtain ⟨_, _, _, undefined, _⟩ := first
  exact undefined

theorem FirstUndefined.mem_uses {n left : Nat} (first : d.FirstUndefined n left) :
    (n, left) ∈ d.uses := by
  obtain ⟨before, after, split, -⟩ := first
  simp [split]

theorem Yields.unique {g other : Grammar} (yields : d.Yields g) (same : d.Yields other) :
    g = other := by
  have terminals : g.terminals = other.terminals :=
    Array.toList_inj.mp (yields.terminals.trans same.terminals.symm)
  have nonterminals : g.nonterminals = other.nonterminals := by
    obtain ⟨name, named, listed⟩ := yields.nonterminals
    obtain ⟨otherName, otherNamed, otherListed⟩ := same.nonterminals
    obtain rfl := Option.some.inj (named.symm.trans otherNamed)
    exact Array.toList_inj.mp (listed.trans otherListed.symm)
  have start : g.start = other.start := yields.start.trans same.start.symm
  have productions : g.productions = other.productions := by
    apply Array.ext_getElem?
    intro p
    cases p with
    | zero =>
      have first := yields.augmented.trans (start ▸ same.augmented.symm)
      exact first
    | succ i => exact (yields.declared i).trans (same.declared i).symm
  cases g
  cases other
  simp_all only

theorem Outcome.unique {result other : Except GrammarError Grammar} (outcome : d.Outcome result)
    (same : d.Outcome other) : result = other := by
  cases outcome with
  | empty bare =>
    cases same with
    | empty => rfl
    | unreachable listed | undefined listed | grammar listed => exact absurd bare listed
  | unreachable listed undefined named =>
    cases same with
    | empty bare => exact absurd bare listed
    | unreachable _ _ otherNamed =>
      obtain rfl := Option.some.inj (named.symm.trans otherNamed)
      rfl
    | undefined _ start | grammar _ start => exact absurd start undefined
  | @undefined n left name leftName listed start first named leftNamed =>
    cases same with
    | empty bare => exact absurd bare listed
    | unreachable _ undefined => exact absurd start undefined
    | undefined _ _ otherFirst otherNamed otherLeft =>
      have pair := (firstUndefined_iff.mp first).symm.trans (firstUndefined_iff.mp otherFirst)
      obtain ⟨rfl, rfl⟩ := Prod.mk.inj (Option.some.inj pair)
      obtain rfl := Option.some.inj (named.symm.trans otherNamed)
      obtain rfl := Option.some.inj (leftNamed.symm.trans otherLeft)
      rfl
    | grammar _ _ defined => exact absurd (defined _ first.mem_uses) first.undefined
  | grammar listed start defined yields =>
    cases same with
    | empty bare => exact absurd bare listed
    | unreachable _ undefined => exact absurd start undefined
    | undefined _ _ first => exact absurd (defined _ first.mem_uses) first.undefined
    | grammar _ _ _ otherYields => exact congrArg Except.ok (yields.unique otherYields)

end Declarations

namespace Definition

variable {d : Definition} {whole : Declarations}

/-! ## The final check has this outcome -/

section

variable (records : d.Records whole)
include records

theorem Records.mem_defined_iff {n : Nat} : n ∈ d.defined ↔ whole.Defines n := by
  simp only [mem_defined, Declarations.Defines, ← records.productions, Array.mem_toList_iff]

theorem Records.firstUndefined?_eq :
    d.firstUndefined? = whole.uses.find? fun use => ¬ whole.Defines use.1 := by
  rw [Declarations.uses, List.find?_flatMap, firstUndefined?]
  simp only [List.find?_map, find?_filterMap_eq, ← records.mem_defined_iff]
  rw [records.productions]
  rfl

theorem Records.nonterminalName? {n : Nat} (positive : 0 < n) (inside : n ≤ d.nonterminals.size) :
    whole.nonterminalName? n = some (d.nonterminalName n) := by
  obtain ⟨before, rfl⟩ := Nat.exists_eq_succ_of_ne_zero (Nat.ne_of_gt positive)
  have listed : before < d.nonterminals.size := inside
  rw [Declarations.nonterminalName?, ← records.nonterminals]
  simp [nonterminalName, listed]

theorem Records.start_eq : whole.start = d.start.getD 1 := by
  rw [records.start]
  rfl

theorem Records.nonterminals_eq_nil_iff : whole.nonterminals = [] ↔ d.nonterminals.size = 0 := by
  rw [← records.nonterminals, Array.toList_eq_nil_iff, Array.size_eq_zero_iff]

theorem Records.start_declared (sound : d.Sound) (listed : whole.nonterminals ≠ []) :
    (Symbol.nonterminal whole.start).Declared (d.terminals.size + 1)
      (d.nonterminals.size + 1) := by
  rw [records.start_eq]
  cases chosen : d.start with
  | none =>
    have size := mt records.nonterminals_eq_nil_iff.mpr listed
    exact ⟨Nat.zero_lt_one, Nat.succ_lt_succ (Nat.pos_of_ne_zero size)⟩
  | some symbol => exact sound.start symbol chosen

/-- A start symbol can only be chosen from the nonterminals that there are. -/
theorem Records.startSymbol?_eq (sound : d.Sound) :
    d.startSymbol? = if whole.nonterminals = [] then none else some whole.start := by
  rw [records.start_eq, startSymbol?]
  cases chosen : d.start with
  | none => simp [records.nonterminals_eq_nil_iff]
  | some symbol =>
    have declared := sound.start symbol chosen
    have listed : whole.nonterminals ≠ [] := by
      rw [ne_eq, records.nonterminals_eq_nil_iff]
      exact Nat.ne_of_gt (Nat.lt_of_lt_of_le declared.1 (Nat.le_of_lt_succ declared.2))
    rw [if_neg listed]
    rfl

theorem Records.toList_productions_augment :
    (d.augment whole.start).productions.toList = whole.augmented :: whole.productions := by
  simp [augment, Declarations.augmented, records.productions]

theorem Records.get?_groups (sound : d.Sound) (n : Nat) :
    (whole.groups.get? n).getD [] = (d.augment whole.start).productionsOf n := by
  have user : ∀ entry ∈ whole.entries, entry.1.left ≠ augmentedStart := by
    intro entry listed
    have member : entry.1 ∈ d.productions := by
      rw [← Array.mem_toList_iff, records.productions]
      exact List.fst_mem_of_mem_zipIdx listed
    exact Nat.ne_of_gt (sound.productions _ member).left.1
  rw [Grammar.productionsOf_eq, records.toList_productions_augment, Declarations.groups,
    Cells.get?_put, List.zipIdx_cons]
  by_cases reserved : n = augmentedStart
  · have none : whole.entries.filter (·.1.left == n) = [] := by
      rw [List.filter_eq_nil_iff]
      intro entry listed
      simpa [reserved] using user entry listed
    have own : (whole.augmented.left == n) = true := by
      simp [reserved, Declarations.augmented]
    rw [if_pos reserved, List.filter_cons_of_pos (by exact own)]
    exact congrArg (augmentedProduction :: ·.map Prod.snd) none.symm
  · have other : (whole.augmented.left == n) = false := by
      simpa [Declarations.augmented] using Ne.symm reserved
    rw [if_neg reserved, List.filter_cons_of_neg (by simp [other]),
      Declarations.get?_foldl_collect]
    rfl

theorem Records.yields (sound : d.Sound) (listed : whole.nonterminals ≠ [])
    (start : whole.start ∈ d.defined) (none : d.firstUndefined? = none) :
    whole.Yields (d.augment whole.start) := by
  have wellFormed := Grammar.wellFormed_augment sound start none
  have productions := records.toList_productions_augment
  have size : (d.augment whole.start).productions.size = whole.productions.length + 1 := by
    rw [← Array.length_toList, productions]
    rfl
  obtain ⟨positive, inside⟩ := records.start_declared sound listed
  have named := records.nonterminalName? positive (Nat.le_of_lt_succ inside)
  exact {
    start := rfl
    terminals := by simp [augment, records.terminals]
    nonterminals := ⟨_, named, by simp [augment, records.nonterminals]⟩
    ids := by rw [Grammar.productionIds, size]
    augmented := wellFormed.augmented
    declared := by
      intro i
      have found : (d.augment whole.start).production? (i + 1) = d.productions[i]? :=
        Grammar.production?_augment
      rw [found, ← records.productions, Array.getElem?_toList]
    sorted := by
      rw [Declarations.sorted_eq, productions, Grammar.productionIds, size,
        List.zipIdx_eq_zip_range', List.range_eq_range']
      rfl
    reserved := by
      intro p production found
      refine ⟨⟨wellFormed.eq_augmented found, ?_⟩, fun used => ?_, fun used => ?_⟩
      · rintro rfl
        obtain rfl := Option.some.inj (found.symm.trans wellFormed.augmented)
        rfl
      · exact absurd (wellFormed.declared_of_mem found used).1 (Nat.lt_irrefl _)
      · exact absurd (wellFormed.declared_of_mem found used).1 (Nat.lt_irrefl _)
    symbols := fun p production found =>
      ⟨wellFormed.length_le found, fun _ => wellFormed.symbolName?_isSome found⟩
    defined := by
      intro p production n found used
      obtain ⟨q, member⟩ := wellFormed.defined found used
      exact List.ne_nil_of_mem member
    groups := records.get?_groups sound
    productionsOf := fun n p => Grammar.mem_productionsOf
    ascending := Grammar.productionsOf_pairwise _
  }

/-- The final check has the outcome that the declarations tell. -/
theorem Records.finish_outcome (sound : d.Sound) : whole.Outcome d.finish := by
  have named {n : Nat} (declared : (Symbol.nonterminal n).Declared (d.terminals.size + 1)
      (d.nonterminals.size + 1)) :
      whole.nonterminalName? n = some (d.nonterminalName n) :=
    records.nonterminalName? declared.1 (Nat.le_of_lt_succ declared.2)
  unfold finish
  rw [records.startSymbol?_eq sound]
  -- Each check is made only where the ones before it have found nothing.
  by_cases empty : whole.nonterminals = []
  · rw [if_pos empty]
    exact .empty empty
  · rw [if_neg empty]
    dsimp only
    split
    · rename_i start
      have starts := records.mem_defined_iff.mp start
      split
      · rename_i n left found
        rw [records.firstUndefined?_eq] at found
        have first := Declarations.firstUndefined_iff.mpr found
        obtain ⟨production, member, rfl, used⟩ := Declarations.mem_uses.mp first.mem_uses
        have listed : production ∈ d.productions := by
          rw [← Array.mem_toList_iff, records.productions]
          exact member
        have declared := sound.productions production listed
        exact .undefined empty starts first (named (declared.right _ used)) (named declared.left)
      · rename_i none
        refine .grammar empty starts ?_ (records.yields sound empty start none)
        rw [records.firstUndefined?_eq, List.find?_eq_none] at none
        simpa using none
    · rename_i undefined
      exact .unreachable empty (mt records.mem_defined_iff.mpr undefined)
        (named (records.start_declared sound empty))

end

end Definition

namespace Grammar

/-- Every sequence of calls has the one outcome that its declarations have, the refused calls
skipped, and the grammar has every production under the id that its call has returned. -/
theorem ofCalls_outcome (calls : List Call) :
    (∀ result, Grammar.ofCalls calls = result ↔ (declarations calls).Outcome result) ∧
    ∀ g before left right after later id, Grammar.ofCalls calls = .ok g →
      calls = before ++ .production left right :: after →
      (Definition.ofCalls before).call (.production left right) = .ok (later, id) →
      g.production? id = some ⟨left, right⟩ := by
  have outcome : (declarations calls).Outcome (Grammar.ofCalls calls) :=
    (Definition.records_ofCalls calls).finish_outcome (Definition.sound_ofCalls calls)
  refine ⟨fun result => ⟨?_, outcome.unique⟩, ?_⟩
  · rintro rfl
    exact outcome
  · rintro g before left right after later id defined rfl called
    obtain ⟨i, rfl, declared⟩ := getElem?_productions_of_call called
    rw [defined] at outcome
    cases outcome with
    | grammar _ _ _ yields => exact (yields.declared i).trans declared

/-- The four outcomes, of sequences with refused calls among them. -/
theorem outcomes_of_short_sequences :
    (declarations [.terminal "a", .start 1]).Outcome (.error .emptyGrammar) ∧
    (declarations [.nonterminal "S", .nonterminal "A", .production 2 [], .start 7]).Outcome
      (.error (.unreachableStart "S")) ∧
    (declarations [.nonterminal "S", .nonterminal "A", .nonterminal "B", .production 0 [],
      .production 1 [.nonterminal 1, .nonterminal 3, .nonterminal 2]]).Outcome
        (.error (.undefinedSymbol "B" "S")) ∧
    (declarations [.terminal "a", .nonterminal "S", .nonterminal "a",
      .production 1 [.terminal endMarker], .production 1 [.terminal 1]]).Outcome
        (.ok ⟨#["$", "a"], #["S'", "S"], #[⟨0, [.nonterminal 1]⟩, ⟨1, [.terminal 1]⟩], 1⟩) := by
  refine ⟨((ofCalls_outcome _).1 _).mp ?_, ((ofCalls_outcome _).1 _).mp ?_,
    ((ofCalls_outcome _).1 _).mp ?_, ((ofCalls_outcome _).1 _).mp ?_⟩
  · rfl
  · rfl
  · rfl
  · rfl

end Grammar

end CanonicalLR
