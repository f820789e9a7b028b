import CanonicalLR.Proofs.Grammar.Reachability
import CanonicalLR.Proofs.Restriction.Basic

/-!
# The reachable part of a grammar

Without the nonterminals that cannot be reached, and without their productions,
the ids of the others close ranks. What is left is a part of the grammar.
-/

namespace CanonicalLR

/-! ## Places of what is kept -/

theorem exists_places_filter {α : Type} (keep : α × Nat → Bool) (values : List α) :
    ∃ places : Equiv.Perm Nat, ∀ {place value n},
      (values.zipIdx.filter keep)[place]? = some (value, n) → places place = n := by
  obtain ⟨places, same⟩ := exists_places (List.filter_append_perm keep values.zipIdx)
  refine ⟨places, fun {place value n} found => ?_⟩
  have here := same place
  rw [List.getElem?_append_left (List.getElem?_eq_some_iff.mp found).1, found,
    List.getElem?_zipIdx, Option.map_eq_some_iff] at here
  obtain ⟨_, -, pair⟩ := here
  exact (Nat.zero_add _).symm.trans (congrArg Prod.snd pair)

/-- As many come before a kept number as are kept below it. -/
theorem countP_of_filter {α : Type} (keep : Nat → Bool) {values : List α} {first place n : Nat}
    {value : α} (found : ((values.zipIdx first).filter fun entry => keep entry.2)[place]? =
      some (value, n)) : first ≤ n ∧ (List.range' first (n - first)).countP keep = place := by
  induction values generalizing first place with
  | nil => cases found
  | cons head tail ih =>
    -- What comes later begins after the head, which counts if it is kept.
    have behind {place : Nat} (later : ((tail.zipIdx (first + 1)).filter fun entry =>
        keep entry.2)[place]? = some (value, n)) : first ≤ n ∧
          (List.range' first (n - first)).countP keep =
            place + if keep first then 1 else 0 := by
      obtain ⟨above, count⟩ := ih later
      obtain ⟨more, rfl⟩ := Nat.exists_eq_add_of_le above
      have width : first + 1 + more - first = more + 1 := by omega
      rw [Nat.add_sub_cancel_left] at count
      exact ⟨by omega, by rw [width, List.range'_succ, List.countP_cons, count]⟩
    rw [List.zipIdx_cons, List.filter_cons] at found
    split at found
    · rename_i kept
      cases place with
      | zero =>
        obtain ⟨-, rfl⟩ := Prod.mk.inj (Option.some.inj found)
        simp
      | succ place => simpa [show keep first = true from kept] using behind found
    · rename_i dropped
      simpa [show ¬ keep first = true from dropped] using behind found

/-- What is kept stays in order. -/
theorem lt_of_filter {α : Type} {keep : α × Nat → Bool} {values : List α} {place later : Nat}
    {first second : α × Nat} (found : (values.zipIdx.filter keep)[place]? = some first)
    (behind : (values.zipIdx.filter keep)[later]? = some second) (below : place < later) :
    first.2 < second.2 := by
  have ids : (values.zipIdx.map Prod.snd).Pairwise (· < ·) := by
    rw [List.zipIdx_map_snd]
    exact List.pairwise_lt_range'
  have ordered := (List.pairwise_map.mp ids).filter keep
  obtain ⟨inside, rfl⟩ := List.getElem?_eq_some_iff.mp found
  obtain ⟨within, rfl⟩ := List.getElem?_eq_some_iff.mp behind
  exact List.pairwise_iff_getElem.mp ordered _ _ inside within below

namespace Grammar

/-! ## Closing ranks -/

/-- The number of nonterminals before one that are not unreachable. -/
def rank (g : Grammar) (n : Nat) : Nat :=
  (List.range n).countP fun m => m ∉ g.unreachable

def rankSymbol (g : Grammar) : Symbol → Symbol
  | .terminal t => .terminal t
  | .nonterminal n => .nonterminal (g.rank n)

def rankProduction (g : Grammar) (production : Production) : Production :=
  ⟨g.rank production.left, production.right.map g.rankSymbol⟩

/-- The names of the nonterminals that stay, each with its id. -/
def keptNonterminals (g : Grammar) : List (String × Nat) :=
  g.nonterminals.toList.zipIdx.filter fun entry => entry.2 ∉ g.unreachable

/-- The productions that stay, each with its id. -/
def keptProductions (g : Grammar) : List (Production × Nat) :=
  g.productions.toList.zipIdx.filter fun entry => entry.1.left ∉ g.unreachable

/-- The grammar without its unreachable nonterminals and their productions. -/
def reachablePart (g : Grammar) : Grammar where
  terminals := g.terminals
  nonterminals := (g.keptNonterminals.map Prod.fst).toArray
  productions := ((g.keptProductions.map Prod.fst).map g.rankProduction).toArray
  start := g.rank g.start

variable {g : Grammar}

theorem rank_succ (g : Grammar) (n : Nat) :
    g.rank (n + 1) = g.rank n + if n ∉ g.unreachable then 1 else 0 := by
  simp [rank, List.range_succ, List.countP_append, List.countP_singleton]

theorem rank_le {n m : Nat} (before : n ≤ m) : g.rank n ≤ g.rank m := by
  induction before with
  | refl => exact Nat.le_refl _
  | step _ ih => exact Nat.le_trans ih (rank_succ g _ ▸ Nat.le_add_right _ _)

theorem rank_lt {n m : Nat} (reached : n ∉ g.unreachable) (before : n < m) :
    g.rank n < g.rank m := by
  have next := rank_succ g n
  rw [if_pos reached] at next
  exact Nat.lt_of_lt_of_le (next ▸ Nat.lt_succ_self _) (rank_le before)

theorem Occurs.not_unreachable {n : Nat} (occurs : g.Occurs n) (wellFormed : g.WellFormed) :
    n ∉ g.unreachable :=
  fun listed => ((mem_unreachable wellFormed).mp listed).2 occurs

section

variable (wellFormed : g.WellFormed)
include wellFormed

theorem occurs_iff_not_unreachable {n : Nat} (inside : n < g.nonterminals.size) :
    g.Occurs n ↔ n ∉ g.unreachable := by
  refine ⟨fun occurs => occurs.not_unreachable wellFormed, fun reached => ?_⟩
  by_contra absent
  have user : n ∈ g.userNonterminals := by
    refine mem_userNonterminals.mpr ⟨Nat.pos_of_ne_zero fun zero => ?_, inside⟩
    exact absent (zero ▸ occurs_augmentedStart g)
  exact reached ((mem_unreachable wellFormed).mpr ⟨user, absent⟩)

/-- What a production of a reachable nonterminal uses is reachable. -/
theorem not_unreachable_of_mem {p n : Nat} {production : Production}
    (found : g.production? p = some production) (reached : production.left ∉ g.unreachable)
    (used : .nonterminal n ∈ production.right) : n ∉ g.unreachable := by
  have occurs := (occurs_iff_not_unreachable wellFormed (wellFormed.left_lt found)).mpr reached
  exact (occurs.of_production found used).not_unreachable wellFormed

theorem start_not_unreachable : g.start ∉ g.unreachable :=
  not_unreachable_of_mem wellFormed wellFormed.augmented
    ((occurs_augmentedStart g).not_unreachable wellFormed) (List.mem_singleton_self _)

end

/-! ## What stays -/

/-- The names that stay, of those given in the order of their ids from one on. -/
def keptNames (g : Grammar) (names : List String) : List String :=
  ((names.zipIdx 1).filter fun entry => entry.2 ∉ g.unreachable).map Prod.fst

theorem keptNames_append (names : List String) (name : String) :
    g.keptNames (names ++ [name]) = g.keptNames names ++
      if names.length + 1 ∉ g.unreachable then [name] else [] := by
  by_cases reached : names.length + 1 ∈ g.unreachable <;>
    simp [keptNames, List.zipIdx_append, Nat.add_comm 1, reached]

/-- The next id is the number of names that stay and one more. -/
theorem length_keptNames (reached : augmentedStart ∉ g.unreachable) (names : List String) :
    (g.keptNames names).length + 1 = g.rank (names.length + 1) := by
  induction names using List.reverseRecOn with
  | nil =>
    rw [List.length_nil, rank_succ, if_pos (by exact reached)]
    rfl
  | append_singleton names name ih =>
    rw [keptNames_append, List.length_append, List.length_append, List.length_singleton, rank_succ,
      ← ih]
    split <;> simp

/-- The augmented start symbol stays in front. -/
theorem keptNonterminals_eq (reached : augmentedStart ∉ g.unreachable) {label : String}
    {names : List String} (listed : g.nonterminals.toList = label :: names) :
    g.keptNonterminals = (label, augmentedStart) ::
      (names.zipIdx 1).filter fun entry => entry.2 ∉ g.unreachable := by
  rw [keptNonterminals, listed, List.zipIdx_cons]
  exact List.filter_cons_of_pos (decide_eq_true reached)

theorem map_fst_keptProductions (g : Grammar) : g.keptProductions.map Prod.fst =
    g.productions.toList.filter fun production => production.left ∉ g.unreachable := by
  conv_rhs => rw [← List.zipIdx_map_fst 0 g.productions.toList, List.filter_map]
  rfl

theorem mem_keptNonterminals {name : String} {n : Nat} : (name, n) ∈ g.keptNonterminals ↔
    g.nonterminalName? n = some name ∧ n ∉ g.unreachable := by
  simp [keptNonterminals, List.mk_mem_zipIdx_iff_getElem?, nonterminalName?]

theorem mem_keptProductions {production : Production} {p : Nat} :
    (production, p) ∈ g.keptProductions ↔
      g.production? p = some production ∧ production.left ∉ g.unreachable := by
  simp [keptProductions, List.mk_mem_zipIdx_iff_getElem?, production?]

/-- A nonterminal that stays comes to the place that its rank tells. -/
theorem getElem?_keptNonterminals_rank {n : Nat} {name : String}
    (named : g.nonterminalName? n = some name) (reached : n ∉ g.unreachable) :
    g.keptNonterminals[g.rank n]? = some (name, n) := by
  obtain ⟨place, found⟩ := List.mem_iff_getElem?.mp (mem_keptNonterminals.mpr ⟨named, reached⟩)
  have count := (countP_of_filter (fun n => n ∉ g.unreachable) found).2
  rw [Nat.sub_zero] at count
  rw [rank, List.range_eq_range', count, found]

/-! ## The part among the whole -/

/-- A renaming leads back from the places that things come to. -/
structure Restores (g : Grammar) (r : Renaming) : Prop where
  unchanged : r.terminals = .refl Nat
  nonterminals : ∀ {place : Nat} {name : String} {n : Nat},
    g.keptNonterminals[place]? = some (name, n) → r.nonterminals place = n
  productions : ∀ {place : Nat} {production : Production} {p : Nat},
    g.keptProductions[place]? = some (production, p) → r.productions place = p

theorem exists_restores (g : Grammar) : ∃ r, g.Restores r := by
  obtain ⟨nonterminals, placed⟩ := exists_places_filter
    (fun entry => entry.2 ∉ g.unreachable) g.nonterminals.toList
  obtain ⟨productions, put⟩ := exists_places_filter
    (fun entry => entry.1.left ∉ g.unreachable) g.productions.toList
  exact ⟨⟨.refl Nat, nonterminals, productions⟩, rfl, placed, put⟩

theorem exists_keptNonterminal {n : Nat} (inside : n < g.reachablePart.nonterminals.size) :
    ∃ name m, g.keptNonterminals[n]? = some (name, m) ∧
      g.reachablePart.nonterminalName? n = some name ∧ g.nonterminalName? m = some name ∧
        m ∉ g.unreachable := by
  have short : n < g.keptNonterminals.length := by simpa [reachablePart] using inside
  obtain ⟨⟨name, m⟩, found⟩ : ∃ entry, g.keptNonterminals[n]? = some entry :=
    ⟨_, List.getElem?_eq_getElem short⟩
  refine ⟨name, m, found, ?_, mem_keptNonterminals.mp (List.mem_of_getElem? found)⟩
  simp [reachablePart, nonterminalName?, found]

theorem exists_keptProduction {q : Nat} {production : Production}
    (found : g.reachablePart.production? q = some production) : ∃ source p,
      g.keptProductions[q]? = some (source, p) ∧ g.rankProduction source = production ∧
        g.production? p = some source ∧ source.left ∉ g.unreachable := by
  rw [production?, reachablePart, List.getElem?_toArray, List.map_map, List.getElem?_map] at found
  obtain ⟨⟨source, p⟩, kept, same⟩ := Option.map_eq_some_iff.mp found
  exact ⟨source, p, kept, same, mem_keptProductions.mp (List.mem_of_getElem? kept)⟩

namespace Restores

variable {r : Renaming} (restores : g.Restores r) (wellFormed : g.WellFormed)
include restores

theorem rank {n : Nat} (inside : n < g.nonterminals.size) (reached : n ∉ g.unreachable) :
    r.nonterminals (g.rank n) = n :=
  restores.nonterminals
    (getElem?_keptNonterminals_rank (Array.getElem?_eq_getElem inside) reached)

include wellFormed

theorem production {p : Nat} {production : Production} (found : g.production? p = some production)
    (reached : production.left ∉ g.unreachable) :
    r.production (g.rankProduction production) = production := by
  have left := restores.rank (wellFormed.left_lt found) reached
  have right : (production.right.map g.rankSymbol).map r.symbol = production.right := by
    rw [List.map_map]
    refine (List.map_congr_left fun symbol used => ?_).trans (List.map_id _)
    cases symbol with
    | terminal t => rw [Function.comp_apply, rankSymbol, Renaming.symbol, restores.unchanged]; rfl
    | nonterminal n =>
      have inside := (wellFormed.declared_of_mem found used).2
      exact congrArg Symbol.nonterminal
        (restores.rank inside (not_unreachable_of_mem wellFormed found reached used))
  rw [Renaming.production, rankProduction, left, right]

theorem augmentedProduction :
    r.productions CanonicalLR.augmentedProduction = CanonicalLR.augmentedProduction := by
  have reached := (occurs_augmentedStart g).not_unreachable wellFormed
  obtain ⟨rest, split⟩ : ∃ rest, g.productions.toList =
      ⟨augmentedStart, [.nonterminal g.start]⟩ :: rest := by
    have first := wellFormed.augmented
    rw [production?, ← Array.getElem?_toList] at first
    cases listed : g.productions.toList with
    | nil => simp [listed] at first
    | cons head rest =>
      rw [listed] at first
      exact ⟨rest, congrArg (· :: rest) (Option.some.inj first)⟩
  have first : g.keptProductions[0]? = some (⟨augmentedStart, [.nonterminal g.start]⟩, 0) := by
    rw [keptProductions, split, List.zipIdx_cons, List.filter_cons_of_pos (by simpa using reached)]
    rfl
  exact restores.productions first

omit wellFormed in
theorem not_unreachable {n : Nat} (inside : n < g.reachablePart.nonterminals.size) :
    r.nonterminals n ∉ g.unreachable := by
  obtain ⟨name, m, kept, -, -, reached⟩ := exists_keptNonterminal inside
  rwa [restores.nonterminals kept]

/-- The reachable part is a part. -/
theorem embeds : Embeds r g.reachablePart g where
  production?_of found := by
    obtain ⟨source, p, kept, rfl, listed, reached⟩ := exists_keptProduction found
    rw [restores.productions kept, listed, restores.production wellFormed listed reached]
  terminals := rfl
  unchanged := restores.unchanged
  nonterminalName? n inside := by
    obtain ⟨name, m, kept, here, there, -⟩ := exists_keptNonterminal inside
    rw [restores.nonterminals kept, here, there]
  augmentedStart :=
    restores.rank wellFormed.nonterminals ((occurs_augmentedStart g).not_unreachable wellFormed)
  augmentedProduction := restores.augmentedProduction wellFormed
  start := (restores.rank wellFormed.start.2 (start_not_unreachable wellFormed)).symm
  closed inside found same := by
    obtain ⟨name, m, kept, -, -, reached⟩ := exists_keptNonterminal inside
    rw [restores.nonterminals kept] at same
    obtain ⟨q, listed⟩ := List.mem_iff_getElem?.mp
      (mem_keptProductions.mpr ⟨found, same ▸ reached⟩)
    refine ⟨q, ?_, restores.productions listed⟩
    simpa [reachablePart] using (List.getElem?_eq_some_iff.mp listed).1
  ascending below inside := by
    obtain ⟨_, _, kept, -⟩ := exists_keptNonterminal (Nat.lt_trans below inside)
    obtain ⟨_, _, later, -⟩ := exists_keptNonterminal inside
    rw [restores.nonterminals kept, restores.nonterminals later]
    exact lt_of_filter kept later below
  productionsAscending below inside := by
    obtain ⟨_, _, kept, -⟩ :=
      exists_keptProduction (Array.getElem?_eq_getElem (Nat.lt_trans below inside))
    obtain ⟨_, _, later, -⟩ := exists_keptProduction (Array.getElem?_eq_getElem inside)
    rw [restores.productions kept, restores.productions later]
    exact lt_of_filter kept later below

end Restores

end Grammar

end CanonicalLR
