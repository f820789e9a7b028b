import CanonicalLR.Proofs.Automaton.Finite
import CanonicalLR.Proofs.Lookups.Sets

/-!
# Look-ups in closures and gotos

A closure is formed with a list of items that wait to be expanded; each item that
leaves the list has its production looked up, and the FIRST sets of what is behind
its dot. The items of well-formed grammars find them all, the list runs empty, and
what has been found by then is the closure. A dot that moves does not leave the
range of its 16 bits.
-/

namespace CanonicalLR

namespace Item

/-- The largest place of a dot. -/
def dotLimit : Nat := 65535

/-- The symbol right after the dot, once the production has been found. -/
def checkedNext? (g : Grammar) (item : Item) : Option (Option Symbol) :=
  (g.production? item.production).map fun production => production.right[item.dot]?

def rest? (g : Grammar) (item : Item) : Option (List Symbol) :=
  (g.production? item.production).map fun production => production.right.drop (item.dot + 1)

def advance? (item : Item) : Option Item :=
  if item.dot < dotLimit then some item.advance else none

/-- The items that an item predicts. -/
def predictions? (g : Grammar) (first : FirstSets) (item : Item) : Option (List Item) := do
  match ← item.checkedNext? g with
  | some (.nonterminal n) =>
    let rest ← item.rest? g
    let lookaheads ← first.firstBefore? rest item.lookahead
    let begun ← (g.productionsOf n).mapM fun p => (g.production? p).map fun _ => p
    return begun.flatMap fun p => lookaheads.toList.map fun t => ⟨p, 0, t⟩
  | _ => return []

/-- The item after its dot has moved over a symbol, if that is the one after the dot. -/
def move? (g : Grammar) (symbol : Symbol) (item : Item) : Option (Option Item) := do
  let next ← item.checkedNext? g
  if next = some symbol then item.advance?.map some else return none

end Item

/-! ## Single items -/

namespace Grammar

/-- The production and the lookahead are the grammar's, wherever the dot stands. -/
structure Admits (g : Grammar) (item : Item) : Prop where
  production : ∃ production, g.production? item.production = some production
  lookahead : item.lookahead < g.terminals.size

variable {g : Grammar} {item other : Item}

theorem HasItem.admits (has : g.HasItem item) : g.Admits item := by
  obtain ⟨production, found, -⟩ := has.production
  exact ⟨⟨production, found⟩, has.lookahead⟩

theorem Admits.predicts (admits : g.Admits item) (wellFormed : g.WellFormed)
    (predicts : g.Predicts item other) : g.Admits other :=
  ⟨predicts.exists_production, predicts.lookahead_lt wellFormed admits.lookahead⟩

theorem LeadsTo.admits {kernel : List Item} (led : g.LeadsTo kernel item)
    (wellFormed : g.WellFormed) (all : ∀ item ∈ kernel, g.Admits item) : g.Admits item := by
  obtain ⟨origin, listed, path⟩ := led
  induction path with
  | refl => exact all origin listed
  | tail _ step ih => exact ih.predicts wellFormed step

namespace Admits

variable (admits : g.Admits item)
include admits

theorem checkedNext?_eq_some : item.checkedNext? g = some (item.next? g) := by
  obtain ⟨production, found⟩ := admits.production
  simp [Item.checkedNext?, Item.next?, found]

theorem rest?_eq_some : item.rest? g = some (item.rest g) := by
  obtain ⟨production, found⟩ := admits.production
  simp [Item.rest?, Item.rest, found]

omit admits in
/-- A dot before a symbol is not at the end of the longest right-hand side. -/
theorem advance?_eq_some (wellFormed : g.WellFormed) {symbol : Symbol}
    (next : item.next? g = some symbol) : item.advance? = some item.advance := by
  obtain ⟨production, found, at_dot⟩ := Item.next?_eq_some.mp next
  have inside := (List.getElem?_eq_some_iff.mp at_dot).1
  have short : production.right.length ≤ Item.dotLimit := wellFormed.length_le found
  exact if_pos (Nat.lt_of_lt_of_le inside short)

theorem move?_eq_some (wellFormed : g.WellFormed) (symbol : Symbol) :
    item.move? g symbol =
      some (if item.next? g = some symbol then some item.advance else none) := by
  rw [Item.move?, admits.checkedNext?_eq_some]
  simp only [Option.bind_eq_bind, Option.bind_some]
  split
  · rename_i next
    rw [advance?_eq_some wellFormed next]
    rfl
  · rfl

theorem predictions?_spec (wellFormed : g.WellFormed) :
    ∃ predicted, item.predictions? g g.firstSets = some predicted ∧
      ∀ other, other ∈ predicted ↔ g.Predicts item other := by
  have begun {n : Nat} : (g.productionsOf n).mapM (fun p => (g.production? p).map fun _ => p) =
      some (g.productionsOf n) := by
    rw [mapM_eq_some fun p listed => ?_, List.map_id']
    obtain ⟨production, found, -⟩ := mem_productionsOf.mp listed
    simp [found]
  have behind : g.firstSets.firstBefore? (item.rest g) item.lookahead =
      some (g.firstSets.firstBefore (item.rest g) item.lookahead) :=
    firstBefore?_eq_some (fun symbol => Item.declared_of_mem_rest wellFormed) _
  unfold Item.predictions?
  rw [admits.checkedNext?_eq_some]
  cases next : item.next? g with
  | none =>
    refine ⟨[], rfl, fun other => iff_of_false List.not_mem_nil ?_⟩
    rintro ⟨-, expected, -⟩
    exact nomatch next.symm.trans expected
  | some symbol =>
    cases symbol with
    | terminal t =>
      refine ⟨[], rfl, fun other => iff_of_false List.not_mem_nil ?_⟩
      rintro ⟨-, expected, -⟩
      exact nomatch next.symm.trans expected
    | nonterminal n =>
      simp only [Option.bind_eq_bind, Option.bind_some, admits.rest?_eq_some, behind, begun]
      refine ⟨_, rfl, fun other => ?_⟩
      simp only [List.mem_flatMap, List.mem_map, IdSet.mem_toList, mem_productionsOf]
      constructor
      · rintro ⟨p, ⟨production, found, rfl⟩, t, ahead, rfl⟩
        exact .begin found next ahead
      · rintro ⟨found, expected, ahead⟩
        obtain rfl := Symbol.nonterminal.inj (Option.some.inj (next.symm.trans expected))
        exact ⟨_, ⟨_, found, rfl⟩, _, ahead, rfl⟩

end Admits

end Grammar

/-! ## Gotos -/

namespace ItemSet

def symbolsAfterDot? (g : Grammar) (set : ItemSet) : Option (List Symbol) := do
  let nexts ← set.toList.mapM (Item.checkedNext? g)
  return (nexts.filterMap id).eraseDups

def gotoKernel? (g : Grammar) (set : ItemSet) (symbol : Symbol) : Option ItemSet := do
  let moved ← set.toList.mapM (Item.move? g symbol)
  return ofList (moved.filterMap id)

variable {g : Grammar} {set : ItemSet} (all : ∀ item ∈ set, g.HasItem item)
include all

theorem symbolsAfterDot?_eq_some :
    set.symbolsAfterDot? g = some (set.symbolsAfterDot g) := by
  rw [symbolsAfterDot?,
    mapM_eq_some fun item member => (all item member).admits.checkedNext?_eq_some]
  simp [symbolsAfterDot, List.filterMap_map]

theorem gotoKernel?_eq_some (wellFormed : g.WellFormed) (symbol : Symbol) :
    set.gotoKernel? g symbol = some (set.gotoKernel g symbol) := by
  rw [gotoKernel?,
    mapM_eq_some fun item member => (all item member).admits.move?_eq_some wellFormed symbol]
  refine congrArg some (ext fun item => ?_)
  rw [mem_gotoKernel, mem_ofList]
  simp [mem_iff, List.filterMap_map]

end ItemSet

/-! ## The worklist of a closure -/

/-- The items found so far, and those of them that wait to be expanded. -/
structure Expansion where
  found : ItemSet
  pending : List Item

namespace Expansion

/-- An item that has not been found before waits to be expanded. -/
def note (e : Expansion) (item : Item) : Expansion :=
  if item ∈ e.found then e else ⟨e.found.insert item, e.pending ++ [item]⟩

def noteAll (e : Expansion) (items : List Item) : Expansion :=
  items.foldl note e

/-- Expand the items that wait, at most `fuel` of them. -/
def drain? (g : Grammar) (first : FirstSets) : Nat → Expansion → Option ItemSet
  | _, ⟨found, []⟩ => some found
  | 0, ⟨_, _ :: _⟩ => none
  | fuel + 1, ⟨found, item :: pending⟩ => do
      let predicted ← item.predictions? g first
      drain? g first fuel (noteAll ⟨found, pending⟩ predicted)

end Expansion

namespace Grammar

/-- How many items there are with their production, dot and lookahead in range. -/
def itemPlaces (g : Grammar) : Nat :=
  g.productions.size * ((Definition.lengthLimit + 1) * g.terminals.size)

def closure? (g : Grammar) (first : FirstSets) (kernel : List Item) : Option ItemSet :=
  Expansion.drain? g first g.itemPlaces (Expansion.noteAll ⟨∅, []⟩ kernel)

end Grammar

namespace ItemSet

theorem length_insertSorted {item : Item} {items : List Item} (fresh : item ∉ items) :
    (insertSorted item items).length = items.length + 1 := by
  induction items with
  | nil => rfl
  | cons head tail ih =>
    have later : item ∉ tail := List.not_mem_of_not_mem_cons fresh
    unfold insertSorted
    rw [if_neg (List.ne_of_not_mem_cons fresh)]
    split
    · rfl
    · rw [List.length_cons, List.length_cons, ih later]

theorem toList_nodup (set : ItemSet) : set.toList.Nodup := by
  refine List.Pairwise.imp ?_ set.sorted
  rintro first _ before rfl
  exact Item.Before.irrefl first before

theorem size_le_card {set : ItemSet} {all : Finset Item} (within : ∀ item ∈ set, item ∈ all) :
    set.size ≤ all.card := by
  calc set.size = set.toList.toFinset.card :=
        (List.toFinset_card_of_nodup set.toList_nodup).symm
    _ ≤ all.card := Finset.card_le_card fun item listed => within item (List.mem_toFinset.mp listed)

theorem size_le_itemPlaces {g : Grammar} (wellFormed : g.WellFormed) {set : ItemSet}
    (all : ∀ item ∈ set, g.HasItem item) : set.size ≤ g.itemPlaces := by
  calc set.size ≤ g.itemSpace.card :=
        size_le_card fun item member => (all item member).mem_itemSpace wellFormed
    _ ≤ _ := Finset.card_image_le
    _ = g.itemPlaces := by simp [Grammar.itemPlaces]

end ItemSet

namespace Expansion

open Grammar

variable {g : Grammar} {e : Expansion} {kernel : List Item} {item other : Item}

theorem mem_found_note : other ∈ (e.note item).found ↔ other = item ∨ other ∈ e.found := by
  unfold note
  split
  · rename_i known
    exact ⟨.inr, fun either => either.elim (fun same => same ▸ known) (fun member => member)⟩
  · exact ItemSet.mem_insert

theorem mem_pending_note :
    other ∈ (e.note item).pending ↔ other ∈ e.pending ∨ other = item ∧ item ∉ e.found := by
  unfold note
  split <;> simp_all

/-- Every item that is noted is one more to expand. -/
theorem size_note : (e.note item).found.size + e.pending.length =
    e.found.size + (e.note item).pending.length := by
  unfold note
  split
  · rfl
  · rename_i fresh
    have longer : (e.found.insert item).size = e.found.size + 1 :=
      ItemSet.length_insertSorted fresh
    simp only [longer, List.length_append, List.length_singleton]
    omega

theorem mem_found_noteAll {items : List Item} :
    other ∈ (e.noteAll items).found ↔ other ∈ items ∨ other ∈ e.found := by
  unfold noteAll
  induction items generalizing e with
  | nil => simp
  | cons head tail ih =>
    rw [List.foldl_cons, ih, mem_found_note, List.mem_cons, or_left_comm, or_assoc]

theorem mem_pending_noteAll {items : List Item} :
    other ∈ (e.noteAll items).pending ↔
      other ∈ e.pending ∨ other ∈ items ∧ other ∉ e.found := by
  unfold noteAll
  induction items generalizing e with
  | nil => simp
  | cons head tail ih =>
    rw [List.foldl_cons, ih, mem_pending_note, mem_found_note, List.mem_cons]
    by_cases same : other = head <;> simp_all

theorem size_noteAll {items : List Item} : (e.noteAll items).found.size + e.pending.length =
    e.found.size + (e.noteAll items).pending.length := by
  unfold noteAll
  induction items generalizing e with
  | nil => rfl
  | cons head tail ih =>
    have first : (e.note head).found.size + e.pending.length =
      e.found.size + (e.note head).pending.length := size_note
    have later := @ih (e.note head)
    rw [List.foldl_cons]
    omega

/-- All that is found comes from the kernel, and what has left the list has been expanded. -/
structure Sound (g : Grammar) (kernel : List Item) (e : Expansion) : Prop where
  roots : ∀ item ∈ kernel, item ∈ e.found
  led : ∀ item ∈ e.found, g.LeadsTo kernel item
  waiting : ∀ item ∈ e.pending, item ∈ e.found
  expanded : ∀ item ∈ e.found, item ∉ e.pending → ∀ other, g.Predicts item other →
    other ∈ e.found

theorem sound_noteAll (g : Grammar) (kernel : List Item) :
    (noteAll ⟨∅, []⟩ kernel).Sound g kernel := by
  have found {item : Item} (member : item ∈ (noteAll ⟨∅, []⟩ kernel).found) : item ∈ kernel :=
    (mem_found_noteAll.mp member).elim (fun listed => listed)
      (fun none => absurd none (ItemSet.not_mem_empty item))
  refine ⟨fun item listed => mem_found_noteAll.mpr (.inl listed),
    fun item member => ⟨item, found member, .refl⟩, ?_, ?_⟩
  · intro item member
    rcases mem_pending_noteAll.mp member with none | ⟨listed, -⟩
    · exact absurd none List.not_mem_nil
    · exact mem_found_noteAll.mpr (.inl listed)
  · intro item member done
    exact absurd (mem_pending_noteAll.mpr (.inr ⟨found member, ItemSet.not_mem_empty item⟩)) done

theorem Sound.expand {found : ItemSet} {pending predicted : List Item}
    (sound : Sound g kernel ⟨found, item :: pending⟩)
    (all : ∀ other, other ∈ predicted ↔ g.Predicts item other) :
    (noteAll ⟨found, pending⟩ predicted).Sound g kernel := by
  have known : item ∈ found := sound.waiting item List.mem_cons_self
  refine ⟨?_, ?_, ?_, ?_⟩
  · exact fun other listed => mem_found_noteAll.mpr (.inr (sound.roots other listed))
  · intro other member
    rcases mem_found_noteAll.mp member with fresh | old
    · obtain ⟨origin, listed, led⟩ := sound.led item known
      exact ⟨origin, listed, led.tail ((all other).mp fresh)⟩
    · exact sound.led other old
  · intro other member
    refine mem_found_noteAll.mpr ?_
    rcases mem_pending_noteAll.mp member with old | ⟨fresh, -⟩
    · exact .inr (sound.waiting other (List.mem_cons_of_mem _ old))
    · exact .inl fresh
  · intro other member done target predicts
    obtain ⟨notWaiting, notFresh⟩ := not_or.mp (mt mem_pending_noteAll.mpr done)
    have old : other ∈ found := (mem_found_noteAll.mp member).elim
      (fun fresh => Decidable.of_not_not fun unknown => notFresh ⟨fresh, unknown⟩) (fun old => old)
    refine mem_found_noteAll.mpr ?_
    -- Only the predictions of the item that leaves the list may have to be noted.
    by_cases same : other = item
    · exact .inl ((all target).mpr (same ▸ predicts))
    · have expanded : other ∉ item :: pending := List.not_mem_cons_of_ne_of_not_mem same notWaiting
      exact .inr (sound.expanded other old expanded target predicts)

/-- Once no item waits, the closure has been found. -/
theorem Sound.eq_closure (wellFormed : g.WellFormed) {found : ItemSet}
    (inside : ∀ item ∈ kernel, item.lookahead < g.terminals.size)
    (sound : Sound g kernel ⟨found, []⟩) : found = closure g g.firstSets kernel := by
  ext item
  rw [mem_closure wellFormed inside]
  constructor
  · exact sound.led item
  · rintro ⟨origin, listed, led⟩
    induction led with
    | refl => exact sound.roots origin listed
    | tail _ step ih => exact sound.expanded _ ih List.not_mem_nil _ step

/-- The list of items to expand runs empty with what has been found by then, after no more than a
number of items have left it. -/
inductive Drains (g : Grammar) : Nat → Expansion → ItemSet → Prop where
  | done (count : Nat) (found : ItemSet) : Drains g count ⟨found, []⟩ found
  | expand {count : Nat} {found final : ItemSet} {item : Item} {pending predicted : List Item}
      (made : item.predictions? g g.firstSets = some predicted)
      (later : Drains g count (noteAll ⟨found, pending⟩ predicted) final) :
      Drains g (count + 1) ⟨found, item :: pending⟩ final

theorem Drains.drain?_eq_some {count : Nat} {final : ItemSet} (drains : Drains g count e final) :
    drain? g g.firstSets count e = some final := by
  induction drains with
  | done count found => cases count <;> rfl
  | expand made _ ih =>
    rw [drain?, made]
    exact ih

/-- Where only so many items can be found, no more of them have to be expanded. -/
theorem Sound.drains (wellFormed : g.WellFormed) (all : ∀ item ∈ kernel, g.Admits item)
    {bound : Nat} (few : ∀ set : ItemSet, (∀ item ∈ set, g.LeadsTo kernel item) → set.size ≤ bound)
    (sound : e.Sound g kernel) {count : Nat}
    (enough : bound + e.pending.length ≤ e.found.size + count) :
    Drains g count e (closure g g.firstSets kernel) := by
  have lookaheads : ∀ item ∈ kernel, item.lookahead < g.terminals.size :=
    fun item listed => (all item listed).lookahead
  -- No item is popped twice, so that the count covers what waits and what may still be found.
  induction count generalizing e with
  | zero =>
    obtain ⟨found, _ | ⟨item, pending⟩⟩ := e
    · exact sound.eq_closure wellFormed lookaheads ▸ .done 0 found
    · have within := few found sound.led
      dsimp only [List.length_cons] at enough
      omega
  | succ count ih =>
    obtain ⟨found, _ | ⟨item, pending⟩⟩ := e
    · exact sound.eq_closure wellFormed lookaheads ▸ .done _ found
    · have led := sound.led item (sound.waiting item List.mem_cons_self)
      obtain ⟨predicted, made, members⟩ := (led.admits wellFormed all).predictions?_spec wellFormed
      refine .expand made (ih (sound.expand members) ?_)
      have grown : (noteAll ⟨found, pending⟩ predicted).found.size + pending.length =
        found.size + (noteAll ⟨found, pending⟩ predicted).pending.length := size_noteAll
      dsimp only [List.length_cons] at enough
      omega

/-- From the kernel on, as many items are expanded as may be found. -/
theorem drains_noteAll (wellFormed : g.WellFormed) (all : ∀ item ∈ kernel, g.Admits item)
    {bound : Nat}
    (few : ∀ set : ItemSet, (∀ item ∈ set, g.LeadsTo kernel item) → set.size ≤ bound) :
    Drains g bound (noteAll ⟨∅, []⟩ kernel) (closure g g.firstSets kernel) := by
  refine (sound_noteAll g kernel).drains wellFormed all few ?_
  have noted : (noteAll ⟨∅, []⟩ kernel).found.size + 0 =
    0 + (noteAll ⟨∅, []⟩ kernel).pending.length := size_noteAll
  omega

end Expansion

/-- A closure is formed without a look-up that misses. -/
theorem Grammar.closure?_eq_some {g : Grammar} (wellFormed : g.WellFormed) {kernel : List Item}
    (all : ∀ item ∈ kernel, g.HasItem item) :
    g.closure? g.firstSets kernel = some (closure g g.firstSets kernel) := by
  have admitted : ∀ item ∈ kernel, g.Admits item := fun item listed => (all item listed).admits
  have few : ∀ set : ItemSet, (∀ item ∈ set, g.LeadsTo kernel item) → set.size ≤ g.itemPlaces := by
    intro set led
    refine ItemSet.size_le_itemPlaces wellFormed fun item member => ?_
    have ahead (item : Item) (listed : item ∈ kernel) := (all item listed).lookahead
    exact hasItem_closure wellFormed all ((mem_closure wellFormed ahead).mpr (led item member))
  exact (Expansion.drains_noteAll wellFormed admitted few).drain?_eq_some

end CanonicalLR
