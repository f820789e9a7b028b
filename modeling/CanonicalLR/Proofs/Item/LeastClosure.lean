import CanonicalLR.Proofs.Lookups.Items
import CanonicalLR.Proofs.Sets.Exactness
import CanonicalLR.Worklist

/-!
# Closures are least

A closure is the least family of items that has all of its kernel and, with an
item that expects a nonterminal, the first items of the nonterminal's productions
for every terminal that may come behind. A worklist that every item is put into
when it is found runs empty, and the family has been found by then.
-/

namespace CanonicalLR

namespace Grammar

variable {g : Grammar} {kernel others : List Item} {item : Item}

/-! ## Closed families -/

/-- With an item that has its dot before a nonterminal, the family has the first items of the
nonterminal's productions with every lookahead that may come behind the nonterminal. -/
def Closed (g : Grammar) (family : Item → Prop) : Prop :=
  ∀ item n p production t, family item → item.next? g = some (.nonterminal n) →
    g.production? p = some production → production.left = n →
      t ∈ g.firstSets.firstBefore (item.rest g) item.lookahead → family ⟨p, 0, t⟩

theorem closed_leadsTo (g : Grammar) (kernel : List Item) : g.Closed (g.LeadsTo kernel) := by
  rintro item n p production t ⟨origin, listed, led⟩ next found rfl ahead
  exact ⟨origin, listed, led.tail (.begin found next ahead)⟩

/-- A closed family that has the kernel has all that the kernel leads to. -/
theorem LeadsTo.mem_closed {family : Item → Prop} (led : g.LeadsTo kernel item)
    (roots : ∀ item ∈ kernel, family item) (closed : g.Closed family) : family item := by
  obtain ⟨origin, listed, path⟩ := led
  induction path with
  | refl => exact roots origin listed
  | tail _ step ih =>
    obtain ⟨found, next, ahead⟩ := step
    exact closed _ _ _ _ _ ih next found rfl ahead

theorem leadsTo_append :
    g.LeadsTo (kernel ++ others) item ↔ g.LeadsTo kernel item ∨ g.LeadsTo others item := by
  simp only [LeadsTo, List.mem_append, or_and_right, exists_or]

/-! ## How much may be found -/

/-- The items that begin a production of the grammar. -/
def beginnings (g : Grammar) : Finset Item :=
  (Finset.range g.productions.size ×ˢ Finset.range g.terminals.size).image
    fun place => ⟨place.1, 0, place.2⟩

theorem LeadsTo.mem_union (led : g.LeadsTo kernel item) (wellFormed : g.WellFormed)
    (all : ∀ item ∈ kernel, g.Admits item) : item ∈ kernel.toFinset ∪ g.beginnings := by
  have admits := led.admits wellFormed all
  obtain ⟨origin, listed, path⟩ := led
  cases path with
  | refl => exact Finset.mem_union_left _ (List.mem_toFinset.mpr listed)
  | tail _ step =>
    obtain ⟨production, found⟩ := admits.production
    have inside := (Array.getElem?_eq_some_iff.mp found).1
    refine Finset.mem_union_right _ (Finset.mem_image.mpr
      ⟨(item.production, item.lookahead), ?_, ?_⟩)
    · exact Finset.mem_product.mpr
        ⟨Finset.mem_range.mpr inside, Finset.mem_range.mpr admits.lookahead⟩
    · rw [← step.dot_eq_zero]

end Grammar

/-! ## The worklist -/

/-- The items found so far, and the worklist of those that are still to be expanded. -/
structure Closing where
  found : ItemSet
  waiting : Worklist Item

namespace Closing

def note (c : Closing) (item : Item) : Closing :=
  if item ∈ c.found then c else ⟨c.found.insert item, c.waiting.push item⟩

def noteAll (c : Closing) (items : List Item) : Closing :=
  items.foldl note c

/-- While an item waits it is taken, and what it predicts is noted; this ends. -/
inductive Ends (g : Grammar) : Closing → ItemSet → Prop where
  | empty {c : Closing} (none : c.waiting.pop? = .none) : Ends g c c.found
  | expand {c : Closing} {item : Item} {later : Worklist Item} {predicted : List Item}
      {final : ItemSet} (taken : c.waiting.pop? = some (item, later))
      (made : item.predictions? g g.firstSets = some predicted)
      (onward : Ends g (noteAll ⟨c.found, later⟩ predicted) final) : Ends g c final

/-- The waiting items in the order in which they leave. -/
def expansion (c : Closing) : Expansion :=
  ⟨c.found, c.waiting.toList⟩

/-- What waits has been found. -/
def Tidy (c : Closing) : Prop :=
  ∀ item ∈ c.waiting.toList, item ∈ c.found

variable {g : Grammar} {c : Closing} {item : Item}

/-- An item that has just been found is not waiting yet, so that it is put last. -/
theorem Tidy.expansion_note (tidy : c.Tidy) : (c.note item).expansion = c.expansion.note item := by
  unfold note Expansion.note expansion
  dsimp only
  split
  · rfl
  · rename_i fresh
    dsimp only
    rw [Worklist.toList_push, if_neg fun waits => fresh (tidy item waits)]

theorem Tidy.note (tidy : c.Tidy) : (c.note item).Tidy := by
  intro other waits
  have found : (c.note item).found = (c.expansion.note item).found :=
    congrArg Expansion.found tidy.expansion_note
  have pending : (c.note item).waiting.toList = (c.expansion.note item).pending :=
    congrArg Expansion.pending tidy.expansion_note
  rw [pending] at waits
  rw [found]
  rcases Expansion.mem_pending_note.mp waits with old | ⟨rfl, -⟩
  · exact Expansion.mem_found_note.mpr (.inr (tidy other old))
  · exact Expansion.mem_found_note.mpr (.inl rfl)

theorem Tidy.noteAll (tidy : c.Tidy) (items : List Item) :
    (c.noteAll items).Tidy ∧ (c.noteAll items).expansion = c.expansion.noteAll items := by
  unfold Closing.noteAll Expansion.noteAll
  induction items generalizing c with
  | nil => exact ⟨tidy, rfl⟩
  | cons head tail ih =>
    rw [List.foldl_cons, List.foldl_cons, ← tidy.expansion_note]
    exact ih tidy.note

/-- The worklist runs empty with what a list of the waiting items does. -/
theorem Tidy.ends (tidy : c.Tidy) {count : Nat} {final : ItemSet}
    (drains : Expansion.Drains g count c.expansion final) : Ends g c final := by
  generalize same : c.expansion = e at drains
  induction drains generalizing c with
  | done count found =>
    obtain ⟨rfl, none⟩ := Expansion.mk.inj same
    exact .empty (Worklist.pop?_of_nil none)
  | @expand count found final item pending predicted made _ ih =>
    obtain ⟨rfl, listed⟩ := Expansion.mk.inj same
    obtain ⟨later, taken, rfl⟩ := Worklist.pop?_of_cons listed
    have rest : Tidy ⟨c.found, later⟩ := fun other waits =>
      tidy other (listed ▸ List.mem_cons_of_mem _ waits)
    obtain ⟨keeps, onward⟩ := rest.noteAll predicted
    exact .expand taken made (ih keeps onward)

end Closing

section

open Grammar

variable {g : Grammar} {kernel : List Item}

/-- The worklist of a closure runs empty, with the closure. -/
theorem Closing.ends_noteAll (wellFormed : g.WellFormed) (all : ∀ item ∈ kernel, g.Admits item) :
    Closing.Ends g (noteAll ⟨∅, .empty⟩ kernel) (closure g g.firstSets kernel) := by
  have none : Tidy ⟨∅, .empty⟩ := fun item waits => absurd waits List.not_mem_nil
  obtain ⟨tidy, same⟩ := none.noteAll kernel
  have few : ∀ set : ItemSet, (∀ item ∈ set, g.LeadsTo kernel item) →
      set.size ≤ (kernel.toFinset ∪ g.beginnings).card := fun set led =>
    ItemSet.size_le_card fun item member => (led item member).mem_union wellFormed all
  have drains := Expansion.drains_noteAll wellFormed all few
  exact tidy.ends (same ▸ drains)

/-- The closure of any items of the grammar, wherever their dots stand and however they are listed,
is found by a worklist that runs empty, and it is the least closed family that has these items. So
it depends on no order and no repetition, adds nothing to itself, and is formed part by part. -/
theorem closure_least {calls : List Call} (defined : Grammar.ofCalls calls = .ok g)
    (kernel : List Item) (all : ∀ item ∈ kernel, g.Admits item) :
    Closing.Ends g (Closing.noteAll ⟨∅, .empty⟩ kernel) (closure g g.firstSets kernel) ∧
    ((∀ item ∈ kernel, item ∈ closure g g.firstSets kernel) ∧
      g.Closed (· ∈ closure g g.firstSets kernel) ∧
      ∀ family : Item → Prop, (∀ item ∈ kernel, family item) → g.Closed family →
        ∀ item ∈ closure g g.firstSets kernel, family item) ∧
    (∀ others : List Item, (∀ item, item ∈ others ↔ item ∈ kernel) →
      closure g g.firstSets others = closure g g.firstSets kernel) ∧
    closure g g.firstSets (closure g g.firstSets kernel).toList = closure g g.firstSets kernel ∧
    ∀ others : List Item, (∀ item ∈ others, g.Admits item) →
      ∀ item, item ∈ closure g g.firstSets (kernel ++ others) ↔
        item ∈ closure g g.firstSets kernel ∨ item ∈ closure g g.firstSets others := by
  have wellFormed := wellFormed_ofCalls defined
  have members {items : List Item} (all : ∀ item ∈ items, g.Admits item) {item : Item} :
      item ∈ closure g g.firstSets items ↔ g.LeadsTo items item :=
    mem_closure wellFormed fun item listed => (all item listed).lookahead
  have closed : g.Closed (· ∈ closure g g.firstSets kernel) := by
    simpa only [members all] using closed_leadsTo g kernel
  refine ⟨Closing.ends_noteAll wellFormed all, ⟨?_, closed, ?_⟩, ?_, ?_, ?_⟩
  · exact fun item listed => (members all).mpr ⟨item, listed, .refl⟩
  · intro family roots closed item member
    exact ((members all).mp member).mem_closed roots closed
  · intro others same
    ext item
    rw [members all, members fun item listed => all item ((same item).mp listed)]
    simp only [LeadsTo, same]
  · have admitted : ∀ item ∈ (closure g g.firstSets kernel).toList, g.Admits item :=
      fun item member => ((members all).mp member).admits wellFormed all
    ext item
    rw [members admitted]
    constructor
    · exact fun led => led.mem_closed (fun _ member => member) closed
    · exact fun member => ⟨item, member, .refl⟩
  · intro others admitted item
    rw [members all, members admitted, members fun item listed =>
      (List.mem_append.mp listed).elim (all item) (admitted item), leadsTo_append]

end

namespace Grammar

/-- `F -> ( . E )` twice, and between them a dot that is far behind the end of `F -> id`. -/
def behindParenthesis : List Item :=
  [⟨7, 1, 5⟩, ⟨8, 9, 1⟩, ⟨7, 1, 5⟩]

theorem expressions_closures :
    Closing.Ends expressions (Closing.noteAll ⟨∅, .empty⟩ behindParenthesis)
      (closure expressions expressions.firstSets behindParenthesis) ∧
    (closure expressions expressions.firstSets behindParenthesis).size = 11 ∧
    closure expressions expressions.firstSets [⟨8, 9, 1⟩, ⟨7, 1, 5⟩] =
      closure expressions expressions.firstSets behindParenthesis ∧
    ∀ item, item ∈ closure expressions expressions.firstSets (behindParenthesis ++ [.start]) ↔
      item ∈ closure expressions expressions.firstSets behindParenthesis ∨
        item ∈ closure expressions expressions.firstSets [.start] := by
  have all : ∀ item ∈ behindParenthesis, expressions.Admits item := by
    have opened : expressions.Admits ⟨7, 1, 5⟩ := ⟨⟨_, rfl⟩, by decide⟩
    have beyond : expressions.Admits ⟨8, 9, 1⟩ := ⟨⟨_, rfl⟩, by decide⟩
    simp [behindParenthesis, opened, beyond]
  have start : ∀ item ∈ [Item.start], expressions.Admits item :=
    fun item listed => List.mem_singleton.mp listed ▸ ⟨⟨_, rfl⟩, by decide⟩
  obtain ⟨ends, -, orderless, -, union⟩ :=
    closure_least ofCalls_expressions behindParenthesis all
  refine ⟨ends, by decide +kernel, orderless _ fun item => ?_, union _ start⟩
  simp [behindParenthesis, or_comm]

end Grammar

end CanonicalLR
