import CanonicalLR.Grammar.Basic

/-!
# LR(1) items

A production with a dot on its right-hand side and a lookahead terminal. Items
are ordered by production, then dot, then lookahead.
-/

namespace CanonicalLR

structure Item where
  production : Nat
  dot : Nat
  lookahead : Nat
deriving DecidableEq, Hashable

namespace Item

/-- The item that the initial state is generated from. -/
def start : Item :=
  ⟨augmentedProduction, 0, endMarker⟩

/-- The item that marks the accepting state. -/
def accept : Item :=
  ⟨augmentedProduction, 1, endMarker⟩

def Before (first second : Item) : Prop :=
  first.production < second.production ∨ first.production = second.production ∧
    (first.dot < second.dot ∨ first.dot = second.dot ∧ first.lookahead < second.lookahead)

instance (first second : Item) : Decidable (first.Before second) :=
  inferInstanceAs (Decidable (_ ∨ _))

theorem Before.irrefl (item : Item) : ¬ item.Before item := by
  unfold Before
  omega

theorem Before.trans {first second third : Item} (left : first.Before second)
    (right : second.Before third) : first.Before third := by
  unfold Before at *
  omega

theorem Before.asymm {first second : Item} (before : first.Before second) :
    ¬ second.Before first := by
  unfold Before at *
  omega

theorem eq_or_before_or_before (first second : Item) :
    first = second ∨ first.Before second ∨ second.Before first := by
  cases first
  cases second
  simp only [mk.injEq, Before]
  omega

def compare (first second : Item) : Ordering :=
  if first = second then .eq
  else if first.Before second then .lt
  else .gt

/-- The symbol right after the dot. -/
def next? (g : Grammar) (item : Item) : Option Symbol :=
  (g.production? item.production).bind fun production => production.right[item.dot]?

/-- The symbols after the one that the dot stands before. -/
def rest (g : Grammar) (item : Item) : List Symbol :=
  ((g.production? item.production).map fun production =>
    production.right.drop (item.dot + 1)).getD []

def isComplete (g : Grammar) (item : Item) : Bool :=
  (g.production? item.production).any fun production => production.right.length ≤ item.dot

def advance (item : Item) : Item :=
  { item with dot := item.dot + 1 }

theorem next?_eq_some {g : Grammar} {item : Item} {symbol : Symbol} :
    item.next? g = some symbol ↔ ∃ production, g.production? item.production = some production ∧
      production.right[item.dot]? = some symbol := by
  simp [next?, Option.bind_eq_some_iff]

/-- Where the dot of an item moves over a symbol, its production splits there. -/
theorem right_eq_of_next? {g : Grammar} {item : Item} {production : Production} {symbol : Symbol}
    (found : g.production? item.production = some production)
    (next : item.next? g = some symbol) :
    production.right = production.right.take item.dot ++ symbol :: item.rest g := by
  simp only [next?, found, Option.bind_some] at next
  obtain ⟨inside, same⟩ := List.getElem?_eq_some_iff.mp next
  simp only [rest, found, Option.map_some, Option.getD_some]
  rw [← same, ← List.drop_eq_getElem_cons inside, List.take_append_drop]

end Item

end CanonicalLR
