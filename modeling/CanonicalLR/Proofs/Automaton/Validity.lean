import CanonicalLR.Proofs.Automaton.Collection
import CanonicalLR.Proofs.Item.Closure
import CanonicalLR.Run.Configuration

/-!
# What the items of a state mean

A production is opened where an item predicts it, and the dot of its items moves
over what is read since then. The state at the end of a path has the items that
are valid for the symbols along the path, and no others.
-/

namespace CanonicalLR

namespace Item

/-- The symbols from the dot on. -/
def remaining (g : Grammar) (item : Item) : List Symbol :=
  ((g.production? item.production).map fun production => production.right.drop item.dot).getD []

variable {g : Grammar}

theorem next?_eq_head? (item : Item) : item.next? g = (item.remaining g).head? := by
  unfold next? remaining
  cases g.production? item.production with
  | none => rfl
  | some production => simp [List.head?_drop]

theorem rest_eq_tail (item : Item) : item.rest g = (item.remaining g).tail := by
  unfold rest remaining
  cases g.production? item.production with
  | none => rfl
  | some production => simp [List.tail_drop]

theorem remaining_advance (item : Item) : item.advance.remaining g = item.rest g := rfl

theorem next?_of_remaining {item : Item} {symbol : Symbol} {rest : List Symbol}
    (expected : item.remaining g = symbol :: rest) : item.next? g = some symbol := by
  rw [next?_eq_head?, expected, List.head?_cons]

theorem rest_of_remaining {item : Item} {symbol : Symbol} {rest : List Symbol}
    (expected : item.remaining g = symbol :: rest) : item.rest g = rest := by
  rw [rest_eq_tail, expected, List.tail_cons]

theorem remaining_begin {p t : Nat} {production : Production}
    (found : g.production? p = some production) :
    (Item.mk p 0 t).remaining g = production.right := by
  simp [remaining, found]

end Item

namespace Grammar

/-- After a symbol string has been read, a production may be opened, with a terminal to follow. -/
inductive Opens (g : Grammar) : List Symbol → Nat → Nat → Prop where
  | start : g.Opens [] augmentedProduction endMarker
  | predict {before : List Symbol} {p t dot : Nat} {production : Production} {other : Item}
      (outer : g.Opens before p t) (found : g.production? p = some production)
      (predicts : g.Predicts ⟨p, dot, t⟩ other) :
      g.Opens (before ++ production.right.take dot) other.production other.lookahead

/-- The production of an item was opened, and what has been read since stands before its dot. -/
def Valid (g : Grammar) (read : List Symbol) (item : Item) : Prop :=
  ∃ before production, g.Opens before item.production item.lookahead ∧
    g.production? item.production = some production ∧ item.dot ≤ production.right.length ∧
    read = before ++ production.right.take item.dot

variable {g : Grammar}

theorem Predicts.dot_eq_zero {item other : Item} (predicts : g.Predicts item other) :
    other.dot = 0 := by
  cases predicts
  rfl

theorem Predicts.exists_production {item other : Item} (predicts : g.Predicts item other) :
    ∃ production, g.production? other.production = some production := by
  cases predicts with
  | begin found => exact ⟨_, found⟩

theorem Predicts.dot_lt {item other : Item} {production : Production}
    (predicts : g.Predicts item other) (found : g.production? item.production = some production) :
    item.dot < production.right.length := by
  obtain ⟨-, next, -⟩ := predicts
  obtain ⟨same, sameFound, at_dot⟩ := Item.next?_eq_some.mp next
  obtain rfl := Option.some.inj (sameFound.symm.trans found)
  exact (List.getElem?_eq_some_iff.mp at_dot).1

/-- The augmented production is never predicted, as its left-hand side is on no right-hand side. -/
theorem Predicts.user (wellFormed : g.WellFormed) {item other : Item}
    (predicts : g.Predicts item other) : other.production ≠ augmentedProduction := by
  obtain ⟨found, next, -⟩ := predicts
  rintro rfl
  obtain rfl := Option.some.inj (found.symm.trans wellFormed.augmented)
  have declared := Item.declared_of_next? wellFormed next
  exact absurd declared.1 (Nat.lt_irrefl _)

theorem Predicts.lookahead_lt (wellFormed : g.WellFormed) {item other : Item}
    (predicts : g.Predicts item other) (inside : item.lookahead < g.terminals.size) :
    other.lookahead < g.terminals.size := by
  obtain ⟨-, next, ahead⟩ := predicts
  exact ClosureRules.lookahead_lt_of_demands wellFormed inside ⟨next, ahead⟩

theorem Opens.lookahead_lt (wellFormed : g.WellFormed) {before : List Symbol} {p t : Nat}
    (opens : g.Opens before p t) : t < g.terminals.size := by
  induction opens with
  | start => exact wellFormed.terminals
  | predict _ _ predicts ih => exact predicts.lookahead_lt wellFormed ih

theorem Opens.exists_production (wellFormed : g.WellFormed) {before : List Symbol} {p t : Nat}
    (opens : g.Opens before p t) : ∃ production, g.production? p = some production := by
  cases opens with
  | start => exact ⟨_, wellFormed.augmented⟩
  | predict _ _ predicts => exact predicts.exists_production

/-- A nonterminal inside the right-hand side of an opened production is predicted by its item. -/
theorem Opens.inside {before inner rest : List Symbol} {p q t u : Nat}
    {production below : Production} (outer : g.Opens before p t)
    (found : g.production? p = some production)
    (split : production.right = inner ++ .nonterminal below.left :: rest)
    (belowFound : g.production? q = some below) (ahead : u ∈ g.firstSets.firstBefore rest t) :
    g.Opens (before ++ inner) q u := by
  have predicts : g.Predicts ⟨p, inner.length, t⟩ ⟨q, 0, u⟩ := by
    apply Predicts.begin belowFound
    · exact Item.next?_eq_some.mpr ⟨production, found, by simp [split]⟩
    · simpa [Item.rest, found, split] using ahead
  have opens := outer.predict found predicts
  simpa [split] using opens

/-! ## Valid items -/

theorem Opens.valid (wellFormed : g.WellFormed) {before : List Symbol} {p t : Nat}
    (opens : g.Opens before p t) : g.Valid before ⟨p, 0, t⟩ := by
  obtain ⟨production, found⟩ := opens.exists_production wellFormed
  exact ⟨before, production, opens, found, Nat.zero_le _, by simp⟩

theorem Valid.lookahead_lt (wellFormed : g.WellFormed) {read : List Symbol} {item : Item}
    (valid : g.Valid read item) : item.lookahead < g.terminals.size := by
  obtain ⟨_, _, opens, -⟩ := valid
  exact opens.lookahead_lt wellFormed

theorem Valid.advance {read : List Symbol} {item : Item} {symbol : Symbol}
    (valid : g.Valid read item) (next : item.next? g = some symbol) :
    g.Valid (read ++ [symbol]) item.advance := by
  obtain ⟨before, production, opens, found, -, rfl⟩ := valid
  obtain ⟨same, sameFound, at_dot⟩ := Item.next?_eq_some.mp next
  obtain rfl := Option.some.inj (sameFound.symm.trans found)
  refine ⟨before, _, opens, found, (List.getElem?_eq_some_iff.mp at_dot).1, ?_⟩
  simp only [Item.advance, List.take_add_one, at_dot, Option.toList_some, List.append_assoc]

theorem Valid.predicts {read : List Symbol} {item other : Item} (valid : g.Valid read item)
    (predicts : g.Predicts item other) : g.Valid read other := by
  obtain ⟨before, production, opens, found, -, rfl⟩ := valid
  obtain ⟨opened, openedFound⟩ := predicts.exists_production
  refine ⟨_, opened, .predict opens found predicts, openedFound, ?_, ?_⟩
  · exact predicts.dot_eq_zero ▸ Nat.zero_le _
  · rw [predicts.dot_eq_zero, List.take_zero, List.append_nil]

/-- A dot that has moved came over the last symbol read. -/
theorem Valid.retreat {read : List Symbol} {item : Item} (valid : g.Valid read item)
    (moved : item.dot ≠ 0) : ∃ earlier symbol source, read = earlier ++ [symbol] ∧
      g.Valid earlier source ∧ source.next? g = some symbol ∧ source.advance = item := by
  obtain ⟨before, production, opens, found, within, rfl⟩ := valid
  obtain ⟨p, dot, t⟩ := item
  obtain ⟨dot, rfl⟩ := Nat.exists_eq_succ_of_ne_zero moved
  have inside : dot < production.right.length := within
  refine ⟨before ++ production.right.take dot, production.right[dot], ⟨p, dot, t⟩, ?_, ?_, ?_, rfl⟩
  · simp only [List.append_assoc, List.take_append_getElem]
  · exact ⟨before, production, opens, found, Nat.le_of_lt inside, rfl⟩
  · exact Item.next?_eq_some.mpr ⟨production, found, List.getElem?_eq_getElem inside⟩

/-- A dot that has not moved was put where its production is opened. -/
theorem Valid.opens {read : List Symbol} {p t : Nat} (valid : g.Valid read ⟨p, 0, t⟩) :
    g.Opens read p t := by
  obtain ⟨before, production, opens, -, -, rfl⟩ := valid
  simpa using opens

/-- Behind the dot of a complete item stands its whole right-hand side. -/
theorem Valid.complete {read : List Symbol} {item : Item} (valid : g.Valid read item)
    (complete : item.next? g = none) : ∃ before production,
      g.Opens before item.production item.lookahead ∧
      g.production? item.production = some production ∧ read = before ++ production.right := by
  obtain ⟨before, production, opens, found, -, rfl⟩ := valid
  refine ⟨before, production, opens, found, ?_⟩
  simp only [Item.next?, found, Option.bind_some, List.getElem?_eq_none_iff] at complete
  rw [List.take_of_length_le complete]

/-- Every production but the augmented one is opened because an item predicts it. -/
theorem Opens.exists_source {before : List Symbol} {p t : Nat}
    (opens : g.Opens before p t) (user : p ≠ augmentedProduction) :
    ∃ source, g.Valid before source ∧ g.Predicts source ⟨p, 0, t⟩ := by
  cases opens with
  | start => exact absurd rfl user
  | @predict before p t dot production other outer found predicts =>
    obtain ⟨q, unmoved, u⟩ := other
    obtain rfl : unmoved = 0 := predicts.dot_eq_zero
    have within : dot ≤ production.right.length := Nat.le_of_lt (predicts.dot_lt found)
    exact ⟨_, ⟨before, production, outer, found, within, rfl⟩, predicts⟩

/-- The augmented production is opened once, at the beginning. -/
theorem Opens.augmented (wellFormed : g.WellFormed) {before : List Symbol} {t : Nat}
    (opens : g.Opens before augmentedProduction t) : before = [] ∧ t = endMarker := by
  generalize same : augmentedProduction = p at opens
  cases opens with
  | start => exact ⟨rfl, rfl⟩
  | predict _ _ predicts => exact absurd same.symm (predicts.user wellFormed)

/-- A kernel leads to every valid item if it has those whose dot has moved and the first. -/
theorem leadsTo_of_opens {kernel : List Item} {read : List Symbol}
    (moved : ∀ item, g.Valid read item → item.dot ≠ 0 → item ∈ kernel)
    (first : read = [] → .start ∈ kernel) {p t : Nat} (opens : g.Opens read p t) :
    g.LeadsTo kernel ⟨p, 0, t⟩ := by
  induction opens with
  | start => exact ⟨_, first rfl, .refl⟩
  | @predict before p t dot production other outer found predicts ih =>
    have source : g.LeadsTo kernel ⟨p, dot, t⟩ := by
      by_cases still : dot = 0
      · subst still
        simp only [List.take_zero, List.append_nil] at moved first
        exact ih moved first
      · have within : dot ≤ production.right.length := Nat.le_of_lt (predicts.dot_lt found)
        exact ⟨_, moved _ ⟨before, production, outer, found, within, rfl⟩ still, .refl⟩
    obtain ⟨origin, member, led⟩ := source
    obtain ⟨q, still, u⟩ := other
    obtain rfl : still = 0 := predicts.dot_eq_zero
    exact ⟨origin, member, led.tail predicts⟩

/-- Items are valid together with all that they lead to, and those with a dot that has not moved
are led to from the others. -/
theorem leadsTo_iff_valid {kernel : List Item} {read : List Symbol}
    (sound : ∀ item ∈ kernel, g.Valid read item)
    (moved : ∀ item, g.Valid read item → item.dot ≠ 0 → item ∈ kernel)
    (first : read = [] → .start ∈ kernel) {item : Item} :
    g.LeadsTo kernel item ↔ g.Valid read item := by
  constructor
  · rintro ⟨origin, member, led⟩
    induction led with
    | refl => exact sound origin member
    | tail _ step ih => exact ih.predicts step
  · intro valid
    obtain ⟨p, dot, t⟩ := item
    by_cases still : dot = 0
    · subst still
      exact leadsTo_of_opens moved first valid.opens
    · exact ⟨_, moved _ valid still, .refl⟩

theorem leadsTo_start_iff (wellFormed : g.WellFormed) {item : Item} :
    g.LeadsTo [.start] item ↔ g.Valid [] item := by
  apply leadsTo_iff_valid _ _ fun _ => List.mem_singleton_self _
  · intro item member
    obtain rfl := List.mem_singleton.mp member
    exact Opens.start.valid wellFormed
  · intro item valid moved
    obtain ⟨earlier, symbol, -, none, -⟩ := valid.retreat moved
    exact absurd none (by simp)

end Grammar

/-! ## Paths -/

/-- Each entry of a stack is entered from the one below it. -/
inductive Automaton.Path (a : Automaton) : List (Nat × Symbol) → Prop where
  | nil : a.Path []
  | cons {s : Nat} {symbol : Symbol} {stack : List (Nat × Symbol)}
      (step : a.transition? (Configuration.topState stack) symbol = some s)
      (below : a.Path stack) : a.Path ((s, symbol) :: stack)

/-- The symbols of a stack in the order in which they were read. -/
def readSymbols (stack : List (Nat × Symbol)) : List Symbol :=
  (stack.map Prod.snd).reverse

@[simp] theorem readSymbols_nil : readSymbols [] = [] := rfl

@[simp] theorem readSymbols_cons (s : Nat) (symbol : Symbol) (stack : List (Nat × Symbol)) :
    readSymbols ((s, symbol) :: stack) = readSymbols stack ++ [symbol] := by
  simp [readSymbols]

theorem length_readSymbols (stack : List (Nat × Symbol)) :
    (readSymbols stack).length = stack.length := by
  simp [readSymbols]

theorem readSymbols_append (pushed stack : List (Nat × Symbol)) :
    readSymbols (pushed ++ stack) = readSymbols stack ++ readSymbols pushed := by
  simp [readSymbols]

/-- Where the symbols read split, so does the stack. -/
theorem readSymbols_split {stack : List (Nat × Symbol)} {before after : List Symbol}
    (read : readSymbols stack = before ++ after) : ∃ pushed below, stack = pushed ++ below ∧
      readSymbols below = before ∧ readSymbols pushed = after := by
  have reversed := congrArg List.reverse read
  rw [readSymbols, List.reverse_reverse, List.reverse_append] at reversed
  obtain ⟨pushed, below, rfl, top, bottom⟩ := List.map_eq_append_iff.mp reversed
  refine ⟨pushed, below, rfl, ?_, ?_⟩
  · rw [readSymbols, bottom, List.reverse_reverse]
  · rw [readSymbols, top, List.reverse_reverse]

theorem readSymbols_drop {stack : List (Nat × Symbol)} {before after : List Symbol}
    (read : readSymbols stack = before ++ after) :
    after.length ≤ stack.length ∧ readSymbols (stack.drop after.length) = before := by
  obtain ⟨pushed, below, rfl, exposed, topmost⟩ := readSymbols_split read
  rw [← topmost, length_readSymbols, List.drop_left, List.length_append]
  exact ⟨Nat.le_add_right _ _, exposed⟩

/-- The dot of a valid item moves over what is pushed. -/
theorem Grammar.Valid.push {g : Grammar} {stack : List (Nat × Symbol)} {item : Item}
    {symbol : Symbol} (valid : g.Valid (readSymbols stack) item)
    (next : item.next? g = some symbol) (s : Nat) :
    g.Valid (readSymbols ((s, symbol) :: stack)) item.advance := by
  rw [readSymbols_cons]
  exact valid.advance next

namespace Automaton

variable {g : Grammar} {a : Automaton} {stack : List (Nat × Symbol)}

theorem Path.drop (path : a.Path stack) (count : Nat) : a.Path (stack.drop count) := by
  induction path generalizing count with
  | nil =>
    rw [List.drop_nil]
    exact .nil
  | cons step below ih =>
    cases count with
    | zero => exact .cons step below
    | succ count => exact ih count

/-- The items at the end of a path are those that are valid for what was read along it. -/
theorem Path.mem_items_iff (path : a.Path stack) (wellFormed : g.WellFormed)
    (canonical : a.Canonical g) : ∃ state, a.state? (Configuration.topState stack) = some state ∧
      ∀ item, item ∈ state.items ↔ g.Valid (readSymbols stack) item := by
  induction path with
  | nil =>
    obtain ⟨state, found, items⟩ := canonical.start
    refine ⟨state, found, fun item => ?_⟩
    rw [items, mem_closure wellFormed, Grammar.leadsTo_start_iff wellFormed, readSymbols_nil]
    intro item member
    obtain rfl := List.mem_singleton.mp member
    exact wellFormed.terminals
  | @cons s symbol stack step below ih =>
    obtain ⟨lower, lowerFound, meaning⟩ := ih
    obtain ⟨source, state, sourceFound, found, -, items⟩ := canonical.linked step
    obtain rfl := Option.some.inj (sourceFound.symm.trans lowerFound)
    have kernel {item : Item} : item ∈ (source.items.gotoKernel g symbol).toList ↔
        ∃ origin, g.Valid (readSymbols stack) origin ∧ origin.next? g = some symbol ∧
          origin.advance = item := by
      rw [← ItemSet.mem_iff, ItemSet.mem_gotoKernel]
      simp only [meaning]
    have sound : ∀ item ∈ (source.items.gotoKernel g symbol).toList,
        g.Valid (readSymbols stack ++ [symbol]) item := by
      intro item member
      obtain ⟨origin, valid, next, rfl⟩ := kernel.mp member
      exact valid.advance next
    refine ⟨state, found, fun item => ?_⟩
    rw [items, ItemSet.goto, mem_closure wellFormed fun item member =>
      (sound item member).lookahead_lt wellFormed, readSymbols_cons]
    refine Grammar.leadsTo_iff_valid sound ?_ (fun none => absurd none (by simp))
    intro item valid moved
    obtain ⟨earlier, last, origin, split, originValid, next, rfl⟩ := valid.retreat moved
    obtain ⟨rfl, same⟩ := List.append_inj' split rfl
    obtain rfl := List.singleton_inj.mp same
    exact kernel.mpr ⟨origin, originValid, next, rfl⟩

/-- A symbol after the dot of a valid item can be followed. -/
theorem Path.exists_transition (path : a.Path stack) (wellFormed : g.WellFormed)
    (canonical : a.Canonical g) {item : Item} {symbol : Symbol}
    (valid : g.Valid (readSymbols stack) item) (next : item.next? g = some symbol) :
    ∃ target, a.transition? (Configuration.topState stack) symbol = some target := by
  obtain ⟨state, found, meaning⟩ := path.mem_items_iff wellFormed canonical
  exact canonical.followed found ((meaning item).mpr valid) next

end Automaton

end CanonicalLR
