import CanonicalLR.Item.Closure
import CanonicalLR.Proofs.Sets.First
import Mathlib.Logic.Relation

/-!
# The closure is what the kernel predicts

An item with its dot before a nonterminal predicts the productions of the
nonterminal. A closure holds the items that the kernel leads to by predictions,
in any number of steps, and no others.
-/

namespace CanonicalLR

namespace Grammar

/-- An item demands that a production be begun, with a lookahead. -/
inductive Predicts (g : Grammar) (item : Item) : Item → Prop where
  | begin {p t : Nat} {production : Production} (found : g.production? p = some production)
      (next : item.next? g = some (.nonterminal production.left))
      (ahead : t ∈ g.firstSets.firstBefore (item.rest g) item.lookahead) :
      g.Predicts item ⟨p, 0, t⟩

/-- An item demands a nonterminal with a lookahead. -/
def Demands (g : Grammar) (item : Item) (n t : Nat) : Prop :=
  item.next? g = some (.nonterminal n) ∧
    t ∈ g.firstSets.firstBefore (item.rest g) item.lookahead

/-- Some item of a list leads to an item by predictions. -/
def LeadsTo (g : Grammar) (kernel : List Item) (item : Item) : Prop :=
  ∃ source ∈ kernel, Relation.ReflTransGen g.Predicts source item

end Grammar

namespace Item

variable {g : Grammar}

theorem next?_begin {p t : Nat} {production : Production}
    (found : g.production? p = some production) :
    (Item.mk p 0 t).next? g = production.right.head? := by
  simp [next?, found, List.head?_eq_getElem?]

theorem rest_begin {p t : Nat} {production : Production}
    (found : g.production? p = some production) :
    (Item.mk p 0 t).rest g = production.right.tail := by
  simp [rest, found]

theorem mem_right_of_next? {item : Item} {symbol : Symbol} (next : item.next? g = some symbol) :
    ∃ production, g.production? item.production = some production ∧ symbol ∈ production.right := by
  obtain ⟨production, found, at_dot⟩ := next?_eq_some.mp next
  exact ⟨production, found, List.mem_of_getElem? at_dot⟩

theorem declared_of_next? (wellFormed : g.WellFormed) {item : Item} {symbol : Symbol}
    (next : item.next? g = some symbol) :
    symbol.Declared g.terminals.size g.nonterminals.size := by
  obtain ⟨production, found, used⟩ := mem_right_of_next? next
  exact wellFormed.declared_of_mem found used

theorem declared_of_mem_rest (wellFormed : g.WellFormed) {item : Item} {symbol : Symbol}
    (member : symbol ∈ item.rest g) :
    symbol.Declared g.terminals.size g.nonterminals.size := by
  cases found : g.production? item.production with
  | none => simp [rest, found] at member
  | some production =>
    simp only [rest, found, Option.map_some, Option.getD_some] at member
    exact wellFormed.declared_of_mem found (List.mem_of_mem_drop member)

end Item

namespace ClosureRules

open Grammar

variable {g : Grammar} {kernel : List Item}

theorem mem_predicted {demands : IdSets} {item : Item} :
    item ∈ (ofGrammar g g.firstSets).predicted demands ↔
      ∃ production, g.production? item.production = some production ∧ item.dot = 0 ∧
        item.lookahead ∈ demands.setAt production.left := by
  have looked {n t : Nat} : t ∈ (demands.map IdSet.toList).getD n [] ↔ t ∈ demands.setAt n := by
    unfold IdSets.setAt
    rw [Array.getD_eq_getD_getElem?, Array.getD_eq_getD_getElem?, Array.getElem?_map]
    cases demands[n]? with
    | none => simp
    | some set => simp
  simp only [predicted, ofGrammar, List.mem_flatten, List.mem_mapIdx]
  constructor
  · rintro ⟨_, ⟨p, bound, rfl⟩, member⟩
    obtain ⟨t, ahead, rfl⟩ := List.mem_map.mp member
    refine ⟨_, Array.getElem?_eq_some_iff.mpr ⟨by simpa using bound, rfl⟩, rfl, looked.mp ?_⟩
    simpa using ahead
  · rintro ⟨production, found, start, ahead⟩
    obtain ⟨bound, same⟩ := Array.getElem?_eq_some_iff.mp found
    refine ⟨_, ⟨item.production, by simpa using bound, rfl⟩, List.mem_map.mpr ?_⟩
    refine ⟨item.lookahead, looked.mpr ?_, ?_⟩
    · simpa [same] using ahead
    · cases item
      simpa using start.symm

theorem mem_close {item : Item} :
    item ∈ (ofGrammar g g.firstSets).close kernel ↔
      item ∈ kernel ∨ item ∈ (ofGrammar g g.firstSets).predicted
        ((ofGrammar g g.firstSets).demands kernel) := by
  rw [close, ItemSet.mem_addAll, ItemSet.mem_ofList]

/-! ## Demands of the kernel -/

theorem size_addDemand (sets : IdSets) (item : Item) :
    ((ofGrammar g g.firstSets).addDemand sets item).size = sets.size := by
  unfold addDemand
  split <;> simp

theorem mem_addDemand (sets : IdSets) (item : Item) (n t : Nat) :
    t ∈ ((ofGrammar g g.firstSets).addDemand sets item).setAt n ↔
      t ∈ sets.setAt n ∨ n < sets.size ∧ g.Demands item n t := by
  unfold addDemand Demands
  split
  · rename_i m next
    have next : item.next? g = some (.nonterminal m) := next
    rw [IdSets.mem_setAt_add]
    simp only [next, Option.some.injEq, Symbol.nonterminal.injEq]
    constructor
    · rintro (old | ⟨rfl, inside, ahead⟩)
      · exact .inl old
      · exact .inr ⟨inside, rfl, ahead⟩
    · rintro (old | ⟨inside, rfl, ahead⟩)
      · exact .inl old
      · exact .inr ⟨rfl, inside, ahead⟩
  · rename_i other
    constructor
    · exact .inl
    · rintro (old | ⟨-, next, -⟩)
      · exact old
      · exact absurd next (other n)

/-- What the kernel itself demands, before any flow. -/
def kernelDemands (g : Grammar) (kernel : List Item) : IdSets :=
  kernel.foldl (ofGrammar g g.firstSets).addDemand (Array.replicate g.nonterminals.size ∅)

theorem size_kernelDemands : (kernelDemands g kernel).size = g.nonterminals.size := by
  rw [kernelDemands, IdSets.size_foldl size_addDemand, Array.size_replicate]

theorem mem_kernelDemands {n t : Nat} :
    t ∈ (kernelDemands g kernel).setAt n ↔
      n < g.nonterminals.size ∧ ∃ item ∈ kernel, g.Demands item n t := by
  rw [kernelDemands, IdSets.mem_foldl size_addDemand mem_addDemand, IdSets.setAt_replicate,
    Array.size_replicate]
  simp

theorem mem_flows {flow : Flow} :
    flow ∈ (ofGrammar g g.firstSets).flows ↔
      ∃ p production n rest, g.production? p = some production ∧
        production.right = .nonterminal n :: rest ∧
        flow = ⟨production.left, n, g.firstSets.firstOf rest, g.firstSets.vanishes rest⟩ := by
  simp only [ofGrammar, List.mem_filterMap]
  constructor
  · rintro ⟨production, listed, produced⟩
    obtain ⟨p, found⟩ := mem_productions_iff.mp listed
    unfold demandFlow? at produced
    split at produced
    · rename_i n rest split
      exact ⟨p, production, n, rest, found, split, (Option.some.inj produced).symm⟩
    · cases produced
  · rintro ⟨p, production, n, rest, found, split, rfl⟩
    exact ⟨production, mem_productions_iff.mpr ⟨p, found⟩, by simp [demandFlow?, split]⟩

/-! ## What the demands are -/

theorem exists_demands_of_carried {n t : Nat}
    (carried : Carried (ofGrammar g g.firstSets).flows (kernelDemands g kernel) n t) :
    ∃ source, g.LeadsTo kernel source ∧ g.Demands source n t := by
  -- A flow follows one prediction: its source is the left-hand side of the production predicted.
  have through {p other t n : Nat} {production : Production} {rest : List Symbol}
      (found : g.production? p = some production)
      (split : production.right = .nonterminal n :: rest)
      (before : ∃ source, g.LeadsTo kernel source ∧ g.Demands source production.left other)
      (ahead : t ∈ g.firstSets.firstBefore rest other) :
      ∃ source, g.LeadsTo kernel source ∧ g.Demands source n t := by
    obtain ⟨source, ⟨origin, member, led⟩, next, reached⟩ := before
    refine ⟨⟨p, 0, other⟩, ⟨origin, member, led.tail (.begin found next reached)⟩, ?_, ?_⟩
    · rw [Item.next?_begin found, split, List.head?_cons]
    · rw [Item.rest_begin found, split, List.tail_cons]
      exact ahead
  induction carried with
  | seed planted =>
    obtain ⟨-, item, member, demanded⟩ := mem_kernelDemands.mp planted
    exact ⟨item, ⟨item, member, .refl⟩, demanded⟩
  | gain listed _ gained ih =>
    obtain ⟨p, production, n, rest, found, split, rfl⟩ := mem_flows.mp listed
    exact through found split ih (FirstSets.mem_firstBefore.mpr (.inl gained))
  | relay listed relays _ ih =>
    obtain ⟨p, production, n, rest, found, split, rfl⟩ := mem_flows.mp listed
    exact through found split ih (FirstSets.mem_firstBefore.mpr (.inr ⟨relays, rfl⟩))

section

variable (wellFormed : g.WellFormed)
include wellFormed

theorem carried_of_demands {source : Item} {n t : Nat} (led : g.LeadsTo kernel source)
    (demanded : g.Demands source n t) :
    Carried (ofGrammar g g.firstSets).flows (kernelDemands g kernel) n t := by
  obtain ⟨origin, member, path⟩ := led
  induction path generalizing n t with
  | refl =>
    have declared := Item.declared_of_next? wellFormed demanded.1
    exact .seed (mem_kernelDemands.mpr ⟨declared.2, origin, member, demanded⟩)
  | tail _ step ih =>
    obtain ⟨found, next, ahead⟩ := step
    have before := ih ⟨next, ahead⟩
    obtain ⟨first, later⟩ := demanded
    rw [Item.next?_begin found] at first
    rw [Item.rest_begin found] at later
    have split := List.cons_head?_tail first
    have listed := mem_flows.mpr ⟨_, _, n, _, found, split.symm, rfl⟩
    rcases FirstSets.mem_firstBefore.mp later with gained | ⟨relays, rfl⟩
    · exact .gain listed before gained
    · exact .relay listed relays before

/-- What follows a dot begins with declared terminals, and no others come before a lookahead. -/
theorem lookahead_lt_of_demands {source : Item} {n t : Nat}
    (inside : source.lookahead < g.terminals.size) (demanded : g.Demands source n t) :
    t < g.terminals.size := by
  rcases (mem_firstBefore_iff wellFormed).mp demanded.2 with begins | ⟨-, rfl⟩
  · exact (begins.declared wellFormed fun symbol => Item.declared_of_mem_rest wellFormed).2
  · exact inside

theorem mem_demands (inside : ∀ item ∈ kernel, item.lookahead < g.terminals.size) {n t : Nat} :
    t ∈ ((ofGrammar g g.firstSets).demands kernel).setAt n ↔
      ∃ source, g.LeadsTo kernel source ∧ g.Demands source n t := by
  have below : IdSets.Below g.terminals.size (kernelDemands g kernel) := by
    intro n t planted
    obtain ⟨-, item, member, demanded⟩ := mem_kernelDemands.mp planted
    exact lookahead_lt_of_demands wellFormed (inside item member) demanded
  have gains : ∀ flow ∈ (ofGrammar g g.firstSets).flows, ∀ id, id ∈ flow.gain →
      id < g.terminals.size := by
    intro flow listed id gained
    obtain ⟨p, production, n, rest, found, split, rfl⟩ := mem_flows.mp listed
    refine (((mem_firstOf_iff wellFormed).mp gained).declared wellFormed fun symbol member => ?_).2
    exact wellFormed.declared_of_mem found (split ▸ List.mem_cons_of_mem _ member)
  have targets : ∀ flow ∈ (ofGrammar g g.firstSets).flows,
      flow.target < (kernelDemands g kernel).size := by
    intro flow listed
    obtain ⟨p, production, n, rest, found, split, rfl⟩ := mem_flows.mp listed
    rw [size_kernelDemands]
    have declared := wellFormed.declared_of_mem found (split ▸ List.mem_cons_self)
    exact declared.2
  have saturated : t ∈ ((ofGrammar g g.firstSets).demands kernel).setAt n ↔
      Carried (ofGrammar g g.firstSets).flows (kernelDemands g kernel) n t :=
    IdSets.mem_saturate below gains targets
  rw [saturated]
  constructor
  · exact exists_demands_of_carried
  · rintro ⟨source, led, demanded⟩
    exact carried_of_demands wellFormed led demanded

end

end ClosureRules

/-- The items of a closure are those that its kernel leads to. -/
theorem mem_closure {g : Grammar} (wellFormed : g.WellFormed) {kernel : List Item}
    (inside : ∀ item ∈ kernel, item.lookahead < g.terminals.size) {item : Item} :
    item ∈ closure g g.firstSets kernel ↔ g.LeadsTo kernel item := by
  rw [closure, ClosureRules.mem_close, ClosureRules.mem_predicted]
  constructor
  · rintro (member | ⟨production, found, start, ahead⟩)
    · exact ⟨item, member, .refl⟩
    · obtain ⟨source, ⟨origin, member, led⟩, next, reached⟩ :=
        (ClosureRules.mem_demands wellFormed inside).mp ahead
      obtain ⟨p, dot, t⟩ := item
      obtain rfl : dot = 0 := start
      exact ⟨origin, member, led.tail (.begin found next reached)⟩
  · rintro ⟨origin, member, led⟩
    cases led with
    | refl => exact .inl member
    | tail before step =>
      obtain ⟨found, next, ahead⟩ := step
      refine .inr ⟨_, found, rfl, ?_⟩
      exact (ClosureRules.mem_demands wellFormed inside).mpr
        ⟨_, ⟨origin, member, before⟩, next, ahead⟩

end CanonicalLR
