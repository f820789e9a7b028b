import CanonicalLR.Proofs.Sets.Follow

/-!
# Look-ups in FIRST and FOLLOW sets

Each computation has a form whose look-ups are checked: it has no result if one
of them finds no entry. Over a well-formed grammar the checked forms come to the
same results as the plain ones, so that every look-up finds its entry.
-/

namespace CanonicalLR

/-! ## Checked steps -/

/-- A difference of natural numbers that does not go below zero. -/
def minus? (whole part : Nat) : Option Nat :=
  if part ≤ whole then some (whole - part) else none

theorem minus?_eq_some {whole part : Nat} (within : part ≤ whole) :
    minus? whole part = some (whole - part) :=
  if_pos within

/-- Where every step has a result and keeps what the next one needs, so has the fold. -/
theorem foldlM_eq_some {α β : Type} {step? : β → α → Option β} {step : β → α → β}
    {inside : β → Prop} {items : List α}
    (kept : ∀ item ∈ items, ∀ value, inside value →
      step? value item = some (step value item) ∧ inside (step value item))
    {value : β} (initial : inside value) :
    items.foldlM step? value = some (items.foldl step value) ∧ inside (items.foldl step value) := by
  induction items generalizing value with
  | nil => exact ⟨rfl, initial⟩
  | cons head tail ih =>
    obtain ⟨found, next⟩ := kept head List.mem_cons_self value initial
    rw [List.foldlM_cons, found, List.foldl_cons]
    exact ih (fun item later => kept item (List.mem_cons_of_mem _ later)) next

theorem mapM_eq_some {α β : Type} {view? : α → Option β} {view : α → β} {items : List α}
    (found : ∀ item ∈ items, view? item = some (view item)) :
    items.mapM view? = some (items.map view) := by
  induction items with
  | nil => rfl
  | cons head tail ih =>
    obtain ⟨first, rest⟩ := List.forall_mem_cons.mp found
    simp [List.mapM_cons, first, ih rest]

theorem mapM_eq_filterMap {α β : Type} {view? : α → Option β} {items : List α}
    (found : ∀ item ∈ items, (view? item).isSome) :
    items.mapM view? = some (items.filterMap view?) := by
  induction items with
  | nil => rfl
  | cons head tail ih =>
    obtain ⟨first, rest⟩ := List.forall_mem_cons.mp found
    obtain ⟨value, same⟩ := Option.isSome_iff_exists.mp first
    simp [List.mapM_cons, same, ih rest]

theorem isSome_mapM {α β : Type} {view? : α → Option β} {items : List α}
    (found : ∀ item ∈ items, (view? item).isSome) : (items.mapM view?).isSome := by
  rw [mapM_eq_filterMap found, Option.isSome_some]

theorem isSome_bind_of_eq_some {α β : Type} {value? : Option α} {next? : α → Option β} {value : α}
    (found : value? = some value) (onward : (next? value).isSome) : (value? >>= next?).isSome := by
  subst found
  exact onward

theorem isSome_bind {α β : Type} {value? : Option α} {next? : α → Option β} (found : value?.isSome)
    (onward : ∀ value, (next? value).isSome) : (value? >>= next?).isSome := by
  obtain ⟨value, same⟩ := Option.isSome_iff_exists.mp found
  exact isSome_bind_of_eq_some same (onward value)

/-- Repeat a step that may have no result. -/
def stabilize? {α : Type} [DecidableEq α] (step? : α → Option α) : Nat → α → Option α
  | 0, value => some value
  | fuel + 1, value => do
      let next ← step? value
      if next = value then return value else stabilize? step? fuel next

theorem stabilize?_eq_some {α : Type} [DecidableEq α] {step? : α → Option α} {step : α → α}
    {inside : α → Prop}
    (kept : ∀ value, inside value → step? value = some (step value) ∧ inside (step value))
    (fuel : Nat) {value : α} (initial : inside value) :
    stabilize? step? fuel value = some (stabilize step fuel value) := by
  induction fuel generalizing value with
  | zero => rfl
  | succ fuel ih =>
    obtain ⟨found, next⟩ := kept value initial
    unfold stabilize? stabilize
    rw [found]
    simp only [Option.bind_eq_bind, Option.bind_some]
    split
    · rfl
    · exact ih next

namespace IdSets

/-- The set of a node that the family has. -/
def setAt? (sets : IdSets) (node : Nat) : Option IdSet :=
  sets[node]?

def add? (sets : IdSets) (node : Nat) (more : IdSet) : Option IdSets :=
  if node < sets.size then some (sets.add node more) else none

def flow? (sets : IdSets) (flow : Flow) : Option IdSets := do
  let source ← sets.setAt? flow.source
  sets.add? flow.target (flow.carry source)

def pass? (flows : List Flow) (sets : IdSets) : Option IdSets :=
  flows.foldlM flow? sets

def saturate? (width : Nat) (flows : List Flow) (seeds : IdSets) : Option IdSets :=
  stabilize? (pass? flows) (seeds.size * width + 1) seeds

theorem setAt?_eq_some {sets : IdSets} {node : Nat} (inside : node < sets.size) :
    sets.setAt? node = some (sets.setAt node) := by
  simp [setAt?, setAt, inside]

theorem add?_eq_some {sets : IdSets} {node : Nat} (inside : node < sets.size) (more : IdSet) :
    sets.add? node more = some (sets.add node more) :=
  if_pos inside

theorem flow?_eq_some {sets : IdSets} {flow : Flow} (source : flow.source < sets.size)
    (target : flow.target < sets.size) : sets.flow? flow = some (sets.flow flow) := by
  rw [flow?, setAt?_eq_some source]
  exact add?_eq_some target _

/-- Flows between nodes of a family meet no others. -/
theorem saturate?_eq_some {width : Nat} {flows : List Flow} {seeds : IdSets}
    (between : ∀ flow ∈ flows, flow.source < seeds.size ∧ flow.target < seeds.size) :
    saturate? width flows seeds = some (saturate width flows seeds) := by
  let inside (sets : IdSets) : Prop := sets.size = seeds.size
  have passes : ∀ sets, inside sets →
      pass? flows sets = some (pass flows sets) ∧ inside (pass flows sets) := by
    intro sets same
    refine foldlM_eq_some ?_ same
    intro flow listed sets same
    obtain ⟨source, target⟩ := between flow listed
    exact ⟨flow?_eq_some (same ▸ source) (same ▸ target), (size_flow sets flow).trans same⟩
  exact stabilize?_eq_some passes _ rfl

end IdSets

/-! ## FIRST sets -/

namespace Grammar

def firstSeeds? (g : Grammar) (nullable : IdSet) : Option IdSets :=
  g.productions.toList.foldlM
    (fun sets production =>
      let starters := (leading nullable production.right).filterMap Symbol.terminal?
      IdSets.add? sets production.left (IdSet.ofList starters))
    (Array.replicate g.nonterminals.size ∅)

def firstSets? (g : Grammar) : Option FirstSets := do
  let nullable := g.nullable
  let seeds ← g.firstSeeds? nullable
  let sets ← IdSets.saturate? g.terminals.size (g.firstFlows nullable) seeds
  return ⟨nullable, sets⟩

end Grammar

namespace FirstSets

def firstSymbol? (sets : FirstSets) : Symbol → Option IdSet
  | .terminal t => some (IdSet.ofList [t])
  | .nonterminal n => sets.sets.setAt? n

def firstOf? (sets : FirstSets) (symbols : List Symbol) : Option IdSet :=
  (leading sets.nullable symbols).foldlM
    (fun found symbol => do
      let first ← sets.firstSymbol? symbol
      return found ∪ first) ∅

def firstBefore? (sets : FirstSets) (symbols : List Symbol) (lookahead : Nat) : Option IdSet := do
  let first ← sets.firstOf? symbols
  return if sets.vanishes symbols then first.insert lookahead else first

end FirstSets

namespace Grammar

variable {g : Grammar}

theorem size_firstSets : g.firstSets.sets.size = g.nonterminals.size :=
  IdSets.size_saturate.trans (size_firstSeeds _)

section

variable (wellFormed : g.WellFormed)
include wellFormed

theorem firstSets?_eq_some : g.firstSets? = some g.firstSets := by
  have seeds : g.firstSeeds? g.nullable = some (g.firstSeeds g.nullable) := by
    let inside (sets : IdSets) : Prop := sets.size = g.nonterminals.size
    refine (foldlM_eq_some (fun production listed sets same => ?_)
      (show inside _ from Array.size_replicate)).1
    obtain ⟨p, found⟩ := mem_productions_iff.mp listed
    have declared := wellFormed.left_lt found
    exact ⟨IdSets.add?_eq_some (same ▸ declared) _, (IdSets.size_add ..).trans same⟩
  have between : ∀ flow ∈ g.firstFlows g.nullable, flow.source < (g.firstSeeds g.nullable).size ∧
      flow.target < (g.firstSeeds g.nullable).size := by
    intro flow listed
    obtain ⟨p, production, n, found, leads, rfl⟩ := mem_firstFlows.mp listed
    obtain ⟨before, after, split, -⟩ := mem_leading_iff.mp leads
    have declared := wellFormed.declared_of_mem found (split ▸ List.mem_append_right before
      List.mem_cons_self)
    rw [size_firstSeeds]
    exact ⟨declared.2, wellFormed.left_lt found⟩
  rw [firstSets?, seeds]
  simp only [Option.bind_eq_bind, Option.bind_some, IdSets.saturate?_eq_some between]
  rfl

omit wellFormed in
/-- The FIRST set of a string of declared symbols is found. -/
theorem firstOf?_eq_some {symbols : List Symbol}
    (declared : ∀ symbol ∈ symbols, symbol.Declared g.terminals.size g.nonterminals.size) :
    g.firstSets.firstOf? symbols = some (g.firstSets.firstOf symbols) := by
  let inside (_ : IdSet) : Prop := True
  refine (foldlM_eq_some (fun symbol leads found _ => ⟨?_, trivial⟩)
    (show inside _ from trivial)).1
  obtain ⟨before, after, rfl, -⟩ := mem_leading_iff.mp leads
  have inside := declared symbol (by simp)
  cases symbol with
  | terminal t => rfl
  | nonterminal n =>
    have listed : n < g.firstSets.sets.size := size_firstSets ▸ inside.2
    simp [FirstSets.firstSymbol?, FirstSets.firstSymbol, IdSets.setAt?_eq_some listed,
      FirstSets.first]

omit wellFormed in
theorem firstBefore?_eq_some {symbols : List Symbol}
    (declared : ∀ symbol ∈ symbols, symbol.Declared g.terminals.size g.nonterminals.size)
    (lookahead : Nat) : g.firstSets.firstBefore? symbols lookahead =
      some (g.firstSets.firstBefore symbols lookahead) := by
  rw [FirstSets.firstBefore?, firstOf?_eq_some declared]
  simp only [Option.bind_eq_bind, Option.bind_some, FirstSets.firstBefore]
  split <;> rfl

end

/-! ## FOLLOW sets -/

def followBases? (g : Grammar) : Option IdSets := do
  let none : IdSets := Array.replicate g.nonterminals.size ∅
  let marker := IdSet.ofList [endMarker]
  let sets ← none.add? augmentedStart marker
  sets.add? g.start marker

def followSeeds? (g : Grammar) (first : FirstSets) : Option IdSets := do
  let bases ← g.followBases?
  g.productions.toList.foldlM
    (fun sets production =>
      (occurrences production.right).foldlM
        (fun sets (n, rest) => do
          let behind ← first.firstOf? rest
          IdSets.add? sets n behind) sets)
    bases

def followSets? (g : Grammar) (first : FirstSets) : Option FollowSets := do
  let seeds ← g.followSeeds? first
  let sets ← IdSets.saturate? g.terminals.size (g.followFlows first) seeds
  return ⟨sets⟩

def firstFollow? (g : Grammar) : Option FirstFollow := do
  let first ← g.firstSets?
  let follow ← g.followSets? first
  return ⟨first, follow⟩

theorem size_followSets : (g.followSets g.firstSets).sets.size = g.nonterminals.size :=
  IdSets.size_saturate.trans (size_followSeeds _)

section

variable (wellFormed : g.WellFormed)
include wellFormed

theorem followSeeds?_eq_some :
    g.followSeeds? g.firstSets = some (g.followSeeds g.firstSets) := by
  let inside (sets : IdSets) : Prop := sets.size = g.nonterminals.size
  have none : inside (Array.replicate g.nonterminals.size ∅) := Array.size_replicate
  have bases : g.followBases? = some g.followBases := by
    have augmented : augmentedStart < g.nonterminals.size := wellFormed.nonterminals
    have start : g.start < g.nonterminals.size := wellFormed.start.2
    simp only [followBases?, Option.bind_eq_bind, IdSets.add?_eq_some (none ▸ augmented),
      Option.bind_some]
    exact IdSets.add?_eq_some (by simpa using start) _
  rw [followSeeds?, bases]
  refine (foldlM_eq_some (fun production listed sets same => ?_)
    (show inside g.followBases by simp [inside, followBases])).1
  obtain ⟨p, found⟩ := mem_productions_iff.mp listed
  refine foldlM_eq_some ?_ same
  rintro ⟨n, rest⟩ occurs sets same
  obtain ⟨before, split⟩ := mem_occurrences.mp occurs
  have declared : ∀ symbol ∈ Symbol.nonterminal n :: rest,
      symbol.Declared g.terminals.size g.nonterminals.size := fun symbol member =>
    wellFormed.declared_of_mem found (split ▸ List.mem_append_right before member)
  obtain ⟨first, behind⟩ := List.forall_mem_cons.mp declared
  have added : sets.add? n (g.firstSets.firstOf rest) =
      some (sets.add n (g.firstSets.firstOf rest)) := IdSets.add?_eq_some (same ▸ first.2) _
  refine ⟨?_, (IdSets.size_add ..).trans same⟩
  simp only [firstOf?_eq_some behind, Option.bind_eq_bind, Option.bind_some, added]

theorem followSets?_eq_some : g.followSets? g.firstSets = some (g.followSets g.firstSets) := by
  rw [followSets?, followSeeds?_eq_some wellFormed]
  simp only [Option.bind_eq_bind, Option.bind_some,
    IdSets.saturate?_eq_some (lt_size_of_mem_followFlows wellFormed)]
  rfl

/-- The sets of a well-formed grammar are computed without a look-up that misses. -/
theorem firstFollow?_eq_some : g.firstFollow? = some g.firstFollow := by
  rw [firstFollow?, firstSets?_eq_some wellFormed]
  simp only [Option.bind_eq_bind, Option.bind_some, followSets?_eq_some wellFormed]
  rfl

end

end Grammar

end CanonicalLR
