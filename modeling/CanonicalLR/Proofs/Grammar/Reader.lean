import CanonicalLR.Grammar.Rules

/-!
# Reading rules with maps of names

The rules are walked through twice. The first walk declares what begins a rule,
the second everything else and the productions, and each keeps a map of its own
from names to ids. Together the maps say what the definition has under each name,
so that the walks may as well look names up there.
-/

namespace CanonicalLR

/-! ## Programs that may fail -/

/-- Two programs fail for the same cause, or come to related values. -/
def Agree {ε α β : Type} (related : α → β → Prop) : Except ε α → Except ε β → Prop
  | .ok first, .ok second => related first second
  | .error cause, .error other => cause = other
  | _, _ => False

namespace Agree

variable {ε α β γ δ ι : Type} {related : α → β → Prop} {later : γ → δ → Prop}

theorem refl (program : Except ε α) : Agree (· = ·) program program := by
  cases program <;> rfl

theorem eq {first second : Except ε α} (agree : Agree (· = ·) first second) : first = second := by
  cases first <;> cases second <;> first | exact congrArg _ agree | cases agree

theorem bind {first : Except ε α} {second : Except ε β} {next : α → Except ε γ}
    {other : β → Except ε δ} (agree : Agree related first second)
    (rest : ∀ left right, related left right → Agree later (next left) (other right)) :
    Agree later (first >>= next) (second >>= other) := by
  cases first <;> cases second
  · exact agree
  · exact agree.elim
  · exact agree.elim
  · exact rest _ _ agree

theorem foldlM {step : α → ι → Except ε α} {other : β → ι → Except ε β}
    (steps : ∀ left right value, related left right →
      Agree related (step left value) (other right value))
    {left : α} {right : β} (start : related left right) (values : List ι) :
    Agree related (values.foldlM step left) (values.foldlM other right) := by
  induction values generalizing left right with
  | nil => exact start
  | cons value rest ih => exact (steps left right value start).bind fun _ _ next => ih next

end Agree

/-! ## The two walks with their maps -/

/-- Ids under their names. -/
abbrev Ids := Std.TreeMap String Nat

namespace Walk

/-- Declare the left-hand side of a rule unless it has an id. -/
def left (s : Definition × Ids) (rule : Rule) : Except GrammarError (Definition × Ids) :=
  if s.2.contains rule.left then .ok s
  else do
    let (d, n) ← s.1.call (.nonterminal rule.left)
    return (d, s.2.insert rule.left n)

/-- The symbol of a name; it is a nonterminal if the first walk gave it an id. -/
def symbol (nonterminals terminals : Ids) (d : Definition) (name : String) :
    Except GrammarError (Definition × Ids × Symbol) :=
  match nonterminals[name]? with
  | some n => .ok (d, terminals, .nonterminal n)
  | none =>
    match terminals[name]? with
    | some t => .ok (d, terminals, .terminal t)
    | none => do
      let (d, t) ← d.call (.terminal name)
      return (d, terminals.insert name t, .terminal t)

def symbols (nonterminals : Ids) (s : Definition × Ids) (names : List String) :
    Except GrammarError (Definition × Ids × Array Symbol) :=
  names.foldlM
    (fun (d, terminals, right) name => do
      let (d, terminals, symbol) ← symbol nonterminals terminals d name
      return (d, terminals, right.push symbol))
    (s.1, s.2, #[])

def rule (nonterminals : Ids) (s : Definition × Ids) (rule : Rule) :
    Except GrammarError (Definition × Ids) := do
  let (d, terminals, right) ← symbols nonterminals s rule.right
  match nonterminals[rule.left]? with
  | some left => do
    let (d, _) ← d.call (.production left right.toList)
    return (d, terminals)
  | none => .error .foreignSymbol

def start (nonterminals : Ids) (d : Definition) (name : Option String) :
    Except GrammarError Definition :=
  match name.bind fun name => nonterminals[name]? with
  | some n => Prod.fst <$> d.call (.start n)
  | none => .ok d

def rules (rules : List Rule) (name : Option String) : Except GrammarError Definition := do
  let (d, nonterminals) ← rules.foldlM left ({}, ∅)
  let (d, _) ← rules.foldlM (rule nonterminals) (d, ∅)
  start nonterminals d name

/-- The maps have what the definition has under each name. -/
def Covers (nonterminals terminals : Ids) (d : Definition) : Prop :=
  ∀ name : String, d.symbols[name]? =
    (nonterminals[name]?.map Symbol.nonterminal).or (terminals[name]?.map Symbol.terminal)

namespace Covers

variable {nonterminals terminals : Ids} {d : Definition}

theorem empty : Covers ∅ ∅ {} := by
  intro name
  rfl

theorem nonterminal (covers : Covers nonterminals terminals d) (name : String) :
    Covers (nonterminals.insert name (d.record (.nonterminal name)).2) terminals
      (d.record (.nonterminal name)).1 := by
  intro other
  rw [Definition.record, Std.TreeMap.getElem?_insert, Std.TreeMap.getElem?_insert, covers]
  split <;> rfl

theorem terminal (covers : Covers nonterminals terminals d) {name : String}
    (new : nonterminals[name]? = none) :
    Covers nonterminals (terminals.insert name (d.record (.terminal name)).2)
      (d.record (.terminal name)).1 := by
  intro other
  rw [Definition.record, Std.TreeMap.getElem?_insert, Std.TreeMap.getElem?_insert, covers]
  by_cases same : name = other
  · subst same
    simp [new]
  · simp [same]

end Covers

theorem agree_call (d : Definition) (call : Call) :
    Agree (fun first second => first = second ∧ d.record call = first)
      (d.call call) (d.call call) := by
  unfold Definition.call
  cases d.check call with
  | error cause => rfl
  | ok _ => exact ⟨rfl, rfl⟩

theorem agree_left {s : Definition × Ids} {d : Definition} (rule : Rule)
    (same : s.1 = d ∧ Covers s.2 ∅ d) :
    Agree (fun s d => s.1 = d ∧ Covers s.2 ∅ d) (left s rule) (d.declareLeft rule) := by
  obtain ⟨d, nonterminals⟩ := s
  obtain ⟨rfl, covers⟩ : d = _ ∧ Covers nonterminals ∅ _ := same
  have known : d.symbols.contains rule.left = nonterminals.contains rule.left := by
    rw [← Std.TreeMap.isSome_getElem?_eq_contains, ← Std.TreeMap.isSome_getElem?_eq_contains,
      covers]
    simp
  unfold left Definition.declareLeft
  dsimp only
  rw [known]
  split
  · exact ⟨rfl, covers⟩
  · rw [map_eq_pure_bind]
    refine (agree_call d (.nonterminal rule.left)).bind ?_
    rintro _ _ ⟨rfl, rfl⟩
    exact ⟨rfl, covers.nonterminal rule.left⟩

theorem agree_symbol {nonterminals terminals : Ids} {d : Definition}
    (covers : Covers nonterminals terminals d) (name : String) :
    Agree (fun first second => first.1 = second.1 ∧ first.2.2 = second.2 ∧
        Covers nonterminals first.2.1 first.1)
      (symbol nonterminals terminals d name) (d.resolve name) := by
  unfold symbol Definition.resolve
  rw [covers]
  cases first : nonterminals[name]? with
  | some n => exact ⟨rfl, rfl, covers⟩
  | none =>
    cases second : terminals[name]? with
    | some t => exact ⟨rfl, rfl, covers⟩
    | none =>
      refine (agree_call d (.terminal name)).bind ?_
      rintro _ _ ⟨rfl, rfl⟩
      exact ⟨rfl, rfl, covers.terminal first⟩

theorem agree_symbols {nonterminals : Ids} {s : Definition × Ids}
    (covers : Covers nonterminals s.2 s.1) (names : List String) :
    Agree (fun first second => first.1 = second.1 ∧ first.2.2 = second.2 ∧
        Covers nonterminals first.2.1 first.1)
      (symbols nonterminals s names) (s.1.resolveAll names) := by
  refine Agree.foldlM ?_ ⟨rfl, rfl, covers⟩ names
  rintro ⟨d, terminals, right⟩ ⟨_, _⟩ name ⟨rfl, rfl, covers⟩
  refine (agree_symbol covers name).bind ?_
  rintro ⟨later, terminals, symbol⟩ ⟨_, _⟩ ⟨rfl, rfl, covers⟩
  exact ⟨rfl, rfl, covers⟩

theorem agree_rule {nonterminals : Ids} {s : Definition × Ids} {d : Definition} (rule : Rule)
    (same : s.1 = d ∧ Covers nonterminals s.2 d) :
    Agree (fun s d => s.1 = d ∧ Covers nonterminals s.2 d) (Walk.rule nonterminals s rule)
      (d.declareRule rule) := by
  obtain ⟨rfl, covers⟩ := same
  refine (agree_symbols covers rule.right).bind ?_
  rintro ⟨later, terminals, right⟩ ⟨_, _⟩ ⟨rfl, rfl, covers⟩
  dsimp only at covers ⊢
  rw [covers]
  cases first : nonterminals[rule.left]? with
  | some left =>
    dsimp only [Option.map_some, Option.some_or]
    rw [map_eq_pure_bind]
    refine (agree_call later (.production left right.toList)).bind ?_
    rintro _ _ ⟨rfl, rfl⟩
    exact ⟨rfl, covers⟩
  | none => cases second : terminals[rule.left]? <;> exact rfl

theorem start_eq {nonterminals terminals : Ids} {d : Definition}
    (covers : Covers nonterminals terminals d) (name : Option String) :
    start nonterminals d name = d.startRule name := by
  cases name with
  | none => rfl
  | some name =>
    unfold start Definition.startRule
    dsimp only [Option.bind_some]
    rw [covers]
    cases first : nonterminals[name]? with
    | some n => rfl
    | none => cases second : terminals[name]? <;> rfl

/-- The walks with maps of their own make the definition of the rules. -/
theorem rules_eq (rules : List Rule) (name : Option String) :
    Walk.rules rules name = Definition.ofRules rules name := by
  refine Agree.eq ?_
  unfold Walk.rules Definition.ofRules
  refine (Agree.foldlM (fun _ _ rule same => agree_left rule same) ⟨rfl, .empty⟩ rules).bind ?_
  rintro ⟨d, nonterminals⟩ _ ⟨rfl, covers⟩
  refine (Agree.foldlM (fun _ _ rule same => agree_rule rule same) ⟨rfl, covers⟩ rules).bind ?_
  rintro ⟨later, terminals⟩ _ ⟨rfl, covers⟩
  dsimp only
  rw [start_eq covers]
  exact .refl _

end Walk

end CanonicalLR
