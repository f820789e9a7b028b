import CanonicalLR.Proofs.Automaton.Validity

/-!
# Productive grammars

Where every nonterminal derives a word, whatever is read along a path can be
completed to a word: each valid item was opened inside a sentential form.
-/

namespace CanonicalLR

namespace Grammar

variable {g : Grammar}

/-- Every nonterminal derives at least one word. -/
def Productive (g : Grammar) : Prop :=
  ∀ n, n < g.nonterminals.size → ∃ word, g.Derives [.nonterminal n] (spelled word)

theorem Productive.exists_derives (productive : g.Productive) {symbols : List Symbol}
    (declared : ∀ symbol ∈ symbols, symbol.Declared g.terminals.size g.nonterminals.size) :
    ∃ word, g.Derives symbols (spelled word) := by
  induction symbols with
  | nil => exact ⟨[], derives_refl []⟩
  | cons symbol rest ih =>
    obtain ⟨headDeclared, restDeclared⟩ := List.forall_mem_cons.mp declared
    obtain ⟨later, restDerived⟩ := ih restDeclared
    cases symbol with
    | terminal t => exact ⟨t :: later, Derives.append (derives_refl [.terminal t]) restDerived⟩
    | nonterminal n =>
      obtain ⟨first, headDerived⟩ := productive n headDeclared.2
      refine ⟨first ++ later, ?_⟩
      rw [spelled_append]
      exact headDerived.append restDerived

section

variable (wellFormed : g.WellFormed) (productive : g.Productive)
include wellFormed productive

theorem Productive.exists_derives_drop {p : Nat} {production : Production}
    (found : g.production? p = some production) (count : Nat) :
    ∃ word, g.Derives (production.right.drop count) (spelled word) :=
  productive.exists_derives fun _ member =>
    wellFormed.declared_of_mem found (List.mem_of_mem_drop member)

theorem Begins.exists_word {symbols : List Symbol} {t : Nat} (begins : g.Begins symbols t)
    (declared : ∀ symbol ∈ symbols, symbol.Declared g.terminals.size g.nonterminals.size) :
    ∃ word, g.Derives symbols (spelled (t :: word)) := by
  induction begins with
  | terminal t rest =>
    obtain ⟨word, derived⟩ := productive.exists_derives (List.forall_mem_cons.mp declared).2
    exact ⟨word, Derives.append (derives_refl [.terminal t]) derived⟩
  | skip vanishing _ ih =>
    obtain ⟨word, derived⟩ := ih (List.forall_mem_cons.mp declared).2
    exact ⟨word, (erases_iff_derives.mp vanishing).append derived⟩
  | enter found _ rest ih =>
    obtain ⟨inner, below⟩ := ih fun _ => wellFormed.declared_of_mem found
    obtain ⟨outer, derived⟩ := productive.exists_derives (List.forall_mem_cons.mp declared).2
    refine ⟨inner ++ outer, ?_⟩
    rw [← List.cons_append, spelled_append]
    exact ((derives_right found).trans below).append derived

/-- Each terminal that may come next does so in front of some word. -/
theorem Productive.exists_word {symbols : List Symbol} {lookahead t : Nat}
    (declared : ∀ symbol ∈ symbols, symbol.Declared g.terminals.size g.nonterminals.size)
    (ahead : t ∈ g.firstSets.firstBefore symbols lookahead) :
    ∃ word, g.Derives symbols (spelled word) ∧ word.headD lookahead = t := by
  rcases (mem_firstBefore_iff wellFormed).mp ahead with begins | ⟨erased, rfl⟩
  · obtain ⟨word, derived⟩ := begins.exists_word wellFormed productive declared
    exact ⟨t :: word, derived, rfl⟩
  · exact ⟨[], erases_iff_derives.mp erased, rfl⟩

/-- An opened production stands in a string that the start symbol derives. -/
theorem Opens.exists_derives {before : List Symbol} {p t : Nat} {production : Production}
    (opens : g.Opens before p t) (found : g.production? p = some production) :
    ∃ word, g.Derives [.nonterminal g.start] (before ++ production.right ++ spelled word) := by
  induction opens generalizing production with
  | start =>
    rw [wellFormed.augmented] at found
    obtain rfl := Option.some.inj found
    exact ⟨[], derives_refl _⟩
  | @predict before p t dot outer other _ outerFound predicts ih =>
    obtain ⟨word, derived⟩ := ih outerFound
    obtain ⟨sameFound, next, -⟩ := predicts
    obtain rfl := Option.some.inj (sameFound.symm.trans found)
    obtain ⟨later, restDerived⟩ :=
      productive.exists_derives_drop wellFormed outerFound (dot + 1)
    refine ⟨later ++ word, ?_⟩
    have split := Item.right_eq_of_next? outerFound next
    have rest : Item.rest g ⟨p, dot, t⟩ = outer.right.drop (dot + 1) := by
      simp [Item.rest, outerFound]
    have gathered := (derives_right found).append (restDerived.append (derives_refl (spelled word)))
    have inside := gathered.inContext (before ++ outer.right.take dot) []
    rw [split, rest] at derived
    apply derived.trans
    simpa [List.append_assoc] using inside

/-- What has been read at a valid item can be completed to a word. -/
theorem Valid.exists_generates {read : List Symbol} {item : Item} (valid : g.Valid read item)
    {shifted : List Nat} (spells : g.Derives read (spelled shifted)) :
    ∃ more, g.Generates (shifted ++ more) := by
  obtain ⟨before, production, opens, found, -, rfl⟩ := valid
  obtain ⟨word, derived⟩ := opens.exists_derives wellFormed productive found
  obtain ⟨later, restDerived⟩ := productive.exists_derives_drop wellFormed found item.dot
  refine ⟨later ++ word, derived.trans ?_⟩
  have whole := spells.append (restDerived.append (derives_refl (spelled word)))
  rw [List.append_assoc before, ← List.append_assoc (production.right.take item.dot),
    List.take_append_drop] at whole
  simpa [List.append_assoc] using whole

end

end Grammar

namespace Automaton

/-- Some item is valid at the end of every path. -/
theorem Path.exists_valid {g : Grammar} {a : Automaton} {stack : List (Nat × Symbol)}
    (path : a.Path stack) (wellFormed : g.WellFormed) (canonical : a.Canonical g) :
    ∃ item, g.Valid (readSymbols stack) item := by
  cases path with
  | nil => exact ⟨.start, Grammar.Opens.start.valid wellFormed⟩
  | cons step below =>
    obtain ⟨lower, lowerFound, meaning⟩ := below.mem_items_iff wellFormed canonical
    obtain ⟨source, -, sourceFound, -, ⟨item, member, next⟩, -⟩ := canonical.linked step
    obtain rfl := Option.some.inj (sourceFound.symm.trans lowerFound)
    exact ⟨_, ((meaning item).mp member).push next _⟩

end Automaton

end CanonicalLR
