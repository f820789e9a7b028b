import CanonicalLR.Proofs.Grammar.Forest
import CanonicalLR.Proofs.Grammar.WellFormed

/-!
# Sentential forms

A rightmost derivation expands the last nonterminal of each string it arrives
at. What stands before that nonterminal and in its right-hand side is all that
may be read before the production is reduced again.
-/

namespace CanonicalLR

namespace Grammar

/-- Rightmost steps lead from the augmented start symbol to a string. -/
def Sentential (g : Grammar) (form : List Symbol) : Prop :=
  ∃ productions, g.DerivesRightmost productions [.nonterminal augmentedStart] form

/-- A rightmost derivation arrives at a nonterminal between a string and a word, and a production
expands it. -/
structure Expands (g : Grammar) (before : List Symbol) (p : Nat) (production : Production)
    (after : List Nat) : Prop where
  found : g.production? p = some production
  arrived : g.Sentential (before ++ .nonterminal production.left :: spelled after)

/-- The string does not reach beyond the right-hand side that a rightmost derivation has put in
last. -/
def ViablePrefix (g : Grammar) (read : List Symbol) : Prop :=
  ∃ before p production after, g.Expands before p production after ∧
    read <+: before ++ production.right

/-- A rightmost derivation arrives at `read ++ spelled (beyond ++ after)`, and the right-hand side
that its last step has put in ends behind `beyond`. -/
def HandleEnds (g : Grammar) (read : List Symbol) (beyond after : List Nat) (p : Nat) : Prop :=
  ∃ before production, g.Expands before p production after ∧
    before ++ production.right = read ++ spelled beyond

variable {g : Grammar} {form : List Symbol}

theorem sentential_start (g : Grammar) : g.Sentential [.nonterminal augmentedStart] :=
  ⟨[], .refl _⟩

theorem Sentential.derives {productions : List Nat} {later : List Symbol}
    (sentential : g.Sentential form) (derived : g.DerivesRightmost productions form later) :
    g.Sentential later := by
  obtain ⟨earlier, arrived⟩ := sentential
  exact ⟨earlier ++ productions, arrived.trans derived⟩

/-- Behind a string that stays as it is, the rest of a sentential form derives its words. -/
theorem Sentential.spell {front rest : List Symbol} {word after : List Nat}
    (sentential : g.Sentential (front ++ rest ++ spelled after))
    (derived : g.Derives rest (spelled word)) :
    g.Sentential (front ++ spelled word ++ spelled after) := by
  obtain ⟨trees, forest, rfl⟩ := exists_forest_of_derives derived
  exact sentential.derives (forest.derivesRightmost.inContext front after)

/-- All sentential forms have what the augmented start symbol has and every rightmost step keeps. -/
theorem Sentential.induction (holds : List Symbol → Prop)
    (start : holds [.nonterminal augmentedStart])
    (step : ∀ {p : Nat} {first second : List Symbol}, g.RewritesLast p first second →
      holds first → holds second) (sentential : g.Sentential form) : holds form := by
  obtain ⟨productions, derived⟩ := sentential
  generalize [Symbol.nonterminal augmentedStart] = first at start derived
  induction derived with
  | refl => exact start
  | head rewritten _ ih => exact ih (step rewritten start)

theorem Expands.sentential {before : List Symbol} {p : Nat} {production : Production}
    {after : List Nat} (expands : g.Expands before p production after) :
    g.Sentential (before ++ production.right ++ spelled after) :=
  expands.arrived.derives (.head (.replace expands.found before after) (.refl _))

theorem HandleEnds.sentential {read : List Symbol} {beyond after : List Nat} {p : Nat}
    (ends : g.HandleEnds read beyond after p) :
    g.Sentential (read ++ spelled (beyond ++ after)) := by
  obtain ⟨before, production, expands, split⟩ := ends
  rw [spelled_append, ← List.append_assoc, ← split]
  exact expands.sentential

/-- The end marker is in no sentential form. -/
theorem Sentential.ne_endMarker (wellFormed : g.WellFormed) (sentential : g.Sentential form)
    {t : Nat} (member : .terminal t ∈ form) : t ≠ endMarker := by
  have all : ∀ t, .terminal t ∈ form → t ≠ endMarker := by
    refine sentential.induction (fun form => ∀ t, .terminal t ∈ form → t ≠ endMarker) (by simp) ?_
    rintro p _ _ ⟨found, before, after⟩ unmarked t member
    rcases List.mem_append.mp member with early | late
    · rcases List.mem_append.mp early with front | inside
      · exact unmarked t (List.mem_append_left _ front)
      · have declared := wellFormed.declared_of_mem found inside
        exact Nat.ne_of_gt declared.1
    · exact unmarked t (List.mem_append_right _ (List.mem_cons_of_mem _ late))
  exact all t member

/-- What is left of a right-hand side behind its first symbols ends some handle: its own, or one
inside what it derives. -/
theorem Expands.exists_handleEnds {before : List Symbol} {p : Nat} {production : Production}
    {after : List Nat} (expands : g.Expands before p production after) {front rest : List Symbol}
    (split : production.right = front ++ rest) {word : List Nat}
    (derived : g.Derives rest (spelled word)) :
    ∃ beyond more q, g.HandleEnds (before ++ front) beyond more q := by
  obtain ⟨trees, forest, rfl⟩ := exists_forest_of_derives derived
  have form := expands.sentential
  rw [split, ← List.append_assoc] at form
  rcases forest.derivesRightmost.eq_or_exists_last with rfl | ⟨earlier, q, middle, inside, step⟩
  · refine ⟨ParseTree.frontiers trees, after, p, before, production, expands, ?_⟩
    rw [split, List.append_assoc]
  · generalize last : spelled (ParseTree.frontiers trees) = whole at step
    obtain ⟨found, inner, outer⟩ := step
    obtain ⟨left, -, spelledOut, -⟩ := exists_spelled_of_append last.symm
    refine ⟨left, outer ++ after, q, before ++ front ++ inner, _, ⟨found, ?_⟩, ?_⟩
    · simpa [List.append_assoc] using form.derives (inside.inContext (before ++ front) after)
    · rw [← spelledOut, List.append_assoc]

end Grammar

end CanonicalLR
