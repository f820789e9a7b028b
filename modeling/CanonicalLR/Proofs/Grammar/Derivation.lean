import CanonicalLR.Grammar.Basic
import Mathlib.Logic.Relation

/-!
# Derivations

A derivation step replaces one nonterminal of a symbol string by a right-hand
side. In a rightmost derivation it is the last nonterminal of the string, so
that the list of productions tells every step.
-/

namespace CanonicalLR

/-- A word as a symbol string. -/
def spelled (word : List Nat) : List Symbol :=
  word.map .terminal

@[simp] theorem spelled_nil : spelled [] = [] := rfl

@[simp] theorem spelled_cons (t : Nat) (word : List Nat) :
    spelled (t :: word) = .terminal t :: spelled word := rfl

@[simp] theorem spelled_append (first second : List Nat) :
    spelled (first ++ second) = spelled first ++ spelled second :=
  List.map_append

/-- Where a symbol string is a word, so are its parts. -/
theorem exists_spelled_of_append {first second : List Symbol} {word : List Nat}
    (split : first ++ second = spelled word) : ∃ left right, first = spelled left ∧
      second = spelled right ∧ word = left ++ right := by
  obtain ⟨left, right, same, front, back⟩ := List.map_eq_append_iff.mp split.symm
  exact ⟨left, right, front.symm, back.symm, same⟩

/-- A list split at an element splits the two lists that it is put together from. -/
theorem append_eq_append_cons {α : Type} {first second before after : List α} {value : α}
    (split : first ++ second = before ++ value :: after) :
    (∃ rest, first = before ++ value :: rest ∧ after = rest ++ second) ∨
      ∃ rest, before = first ++ rest ∧ second = rest ++ value :: after := by
  rcases List.append_eq_append_iff.mp split with ⟨rest, left, right⟩ | ⟨rest, left, right⟩
  · exact .inr ⟨rest, left, right⟩
  · cases rest with
    | nil => exact .inr ⟨[], by simpa using left.symm, right.symm⟩
    | cons head rest =>
      obtain ⟨rfl, rfl⟩ := List.cons.inj right
      exact .inl ⟨rest, left, rfl⟩

namespace Grammar

/-- One nonterminal of a symbol string is replaced. -/
inductive Rewrites (g : Grammar) : List Symbol → List Symbol → Prop where
  | replace {p : Nat} {production : Production} (found : g.production? p = some production)
      (before after : List Symbol) :
      g.Rewrites (before ++ .nonterminal production.left :: after)
        (before ++ production.right ++ after)

def Derives (g : Grammar) : List Symbol → List Symbol → Prop :=
  Relation.ReflTransGen g.Rewrites

/-- The words of the grammar's language. -/
def Generates (g : Grammar) (word : List Nat) : Prop :=
  g.Derives [.nonterminal g.start] (spelled word)

/-- The last nonterminal of a symbol string is replaced by a production. -/
inductive RewritesLast (g : Grammar) (p : Nat) : List Symbol → List Symbol → Prop where
  | replace {production : Production} (found : g.production? p = some production)
      (before : List Symbol) (after : List Nat) :
      g.RewritesLast p (before ++ .nonterminal production.left :: spelled after)
        (before ++ production.right ++ spelled after)

/-- Rightmost steps by the listed productions, the first one first. -/
inductive DerivesRightmost (g : Grammar) : List Nat → List Symbol → List Symbol → Prop where
  | refl (symbols : List Symbol) : g.DerivesRightmost [] symbols symbols
  | head {p : Nat} {rest : List Nat} {first second last : List Symbol}
      (step : g.RewritesLast p first second) (later : g.DerivesRightmost rest second last) :
      g.DerivesRightmost (p :: rest) first last

variable {g : Grammar}

theorem Derives.trans {first second third : List Symbol} (left : g.Derives first second)
    (right : g.Derives second third) : g.Derives first third :=
  Relation.ReflTransGen.trans left right

theorem derives_refl (symbols : List Symbol) : g.Derives symbols symbols :=
  Relation.ReflTransGen.refl

/-! ## Derivations in a context -/

theorem Rewrites.inContext {first second : List Symbol} (step : g.Rewrites first second)
    (before after : List Symbol) :
    g.Rewrites (before ++ first ++ after) (before ++ second ++ after) := by
  obtain ⟨found, inner, outer⟩ := step
  have wider := Rewrites.replace found (before ++ inner) (outer ++ after)
  simpa [List.append_assoc] using wider

theorem Derives.inContext {first second : List Symbol} (derived : g.Derives first second)
    (before after : List Symbol) :
    g.Derives (before ++ first ++ after) (before ++ second ++ after) := by
  induction derived with
  | refl => exact derives_refl _
  | tail _ step ih => exact ih.tail (step.inContext before after)

theorem Derives.append {first second third fourth : List Symbol} (left : g.Derives first second)
    (right : g.Derives third fourth) : g.Derives (first ++ third) (second ++ fourth) := by
  have leftFirst := left.inContext [] third
  have rightThen := right.inContext second []
  simp only [List.nil_append, List.append_nil] at leftFirst rightThen
  exact leftFirst.trans rightThen

theorem derives_right {p : Nat} {production : Production}
    (found : g.production? p = some production) :
    g.Derives [.nonterminal production.left] production.right := by
  have step := Rewrites.replace found [] []
  simp only [List.nil_append, List.append_nil] at step
  exact .single step

/-! ## Reachable nonterminals -/

/-- A nonterminal that occurs in a string derived from the start symbol. -/
def Reachable (g : Grammar) (n : Nat) : Prop :=
  ∃ before after, g.Derives [.nonterminal g.start] (before ++ .nonterminal n :: after)

theorem Reachable.of_production {p n : Nat} {production : Production}
    (reachable : g.Reachable production.left) (found : g.production? p = some production)
    (used : .nonterminal n ∈ production.right) : g.Reachable n := by
  obtain ⟨before, after, derived⟩ := reachable
  obtain ⟨front, back, split⟩ := List.append_of_mem used
  refine ⟨before ++ front, back ++ after, derived.tail ?_⟩
  have step := Rewrites.replace found before after
  rw [split] at step
  simpa [List.append_assoc] using step

/-- What the start symbol has, and what passes from left-hand sides to right-hand sides, is had by
all that can be reached. -/
@[elab_as_elim] theorem Reachable.induction {motive : Nat → Prop} (start : motive g.start)
    (inside : ∀ {p n : Nat} {production : Production}, g.production? p = some production →
      motive production.left → .nonterminal n ∈ production.right → motive n)
    {n : Nat} (reachable : g.Reachable n) : motive n := by
  obtain ⟨before, after, derived⟩ := reachable
  have all : ∀ form, g.Derives [.nonterminal g.start] form →
      ∀ m, .nonterminal m ∈ form → motive m := by
    intro form derived
    induction derived with
    | refl =>
      intro m member
      obtain rfl := Symbol.nonterminal.inj (List.mem_singleton.mp member)
      exact start
    | tail _ step ih =>
      obtain ⟨found, front, back⟩ := step
      have replaced := ih _ (List.mem_append_right front List.mem_cons_self)
      intro m member
      rcases List.mem_append.mp member with early | late
      · rcases List.mem_append.mp early with outside | used
        · exact ih m (List.mem_append_left _ outside)
        · exact inside found replaced used
      · exact ih m (List.mem_append_right _ (List.mem_cons_of_mem _ late))
  exact all _ derived n (by simp)

/-! ## Rightmost derivations -/

theorem RewritesLast.rewrites {p : Nat} {first second : List Symbol}
    (step : g.RewritesLast p first second) : g.Rewrites first second := by
  obtain ⟨found, before, after⟩ := step
  exact .replace found before (spelled after)

theorem RewritesLast.inContext {p : Nat} {first second : List Symbol}
    (step : g.RewritesLast p first second) (before : List Symbol) (after : List Nat) :
    g.RewritesLast p (before ++ first ++ spelled after) (before ++ second ++ spelled after) := by
  obtain ⟨found, inner, outer⟩ := step
  have wider := RewritesLast.replace found (before ++ inner) (outer ++ after)
  simpa [List.append_assoc] using wider

theorem DerivesRightmost.derives {productions : List Nat} {first last : List Symbol}
    (derived : g.DerivesRightmost productions first last) : g.Derives first last := by
  induction derived with
  | refl symbols => exact derives_refl symbols
  | head step _ ih => exact .head step.rewrites ih

theorem DerivesRightmost.trans {left right : List Nat} {first second third : List Symbol}
    (earlier : g.DerivesRightmost left first second)
    (later : g.DerivesRightmost right second third) :
    g.DerivesRightmost (left ++ right) first third := by
  induction earlier with
  | refl => exact later
  | head step _ ih => exact .head step (ih later)

theorem DerivesRightmost.tail {productions : List Nat} {p : Nat} {first second third : List Symbol}
    (earlier : g.DerivesRightmost productions first second)
    (step : g.RewritesLast p second third) :
    g.DerivesRightmost (productions ++ [p]) first third :=
  earlier.trans (.head step (.refl third))

theorem DerivesRightmost.inContext {productions : List Nat} {first last : List Symbol}
    (derived : g.DerivesRightmost productions first last) (before : List Symbol)
    (after : List Nat) :
    g.DerivesRightmost productions (before ++ first ++ spelled after)
      (before ++ last ++ spelled after) := by
  induction derived with
  | refl => exact .refl _
  | head step _ ih => exact .head (step.inContext before after) ih

/-- A rightmost derivation that changes a string has a last step. -/
theorem DerivesRightmost.eq_or_exists_last {productions : List Nat} {first last : List Symbol}
    (derived : g.DerivesRightmost productions first last) :
    first = last ∨ ∃ earlier p middle, g.DerivesRightmost earlier first middle ∧
      g.RewritesLast p middle last := by
  induction derived with
  | refl => exact .inl rfl
  | @head p rest first second last step later ih =>
    rcases ih with rfl | ⟨earlier, q, middle, before, lastStep⟩
    · exact .inr ⟨[], p, first, .refl first, step⟩
    · exact .inr ⟨p :: earlier, q, middle, .head step before, lastStep⟩

end Grammar

end CanonicalLR
