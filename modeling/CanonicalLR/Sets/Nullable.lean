import CanonicalLR.Flow
import CanonicalLR.Grammar.Basic

/-!
# Nullable nonterminals

The nonterminals that derive the empty string. A pass over the productions adds
every left-hand side whose right-hand side is known to vanish.
-/

namespace CanonicalLR

namespace Symbol

def isNullable (nullable : IdSet) : Symbol → Bool
  | .terminal _ => false
  | .nonterminal n => n ∈ nullable

end Symbol

/-- Whether every symbol of a string vanishes. -/
def vanishes (nullable : IdSet) (symbols : List Symbol) : Bool :=
  symbols.all (Symbol.isNullable nullable)

theorem vanishes_cons (nullable : IdSet) (symbol : Symbol) (rest : List Symbol) :
    vanishes nullable (symbol :: rest) =
      (symbol.isNullable nullable && vanishes nullable rest) := rfl

/-- The symbols that a string derived from `symbols` may begin with. -/
def leading (nullable : IdSet) : List Symbol → List Symbol
  | [] => []
  | symbol :: rest =>
      if symbol.isNullable nullable then symbol :: leading nullable rest else [symbol]

theorem mem_leading_iff {nullable : IdSet} {symbols : List Symbol} {symbol : Symbol} :
    symbol ∈ leading nullable symbols ↔
      ∃ before after, symbols = before ++ symbol :: after ∧
        vanishes nullable before = true := by
  induction symbols with
  | nil => simp [leading]
  | cons head tail ih =>
    constructor
    · intro member
      unfold leading at member
      split at member
      · rename_i empty
        rcases List.mem_cons.mp member with same | later
        · exact ⟨[], tail, by simp [same], rfl⟩
        · obtain ⟨before, after, split, vanish⟩ := ih.mp later
          exact ⟨head :: before, after, by simp [split], by simp [vanishes_cons, empty, vanish]⟩
      · exact ⟨[], tail, by simp [List.mem_singleton.mp member], rfl⟩
    · rintro ⟨before, after, split, vanish⟩
      unfold leading
      cases before with
      | nil =>
        obtain ⟨rfl, rfl⟩ := List.cons.inj split
        split <;> exact List.mem_cons_self
      | cons first rest =>
        obtain ⟨rfl, rfl⟩ := List.cons.inj split
        rw [vanishes_cons, Bool.and_eq_true] at vanish
        rw [if_pos vanish.1]
        exact List.mem_cons_of_mem _ (ih.mpr ⟨rest, after, rfl, vanish.2⟩)

namespace Grammar

def nullablePass (g : Grammar) (nullable : IdSet) : IdSet :=
  g.productions.toList.foldl
    (fun known production =>
      if production.left ∉ known ∧ vanishes known production.right then
        known.insert production.left
      else known)
    nullable

def nullable (g : Grammar) : IdSet :=
  stabilize g.nullablePass (g.nonterminals.size + 1) ∅

end Grammar

end CanonicalLR
