import CanonicalLR.Grammar.Rules
import CanonicalLR.Proofs.Text.Words
import Mathlib.Data.List.Forall2

/-!
# Rules and their names

A rule line is split into words, of which the first is the left-hand side and
those behind the leading arrows are the right-hand side. What begins a rule is a
nonterminal, every other name a terminal, and rules are refused only where they
use the end marker or do not fit.
-/

namespace CanonicalLR

namespace Rule

/-- A text that begins with the left-hand side, which arrows and the right-hand side follow. -/
def ReadFrom (text : String) (rule : Rule) : Prop :=
  rule.right.head? ≠ some arrow ∧ ∃ arrows,
    Text.Splits text.toList
      ((rule.left :: (List.replicate arrows arrow ++ rule.right)).map String.toList)

theorem dropWhile_arrows {arrows : Nat} {right : List String} (ends : right.head? ≠ some arrow) :
    (List.replicate arrows arrow ++ right).dropWhile (· == arrow) = right := by
  induction arrows with
  | zero =>
    cases right with
    | nil => rfl
    | cons name rest =>
      have other : name ≠ arrow := fun same => ends (congrArg some same)
      simp [other]
  | succ arrows ih => simpa [List.replicate_succ, List.dropWhile_cons] using ih

theorem parse?_eq_none_iff {text : String} : parse? text = none ↔ Text.Splits text.toList [] := by
  have none : Text.words text = [] ↔ Text.Splits text.toList [] := Text.words_eq_iff
  rw [← none, parse?]
  split <;> simp_all

theorem exists_arrows (words : List String) : ∃ arrows,
    words = List.replicate arrows arrow ++ words.dropWhile (· == arrow) := by
  have front : words.takeWhile (· == arrow) =
      List.replicate (words.takeWhile (· == arrow)).length arrow := by
    refine List.eq_replicate_of_mem fun word member => ?_
    simpa using List.all_eq_true.mp List.all_takeWhile word member
  refine ⟨(words.takeWhile (· == arrow)).length, ?_⟩
  rw [← front, List.takeWhile_append_dropWhile]

theorem parse?_eq_some_iff {text : String} {rule : Rule} :
    parse? text = some rule ↔ rule.ReadFrom text := by
  unfold parse? ReadFrom
  constructor
  · intro parsed
    split at parsed
    · cases parsed
    · rename_i left rest words
      obtain rfl := Option.some.inj parsed
      obtain ⟨arrows, front⟩ := exists_arrows rest
      refine ⟨?_, arrows, ?_⟩
      · intro first
        have head := List.head?_dropWhile_not (· == arrow) rest
        simp [first] at head
      · rw [← front]
        exact Text.words_eq_iff.mp words
  · rintro ⟨ends, arrows, splits⟩
    have words := Text.words_eq_iff.mpr splits
    rw [words]
    dsimp only
    rw [dropWhile_arrows ends]

/-- Either there is a first text without words, or every text is read as a rule. -/
theorem parseAll_cases (texts : List String) :
    (∃ before text after, texts = before ++ text :: after ∧
      (∀ earlier ∈ before, ∃ rule : Rule, rule.ReadFrom earlier) ∧
      Text.Splits text.toList [] ∧ parseAll texts = .error (.emptyRule text)) ∨
    ∃ rules, List.Forall₂ (fun text rule => ReadFrom text rule) texts rules ∧
      parseAll texts = .ok rules := by
  induction texts with
  | nil => exact .inr ⟨[], .nil, rfl⟩
  | cons text rest ih =>
    have split : parseAll (text :: rest) =
        ((parse? text).elim (.error (.emptyRule text)) .ok >>= fun rule =>
          (rule :: ·) <$> parseAll rest) := by
      rw [parseAll, List.mapM_cons]
      rfl
    rw [split]
    cases parsed : parse? text with
    | none =>
      exact .inl ⟨[], text, rest, rfl, nofun, parse?_eq_none_iff.mp parsed, rfl⟩
    | some rule =>
      have reads := parse?_eq_some_iff.mp parsed
      rcases ih with ⟨before, other, after, rfl, earlier, wordless, failed⟩ | ⟨rules, all, passed⟩
      · refine .inl ⟨text :: before, other, after, rfl, ?_, wordless, ?_⟩
        · exact List.forall_mem_cons.mpr ⟨⟨rule, reads⟩, earlier⟩
        · rw [failed]
          rfl
      · refine .inr ⟨rule :: rules, .cons reads all, ?_⟩
        rw [passed]
        rfl

/-- The names of a rule are words. -/
theorem ReadFrom.word {text : String} {rule : Rule} (reads : rule.ReadFrom text) {name : String}
    (member : name ∈ rule.left :: rule.right) :
    name ≠ "" ∧ ¬ name.toList.any Text.isBlank = true := by
  obtain ⟨-, arrows, splits⟩ := reads
  have listed : name.toList ∈ Text.splitBlanks text.toList := by
    rw [Text.splits_iff.mp splits]
    refine List.mem_map_of_mem ?_
    rcases List.mem_cons.mp member with rfl | later
    · exact List.mem_cons_self
    · exact List.mem_cons_of_mem _ (List.mem_append_right _ later)
  obtain ⟨nonempty, free⟩ := Text.splitBlanks_free listed
  refine ⟨fun empty => nonempty (by rw [empty]; rfl), ?_⟩
  simpa using free

/-! ## The names of rules -/

/-- What rules begin with, in order of the first rule of each. -/
def lefts (rules : List Rule) : List String :=
  (rules.map left).eraseDups

theorem mem_lefts {rules : List Rule} {name : String} :
    name ∈ lefts rules ↔ ∃ rule ∈ rules, rule.left = name := by
  rw [lefts, List.mem_eraseDups, List.mem_map]

/-- The words on right-hand sides. -/
def uses (rules : List Rule) : List String :=
  rules.flatMap right

/-- The words that begin no rule, in order of first use. -/
def others (rules : List Rule) (words : List String) : List String :=
  (words.filter (· ∉ lefts rules)).eraseDups

/-- Rules with an id for each name and each rule, and with no right-hand side beyond the limit. -/
structure Fit (rules : List Rule) : Prop where
  nonterminals : (lefts rules).length ≤ Definition.idLimit
  terminals : (others rules (uses rules)).length ≤ Definition.idLimit
  productions : rules.length ≤ Definition.idLimit
  lengths : ∀ rule ∈ rules, rule.right.length ≤ Definition.lengthLimit

/-- The causes for which rules are refused. -/
inductive Refused (rules : List Rule) : GrammarError → Prop where
  | marker {rule : Rule} (member : rule ∈ rules) (used : endMarkerName ∈ rule.left :: rule.right) :
      Refused rules (.reservedSymbol endMarkerName)
  | excess (beyond : ¬ Fit rules) : Refused rules .tooManySymbols

theorem mem_others {rules : List Rule} {words : List String} {name : String} :
    name ∈ others rules words ↔ name ∈ words ∧ ¬ ∃ rule ∈ rules, rule.left = name := by
  rw [others, List.mem_eraseDups, List.mem_filter, decide_eq_true_eq, mem_lefts]

theorem others_append (rules : List Rule) (words more : List String) :
    ∃ later, others rules (words ++ more) = others rules words ++ later := by
  rw [others, List.filter_append, List.eraseDups_append]
  exact ⟨_, rfl⟩

end Rule

end CanonicalLR
