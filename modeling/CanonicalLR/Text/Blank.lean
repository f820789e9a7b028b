/-!
# Blanks and words

White space is the White_Space property of Unicode. A text is split at blanks
into its words, which are not empty and hold no blank.
-/

namespace CanonicalLR.Text

def isBlank (c : Char) : Bool :=
  (0x09 ≤ c.toNat && c.toNat ≤ 0x0d) || c.toNat == 0x20 || c.toNat == 0x85 ||
    c.toNat == 0xa0 || c.toNat == 0x1680 || (0x2000 ≤ c.toNat && c.toNat ≤ 0x200a) ||
    c.toNat == 0x2028 || c.toNat == 0x2029 || c.toNat == 0x202f || c.toNat == 0x205f ||
    c.toNat == 0x3000

theorem isBlank_of_isWhitespace {c : Char} (white : c.isWhitespace = true) :
    isBlank c = true := by
  simp only [Char.isWhitespace, Bool.or_eq_true, decide_eq_true_eq] at white
  rcases white with ((rfl | rfl) | rfl) | rfl <;> rfl

/-- Put a word before others, unless it is empty. -/
def prepend (word : List Char) (words : List (List Char)) : List (List Char) :=
  if word.isEmpty then words else word :: words

/-- Extend a split text, given as its first word and the others, by a character in front. -/
def extend (c : Char) (split : List Char × List (List Char)) : List Char × List (List Char) :=
  if isBlank c then ([], prepend split.1 split.2) else (c :: split.1, split.2)

def splitBlanks (text : List Char) : List (List Char) :=
  let split := text.foldr extend ([], [])
  prepend split.1 split.2

def words (text : String) : List String :=
  (splitBlanks text.toList).map String.ofList

theorem splitBlanks_blank {c : Char} (rest : List Char) (blank : isBlank c = true) :
    splitBlanks (c :: rest) = splitBlanks rest := by
  simp [splitBlanks, extend, blank, prepend]

theorem foldr_extend_free (text : List Char) :
    (∀ c ∈ (text.foldr extend ([], [])).1, isBlank c = false) ∧
      ∀ word ∈ (text.foldr extend ([], [])).2, word ≠ [] ∧ ∀ c ∈ word, isBlank c = false := by
  induction text with
  | nil => simp
  | cons c rest ih =>
    rw [List.foldr_cons]
    unfold extend
    by_cases blank : isBlank c = true
    · simp only [blank, if_true]
      refine ⟨by simp, ?_⟩
      unfold prepend
      split
      · exact ih.2
      · rename_i nonempty
        intro word member
        rcases List.mem_cons.mp member with same | later
        · subst same
          exact ⟨by simpa using nonempty, ih.1⟩
        · exact ih.2 word later
    · simp only [blank]
      refine ⟨?_, ih.2⟩
      intro other member
      rcases List.mem_cons.mp member with same | later
      · subst same
        exact Bool.eq_false_iff.mpr blank
      · exact ih.1 other later

/-- Words are not empty and hold no blank. -/
theorem splitBlanks_free {text word : List Char} (member : word ∈ splitBlanks text) :
    word ≠ [] ∧ ∀ c ∈ word, isBlank c = false := by
  have free := foldr_extend_free text
  unfold splitBlanks prepend at member
  dsimp only at member
  split at member
  · exact free.2 word member
  · rename_i nonempty
    rcases List.mem_cons.mp member with same | later
    · subst same
      exact ⟨by simpa using nonempty, free.1⟩
    · exact free.2 word later

end CanonicalLR.Text
