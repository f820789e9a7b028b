import CanonicalLR.Text.Blank

/-!
# Words are the runs between blanks

A text splits into its words in one way only: each is a run without white space
that cannot be made longer, and no other run is left out.
-/

namespace CanonicalLR.Text

/-- The code points with the White_Space property of Unicode. -/
def whiteSpace : List Nat :=
  [0x0009, 0x000a, 0x000b, 0x000c, 0x000d, 0x0020, 0x0085, 0x00a0, 0x1680,
    0x2000, 0x2001, 0x2002, 0x2003, 0x2004, 0x2005, 0x2006, 0x2007, 0x2008, 0x2009, 0x200a,
    0x2028, 0x2029, 0x202f, 0x205f, 0x3000]

theorem isBlank_iff {c : Char} : isBlank c = true ↔ c.toNat ∈ whiteSpace := by
  simp only [isBlank, whiteSpace, Bool.or_eq_true, Bool.and_eq_true, decide_eq_true_eq,
    beq_iff_eq, List.mem_cons, List.not_mem_nil, or_false]
  omega

theorem isBlank_eq_false_iff {c : Char} : isBlank c = false ↔ c.toNat ∉ whiteSpace := by
  rw [← isBlank_iff, Bool.not_eq_true]

/-- A text and the words that it splits into, with white space before, between and behind them. -/
inductive Splits : List Char → List (List Char) → Prop where
  | blanks {gap : List Char} (blank : ∀ c ∈ gap, c.toNat ∈ whiteSpace) : Splits gap []
  | word {gap word rest : List Char} {words : List (List Char)}
      (blank : ∀ c ∈ gap, c.toNat ∈ whiteSpace) (nonempty : word ≠ [])
      (free : ∀ c ∈ word, c.toNat ∉ whiteSpace) (ends : ∀ c ∈ rest.head?, c.toNat ∈ whiteSpace)
      (later : Splits rest words) : Splits (gap ++ word ++ rest) (word :: words)

theorem exists_splits (text : List Char) : ∃ words, Splits text words := by
  induction text with
  | nil => exact ⟨[], .blanks nofun⟩
  | cons c rest ih =>
    obtain ⟨words, later⟩ := ih
    by_cases white : c.toNat ∈ whiteSpace
    · -- The blank joins the white space in front.
      cases later with
      | blanks blank => exact ⟨[], .blanks (List.forall_mem_cons.mpr ⟨white, blank⟩)⟩
      | @word gap _ _ _ blank nonempty free ends later =>
        have wider : ∀ d ∈ c :: gap, d.toNat ∈ whiteSpace :=
          List.forall_mem_cons.mpr ⟨white, blank⟩
        exact ⟨_, .word wider nonempty free ends later⟩
    · have alone : ∀ d ∈ [c], d.toNat ∉ whiteSpace := List.forall_mem_singleton.mpr white
      have begins {rest : List Char} {words : List (List Char)} (later : Splits rest words)
          (ends : ∀ d ∈ rest.head?, d.toNat ∈ whiteSpace) :
          ∃ words, Splits (c :: rest) words :=
        ⟨_, @Splits.word [] _ _ _ nofun (List.cons_ne_nil c []) alone ends later⟩
      cases later with
      | blanks blank =>
        exact begins (.blanks blank) fun d first => blank d (List.mem_of_mem_head? first)
      | @word gap word _ _ blank nonempty free ends later =>
        cases gap with
        | nil =>
          have longer : ∀ d ∈ c :: word, d.toNat ∉ whiteSpace :=
            List.forall_mem_cons.mpr ⟨white, free⟩
          exact ⟨_, @Splits.word [] _ _ _ nofun (List.cons_ne_nil c word) longer ends later⟩
        | cons d gap =>
          refine begins (.word blank nonempty free ends later) ?_
          rintro e ⟨⟩
          exact blank d List.mem_cons_self

theorem splitBlanks_gap {gap : List Char} (blank : ∀ c ∈ gap, c.toNat ∈ whiteSpace)
    (rest : List Char) : splitBlanks (gap ++ rest) = splitBlanks rest := by
  induction gap with
  | nil => rfl
  | cons c gap ih =>
    obtain ⟨here, later⟩ := List.forall_mem_cons.mp blank
    rw [List.cons_append, splitBlanks_blank _ (isBlank_iff.mpr here), ih later]

/-- A word is cut off where white space follows, or nothing. -/
theorem splitBlanks_word {word rest : List Char} (nonempty : word ≠ [])
    (free : ∀ c ∈ word, c.toNat ∉ whiteSpace) (ends : ∀ c ∈ rest.head?, c.toNat ∈ whiteSpace) :
    splitBlanks (word ++ rest) = word :: splitBlanks rest := by
  have closed : (rest.foldr extend ([], [])).1 = [] := by
    cases rest with
    | nil => rfl
    | cons c rest =>
      have blank := isBlank_iff.mpr (ends c rfl)
      simp [extend, blank]
  have rewritten : rest.foldr extend ([], []) = ([], splitBlanks rest) :=
    Prod.ext closed (by simp [splitBlanks, closed, prepend])
  have extended (words : List (List Char)) : word.foldr extend ([], words) = (word, words) := by
    clear nonempty
    induction word with
    | nil => rfl
    | cons c word ih =>
      obtain ⟨here, later⟩ := List.forall_mem_cons.mp free
      rw [List.foldr_cons, ih later, extend, isBlank_eq_false_iff.mpr here]
      rfl
  rw [splitBlanks, List.foldr_append, rewritten, extended]
  simp [prepend, nonempty]

theorem Splits.splitBlanks_eq {text : List Char} {words : List (List Char)}
    (splits : Splits text words) : splitBlanks text = words := by
  induction splits with
  | @blanks gap blank =>
    have none := splitBlanks_gap blank []
    rwa [List.append_nil] at none
  | @word gap word rest words blank nonempty free ends later ih =>
    rw [List.append_assoc, splitBlanks_gap blank, splitBlanks_word nonempty free ends, ih]

theorem splits_iff {text : List Char} {words : List (List Char)} :
    Splits text words ↔ splitBlanks text = words := by
  constructor
  · exact Splits.splitBlanks_eq
  · rintro rfl
    obtain ⟨words, splits⟩ := exists_splits text
    rwa [splits.splitBlanks_eq]

theorem words_eq_iff {text : String} {names : List String} :
    words text = names ↔ Splits text.toList (names.map String.toList) := by
  rw [splits_iff, words]
  constructor
  · rintro rfl
    simp
  · intro split
    simp [split]

end CanonicalLR.Text
