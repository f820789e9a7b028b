import CanonicalLR.Proofs.Automaton.Numbering
import CanonicalLR.Proofs.Automaton.Productivity
import CanonicalLR.Proofs.Grammar.Sentential

/-!
# States and viable prefixes

Over a productive grammar a production is opened exactly where some rightmost
derivation expands it. So the automaton walks along the viable prefixes and no
other strings, and the items at the end of a walk are told by the derivations.
-/

namespace CanonicalLR

theorem headD_append {first second : List Nat} {last : Nat} :
    (first ++ second).headD last = first.headD (second.headD last) := by
  cases first <;> rfl

namespace Grammar

variable {g : Grammar}

/-! ## Expanded productions are opened -/

/-- Wherever a nonterminal stands in a string, its productions are opened for what may follow. -/
def Opened (g : Grammar) (form : List Symbol) : Prop :=
  ∀ before after p production t, form = before ++ .nonterminal production.left :: after →
    g.production? p = some production → t ∈ g.firstSets.firstBefore after endMarker →
      g.Opens before p t

section

variable (wellFormed : g.WellFormed)
include wellFormed

theorem opened_start : g.Opened [.nonterminal augmentedStart] := by
  intro before after p production t split found ahead
  obtain ⟨rfl, same, rfl⟩ : before = [] ∧ production.left = augmentedStart ∧ after = [] := by
    cases before with
    | nil =>
      obtain ⟨same, none⟩ := List.cons.inj split
      exact ⟨rfl, (Symbol.nonterminal.inj same).symm, none.symm⟩
    | cons head tail => simp at split
  have augmented : p = augmentedProduction := by
    by_contra user
    have declared := (wellFormed.declared found user).left
    exact absurd declared.1 (same ▸ Nat.lt_irrefl _)
  rcases (mem_firstBefore_iff wellFormed).mp ahead with begins | ⟨-, rfl⟩
  · cases begins
  · exact augmented ▸ .start

section

variable {before : List Symbol} {p : Nat} {production : Production} {after : List Nat}

theorem Opened.last (opened : g.Opened (before ++ .nonterminal production.left :: spelled after))
    (found : g.production? p = some production) : g.Opens before p (after.headD endMarker) := by
  apply opened before (spelled after) p production _ rfl found
  rw [← List.nil_append (spelled after), mem_firstBefore_append_spelled wellFormed]
  exact mem_firstBefore_nil wellFormed _

/-- A nonterminal inside a right-hand side that has been put in is predicted by its item. -/
theorem Opened.inside (opened : g.Opened (before ++ .nonterminal production.left :: spelled after))
    (found : g.production? p = some production) {inner rest : List Symbol} {q t : Nat}
    {below : Production} (belowFound : g.production? q = some below)
    (split : production.right = inner ++ .nonterminal below.left :: rest)
    (ahead : t ∈ g.firstSets.firstBefore (rest ++ spelled after) endMarker) :
    g.Opens (before ++ inner) q t := by
  rw [mem_firstBefore_append_spelled wellFormed] at ahead
  exact (opened.last wellFormed found).inside found split belowFound ahead

end

theorem Opened.rewrites {p : Nat} {first second : List Symbol}
    (step : g.RewritesLast p first second) (opened : g.Opened first) : g.Opened second := by
  obtain ⟨found, front, word⟩ := step
  intro before after q production t split belowFound ahead
  rcases append_eq_append_cons split with ⟨rest, early, rfl⟩ | ⟨inner, -, late⟩
  · rcases append_eq_append_cons early with ⟨middle, rfl, rfl⟩ | ⟨inner, rfl, right⟩
    · -- The nonterminal stands before the one expanded: what follows it has only been rewritten.
      have rewritten := Rewrites.replace found middle (spelled word)
      have earlier := mem_firstBefore_of_derives wellFormed (.single rewritten) ahead
      exact opened before _ q production t (List.append_assoc ..) belowFound earlier
    · exact opened.inside wellFormed found belowFound right ahead
  · have member : Symbol.nonterminal production.left ∈ spelled word := by simp [late]
    simp [spelled] at member

theorem Expands.opens {before : List Symbol} {p : Nat} {production : Production}
    {after : List Nat} (expands : g.Expands before p production after) :
    g.Opens before p (after.headD endMarker) := by
  have opened : g.Opened (before ++ .nonterminal production.left :: spelled after) :=
    expands.arrived.induction g.Opened (opened_start wellFormed) fun step opened =>
      opened.rewrites wellFormed step
  exact opened.last wellFormed expands.found

/-- What a rightmost step has put in is a complete item behind it. -/
theorem Expands.valid {before : List Symbol} {p : Nat} {production : Production}
    {after : List Nat} (expands : g.Expands before p production after) :
    g.Valid (before ++ production.right)
      ⟨p, production.right.length, after.headD endMarker⟩ :=
  ⟨before, production, expands.opens wellFormed, expands.found, Nat.le_refl _, by simp⟩

/-! ## Opened productions are expanded -/

variable (productive : g.Productive)
include productive

/-- A rightmost derivation goes on to the nonterminal that an item predicts. -/
theorem Expands.predicts {before : List Symbol} {p : Nat} {production below : Production}
    {after : List Nat} (expands : g.Expands before p production after) {dot : Nat} {other : Item}
    (predicts : g.Predicts ⟨p, dot, after.headD endMarker⟩ other)
    (belowFound : g.production? other.production = some below) :
    ∃ word, g.Expands (before ++ production.right.take dot) other.production below
      (word ++ after) ∧ (word ++ after).headD endMarker = other.lookahead := by
  obtain ⟨sameFound, next, ahead⟩ := predicts
  obtain rfl := Option.some.inj (sameFound.symm.trans belowFound)
  have split := Item.right_eq_of_next? expands.found next
  obtain ⟨word, derived, front⟩ := productive.exists_word wellFormed
    (fun symbol => Item.declared_of_mem_rest wellFormed) ahead
  have form := expands.sentential
  rw [split, ← List.singleton_append, ← List.append_assoc, ← List.append_assoc] at form
  refine ⟨word, ⟨belowFound, ?_⟩, ?_⟩
  · simpa [List.append_assoc] using form.spell derived
  · rw [headD_append]
    exact front

theorem Opens.expands {before : List Symbol} {p t : Nat} {production : Production}
    (opens : g.Opens before p t) (found : g.production? p = some production) :
    ∃ after, g.Expands before p production after ∧ after.headD endMarker = t := by
  induction opens generalizing production with
  | start =>
    obtain rfl := Option.some.inj (found.symm.trans wellFormed.augmented)
    exact ⟨[], ⟨found, sentential_start g⟩, rfl⟩
  | predict _ outerFound predicts ih =>
    obtain ⟨after, expands, rfl⟩ := ih outerFound
    obtain ⟨word, onward, front⟩ := expands.predicts wellFormed productive predicts found
    exact ⟨word ++ after, onward, front⟩

/-- An item is valid for what has been read if a rightmost derivation expands its production, has
read up to its dot and goes on with its lookahead. -/
theorem valid_iff_expands {read : List Symbol} {item : Item} :
    g.Valid read item ↔ ∃ before production after,
      g.Expands before item.production production after ∧
      item.dot ≤ production.right.length ∧ read = before ++ production.right.take item.dot ∧
      item.lookahead = after.headD endMarker := by
  constructor
  · rintro ⟨before, production, opens, found, within, rfl⟩
    obtain ⟨after, expands, ahead⟩ := opens.expands wellFormed productive found
    exact ⟨before, production, after, expands, within, rfl, ahead.symm⟩
  · rintro ⟨before, production, after, expands, within, rfl, ahead⟩
    exact ⟨before, production, ahead ▸ expands.opens wellFormed, expands.found, within, rfl⟩

end

/-! ## Walks -/

/-- A dot that has moved came from a dot before the symbol read last. -/
theorem Valid.source_of_moved {earlier : List Symbol} {symbol : Symbol} {item : Item}
    (valid : g.Valid (earlier ++ [symbol]) item) (moved : item.dot ≠ 0) :
    ∃ source, g.Valid earlier source ∧ source.next? g = some symbol := by
  obtain ⟨before, last, source, split, sourceValid, next, -⟩ := valid.retreat moved
  obtain ⟨rfl, same⟩ := List.append_inj' split rfl
  obtain rfl := List.singleton_inj.mp same
  exact ⟨source, sourceValid, next⟩

/-- The symbol read last stood after the dot of some item. -/
theorem Valid.exists_source {earlier : List Symbol} {symbol : Symbol} {item : Item}
    (valid : g.Valid (earlier ++ [symbol]) item) :
    ∃ source, g.Valid earlier source ∧ source.next? g = some symbol := by
  obtain ⟨p, dot, t⟩ := item
  by_cases still : dot = 0
  · subst still
    have opens := valid.opens
    generalize split : earlier ++ [symbol] = read at opens
    clear valid
    induction opens with
    | start => simp at split
    | @predict before p t dot production other outer found predicts ih =>
      by_cases still : dot = 0
      · rw [still, List.take_zero, List.append_nil] at split
        exact ih split
      · have within : dot ≤ production.right.length := Nat.le_of_lt (predicts.dot_lt found)
        have moved : g.Valid (earlier ++ [symbol]) ⟨p, dot, t⟩ :=
          ⟨before, production, outer, found, within, split⟩
        exact moved.source_of_moved still
  · exact valid.source_of_moved still

/-- Every symbol of what has been read stood after the dot of some item. -/
theorem Valid.exists_source_before {earlier later : List Symbol} {symbol : Symbol} {item : Item}
    (valid : g.Valid (earlier ++ symbol :: later) item) :
    ∃ source, g.Valid earlier source ∧ source.next? g = some symbol := by
  induction later using List.reverseRecOn generalizing item with
  | nil => exact valid.exists_source
  | append_singleton later last ih =>
    rw [← List.cons_append, ← List.append_assoc] at valid
    obtain ⟨source, sourceValid, -⟩ := valid.exists_source
    exact ih sourceValid

end Grammar

namespace Automaton

/-- The state that the symbols lead to from the initial one. -/
def walk? (a : Automaton) (symbols : List Symbol) : Option Nat :=
  symbols.foldlM a.transition? initialState

variable {g : Grammar} {a : Automaton}

theorem walk?_append_singleton (read : List Symbol) (symbol : Symbol) :
    a.walk? (read ++ [symbol]) = (a.walk? read).bind fun s => a.transition? s symbol := by
  simp [walk?, List.foldlM_append]

theorem walk?_eq_some_iff {read : List Symbol} {s : Nat} :
    a.walk? read = some s ↔ ∃ stack, a.Path stack ∧ readSymbols stack = read ∧
      Configuration.topState stack = s := by
  constructor
  · intro walked
    induction read using List.reverseRecOn generalizing s with
    | nil => exact ⟨[], .nil, rfl, Option.some.inj walked⟩
    | append_singleton read symbol ih =>
      rw [walk?_append_singleton] at walked
      obtain ⟨middle, before, step⟩ := Option.bind_eq_some_iff.mp walked
      obtain ⟨stack, path, rfl, rfl⟩ := ih before
      exact ⟨_, .cons step path, readSymbols_cons .., rfl⟩
  · rintro ⟨stack, path, rfl, rfl⟩
    induction path with
    | nil => rfl
    | cons step _ ih =>
      rw [readSymbols_cons, walk?_append_singleton, ih]
      exact step

/-- Every collected item set is at the end of a path. -/
theorem exists_path_of_collected (canonical : a.Canonical g) {set : ItemSet}
    (collected : g.Collected set) :
    ∃ stack state, a.Path stack ∧ a.state? (Configuration.topState stack) = some state ∧
      state.items = set := by
  induction collected with
  | start =>
    obtain ⟨state, found, items⟩ := canonical.start
    exact ⟨[], state, .nil, found, items⟩
  | goto _ symbol inhabited ih =>
    obtain ⟨stack, state, path, found, rfl⟩ := ih
    have after := ItemSet.goto_ne_empty_iff.mp inhabited
    obtain ⟨item, member, next⟩ := ItemSet.mem_symbolsAfterDot.mp after
    obtain ⟨target, step⟩ := canonical.followed found member next
    obtain ⟨source, later, sourceFound, laterFound, -, items⟩ := canonical.linked step
    obtain rfl := Option.some.inj (found.symm.trans sourceFound)
    exact ⟨_, later, .cons step path, laterFound, items⟩

theorem exists_path_of_state? {limits : Limits} (built : g.automaton g.firstSets limits = .ok a)
    {s : Nat} {state : State} (found : a.state? s = some state) :
    ∃ stack, a.Path stack ∧ Configuration.topState stack = s := by
  have sound := (reached_of_collect built).sound
  have collected := sound.collected _ (mem_found_itemGraph.mpr ⟨s, state, found, rfl⟩)
  obtain ⟨stack, last, path, lastFound, items⟩ :=
    exists_path_of_collected (canonical_of_collect built) collected
  exact ⟨stack, path, eq_of_items sound.nodup lastFound found items⟩

section

variable (wellFormed : g.WellFormed) (canonical : a.Canonical g)
include wellFormed canonical

/-- There is a path over everything that an item is valid for. -/
theorem exists_path_of_valid {read : List Symbol} {item : Item} (valid : g.Valid read item) :
    ∃ stack, a.Path stack ∧ readSymbols stack = read := by
  induction read using List.reverseRecOn generalizing item with
  | nil => exact ⟨[], .nil, rfl⟩
  | append_singleton read symbol ih =>
    obtain ⟨source, sourceValid, next⟩ := valid.exists_source
    obtain ⟨stack, path, rfl⟩ := ih sourceValid
    obtain ⟨target, step⟩ := path.exists_transition wellFormed canonical sourceValid next
    exact ⟨_, .cons step path, readSymbols_cons ..⟩

/-- The paths are those over the viable prefixes. -/
theorem exists_path_iff (productive : g.Productive) {read : List Symbol} :
    (∃ stack, a.Path stack ∧ readSymbols stack = read) ↔ g.ViablePrefix read := by
  constructor
  · rintro ⟨stack, path, rfl⟩
    obtain ⟨item, valid⟩ := path.exists_valid wellFormed canonical
    obtain ⟨before, production, after, expands, -, read, -⟩ :=
      (Grammar.valid_iff_expands wellFormed productive).mp valid
    refine ⟨before, item.production, production, after, expands, ?_⟩
    rw [read]
    exact List.prefix_append_right_inj before |>.mpr (List.take_prefix ..)
  · rintro ⟨before, p, production, after, expands, rest, split⟩
    obtain ⟨stack, path, whole⟩ :=
      exists_path_of_valid wellFormed canonical (expands.valid wellFormed)
    obtain ⟨pushed, below, rfl, same, -⟩ := readSymbols_split (whole.trans split.symm)
    have path := path.drop pushed.length
    rw [List.drop_left] at path
    exact ⟨below, path, same⟩

end

/-- Over a productive grammar the automaton walks along the viable prefixes, and the state at the
end has the items that rightmost derivations make valid. -/
theorem walks_viable_prefixes {calls : List Call} {limits : Limits}
    (defined : Grammar.ofCalls calls = .ok g) (productive : g.Productive)
    (built : g.automaton g.firstSets limits = .ok a) (read : List Symbol) :
    ((∃ s, a.walk? read = some s) ↔ g.ViablePrefix read) ∧
    ∀ s, a.walk? read = some s → ∃ state, a.state? s = some state ∧ ∀ item,
      item ∈ state.items ↔ ∃ before production after,
        g.Expands before item.production production after ∧
        item.dot ≤ production.right.length ∧ read = before ++ production.right.take item.dot ∧
        item.lookahead = after.headD endMarker := by
  have wellFormed := Grammar.wellFormed_ofCalls defined
  have canonical := canonical_of_collect built
  constructor
  · rw [← exists_path_iff wellFormed canonical productive]
    constructor
    · rintro ⟨s, walked⟩
      obtain ⟨stack, path, same, -⟩ := walk?_eq_some_iff.mp walked
      exact ⟨stack, path, same⟩
    · rintro ⟨stack, path, same⟩
      exact ⟨_, walk?_eq_some_iff.mpr ⟨stack, path, same, rfl⟩⟩
  · intro s walked
    obtain ⟨stack, path, rfl, rfl⟩ := walk?_eq_some_iff.mp walked
    obtain ⟨state, found, meaning⟩ := path.mem_items_iff wellFormed canonical
    refine ⟨state, found, fun item => ?_⟩
    rw [meaning, Grammar.valid_iff_expands wellFormed productive]

end Automaton

namespace Grammar

def doubledCalls : List Call :=
  [.terminal "c", .terminal "d", .nonterminal "S", .nonterminal "C",
    .production 1 [.nonterminal 2, .nonterminal 2], .production 2 [.terminal 1, .nonterminal 2],
    .production 2 [.terminal 2]]

theorem ofCalls_doubled : Grammar.ofCalls doubledCalls = .ok doubled := rfl

theorem doubled_productive : doubled.Productive := by
  have augmented : doubled.production? 0 = some ⟨0, [.nonterminal 1]⟩ := rfl
  have twice : doubled.production? 1 = some ⟨1, [.nonterminal 2, .nonterminal 2]⟩ := rfl
  have single : doubled.production? 3 = some ⟨2, [.terminal 2]⟩ := rfl
  have last : doubled.Derives [.nonterminal 2] (spelled [2]) := derives_right single
  have start : doubled.Derives [.nonterminal 1] (spelled [2, 2]) :=
    (derives_right twice).trans (last.append last)
  intro n inside
  have few : n = 0 ∨ n = 1 ∨ n = 2 := by
    have size : doubled.nonterminals.size = 3 := rfl
    omega
  rcases few with rfl | rfl | rfl
  · exact ⟨[2, 2], (derives_right augmented).trans start⟩
  · exact ⟨[2, 2], start⟩
  · exact ⟨[2], last⟩

/-- The second `C` has nothing behind it, and there is no third one. -/
theorem viable_prefixes_doubled :
    doubled.ViablePrefix [.nonterminal 2, .terminal 1] ∧
    (∀ t, (∃ before production after, doubled.Expands before 2 production after ∧
      1 ≤ production.right.length ∧
      [.nonterminal 2, .terminal 1] = before ++ production.right.take 1 ∧
      t = after.headD endMarker) ↔ t = endMarker) ∧
    ¬ doubled.ViablePrefix [.nonterminal 2, .nonterminal 2, .nonterminal 2] := by
  have seen : (doubled.automaton doubled.firstSets {}).toOption.map (fun a =>
      ((a.walk? [.nonterminal 2, .terminal 1]).map fun s =>
        ((a.state? s).map fun state => state.items.toList.filter fun item =>
          item.production = 2 ∧ item.dot = 1),
        a.walk? [.nonterminal 2, .nonterminal 2, .nonterminal 2])) =
      some (some (some [⟨2, 1, endMarker⟩]), none) := by decide +kernel
  obtain ⟨a, built, same⟩ := exists_of_toOption seen
  obtain ⟨walked, stuck⟩ := Prod.mk.inj same
  obtain ⟨s, walked, inside⟩ := Option.map_eq_some_iff.mp walked
  obtain ⟨state, found, items⟩ := Option.map_eq_some_iff.mp inside
  have walks := Automaton.walks_viable_prefixes ofCalls_doubled doubled_productive built
  refine ⟨(walks _).1.mp ⟨s, walked⟩, fun t => ?_, fun viable => ?_⟩
  · obtain ⟨same, sameFound, meaning⟩ := (walks _).2 s walked
    obtain rfl := Option.some.inj (found.symm.trans sameFound)
    have listed : (⟨2, 1, t⟩ : Item) ∈ state.items ↔ t = endMarker := by
      have filtered : (⟨2, 1, t⟩ : Item) ∈ state.items.toList.filter (fun item =>
          item.production = 2 ∧ item.dot = 1) ↔ t = endMarker := by
        rw [items]
        simp
      simpa [ItemSet.mem_iff] using filtered
    rw [← listed]
    exact (meaning ⟨2, 1, t⟩).symm
  · obtain ⟨s, walked⟩ := (walks _).1.mpr viable
    rw [stuck] at walked
    cases walked

end Grammar

end CanonicalLR
