import CanonicalLR.Proofs.Grammar.Declaring
import CanonicalLR.Proofs.Grammar.Reader

/-!
# What rule lines are read as

Rules are refused where they use the end marker, where they are too many or too
long, or where there are none; all others make a grammar that spells them.
-/

namespace CanonicalLR

/-! ## The grammar of the rules -/

namespace Grammar

/-- A symbol is what a name stands for: a nonterminal if a rule begins with the name, else a
terminal. -/
def Denotes (g : Grammar) (rules : List Rule) (name : String) : Symbol → Prop
  | .nonterminal n => (∃ rule ∈ rules, rule.left = name) ∧ g.nonterminal? name = some n
  | .terminal t => (¬ ∃ rule ∈ rules, rule.left = name) ∧ g.terminal? name = some t

/-- A grammar spells rules: its symbols are the names of the rules, with ids in order of first
appearance, and production `k + 1` has the names of rule `k`. -/
structure Spells (g : Grammar) (rules : List Rule) (start : Option String) : Prop where
  start : ∃ name, start.or (rules.head?.map Rule.left) = some name ∧
    g.nonterminal? name = some g.start ∧ g.nonterminalName? g.start = some name ∧
    g.nonterminals.toList = (name ++ "'") :: Rule.lefts rules
  terminals : g.terminals.toList = endMarkerName :: Rule.others rules (Rule.uses rules)
  count : g.productions.size = rules.length + 1
  augmented : g.production? augmentedProduction = some ⟨augmentedStart, [.nonterminal g.start]⟩
  productions : ∀ k rule, rules[k]? = some rule → ∃ left right,
    g.production? (k + 1) = some ⟨left, right⟩ ∧
    g.nonterminalName? left = some rule.left ∧ g.Denotes rules rule.left (.nonterminal left) ∧
    right.map g.symbolName? = rule.right.map some ∧ List.Forall₂ (g.Denotes rules) rule.right right
  nonterminal : ∀ name, (g.nonterminal? name).isSome ↔ ∃ rule ∈ rules, rule.left = name
  terminal : ∀ name, (g.terminal? name).isSome ↔ name = endMarkerName ∨
    name ∈ Rule.uses rules ∧ ¬ ∃ rule ∈ rules, rule.left = name

end Grammar

namespace Definition.Read

variable {d : Definition} {rules : List Rule} {start : Option String}

theorem production_at (read : d.Read rules start) {k : Nat} {rule : Rule}
    (here : rules[k]? = some rule) : ∃ production,
      d.productions[k]? = some production ∧ d.Spells rule production := by
  obtain ⟨inside, same⟩ := List.getElem?_eq_some_iff.mp here
  have listed : k < d.productions.toList.length := read.spelled.length_eq ▸ inside
  have spells := read.spelled.get inside listed
  rw [List.get_eq_getElem, same] at spells
  exact ⟨_, Array.getElem?_eq_getElem (Array.length_toList ▸ listed), spells⟩

/-- Every nonterminal begins a rule. -/
theorem exists_rule_iff (read : d.Read rules start) (name : String) :
    (∃ rule ∈ rules, rule.left = name) ↔
      ∃ n, d.declaredName? (.nonterminal n) = some name := by
  have listed : (∃ rule ∈ rules, rule.left = name) ↔ name ∈ d.nonterminals.toList := by
    rw [read.resolved.holds.nonterminals, Rule.mem_lefts]
  rw [listed]
  constructor
  · intro member
    obtain ⟨n, here⟩ := List.getElem?_of_mem member
    exact ⟨n + 1, by rwa [declaredName?, ← Array.getElem?_toList]⟩
  · rintro ⟨_ | n, named⟩
    · cases named
    · exact Array.mem_toList_iff.mpr (Array.mem_of_getElem? named)

/-- Every nonterminal has a production. -/
theorem mem_defined (read : d.Read rules start) {n : Nat} {name : String}
    (named : d.declaredName? (.nonterminal n) = some name) : n ∈ d.defined := by
  obtain ⟨rule, member, rfl⟩ := (read.exists_rule_iff name).mpr ⟨n, named⟩
  obtain ⟨k, here⟩ := List.getElem?_of_mem member
  obtain ⟨production, found, leftNamed, -⟩ := read.production_at here
  have holds := read.resolved.holds
  have same := (holds.lookup_iff.mpr leftNamed).symm.trans (holds.lookup_iff.mpr named)
  exact Definition.mem_defined.mpr ⟨production, Array.mem_of_getElem? found,
    Symbol.nonterminal.inj (Option.some.inj same)⟩

theorem firstUndefined?_eq_none (read : d.Read rules start) : d.firstUndefined? = none := by
  refine firstUndefined?_eq_none_iff.mpr fun production member n used => ?_
  obtain ⟨k, found⟩ := List.getElem?_of_mem (Array.mem_toList_iff.mpr member)
  have inside := (List.getElem?_eq_some_iff.mp found).1
  rw [← read.spelled.length_eq] at inside
  obtain ⟨other, here, -, named⟩ := read.production_at (List.getElem?_eq_getElem inside)
  rw [Array.getElem?_toList, here] at found
  obtain rfl := Option.some.inj found
  obtain ⟨name, nameFound⟩ := exists_name named used
  exact read.mem_defined nameFound

/-- The start symbol is the given one or that of the first rule. -/
theorem exists_start (read : d.Read rules start) (listed : rules ≠ []) : ∃ symbol name,
    d.startSymbol? = some symbol ∧ d.declaredName? (.nonterminal symbol) = some name ∧
      start.or (rules.head?.map Rule.left) = some name := by
  have chosen := read.start
  unfold startSymbol?
  cases start with
  | some name =>
    obtain ⟨symbol, same, named⟩ := Option.map_eq_some_iff.mp chosen
    exact ⟨symbol, name, by simp [same], named, rfl⟩
  | none =>
    have unset : d.start = none := Option.map_eq_none_iff.mp chosen
    obtain ⟨rule, rest, rfl⟩ := List.exists_cons_of_ne_nil listed
    have names := read.resolved.holds.nonterminals
    rw [Rule.lefts, List.map_cons, List.eraseDups_cons] at names
    have first : d.declaredName? (.nonterminal 1) = some rule.left := by
      rw [declaredName?, ← Array.getElem?_toList, names]
      rfl
    have some : d.nonterminals.isEmpty = false := by
      rw [← Array.isEmpty_toList, names]
      rfl
    exact ⟨1, rule.left, by simp [unset, some], first, rfl⟩

theorem finish_nil (read : d.Read [] none) : d.finish = .error .emptyGrammar := by
  have unset : d.start = none := Option.map_eq_none_iff.mp read.start
  have names : d.nonterminals = #[] := Array.toList_inj.mp read.resolved.holds.nonterminals
  simp [finish, startSymbol?, unset, names]

section

variable {calls : List Call} {symbol : Nat}
  (defined : Grammar.ofCalls calls = .ok (d.augment symbol))
include defined

/-- What has been declared under a name is what the name stands for in the grammar. -/
theorem denotes (read : d.Read rules start) {named : Symbol} {name : String}
    (declared : d.declaredName? named = some name) :
    (d.augment symbol).symbolName? named = some name ∧
      (d.augment symbol).Denotes rules name named := by
  have told : (d.augment symbol).symbolName? named = some name := by
    rw [symbolName?_augment]
    rcases named with (_ | t) | (_ | n)
    · cases declared
    · simpa [endMarker] using declared
    · cases declared
    · simpa [augmentedStart] using declared
  refine ⟨told, ?_⟩
  cases named with
  | terminal t =>
    refine ⟨fun begins => ?_, (Grammar.named_ofCalls defined).terminal?_eq_some_iff.mpr told⟩
    obtain ⟨n, other⟩ := (read.exists_rule_iff name).mp begins
    have holds := read.resolved.holds
    cases (holds.lookup_iff.mpr declared).symm.trans (holds.lookup_iff.mpr other)
  | nonterminal n =>
    have user : n ≠ augmentedStart := by
      rintro rfl
      cases declared
    exact ⟨(read.exists_rule_iff name).mpr ⟨n, declared⟩,
      (Grammar.nonterminal?_eq_some_iff defined).mpr ⟨user, told⟩⟩

theorem isSome_terminal?_iff (name : String) :
    ((d.augment symbol).terminal? name).isSome ↔ name ∈ (d.augment symbol).terminals.toList := by
  rw [Option.isSome_iff_exists, List.mem_iff_getElem?]
  simp only [(Grammar.named_ofCalls defined).terminal?_eq_some_iff, Grammar.terminalName?,
    Array.getElem?_toList]

theorem isSome_nonterminal?_iff (read : d.Read rules start) (name : String) :
    ((d.augment symbol).nonterminal? name).isSome ↔ ∃ rule ∈ rules, rule.left = name := by
  rw [read.exists_rule_iff, Option.isSome_iff_exists]
  constructor
  · rintro ⟨n, looked⟩
    obtain ⟨user, told⟩ := (Grammar.nonterminal?_eq_some_iff defined).mp looked
    have declared := symbolName?_augment d symbol (.nonterminal n)
    rw [if_neg nofun, if_neg (by simpa using user)] at declared
    exact ⟨n, declared.symm.trans told⟩
  · rintro ⟨n, declared⟩
    exact ⟨n, (read.denotes defined declared).2.2⟩

end

/-- Rules that could be read make a grammar that spells them. -/
theorem exists_grammar (read : d.Read rules start) (listed : rules ≠ []) :
    ∃ g, d.finish = .ok g ∧ g.Spells rules start := by
  obtain ⟨symbol, name, chosen, named, first⟩ := read.exists_start listed
  have finished : d.finish = .ok (d.augment symbol) := by
    simp [finish, chosen, read.mem_defined named, read.firstUndefined?_eq_none]
  obtain ⟨calls, made⟩ := read.resolved.holds.declared
  have defined : Grammar.ofCalls calls = .ok (d.augment symbol) := by
    rw [Grammar.ofCalls, made, finished]
  have holds := read.resolved.holds
  have terminals : (d.augment symbol).terminals.toList =
      endMarkerName :: Rule.others rules (Rule.uses rules) := by
    simp [augment, holds.terminals]
  have startDenotes := read.denotes defined named
  refine ⟨_, finished, ?_⟩
  exact {
    start := by
      refine ⟨name, first, startDenotes.2.2, startDenotes.1, ?_⟩
      have label : d.nonterminalName symbol = name := by
        cases symbol with
        | zero => cases named
        | succ n =>
          rw [nonterminalName, Array.getD_eq_getD_getElem?, Nat.add_sub_cancel]
          exact congrArg (·.getD "") named
      simp [augment, holds.nonterminals, label]
    terminals
    augmented := by
      rw [Grammar.production?_augment, if_pos rfl]
      rfl
    count := by
      rw [read.spelled.length_eq]
      simp [augment, Nat.add_comm]
    productions := by
      intro k rule here
      obtain ⟨⟨left, right⟩, found, leftNamed, rightNamed⟩ := read.production_at here
      have leftDenotes := read.denotes defined leftNamed
      have each := List.forall₂_map_left_iff.mp (List.forall₂_map_right_iff.mp
        (List.forall₂_eq_eq_eq ▸ rightNamed.symm))
      refine ⟨left, right, ?_, leftDenotes.1, leftDenotes.2, ?_, ?_⟩
      · have other : k + 1 ≠ augmentedProduction := Nat.succ_ne_zero k
        rw [Grammar.production?_augment, if_neg other]
        exact found
      · rw [← rightNamed]
        refine List.map_congr_left fun symbol member => ?_
        obtain ⟨name, here⟩ := exists_name rightNamed member
        rw [here]
        exact (read.denotes defined here).1
      · exact each.imp fun _ _ same => (read.denotes defined same.symm).2
    nonterminal := read.isSome_nonterminal?_iff defined
    terminal := by
      intro name
      rw [isSome_terminal?_iff defined, terminals, List.mem_cons, Rule.mem_others] }

/-- Rules with the end marker cannot be read. -/
theorem unmarked (read : d.Read rules start) :
    ∀ rule ∈ rules, endMarkerName ∉ rule.left :: rule.right := by
  obtain ⟨calls, made⟩ := read.resolved.holds.declared
  have unreserved : endMarkerName ∉ d.names := made ▸ (named_ofCalls calls).unreserved
  have holds := read.resolved.holds
  rw [names, List.mem_append, not_or, holds.terminals, holds.nonterminals] at unreserved
  intro rule member used
  rcases List.mem_cons.mp used with left | right
  · exact unreserved.2 (Rule.mem_lefts.mpr ⟨rule, member, left.symm⟩)
  · have listed : endMarkerName ∈ Rule.uses rules := List.mem_flatMap.mpr ⟨rule, member, right⟩
    have begins := Rule.mem_lefts.not.mp unreserved.2
    exact unreserved.1 (Rule.mem_others.mpr ⟨listed, begins⟩)

end Definition.Read

namespace Grammar

/-- What rule lines come to. -/
inductive Reading (texts : List String) (start : Option String) :
    Except RuleError Grammar → Prop where
  | wordless {before after : List String} {text : String} (first : texts = before ++ text :: after)
      (earlier : ∀ earlier ∈ before, ∃ rule : Rule, rule.ReadFrom earlier)
      (bare : Text.Splits text.toList []) : Reading texts start (.error (.emptyRule text))
  | unknownStart {rules : List Rule} {name : String} (read : List.Forall₂ Rule.ReadFrom texts rules)
      (given : start = some name) (unknown : ¬ ∃ rule ∈ rules, rule.left = name) :
      Reading texts start (.error (.unknownStart name))
  | noRules (bare : texts = []) (unset : start = none) :
      Reading texts start (.error (.refused .emptyGrammar))
  | refused {rules : List Rule} {error : GrammarError}
      (read : List.Forall₂ Rule.ReadFrom texts rules)
      (known : ∀ name ∈ start, ∃ rule ∈ rules, rule.left = name)
      (refused : Rule.Refused rules error) : Reading texts start (.error (.refused error))
  | grammar {rules : List Rule} {g : Grammar} (read : List.Forall₂ Rule.ReadFrom texts rules)
      (known : ∀ name ∈ start, ∃ rule ∈ rules, rule.left = name) (listed : rules ≠ [])
      (unmarked : ∀ rule ∈ rules, endMarkerName ∉ rule.left :: rule.right)
      (fit : Rule.Fit rules) (spells : g.Spells rules start) : Reading texts start (.ok g)

theorem words_of_readFrom {texts : List String} {rules : List Rule}
    (read : List.Forall₂ Rule.ReadFrom texts rules) : Definition.Words rules := by
  induction read with
  | nil => exact nofun
  | cons reads _ ih => exact List.forall_mem_cons.mpr ⟨fun _ => reads.word, ih⟩

theorem reading_of_known {texts : List String} {rules : List Rule} {start : Option String}
    (read : List.Forall₂ Rule.ReadFrom texts rules)
    (known : ∀ name ∈ start, ∃ rule ∈ rules, rule.left = name) :
    Reading texts start
      (((Definition.ofRules rules start).bind Definition.finish).mapError .refused) := by
  have ends := Definition.ends_ofRules (words_of_readFrom read) known
  cases result : Definition.ofRules rules start with
  | error error =>
    rw [result] at ends
    exact .refused read known ends
  | ok d =>
    rw [result] at ends
    have made : d.Read rules start := ends
    by_cases listed : rules = []
    · subst listed
      have unset : start = none := by
        rw [Option.eq_none_iff_forall_ne_some]
        rintro name rfl
        obtain ⟨rule, member, -⟩ := known name rfl
        cases member
      subst unset
      have failed := made.finish_nil
      cases read
      rw [Except.bind, failed]
      exact .noRules rfl rfl
    · obtain ⟨g, finished, spells⟩ := made.exists_grammar listed
      rw [Except.bind, finished]
      exact .grammar read known listed made.unmarked made.fit spells

theorem checkName_eq_invalidName_iff (d : Definition) (name : String) :
    d.checkName name = .error (.invalidName name) ↔
      name = "" ∨ ∃ c ∈ name.toList, c.toNat ∈ Text.whiteSpace := by
  have blank : name.toList.any Text.isBlank = true ↔
      ∃ c ∈ name.toList, c.toNat ∈ Text.whiteSpace := by
    simp only [List.any_eq_true, Text.isBlank_iff]
  rw [← blank, Definition.checkName]
  split
  · simp_all
  · split
    · simp_all
    · split <;> simp_all

theorem rule_lines_read (texts : List String) (start : Option String) :
    Reading texts start (Grammar.ofRuleTexts texts start) ∧
    (∀ rules, Walk.rules rules start = Definition.ofRules rules start) ∧
    (∀ c, Text.isBlank c = true ↔ c.toNat ∈ Text.whiteSpace) ∧
    ∀ d name, Definition.checkName d name = .error (.invalidName name) ↔
      name = "" ∨ ∃ c ∈ name.toList, c.toNat ∈ Text.whiteSpace := by
  refine ⟨?_, fun rules => Walk.rules_eq rules start, fun _ => Text.isBlank_iff,
    checkName_eq_invalidName_iff⟩
  unfold Grammar.ofRuleTexts
  rcases Rule.parseAll_cases texts with
    ⟨before, text, after, first, earlier, bare, failed⟩ | ⟨rules, read, passed⟩
  · rw [failed]
    exact .wordless first earlier bare
  · have begins {name : String} : rules.any (·.left == name) = true ↔
        ∃ rule ∈ rules, rule.left = name := by simp
    simp only [passed, bind, Except.bind]
    cases filtered : start.filter fun name => ¬ rules.any (·.left == name) with
    | some name =>
      obtain ⟨given, unknown⟩ := Option.filter_eq_some_iff.mp filtered
      rw [decide_eq_true_eq, begins] at unknown
      exact .unknownStart read given unknown
    | none =>
      refine reading_of_known read fun name given => ?_
      have known := Option.filter_eq_none_iff.mp filtered name given
      rwa [decide_eq_true_eq, not_not, begins] at known

end Grammar

end CanonicalLR
