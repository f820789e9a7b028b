import CanonicalLR.Proofs.FirstOccurrences
import CanonicalLR.Proofs.Grammar.Naming
import CanonicalLR.Proofs.Grammar.RuleTexts

/-!
# What the walks over rules declare

The first walk declares the left-hand sides, the second the other names as they
come up and a production for each rule. A name is a word and is declared only if
it has not been before, so its check fails for the end marker only, or for want
of room.
-/

namespace CanonicalLR

/-! ## Programs that end as they should -/

/-- A program comes to a value of one kind or fails for a cause of another. -/
def Ends {ε α : Type} (right : α → Prop) (cause : ε → Prop) : Except ε α → Prop
  | .ok value => right value
  | .error error => cause error

namespace Ends

variable {ε α β γ : Type} {right : α → Prop} {later : β → Prop} {cause : ε → Prop}

theorem bind {first : Except ε α} {second : α → Except ε β} (ends : Ends right cause first)
    (next : ∀ value, right value → Ends later cause (second value)) :
    Ends later cause (first >>= second) := by
  cases first with
  | error error => exact ends
  | ok value => exact next value ends

theorem map {first : Except ε α} {view : α → β} (ends : Ends right cause first)
    (next : ∀ value, right value → later (view value)) : Ends later cause (view <$> first) := by
  cases first with
  | error error => exact ends
  | ok value => exact next value ends

/-- A walk over a list keeps what its steps keep of what has been walked over. -/
theorem foldlM {motive : List γ → α → Prop} {step : α → γ → Except ε α} {values : List γ}
    (steps : ∀ before value after state, before ++ value :: after = values → motive before state →
      Ends (motive (before ++ [value])) cause (step state value))
    {state : α} (start : motive [] state) :
    Ends (motive values) cause (values.foldlM step state) := by
  have walked : ∀ (rest before : List γ) (state : α), before ++ rest = values →
      motive before state → Ends (motive values) cause (rest.foldlM step state) := by
    intro rest
    induction rest with
    | nil =>
      rintro before state rfl kept
      rwa [List.append_nil]
    | cons value rest ih =>
      intro before state split kept
      rw [List.foldlM_cons]
      refine (steps before value rest state split kept).bind fun later next => ?_
      exact ih _ later (by simpa using split) next
  exact walked values [] state rfl start

end Ends

namespace Definition

variable {d : Definition} {rules : List Rule}

theorem ends_call {call : Call} {right : Unit → Prop} {cause : GrammarError → Prop}
    (ends : Ends right cause (d.check call)) :
    Ends (fun result => right () ∧ d.check call = .ok () ∧ d.record call = result) cause
      (d.call call) := by
  unfold Definition.call
  cases checked : d.check call with
  | error error =>
    rw [checked] at ends
    exact ends
  | ok _ =>
    rw [checked] at ends
    exact ⟨ends, rfl, rfl⟩

/-- A word that has not been declared is refused as the end marker or for want of room. -/
theorem ends_checkName {name : String} {declared : Nat}
    (word : name ≠ "" ∧ ¬ name.toList.any Text.isBlank = true)
    (fresh : ¬ d.symbols.contains name = true)
    (marker : name = endMarkerName → ∃ rule ∈ rules, name ∈ rule.left :: rule.right)
    (room : Rule.Fit rules → declared < idLimit) :
    Ends (fun _ => declared < idLimit) (Rule.Refused rules)
      (do d.checkName name; checkRoom declared) := by
  unfold checkName checkRoom
  rw [if_neg (not_or.mpr word)]
  by_cases same : name = endMarkerName
  · rw [if_pos same]
    obtain ⟨rule, member, used⟩ := marker same
    subst same
    exact .marker member used
  · rw [if_neg same, if_neg fresh]
    by_cases free : declared < idLimit
    · rw [if_pos free]
      exact free
    · rw [if_neg free]
      exact .excess fun fit => free (room fit)

/-- A definition that calls have made, with the names that it lists. -/
structure Holds (d : Definition) (nonterminals terminals : List String) : Prop where
  declared : ∃ calls, ofCalls calls = d
  nonterminals : d.nonterminals.toList = nonterminals
  terminals : d.terminals.toList = terminals

namespace Holds

variable {nonterminals terminals : List String}

theorem contains_iff (holds : d.Holds nonterminals terminals) (name : String) :
    d.symbols.contains name = true ↔ name ∈ nonterminals ∨ name ∈ terminals := by
  obtain ⟨⟨calls, rfl⟩, rfl, rfl⟩ := holds
  have listed : name ∈ (ofCalls calls).names ↔ name ∈ (ofCalls calls).nonterminals.toList ∨
      name ∈ (ofCalls calls).terminals.toList := by
    rw [names, List.mem_append, or_comm]
  rw [← listed]
  constructor
  · intro known
    rw [← Std.TreeMap.isSome_getElem?_eq_contains] at known
    obtain ⟨symbol, found⟩ := Option.isSome_iff_exists.mp known
    exact mem_names_of_declaredName? ((mapped_ofCalls calls name symbol).mp found)
  · exact (named_ofCalls calls).known name

theorem lookup_iff (holds : d.Holds nonterminals terminals) {name : String} {symbol : Symbol} :
    d.symbols[name]? = some symbol ↔ d.declaredName? symbol = some name := by
  obtain ⟨⟨calls, rfl⟩, -, -⟩ := holds
  exact mapped_ofCalls calls name symbol

theorem record (holds : d.Holds nonterminals terminals) {call : Call}
    (passed : d.check call = .ok ()) : (d.record call).1.Holds
      (d.record call).1.nonterminals.toList (d.record call).1.terminals.toList := by
  obtain ⟨⟨calls, rfl⟩, -, -⟩ := holds
  refine ⟨⟨calls ++ [call], ?_⟩, rfl, rfl⟩
  rw [← attempt_of_ok passed, ofCalls, List.foldl_append]
  rfl

end Holds

/-! ## The first walk -/

/-- The left-hand sides of some rules have been declared and nothing else. -/
structure Opened (d : Definition) (before : List Rule) : Prop where
  holds : d.Holds (Rule.lefts before) []
  productions : d.productions = #[]
  start : d.start = none
  room : (Rule.lefts before).length ≤ idLimit

theorem opened_empty : Opened {} [] :=
  ⟨⟨⟨[], rfl⟩, rfl, rfl⟩, rfl, rfl, Nat.zero_le _⟩

/-- Every name of the rules is a word. -/
def Words (rules : List Rule) : Prop :=
  ∀ rule ∈ rules, ∀ name ∈ rule.left :: rule.right,
    name ≠ "" ∧ ¬ name.toList.any Text.isBlank = true

theorem lefts_concat (before : List Rule) (rule : Rule) : Rule.lefts (before ++ [rule]) =
    if rule.left ∈ Rule.lefts before then Rule.lefts before
    else Rule.lefts before ++ [rule.left] := by
  rw [Rule.lefts, List.map_append, List.map_singleton, eraseDups_concat]
  simp [Rule.lefts]

theorem ends_declareLeft {before after : List Rule} {rule : Rule} (words : Words rules)
    (split : before ++ rule :: after = rules) (opened : d.Opened before) :
    Ends (Opened · (before ++ [rule])) (Rule.Refused rules) (d.declareLeft rule) := by
  have listed : d.symbols.contains rule.left = true ↔ rule.left ∈ Rule.lefts before := by
    rw [opened.holds.contains_iff]
    simp
  have member : rule ∈ rules := by simp [← split]
  unfold declareLeft
  by_cases known : rule.left ∈ Rule.lefts before
  · rw [if_pos (listed.mpr known)]
    have same := lefts_concat before rule
    rw [if_pos known] at same
    exact ⟨same ▸ opened.holds, opened.productions, opened.start, same ▸ opened.room⟩
  · rw [if_neg (listed.not.mpr known)]
    have longer := lefts_concat before rule
    rw [if_neg known] at longer
    have count : d.nonterminals.size = (Rule.lefts before).length := by
      rw [← opened.holds.nonterminals, Array.length_toList]
    have room : Rule.Fit rules → d.nonterminals.size < idLimit := by
      intro fit
      have more := (eraseDups_prefix_append ((before ++ [rule]).map Rule.left)
        (after.map Rule.left)).length_le
      rw [← List.map_append, List.append_assoc, List.singleton_append, split] at more
      have within := Nat.le_trans more fit.nonterminals
      change (Rule.lefts (before ++ [rule])).length ≤ idLimit at within
      rw [longer, List.length_append, List.length_singleton, ← count] at within
      exact within
    refine (ends_call (ends_checkName (words rule member rule.left List.mem_cons_self)
      (listed.not.mpr known) (fun _ => ⟨rule, member, List.mem_cons_self⟩) room)).map ?_
    rintro _ ⟨free, passed, rfl⟩
    have kept := opened.holds.record passed
    refine ⟨?_, opened.productions, opened.start, ?_⟩
    · refine ⟨kept.declared, ?_, opened.holds.terminals⟩
      rw [longer, Definition.record, Array.toList_push, opened.holds.nonterminals]
    · rw [longer, List.length_append, List.length_singleton, ← count]
      exact free

/-! ## The second walk -/

/-- The left-hand sides of all rules have been declared, and some words on right-hand sides. -/
structure Resolved (d : Definition) (rules : List Rule) (words : List String) : Prop where
  holds : d.Holds (Rule.lefts rules) (Rule.others rules words)
  room : (Rule.others rules words).length ≤ idLimit

theorem others_concat (rules : List Rule) (words : List String) (name : String) :
    Rule.others rules (words ++ [name]) =
      if name ∈ Rule.lefts rules ∨ name ∈ Rule.others rules words then Rule.others rules words
      else Rule.others rules words ++ [name] := by
  unfold Rule.others
  by_cases left : name ∈ Rule.lefts rules
  · simp [left]
  · rw [List.filter_append, List.filter_singleton]
    simp [left, eraseDups_concat]

/-- What has been declared keeps its name. -/
theorem Resolved.declaredName? {later : Definition} {words more : List String}
    (resolved : d.Resolved rules words) (next : later.Resolved rules (words ++ more))
    {symbol : Symbol} {name : String} (named : d.declaredName? symbol = some name) :
    later.declaredName? symbol = some name := by
  obtain ⟨others, appended⟩ := Rule.others_append rules words more
  have terminals : later.terminals.toList = d.terminals.toList ++ others := by
    rw [next.holds.terminals, resolved.holds.terminals, appended]
  have nonterminals : later.nonterminals = d.nonterminals := by
    rw [← Array.toList_inj, next.holds.nonterminals, resolved.holds.nonterminals]
  rcases symbol with (_ | t) | (_ | n)
  · cases named
  · rw [Definition.declaredName?, ← Array.getElem?_toList] at named ⊢
    rw [terminals]
    exact List.getElem?_append_left (List.getElem?_eq_some_iff.mp named).1 ▸ named
  · cases named
  · rwa [Definition.declaredName?, nonterminals]

theorem exists_name {right : List Symbol} {names : List String}
    (named : right.map d.declaredName? = names.map some) {symbol : Symbol}
    (member : symbol ∈ right) : ∃ name, d.declaredName? symbol = some name := by
  have listed : d.declaredName? symbol ∈ names.map some := named ▸ List.mem_map_of_mem member
  obtain ⟨name, -, same⟩ := List.mem_map.mp listed
  exact ⟨name, same.symm⟩

/-- Symbols that have been named keep their names. -/
theorem Resolved.map_declaredName? {later : Definition} {words more : List String}
    (resolved : d.Resolved rules words) (next : later.Resolved rules (words ++ more))
    {right : List Symbol} {names : List String}
    (named : right.map d.declaredName? = names.map some) :
    right.map later.declaredName? = names.map some := by
  rw [← named]
  refine List.map_congr_left fun symbol member => ?_
  obtain ⟨name, here⟩ := exists_name named member
  rw [here]
  exact resolved.declaredName? next here

/-- The words before, the next one and the words behind it, of all right-hand sides. -/
def Next (rules : List Rule) (words : List String) (name : String) : Prop :=
  ∃ more, words ++ name :: more = Rule.uses rules

theorem ends_resolve {words : List String} {name : String} (clean : Words rules)
    (next : Next rules words name) (resolved : d.Resolved rules words) :
    Ends (fun result => result.1.Resolved rules (words ++ [name]) ∧
        result.1.declaredName? result.2 = some name ∧ result.1.productions = d.productions ∧
        result.1.start = d.start) (Rule.Refused rules) (d.resolve name) := by
  obtain ⟨more, split⟩ := next
  have known := resolved.holds.contains_iff name
  have extended := others_concat rules words name
  unfold resolve
  cases found : d.symbols[name]? with
  | some symbol =>
    have listed : d.symbols.contains name = true := by
      rw [← Std.TreeMap.isSome_getElem?_eq_contains, found]
      rfl
    rw [if_pos (known.mp listed)] at extended
    exact ⟨⟨extended ▸ resolved.holds, extended ▸ resolved.room⟩,
      resolved.holds.lookup_iff.mp found, rfl, rfl⟩
  | none =>
    have fresh : ¬ d.symbols.contains name = true := by
      rw [← Std.TreeMap.isSome_getElem?_eq_contains, found]
      exact Bool.false_ne_true
    rw [if_neg (known.not.mp fresh)] at extended
    have count : d.terminals.size = (Rule.others rules words).length := by
      rw [← resolved.holds.terminals, Array.length_toList]
    have used : ∃ rule ∈ rules, name ∈ rule.left :: rule.right := by
      have listed : name ∈ Rule.uses rules := by simp [← split]
      obtain ⟨rule, member, used⟩ := List.mem_flatMap.mp listed
      exact ⟨rule, member, List.mem_cons_of_mem _ used⟩
    have room : Rule.Fit rules → d.terminals.size < idLimit := by
      intro fit
      obtain ⟨later, appended⟩ := Rule.others_append rules (words ++ [name]) more
      have within := fit.terminals
      rw [← split, List.append_cons, appended, extended, List.length_append, List.length_append,
        List.length_singleton, ← count] at within
      exact Nat.lt_of_succ_le (Nat.le_of_add_right_le within)
    obtain ⟨rule, member, place⟩ := used
    refine (ends_call (ends_checkName (clean rule member name place) fresh
      (fun _ => ⟨rule, member, place⟩) room)).bind ?_
    rintro _ ⟨free, passed, rfl⟩
    have kept := resolved.holds.record passed
    refine ⟨⟨⟨kept.declared, resolved.holds.nonterminals, ?_⟩, ?_⟩, ?_, rfl, rfl⟩
    · show (d.terminals.push name).toList = _
      rw [extended, Array.toList_push, resolved.holds.terminals]
    · rw [extended, List.length_append, List.length_singleton, ← count]
      exact free
    · show (d.terminals.push name)[d.terminals.size]? = some name
      exact Array.getElem?_push_size

theorem ends_resolveAll {words names more : List String} (clean : Words rules)
    (split : words ++ names ++ more = Rule.uses rules) (resolved : d.Resolved rules words) :
    Ends (fun result => result.1.Resolved rules (words ++ names) ∧
        result.2.toList.map result.1.declaredName? = names.map some ∧
        result.1.productions = d.productions ∧ result.1.start = d.start)
      (Rule.Refused rules) (d.resolveAll names) := by
  refine Ends.foldlM (motive := fun done (result : Definition × Array Symbol) =>
    result.1.Resolved rules (words ++ done) ∧
    result.2.toList.map result.1.declaredName? = done.map some ∧
    result.1.productions = d.productions ∧ result.1.start = d.start) ?_ ?_
  · rintro before name after ⟨here, right⟩ rfl ⟨kept, named, productions, start⟩
    have next : Next rules (words ++ before) name := ⟨after ++ more, by simpa using split⟩
    refine (ends_resolve clean next kept).bind ?_
    rintro ⟨later, symbol⟩ ⟨after, found, sameProductions, sameStart⟩
    refine ⟨by simpa using after, ?_, sameProductions.trans productions, sameStart.trans start⟩
    have still := kept.map_declaredName? after named
    show (right.push symbol).toList.map later.declaredName? = _
    rw [Array.toList_push, List.map_append, List.map_append, still]
    exact congrArg (before.map some ++ [·]) found
  · exact ⟨by simpa using resolved, rfl, rfl, rfl⟩

/-- A production has the names of a rule. -/
def Spells (d : Definition) (rule : Rule) (production : Production) : Prop :=
  d.declaredName? (.nonterminal production.left) = some rule.left ∧
    production.right.map d.declaredName? = rule.right.map some

/-- All left-hand sides and some rules have been declared. -/
structure Assembled (d : Definition) (rules before : List Rule) : Prop where
  resolved : d.Resolved rules (Rule.uses before)
  spelled : List.Forall₂ d.Spells before d.productions.toList
  start : d.start = none
  room : before.length ≤ idLimit
  lengths : ∀ rule ∈ before, rule.right.length ≤ lengthLimit

theorem declared_of_declaredName? {symbol : Symbol} {name : String}
    (named : d.declaredName? symbol = some name) :
    symbol.Declared (d.terminals.size + 1) (d.nonterminals.size + 1) := by
  rcases symbol with (_ | t) | (_ | n)
  · cases named
  · exact ⟨Nat.succ_pos t, Nat.succ_lt_succ (Array.getElem?_eq_some_iff.mp named).1⟩
  · cases named
  · exact ⟨Nat.succ_pos n, Nat.succ_lt_succ (Array.getElem?_eq_some_iff.mp named).1⟩

/-- A production with names is refused only for its length or for want of room. -/
theorem ends_checkProduction {rule : Rule} {left : Nat} {right : List Symbol}
    (spells : d.Spells rule ⟨left, right⟩)
    (length : Rule.Fit rules → rule.right.length ≤ lengthLimit)
    (room : Rule.Fit rules → d.productions.size < idLimit) :
    Ends (fun _ => rule.right.length ≤ lengthLimit ∧ d.productions.size < idLimit)
      (Rule.Refused rules) (d.check (.production left right)) := by
  obtain ⟨leftNamed, rightNamed⟩ := spells
  have leftPassed : d.checkNonterminal left = .ok () :=
    checkSymbol_eq_ok.mpr (declared_of_declaredName? leftNamed)
  have rightPassed : right.forM d.checkSymbol = .ok () := by
    refine forM_eq_ok.mpr fun symbol member => checkSymbol_eq_ok.mpr ?_
    obtain ⟨name, here⟩ := exists_name rightNamed member
    exact declared_of_declaredName? here
  have count : right.length = rule.right.length := by
    simpa using congrArg List.length rightNamed
  rw [check, leftPassed, rightPassed, checkLength, checkRoom, count]
  by_cases short : rule.right.length ≤ lengthLimit
  · by_cases free : d.productions.size < idLimit
    · rw [if_pos short, if_pos free]
      exact ⟨short, free⟩
    · rw [if_pos short, if_neg free]
      exact .excess fun fit => free (room fit)
  · rw [if_neg short]
    exact .excess fun fit => short (length fit)

theorem ends_declareRule {before after : List Rule} {rule : Rule} (clean : Words rules)
    (split : before ++ rule :: after = rules) (assembled : d.Assembled rules before) :
    Ends (Assembled · rules (before ++ [rule])) (Rule.Refused rules) (d.declareRule rule) := by
  obtain ⟨resolved, spelled, start, room, lengths⟩ := assembled
  have member : rule ∈ rules := by simp [← split]
  have words : Rule.uses before ++ rule.right ++ Rule.uses after = Rule.uses rules := by
    simp [← split, Rule.uses]
  refine (ends_resolveAll clean words resolved).bind ?_
  rintro ⟨later, right⟩ ⟨kept, named, productions, sameStart⟩
  dsimp only at kept named productions sameStart ⊢
  have listed : rule.left ∈ Rule.lefts rules := Rule.mem_lefts.mpr ⟨rule, member, rfl⟩
  obtain ⟨i, found⟩ := List.getElem?_of_mem listed
  have leftNamed : later.declaredName? (.nonterminal (i + 1)) = some rule.left := by
    rw [declaredName?, ← Array.getElem?_toList, kept.holds.nonterminals, found]
  rw [kept.holds.lookup_iff.mpr leftNamed]
  dsimp only
  have spells : later.Spells rule ⟨i + 1, right.toList⟩ := ⟨leftNamed, named⟩
  have count : later.productions.size = before.length := by
    rw [productions, ← Array.length_toList, spelled.length_eq]
  have space : Rule.Fit rules → later.productions.size < idLimit := by
    intro fit
    have within := fit.productions
    rw [← split, List.length_append, List.length_cons] at within
    omega
  refine (ends_call (ends_checkProduction spells (fun fit => fit.lengths rule member) space)).map ?_
  rintro _ ⟨⟨short, free⟩, passed, rfl⟩
  have recorded := kept.holds.record passed
  have extended : Rule.uses (before ++ [rule]) = Rule.uses before ++ rule.right := by
    simp [Rule.uses]
  refine ⟨⟨⟨recorded.declared, kept.holds.nonterminals, ?_⟩, ?_⟩, ?_, sameStart.trans start, ?_, ?_⟩
  · rw [extended]
    exact kept.holds.terminals
  · rw [extended]
    exact kept.room
  · have earlier : List.Forall₂ later.Spells before later.productions.toList := by
      rw [productions]
      exact spelled.imp fun _ _ spells => ⟨resolved.declaredName? kept spells.1,
        resolved.map_declaredName? kept spells.2⟩
    rw [Definition.record, Array.toList_push]
    exact List.rel_append earlier (.cons spells .nil)
  · rw [List.length_append, List.length_singleton, ← count]
    exact free
  · exact List.forall_mem_append.mpr ⟨lengths, List.forall_mem_singleton.mpr short⟩

/-! ## The definition of the rules -/

/-- All rules have been declared, with the chosen start symbol. -/
structure Read (d : Definition) (rules : List Rule) (start : Option String) : Prop where
  resolved : d.Resolved rules (Rule.uses rules)
  spelled : List.Forall₂ d.Spells rules d.productions.toList
  start : d.start.map (fun n => d.declaredName? (.nonterminal n)) = start.map some
  fit : Rule.Fit rules

theorem ends_startRule {start : Option String} (assembled : d.Assembled rules rules)
    (known : ∀ name ∈ start, ∃ rule ∈ rules, rule.left = name)
    (room : (Rule.lefts rules).length ≤ idLimit) :
    Ends (Read · rules start) (Rule.Refused rules) (d.startRule start) := by
  have fit : Rule.Fit rules :=
    ⟨room, assembled.resolved.room, assembled.room, assembled.lengths⟩
  cases start with
  | none =>
    refine ⟨assembled.resolved, assembled.spelled, ?_, fit⟩
    rw [assembled.start]
    rfl
  | some name =>
    obtain ⟨rule, member, rfl⟩ := known name rfl
    have listed : rule.left ∈ Rule.lefts rules := Rule.mem_lefts.mpr ⟨rule, member, rfl⟩
    obtain ⟨i, found⟩ := List.getElem?_of_mem listed
    have holds := assembled.resolved.holds
    have named : d.declaredName? (.nonterminal (i + 1)) = some rule.left := by
      rw [declaredName?, ← Array.getElem?_toList, holds.nonterminals, found]
    have passed : d.check (.start (i + 1)) = .ok () :=
      check_start_eq_ok.mpr (declared_of_declaredName? named)
    rw [startRule, holds.lookup_iff.mpr named]
    dsimp only
    rw [call_eq_ok.mpr ⟨passed, rfl⟩]
    refine ⟨⟨⟨(holds.record passed).declared, holds.nonterminals, holds.terminals⟩,
      assembled.resolved.room⟩, assembled.spelled, ?_, fit⟩
    exact congrArg some named

/-- The second walk begins where the first one has ended. -/
theorem Opened.assembled (opened : d.Opened rules) : d.Assembled rules [] where
  resolved := ⟨opened.holds, Nat.zero_le _⟩
  spelled := by
    rw [opened.productions]
    exact .nil
  start := opened.start
  room := Nat.zero_le _
  lengths := nofun

theorem ends_ofRules {start : Option String} (clean : Words rules)
    (known : ∀ name ∈ start, ∃ rule ∈ rules, rule.left = name) :
    Ends (Read · rules start) (Rule.Refused rules) (ofRules rules start) := by
  refine (Ends.foldlM (fun _ _ _ _ => ends_declareLeft clean) opened_empty).bind ?_
  intro d opened
  refine (Ends.foldlM (fun _ _ _ _ => ends_declareRule clean) opened.assembled).bind ?_
  intro later assembled
  exact ends_startRule assembled known opened.room

end Definition

end CanonicalLR
