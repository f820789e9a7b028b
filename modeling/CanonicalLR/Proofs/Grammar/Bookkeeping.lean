import CanonicalLR.Proofs.Grammar.Ledger
import CanonicalLR.Proofs.Grammar.Naming

/-!
# Ledgers keep definitions

The maps of a ledger hold what a definition lists, the reserved entries in front,
and its counters are one ahead. A call makes of both the same, in steps or at
once.
-/

namespace CanonicalLR

/-- Values with the numbers from `first` on, as they are put in one after the other. -/
def numbered {α : Type} (first : Nat) : List α → List (Nat × α)
  | [] => []
  | value :: rest => (first, value) :: numbered (first + 1) rest

theorem lookup_numbered {α : Type} (first : Nat) (values : List α) (key : Nat) :
    (numbered first values).lookup key = if key < first then none else values[key - first]? := by
  induction values generalizing first with
  | nil => simp [numbered]
  | cons value rest ih =>
    rw [numbered, Cells.lookup_cons, ih]
    rcases Nat.lt_trichotomy key first with below | rfl | above
    · rw [if_neg (by omega), if_pos (by omega), if_pos below]
    · simp
    · obtain ⟨more, rfl⟩ := Nat.exists_eq_add_of_lt above
      rw [if_neg (by omega), if_neg (by omega), if_neg (by omega),
        Nat.add_sub_add_right, Nat.add_assoc, Nat.add_sub_cancel_left, Nat.add_sub_cancel_left]
      rfl

/-- The next number is put in at the end. -/
theorem put_numbered {α : Type} (first : Nat) (values : List α) (value : α) :
    (Cells.mk (numbered first values)).put (first + values.length) value =
      ⟨numbered first (values ++ [value])⟩ := by
  have appended : ∀ first, Cells.replaceOrAppend (first + values.length) value
      (numbered first values) = numbered first (values ++ [value]) := by
    induction values with
    | nil => exact fun _ => rfl
    | cons head tail ih =>
      intro first
      have other : first ≠ first + (head :: tail).length := by simp
      rw [numbered, Cells.replaceOrAppend, if_neg other, List.length_cons, ← Nat.add_assoc,
        Nat.add_right_comm, ih, List.cons_append, numbered]
  exact congrArg Cells.mk (appended first)

namespace Ledger

/-- The maps of a ledger hold a definition, the reserved entries in front, and its counters are one
ahead of what has been declared. -/
structure Keeps (ledger : Ledger) (d : Definition) : Prop where
  terminals : ledger.terminals = ⟨numbered 0 (endMarkerName :: d.terminals.toList)⟩
  nonterminals : ledger.nonterminals = ⟨numbered 0 ("" :: d.nonterminals.toList)⟩
  productions : ledger.productions = ⟨numbered 1 d.productions.toList⟩
  names : ∀ name, ledger.names[name]? = d.lookup? name
  start : ledger.start = d.start
  nextTerminal : ledger.nextTerminal.toNat = d.terminals.size + 1
  nextNonterminal : ledger.nextNonterminal.toNat = d.nonterminals.size + 1
  nextProduction : ledger.nextProduction.toNat = d.productions.size + 1

theorem keeps_empty : Keeps {} {} where
  terminals := rfl
  nonterminals := rfl
  productions := rfl
  names name := by
    have empty : ({} : Definition).symbols[name]? = none := rfl
    rw [Definition.lookup?, empty]
    show (Std.TreeMap.insert ∅ endMarkerName (Symbol.terminal endMarker))[name]? = _
    rw [Std.TreeMap.getElem?_insert]
    by_cases same : name = endMarkerName
    · simp [same]
    · simp [same, Ne.symm same]
  start := rfl
  nextTerminal := rfl
  nextNonterminal := rfl
  nextProduction := rfl

namespace Keeps

variable {ledger : Ledger} {d : Definition} (keeps : ledger.Keeps d)
include keeps

theorem get?_nonterminals_eq_none_iff {n : Nat} :
    ledger.nonterminals.get? n = none ↔ d.nonterminals.size < n := by
  rw [keeps.nonterminals, Cells.get?, lookup_numbered, if_neg (Nat.not_lt_zero n), Nat.sub_zero,
    List.getElem?_eq_none_iff, List.length_cons, Array.length_toList]
  exact Nat.succ_le_iff

theorem get?_terminals_eq_none_iff {t : Nat} :
    ledger.terminals.get? t = none ↔ d.terminals.size < t := by
  rw [keeps.terminals, Cells.get?, lookup_numbered, if_neg (Nat.not_lt_zero t), Nat.sub_zero,
    List.getElem?_eq_none_iff, List.length_cons, Array.length_toList]
  exact Nat.succ_le_iff

/-! ### Checks of the ledger are the checks of the definition -/

theorem checkName (name : String) :
    (Booking.checkName name).run.run ledger = (d.checkName name, ledger) := by
  unfold Booking.checkName Definition.checkName
  rw [Booking.run_refuseIf_then]
  split
  · rfl
  rw [Booking.run_refuseIf_then]
  split
  · rfl
  rename_i unreserved
  have known : ledger.names.contains name = d.symbols.contains name := by
    rw [← Std.TreeMap.isSome_getElem?_eq_contains, ← Std.TreeMap.isSome_getElem?_eq_contains,
      keeps.names, Definition.lookup?, if_neg unreserved]
  rw [Booking.run_get_then, Booking.run_refuseIf, known]

theorem checkNonterminal (n : Nat) :
    (Booking.checkNonterminal n).run.run ledger = (d.checkNonterminal n, ledger) := by
  unfold Booking.checkNonterminal Definition.checkNonterminal
  rw [Booking.run_refuseIf_then]
  split
  · rfl
  have unknown := keeps.get?_nonterminals_eq_none_iff (n := n)
  rw [Booking.run_get_then, Booking.run_refuseIf]
  by_cases inside : n ≤ d.nonterminals.size
  · rw [if_pos inside, if_neg (unknown.not.mpr (Nat.not_lt.mpr inside))]
  · rw [if_neg inside, if_pos (unknown.mpr (Nat.lt_of_not_le inside))]

theorem checkTerminal (t : Nat) :
    (Booking.checkTerminal t).run.run ledger = (d.checkTerminal t, ledger) := by
  unfold Booking.checkTerminal Definition.checkTerminal
  rw [Booking.run_refuseIf_then]
  split
  · rfl
  have unknown := keeps.get?_terminals_eq_none_iff (t := t)
  rw [Booking.run_get_then, Booking.run_refuseIf]
  by_cases inside : t ≤ d.terminals.size
  · rw [if_pos inside, if_neg (unknown.not.mpr (Nat.not_lt.mpr inside))]
  · rw [if_neg inside, if_pos (unknown.mpr (Nat.lt_of_not_le inside))]

theorem checkSymbol (symbol : Symbol) :
    (Booking.checkSymbol symbol).run.run ledger = (d.checkSymbol symbol, ledger) := by
  cases symbol with
  | terminal t => exact keeps.checkTerminal t
  | nonterminal n => exact keeps.checkNonterminal n

theorem checkSymbols (symbols : List Symbol) :
    (symbols.forM Booking.checkSymbol).run.run ledger = (symbols.forM d.checkSymbol, ledger) := by
  induction symbols with
  | nil => rfl
  | cons symbol rest ih =>
    have both : (symbol :: rest).forM Booking.checkSymbol =
        Booking.checkSymbol symbol >>= fun _ => rest.forM Booking.checkSymbol := rfl
    have alone : (symbol :: rest).forM d.checkSymbol =
        d.checkSymbol symbol >>= fun _ => rest.forM d.checkSymbol := rfl
    rw [both, alone, Booking.run_bind, keeps.checkSymbol]
    cases d.checkSymbol symbol with
    | error cause => rfl
    | ok _ => exact ih

end Keeps

/-- A program answers as a check tells, and when it succeeds its ledger keeps a later definition. -/
def Answers (ledger : Ledger) (program : Booking Nat) (verdict : Except GrammarError Unit)
    (outcome : Definition × Nat) : Prop :=
  match verdict with
  | .error cause => program.run.run ledger = (.error cause, ledger)
  | .ok _ => ∃ later, program.run.run ledger = (.ok outcome.2, later) ∧ later.Keeps outcome.1

theorem Answers.after {ledger : Ledger} {first : Booking Unit} {second : Unit → Booking Nat}
    {verdict rest : Except GrammarError Unit} {outcome : Definition × Nat}
    (checked : first.run.run ledger = (verdict, ledger))
    (answers : verdict = .ok () → ledger.Answers (second ()) rest outcome) :
    ledger.Answers (first >>= second) (verdict >>= fun _ => rest) outcome := by
  unfold Answers
  rw [Booking.run_bind, checked]
  cases verdict with
  | error cause => rfl
  | ok _ => exact answers rfl

theorem Answers.seen {ledger : Ledger} {rest : Ledger → Booking Nat}
    {verdict : Except GrammarError Unit} {outcome : Definition × Nat}
    (answers : ledger.Answers (rest ledger) verdict outcome) :
    ledger.Answers (get >>= rest) verdict outcome := by
  unfold Answers at answers ⊢
  rwa [Booking.run_get_then]

/-- The next id is taken and what comes then only writes. -/
theorem Answers.numbered {ledger : Ledger} {id : UInt16} {declared : Nat}
    (next : id.toNat = declared + 1) {writes : UInt16 → Booking Nat} {outcome : Definition × Nat}
    (written : declared < Definition.idLimit → ∃ later,
      (writes (id + 1)).run.run ledger = (.ok outcome.2, later) ∧ later.Keeps outcome.1) :
    ledger.Answers (Booking.successor id >>= writes) (Definition.checkRoom declared) outcome := by
  unfold Answers
  rw [Booking.run_bind, Booking.run_successor next]
  unfold Definition.checkRoom
  by_cases room : declared < Definition.idLimit
  · rw [if_pos room]
    exact written room
  · rw [if_neg room]
    rfl

theorem toNat_add_one {id : UInt16} {declared : Nat} (next : id.toNat = declared + 1)
    (room : declared < Definition.idLimit) : (id + 1).toNat = declared + 1 + 1 := by
  have limit : Definition.idLimit = 65534 := rfl
  have one : (1 : UInt16).toNat = 1 := rfl
  rw [UInt16.toNat_add, one, next, Nat.mod_eq_of_lt (by omega)]

/-- A name is put under its symbol once it has passed its check. -/
theorem Keeps.names_insert {ledger : Ledger} {d : Definition} (keeps : ledger.Keeps d)
    {name : String} (passed : d.checkName name = .ok ()) {declared symbol : Symbol}
    (same : declared = symbol) (other : String) :
    (ledger.names.insert name declared)[other]? =
      if other = endMarkerName then some (.terminal endMarker)
      else (d.symbols.insert name symbol)[other]? := by
  subst same
  obtain ⟨unreserved, -⟩ := Definition.of_checkName passed
  rw [Std.TreeMap.getElem?_insert, Std.TreeMap.getElem?_insert, keeps.names, Definition.lookup?]
  by_cases new : name = other
  · subst new
    simp [unreserved]
  · simp [new]

/-! ### Writes keep the definition that they make -/

theorem Keeps.terminal {ledger : Ledger} {d : Definition} (keeps : ledger.Keeps d) {name : String}
    (passed : d.checkName name = .ok ()) (room : d.terminals.size < Definition.idLimit) :
    Keeps { ledger with
      nextTerminal := ledger.nextTerminal + 1
      names := ledger.names.insert name (.terminal ledger.nextTerminal.toNat)
      terminals := ledger.terminals.put ledger.nextTerminal.toNat name }
      (d.record (.terminal name)).1 where
  terminals := by
    have next : ledger.nextTerminal.toNat = 0 + (endMarkerName :: d.terminals.toList).length := by
      simpa using keeps.nextTerminal
    rw [keeps.terminals, next, put_numbered]
    simp [Definition.record]
  nonterminals := keeps.nonterminals
  productions := keeps.productions
  names := keeps.names_insert passed (congrArg Symbol.terminal keeps.nextTerminal)
  start := keeps.start
  nextTerminal := by simpa [Definition.record] using toNat_add_one keeps.nextTerminal room
  nextNonterminal := keeps.nextNonterminal
  nextProduction := keeps.nextProduction

theorem Keeps.nonterminal {ledger : Ledger} {d : Definition} (keeps : ledger.Keeps d)
    {name : String} (passed : d.checkName name = .ok ())
    (room : d.nonterminals.size < Definition.idLimit) :
    Keeps { ledger with
      nextNonterminal := ledger.nextNonterminal + 1
      names := ledger.names.insert name (.nonterminal ledger.nextNonterminal.toNat)
      nonterminals := ledger.nonterminals.put ledger.nextNonterminal.toNat name }
      (d.record (.nonterminal name)).1 where
  terminals := keeps.terminals
  nonterminals := by
    have next : ledger.nextNonterminal.toNat = 0 + ("" :: d.nonterminals.toList).length := by
      simpa using keeps.nextNonterminal
    rw [keeps.nonterminals, next, put_numbered]
    simp [Definition.record]
  productions := keeps.productions
  names := keeps.names_insert passed (congrArg Symbol.nonterminal keeps.nextNonterminal)
  start := keeps.start
  nextTerminal := keeps.nextTerminal
  nextNonterminal := by simpa [Definition.record] using toNat_add_one keeps.nextNonterminal room
  nextProduction := keeps.nextProduction

theorem Keeps.production {ledger : Ledger} {d : Definition} (keeps : ledger.Keeps d)
    {left : Nat} {right : List Symbol} (room : d.productions.size < Definition.idLimit) :
    Keeps { ledger with
      nextProduction := ledger.nextProduction + 1
      productions := ledger.productions.put ledger.nextProduction.toNat ⟨left, right⟩ }
      (d.record (.production left right)).1 where
  terminals := keeps.terminals
  nonterminals := keeps.nonterminals
  productions := by
    have next : ledger.nextProduction.toNat = 1 + d.productions.toList.length := by
      rw [keeps.nextProduction, Array.length_toList, Nat.add_comm]
    rw [keeps.productions, next, put_numbered]
    simp [Definition.record]
  names := keeps.names
  start := keeps.start
  nextTerminal := keeps.nextTerminal
  nextNonterminal := keeps.nextNonterminal
  nextProduction := by simpa [Definition.record] using toNat_add_one keeps.nextProduction room

/-- A call does to a ledger what it does to the definition, and gets the same answer. -/
theorem Keeps.answers {ledger : Ledger} {d : Definition} (keeps : ledger.Keeps d) (call : Call) :
    ledger.Answers (Booking.ofCall call) (d.check call) (d.record call) := by
  cases call with
  | terminal name =>
    refine .after (keeps.checkName name) fun passed =>
      .seen (.numbered keeps.nextTerminal fun room => ?_)
    refine ⟨_, ?_, keeps.terminal passed room⟩
    rw [Booking.run_write_then, Booking.run_write_then, Booking.run_write_then]
    exact congrArg (Except.ok · , _) keeps.nextTerminal
  | nonterminal name =>
    refine .after (keeps.checkName name) fun passed =>
      .seen (.numbered keeps.nextNonterminal fun room => ?_)
    refine ⟨_, ?_, keeps.nonterminal passed room⟩
    rw [Booking.run_write_then, Booking.run_write_then, Booking.run_write_then]
    exact congrArg (Except.ok · , _) keeps.nextNonterminal
  | production left right =>
    refine .after (keeps.checkNonterminal left) fun _ => .after ?_ fun _ =>
      .after (keeps.checkSymbols right) fun _ =>
        .seen (.numbered keeps.nextProduction fun room => ?_)
    · rw [Booking.run_refuseIf, Definition.checkLength]
      by_cases short : right.length ≤ Definition.lengthLimit
      · rw [if_pos short, if_neg (Nat.not_lt.mpr short)]
      · rw [if_neg short, if_pos (Nat.lt_of_not_le short)]
    · exact ⟨_, congrArg (Except.ok · , _) keeps.nextProduction, keeps.production room⟩
  | start symbol =>
    have alone : d.check (.start symbol) = d.checkNonterminal symbol >>= fun _ => .ok () := by
      show d.checkNonterminal symbol = _
      cases d.checkNonterminal symbol <;> rfl
    rw [alone]
    exact .after (keeps.checkNonterminal symbol) fun _ => ⟨_, rfl, { keeps with start := rfl }⟩

theorem Keeps.refused {ledger : Ledger} {d : Definition} (keeps : ledger.Keeps d) {call : Call}
    {cause : GrammarError} (checked : d.check call = .error cause) :
    ledger.perform call = (.error cause, ledger) := by
  have answers := keeps.answers call
  unfold Answers at answers
  rwa [checked] at answers

theorem Keeps.accepted {ledger : Ledger} {d : Definition} (keeps : ledger.Keeps d) {call : Call}
    (checked : d.check call = .ok ()) : ∃ later,
      ledger.perform call = (.ok (d.record call).2, later) ∧ later.Keeps (d.record call).1 := by
  have answers := keeps.answers call
  unfold Answers at answers
  rwa [checked] at answers

/-- The answer of a call is that of the definition. -/
theorem Keeps.perform {ledger : Ledger} {d : Definition} (keeps : ledger.Keeps d) (call : Call) :
    (ledger.perform call).1 = Prod.snd <$> d.call call ∧
      (ledger.perform call).2.Keeps (d.attempt call) := by
  unfold Definition.call Definition.attempt
  cases checked : d.check call with
  | error cause =>
    rw [keeps.refused checked]
    exact ⟨rfl, keeps⟩
  | ok _ =>
    obtain ⟨later, performed, kept⟩ := keeps.accepted checked
    rw [performed]
    exact ⟨rfl, kept⟩

theorem Keeps.foldl {ledger : Ledger} {d : Definition} (keeps : ledger.Keeps d)
    (calls : List Call) :
    (calls.foldl (fun ledger call => (ledger.perform call).2) ledger).Keeps
      (calls.foldl Definition.attempt d) := by
  induction calls generalizing ledger d with
  | nil => exact keeps
  | cons call rest ih => exact ih (keeps.perform call).2

theorem keeps_ofCalls (calls : List Call) : (ofCalls calls).Keeps (Definition.ofCalls calls) :=
  keeps_empty.foldl calls

end Ledger

end CanonicalLR
