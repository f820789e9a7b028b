import CanonicalLR.Proofs.Grammar.Bookkeeping
import CanonicalLR.Proofs.Grammar.Declarations

/-!
# Refused calls leave no trace

A refused call leaves the ledger as it was. So the calls that succeed are all that
counts, and the ids of a kind are handed out from one on.
-/

namespace CanonicalLR

namespace Ledger

/-- The calls of a log that succeeded. -/
def succeeded (log : List (Call × Except GrammarError Nat)) : List Call :=
  log.filterMap fun entry => entry.2.toOption.map fun _ => entry.1

/-- The ids that calls of a kind were given. -/
def issued (kind : Call → Bool) (log : List (Call × Except GrammarError Nat)) : List Nat :=
  log.filterMap fun entry => if kind entry.1 then entry.2.toOption else none

theorem perform_of_error {ledger : Ledger} {call : Call} {error : GrammarError}
    (refused : (ledger.perform call).1 = .error error) : (ledger.perform call).2 = ledger :=
  Booking.traceless_ofCall call ledger error _ (Prod.ext refused rfl)

/-- The calls that succeed do so without the others, with the same answers. -/
theorem log_succeeded (ledger : Ledger) (calls : List Call) :
    ledger.log (succeeded (ledger.log calls)) = (ledger.log calls).filter (·.2.isOk) := by
  induction calls generalizing ledger with
  | nil => rfl
  | cons call rest ih =>
    cases answer : (ledger.perform call).1 with
    | error cause =>
      have same := ih ledger
      simpa [log, succeeded, answer, perform_of_error answer, Except.toOption, Except.isOk,
        Except.toBool] using same
    | ok id =>
      have same := ih (ledger.perform call).2
      simpa [log, succeeded, answer, Except.toOption, Except.isOk, Except.toBool] using same

/-- They end in the same ledger. -/
theorem foldl_succeeded (ledger : Ledger) (calls : List Call) :
    (succeeded (ledger.log calls)).foldl (fun ledger call => (ledger.perform call).2) ledger =
      calls.foldl (fun ledger call => (ledger.perform call).2) ledger := by
  induction calls generalizing ledger with
  | nil => rfl
  | cons call rest ih =>
    cases answer : (ledger.perform call).1 with
    | error cause =>
      have same := ih ledger
      simpa [log, succeeded, answer, perform_of_error answer, Except.toOption] using same
    | ok id =>
      have same := ih (ledger.perform call).2
      simpa [log, succeeded, answer, Except.toOption] using same

theorem Keeps.succeeded_log {ledger : Ledger} {d : Definition} (keeps : ledger.Keeps d)
    (calls : List Call) : succeeded (ledger.log calls) = d.carriedOut calls := by
  induction calls generalizing ledger d with
  | nil => rfl
  | cons call rest ih =>
    cases checked : d.check call with
    | error cause =>
      have performed := keeps.refused checked
      have later := ih keeps
      simpa [log, succeeded, performed, Except.toOption, Definition.carriedOut, checked] using later
    | ok _ =>
      obtain ⟨next, performed, kept⟩ := keeps.accepted checked
      have later := ih kept
      simpa [log, succeeded, performed, Except.toOption, Definition.carriedOut, checked] using later

/-- A kind of call gives out the ids one after another while there is room. -/
structure Numbers (kind : Call → Bool) (count : Definition → Nat) : Prop where
  given : ∀ {d : Definition} {call : Call}, d.check call = .ok () → kind call = true →
    count d < Definition.idLimit ∧ (d.record call).2 = count d + 1 ∧
      count (d.record call).1 = count d + 1
  others : ∀ {d : Definition} {call : Call}, kind call = false →
    count (d.record call).1 = count d

theorem numbers_terminals : Numbers (·.terminal?.isSome) (·.terminals.size) where
  given := by
    rintro d (_ | _ | _ | _) passed ⟨⟩
    obtain ⟨-, room⟩ := Definition.bind_eq_ok.mp passed
    exact ⟨Definition.checkRoom_eq_ok.mp room, rfl, Array.size_push _⟩
  others := by
    rintro d (_ | _ | _ | _) ⟨⟩ <;> rfl

theorem numbers_nonterminals : Numbers (·.nonterminal?.isSome) (·.nonterminals.size) where
  given := by
    rintro d (_ | _ | _ | _) passed ⟨⟩
    obtain ⟨-, room⟩ := Definition.bind_eq_ok.mp passed
    exact ⟨Definition.checkRoom_eq_ok.mp room, rfl, Array.size_push _⟩
  others := by
    rintro d (_ | _ | _ | _) ⟨⟩ <;> rfl

theorem numbers_productions : Numbers (·.production?.isSome) (·.productions.size) where
  given := by
    rintro d (_ | _ | _ | _) passed ⟨⟩
    exact ⟨(Definition.check_production_eq_ok.mp passed).2, rfl, Array.size_push _⟩
  others := by
    rintro d (_ | _ | _ | _) ⟨⟩ <;> rfl

theorem Numbers.issued_log {kind : Call → Bool} {count : Definition → Nat}
    (numbers : Numbers kind count) {ledger : Ledger} {d : Definition} (keeps : ledger.Keeps d)
    (room : count d ≤ Definition.idLimit) (calls : List Call) : ∃ more,
      count d + more ≤ Definition.idLimit ∧
        issued kind (ledger.log calls) = List.range' (count d + 1) more := by
  induction calls generalizing ledger d with
  | nil => exact ⟨0, room, rfl⟩
  | cons call rest ih =>
    cases checked : d.check call with
    | error cause =>
      have performed := keeps.refused checked
      have later := ih keeps room
      simpa [log, issued, performed, Except.toOption] using later
    | ok _ =>
      obtain ⟨next, performed, kept⟩ := keeps.accepted checked
      cases counted : kind call with
      | false =>
        have same := numbers.others (d := d) counted
        have later := ih kept (same ▸ room)
        simpa [log, issued, performed, counted, same] using later
      | true =>
        obtain ⟨free, id, last⟩ := numbers.given checked counted
        obtain ⟨more, inside, later⟩ := ih kept (last ▸ free)
        refine ⟨more + 1, by omega, ?_⟩
        have first : issued kind (ledger.log (call :: rest)) =
            (d.record call).2 :: issued kind (next.log rest) := by
          simp [log, issued, performed, counted, Except.toOption]
        rw [first, later, id, last, List.range'_succ]

end Ledger

namespace Definition

/-- The calls that are carried out are carried out without the others, and none is refused. -/
theorem foldlM_carriedOut (d : Definition) (calls : List Call) :
    (d.carriedOut calls).foldlM (fun d call => Prod.fst <$> d.call call) d =
      .ok (calls.foldl attempt d) := by
  induction calls generalizing d with
  | nil => rfl
  | cons call rest ih =>
    cases checked : d.check call with
    | error cause =>
      have same := ih d
      simpa [carriedOut, attempt, checked] using same
    | ok _ =>
      have called : d.call call = .ok (d.record call) := call_eq_ok.mpr ⟨checked, rfl⟩
      have later := ih (d.record call).1
      simpa [carriedOut, attempt, checked, called, bind, Except.bind] using later

theorem foldl_attempt {d later : Definition} {calls : List Call}
    (carried : calls.foldlM (fun d call => Prod.fst <$> d.call call) d = .ok later) :
    calls.foldl attempt d = later := by
  induction calls generalizing d with
  | nil => exact Except.ok.inj carried
  | cons call rest ih =>
    rw [List.foldlM_cons, Definition.call] at carried
    cases checked : d.check call with
    | error cause => simp [checked, bind, Except.bind] at carried
    | ok _ =>
      rw [List.foldl_cons, attempt_of_ok checked]
      exact ih (by simpa [checked, bind, Except.bind, pure, Except.pure] using carried)

end Definition

/-- Where no call is refused, none is skipped. -/
theorem Grammar.ofCalls_of_define {calls : List Call} {g : Grammar}
    (defined : Grammar.define calls = .ok g) : Grammar.ofCalls calls = .ok g := by
  unfold Grammar.define at defined
  cases carried : calls.foldlM (fun d call => Prod.fst <$> Definition.call d call)
    ({} : Definition) with
  | error cause => simp [carried, bind, Except.bind] at defined
  | ok later =>
    rw [carried] at defined
    rw [Grammar.ofCalls, Definition.ofCalls, Definition.foldl_attempt carried]
    exact defined

theorem Grammar.define_carriedOut (calls : List Call) :
    Grammar.define (Definition.carriedOut {} calls) = Grammar.ofCalls calls := by
  unfold Grammar.define
  rw [Definition.foldlM_carriedOut]
  rfl

namespace Ledger

/-- A call that fails leaves every map, the start symbol and the counters as they were. So a
sequence of calls comes to what its successful calls come to by themselves, with the same answers
and the same grammar or error in the end, and the ids of a kind are 1, 2, 3 and so on, of which the
last is at most 65534. -/
theorem refused_calls_leave_no_trace (calls : List Call) :
    (∀ call error later, (ofCalls calls).perform call = (.error error, later) →
      later = ofCalls calls) ∧
    ((ofCalls calls).Keeps (Definition.ofCalls calls) ∧ ∀ call,
      ((ofCalls calls).perform call).1 = Prod.snd <$> (Definition.ofCalls calls).call call) ∧
    ofCalls (succeeded (log {} calls)) = ofCalls calls ∧
    log {} (succeeded (log {} calls)) = (log {} calls).filter (·.2.isOk) ∧
    Grammar.define (succeeded (log {} calls)) = Grammar.ofCalls calls ∧
    ∃ terminals ≤ Definition.idLimit, ∃ nonterminals ≤ Definition.idLimit,
      ∃ productions ≤ Definition.idLimit,
        issued (·.terminal?.isSome) (log {} calls) = List.range' 1 terminals ∧
        issued (·.nonterminal?.isSome) (log {} calls) = List.range' 1 nonterminals ∧
        issued (·.production?.isSome) (log {} calls) = List.range' 1 productions := by
  have keeps := keeps_ofCalls calls
  have left := keeps_empty.succeeded_log calls
  refine ⟨fun call => Booking.traceless_ofCall call (ofCalls calls),
    ⟨keeps, fun call => (keeps.perform call).1⟩, foldl_succeeded {} calls, log_succeeded {} calls,
    ?_, ?_⟩
  · rw [left]
    exact Grammar.define_carriedOut calls
  · have none : 0 ≤ Definition.idLimit := Nat.zero_le _
    obtain ⟨terminals, terminalRoom, terminalIds⟩ :=
      numbers_terminals.issued_log keeps_empty none calls
    obtain ⟨nonterminals, nonterminalRoom, nonterminalIds⟩ :=
      numbers_nonterminals.issued_log keeps_empty none calls
    obtain ⟨productions, productionRoom, productionIds⟩ :=
      numbers_productions.issued_log keeps_empty none calls
    have zero (count : Nat) (inside : 0 + count ≤ Definition.idLimit) :
        count ≤ Definition.idLimit := by rwa [Nat.zero_add] at inside
    exact ⟨terminals, zero _ terminalRoom, nonterminals, zero _ nonterminalRoom,
      productions, zero _ productionRoom, terminalIds, nonterminalIds, productionIds⟩

/-- A name that has been refused takes no id. -/
example : log {} [.terminal "a", .terminal "a", .nonterminal "a", .terminal "b"] =
    [(.terminal "a", .ok 1), (.terminal "a", .error (.duplicateSymbol "a")),
      (.nonterminal "a", .error (.duplicateSymbol "a")), (.terminal "b", .ok 2)] := rfl

end Ledger

end CanonicalLR
