import CanonicalLR.Cells
import CanonicalLR.Grammar.Definition

/-!
# Calls in steps

Declarations are entered step by step into a ledger of several maps and counters
of sixteen bits, and a call may fail between its steps. No call does so once it
has begun to write, so that what is refused leaves the ledger as it was.
-/

namespace CanonicalLR

/-- What has been declared, the reserved entries included, and the next id of each kind. -/
structure Ledger where
  terminals : Cells String := ⟨[(endMarker, endMarkerName)]⟩
  nonterminals : Cells String := ⟨[(augmentedStart, "")]⟩
  productions : Cells Production := .empty
  names : Std.TreeMap String Symbol := .insert ∅ endMarkerName (.terminal endMarker)
  start : Option Nat := none
  nextTerminal : UInt16 := 1
  nextNonterminal : UInt16 := 1
  nextProduction : UInt16 := 1

/-- A program on a ledger. When it fails, what it has written stays written. -/
abbrev Booking := ExceptT GrammarError (StateM Ledger)

namespace Booking

def refuseIf (condition : Prop) [Decidable condition] (error : GrammarError) : Booking Unit :=
  if condition then throw error else pure ()

def checkName (name : String) : Booking Unit := do
  refuseIf (name = "" ∨ name.toList.any Text.isBlank) (.invalidName name)
  refuseIf (name = endMarkerName) (.reservedSymbol name)
  let ledger ← get
  refuseIf (ledger.names.contains name) (.duplicateSymbol name)

def checkNonterminal (n : Nat) : Booking Unit := do
  refuseIf (n = augmentedStart) (.reservedSymbol Definition.augmentedStartLabel)
  let ledger ← get
  refuseIf (ledger.nonterminals.get? n = none) .foreignSymbol

def checkTerminal (t : Nat) : Booking Unit := do
  refuseIf (t = endMarker) (.reservedSymbol endMarkerName)
  let ledger ← get
  refuseIf (ledger.terminals.get? t = none) .foreignSymbol

def checkSymbol : Symbol → Booking Unit
  | .terminal t => checkTerminal t
  | .nonterminal n => checkNonterminal n

/-- The id after another, unless it was the last that sixteen bits hold. -/
def successor (id : UInt16) : Booking UInt16 := do
  refuseIf (id = 65535) .tooManySymbols
  return id + 1

def terminal (name : String) : Booking Nat := do
  checkName name
  let id := (← get).nextTerminal
  let next ← successor id
  modify fun ledger => { ledger with nextTerminal := next }
  modify fun ledger => { ledger with names := ledger.names.insert name (.terminal id.toNat) }
  modify fun ledger => { ledger with terminals := ledger.terminals.put id.toNat name }
  return id.toNat

def nonterminal (name : String) : Booking Nat := do
  checkName name
  let id := (← get).nextNonterminal
  let next ← successor id
  modify fun ledger => { ledger with nextNonterminal := next }
  modify fun ledger => { ledger with names := ledger.names.insert name (.nonterminal id.toNat) }
  modify fun ledger => { ledger with nonterminals := ledger.nonterminals.put id.toNat name }
  return id.toNat

def production (left : Nat) (right : List Symbol) : Booking Nat := do
  checkNonterminal left
  refuseIf (Definition.lengthLimit < right.length) .tooManySymbols
  right.forM checkSymbol
  let id := (← get).nextProduction
  let next ← successor id
  modify fun ledger => { ledger with nextProduction := next }
  modify fun ledger => { ledger with productions := ledger.productions.put id.toNat ⟨left, right⟩ }
  return id.toNat

def start (symbol : Nat) : Booking Nat := do
  checkNonterminal symbol
  modify fun ledger => { ledger with start := some symbol }
  return symbol

def ofCall : Call → Booking Nat
  | .terminal name => terminal name
  | .nonterminal name => nonterminal name
  | .production left right => production left right
  | .start symbol => start symbol

end Booking

namespace Ledger

/-- Carry out a call as far as it goes. -/
def perform (ledger : Ledger) (call : Call) : Except GrammarError Nat × Ledger :=
  (Booking.ofCall call).run.run ledger

/-- Each call with its answer, going on after failures. -/
def log (ledger : Ledger) : List Call → List (Call × Except GrammarError Nat)
  | [] => []
  | call :: rest => (call, (ledger.perform call).1) :: log (ledger.perform call).2 rest

def ofCalls (calls : List Call) : Ledger :=
  calls.foldl (fun ledger call => (ledger.perform call).2) {}

end Ledger

/-! ## Checks come before writes -/

namespace Booking

variable {α β : Type}

/-- The ledger is read and not written. -/
def Reads (program : Booking α) : Prop :=
  ∀ ledger, (program.run.run ledger).2 = ledger

/-- Where the program fails, the ledger is as it was. -/
def Traceless (program : Booking α) : Prop :=
  ∀ ledger error later, program.run.run ledger = (.error error, later) → later = ledger

/-- The program does not fail. -/
def Succeeds (program : Booking α) : Prop :=
  ∀ ledger, ∃ value later, program.run.run ledger = (.ok value, later)

theorem run_bind (first : Booking α) (second : α → Booking β) (ledger : Ledger) :
    (first >>= second).run.run ledger =
      match first.run.run ledger with
      | (.ok value, later) => (second value).run.run later
      | (.error error, later) => (.error error, later) := by
  rw [ExceptT.run_bind, StateT.run_bind]
  generalize first.run.run ledger = x
  rcases x with ⟨_ | _, later⟩ <;> rfl

theorem run_refuseIf (condition : Prop) [Decidable condition] (error : GrammarError)
    (ledger : Ledger) : (refuseIf condition error).run.run ledger =
      (if condition then .error error else .ok (), ledger) := by
  unfold refuseIf
  split <;> rfl

theorem run_refuseIf_then (condition : Prop) [Decidable condition] (error : GrammarError)
    (rest : Booking α) (ledger : Ledger) :
    (refuseIf condition error >>= fun _ => rest).run.run ledger =
      if condition then (.error error, ledger) else rest.run.run ledger := by
  rw [run_bind, run_refuseIf]
  by_cases holds : condition
  · rw [if_pos holds, if_pos holds]
  · rw [if_neg holds, if_neg holds]

theorem run_write_then (change : Ledger → Ledger) (rest : Booking α) (ledger : Ledger) :
    (modify change >>= fun _ => rest).run.run ledger = rest.run.run (change ledger) :=
  rfl

theorem run_get_then (rest : Ledger → Booking α) (ledger : Ledger) :
    (get >>= rest).run.run ledger = (rest ledger).run.run ledger :=
  rfl

/-- The counter runs out where the ids do. -/
theorem run_successor {id : UInt16} {declared : Nat} (next : id.toNat = declared + 1)
    (ledger : Ledger) :
    (successor id).run.run ledger =
      ((fun _ => id + 1) <$> Definition.checkRoom declared, ledger) := by
  unfold successor Definition.checkRoom
  have last : id = 65535 ↔ ¬ declared < Definition.idLimit := by
    rw [← UInt16.toNat_inj, next]
    have limit : (65535 : UInt16).toNat = 65535 := rfl
    have idLimit : Definition.idLimit = 65534 := rfl
    have small := next ▸ id.toNat_lt
    omega
  rw [run_refuseIf_then]
  by_cases room : declared < Definition.idLimit
  · rw [if_neg fun same => last.mp same room, if_pos room]
    rfl
  · rw [if_pos (last.mpr room), if_neg room]
    rfl

theorem reads_refuseIf {condition : Prop} [Decidable condition] {error : GrammarError} :
    Reads (refuseIf condition error) :=
  fun ledger => congrArg Prod.snd (run_refuseIf condition error ledger)

theorem reads_get : Reads (get : Booking Ledger) :=
  fun _ => rfl

theorem reads_pure (value : α) : Reads (pure value) :=
  fun _ => rfl

theorem Reads.bind {first : Booking α} {second : α → Booking β} (reads : Reads first)
    (rest : ∀ value, Reads (second value)) : Reads (first >>= second) := by
  intro ledger
  rw [run_bind]
  have same := reads ledger
  split
  · rename_i value later ran
    rw [ran] at same
    exact (rest value later).trans same
  · rename_i error later ran
    rwa [ran] at same

theorem Reads.then {first : Booking α} {second : α → Booking β} (reads : Reads first)
    (rest : ∀ value, Traceless (second value)) : Traceless (first >>= second) := by
  intro ledger error later failed
  rw [run_bind] at failed
  have same := reads ledger
  split at failed
  · rename_i value middle ran
    rw [ran] at same
    exact (rest value middle error later failed).trans same
  · rename_i cause middle ran
    rw [ran] at same
    exact (Prod.mk.inj failed).2.symm.trans same

theorem Succeeds.traceless {program : Booking α} (succeeds : Succeeds program) :
    Traceless program := by
  intro ledger error later failed
  obtain ⟨value, final, ran⟩ := succeeds ledger
  cases ran.symm.trans failed

theorem succeeds_pure (value : α) : Succeeds (pure value) :=
  fun ledger => ⟨value, ledger, rfl⟩

/-- A write does not fail. -/
theorem Succeeds.write {rest : Booking α} (succeeds : Succeeds rest) (change : Ledger → Ledger) :
    Succeeds (do modify change; rest) := by
  intro ledger
  rw [run_bind]
  exact succeeds (change ledger)

theorem reads_checkName (name : String) : Reads (checkName name) :=
  reads_refuseIf.bind fun _ => reads_refuseIf.bind fun _ =>
    reads_get.bind fun _ => reads_refuseIf

theorem reads_checkNonterminal (n : Nat) : Reads (checkNonterminal n) :=
  reads_refuseIf.bind fun _ => reads_get.bind fun _ => reads_refuseIf

theorem reads_checkSymbol (symbol : Symbol) : Reads (checkSymbol symbol) := by
  cases symbol with
  | terminal t =>
    exact reads_refuseIf.bind fun _ => reads_get.bind fun _ => reads_refuseIf
  | nonterminal n => exact reads_checkNonterminal n

theorem reads_forM {check : α → Booking Unit} (reads : ∀ value, Reads (check value))
    (values : List α) : Reads (values.forM check) := by
  induction values with
  | nil => exact reads_pure _
  | cons head tail ih => exact (reads head).bind fun _ => ih

theorem reads_successor (id : UInt16) : Reads (successor id) :=
  reads_refuseIf.bind fun _ => reads_pure _

/-- All checks of a call are made before its first write, and writes do not fail. -/
theorem traceless_ofCall (call : Call) : Traceless (ofCall call) := by
  cases call with
  | terminal name =>
    exact (reads_checkName name).then fun _ => reads_get.then fun _ =>
      (reads_successor _).then fun _ => (((succeeds_pure _).write _).write _).write _ |>.traceless
  | nonterminal name =>
    exact (reads_checkName name).then fun _ => reads_get.then fun _ =>
      (reads_successor _).then fun _ => (((succeeds_pure _).write _).write _).write _ |>.traceless
  | production left right =>
    exact (reads_checkNonterminal left).then fun _ => reads_refuseIf.then fun _ =>
      (reads_forM reads_checkSymbol right).then fun _ => reads_get.then fun _ =>
        (reads_successor _).then fun _ => ((succeeds_pure _).write _).write _ |>.traceless
  | start symbol =>
    exact (reads_checkNonterminal symbol).then fun _ => (succeeds_pure _).write _ |>.traceless

end Booking

end CanonicalLR
