import CanonicalLR.Worklist
import Mathlib.Data.List.Nodup

/-!
# First come, first served

A worklist is told from outside by what it gives out. It gives out what a plain
line of values does, and so does a line that keeps the set of its values beside
it, although a removal moves the entries of that set around. What has entered is
what has left and what still waits, in the order in which it entered.
-/

namespace CanonicalLR

inductive Operation (α : Type) where
  | push (value : α)
  | pop
deriving DecidableEq

/-- What values are put into and taken from. -/
structure Store (σ α : Type) where
  push : σ → α → σ
  pop? : σ → Option (α × σ)

namespace Store

variable {σ τ α : Type}

/-- The value that an operation gives out, if any, and what it leaves. -/
def perform (store : Store σ α) (s : σ) : Operation α → Option α × σ
  | .push value => (none, store.push s value)
  | .pop =>
    match store.pop? s with
    | some (value, later) => (some value, later)
    | none => (none, s)

def after (store : Store σ α) (s : σ) (operations : List (Operation α)) : σ :=
  operations.foldl (fun s operation => (store.perform s operation).2) s

/-- What each operation gives out. -/
def answers (store : Store σ α) : σ → List (Operation α) → List (Option α)
  | _, [] => []
  | s, operation :: rest =>
    (store.perform s operation).1 :: store.answers (store.perform s operation).2 rest

theorem after_append (store : Store σ α) (s : σ) (first second : List (Operation α)) :
    store.after s (first ++ second) = store.after (store.after s first) second :=
  List.foldl_append

def fill (store : Store σ α) (empty : σ) (values : List α) : σ :=
  values.foldl store.push empty

/-- From related states the stores give out the same value, and their states stay related. -/
structure Simulates (store : Store σ α) (other : Store τ α) (related : σ → τ → Prop) : Prop where
  push : ∀ {s t}, related s t → ∀ value, related (store.push s value) (other.push t value)
  pop : ∀ {s t}, related s t → store.pop? s = none ∧ other.pop? t = none ∨
    ∃ value s' t', store.pop? s = some (value, s') ∧ other.pop? t = some (value, t') ∧
      related s' t'

namespace Simulates

variable {store : Store σ α} {other : Store τ α} {related : σ → τ → Prop}
  (simulates : store.Simulates other related)
include simulates

theorem perform {s : σ} {t : τ} (here : related s t) (operation : Operation α) :
    (store.perform s operation).1 = (other.perform t operation).1 ∧
      related (store.perform s operation).2 (other.perform t operation).2 := by
  cases operation with
  | push value => exact ⟨rfl, simulates.push here value⟩
  | pop =>
    unfold Store.perform
    rcases simulates.pop here with ⟨left, right⟩ | ⟨value, s', t', left, right, later⟩
    · simp only [left, right]
      exact ⟨trivial, here⟩
    · simp only [left, right]
      exact ⟨trivial, later⟩

theorem after {s : σ} {t : τ} (here : related s t) (operations : List (Operation α)) :
    related (store.after s operations) (other.after t operations) := by
  induction operations generalizing s t with
  | nil => exact here
  | cons operation rest ih => exact ih (simulates.perform here operation).2

theorem answers {s : σ} {t : τ} (here : related s t) (operations : List (Operation α)) :
    store.answers s operations = other.answers t operations := by
  induction operations generalizing s t with
  | nil => rfl
  | cons operation rest ih =>
    obtain ⟨same, next⟩ := simulates.perform here operation
    rw [Store.answers, Store.answers, same, ih next]

theorem fill {empty : σ} {none : τ} (here : related empty none) (values : List α) :
    related (store.fill empty values) (other.fill none values) := by
  unfold Store.fill
  induction values generalizing empty none with
  | nil => exact here
  | cons value rest ih => exact ih (simulates.push here value)

end Simulates

end Store

variable {α : Type} [DecidableEq α]

/-! ## Lines -/

namespace Line

def push (waiting : List α) (value : α) : List α :=
  if value ∈ waiting then waiting else waiting ++ [value]

def pop? : List α → Option (α × List α)
  | [] => none
  | value :: rest => some (value, rest)

/-- The values that wait, the first to leave at the head. -/
def store (α : Type) [DecidableEq α] : Store (List α) α :=
  ⟨push, pop?⟩

def ofList (values : List α) : List α :=
  (store α).fill [] values

/-- The values that join a line; those that wait already do not. -/
def entered : List α → List (Operation α) → List α
  | _, [] => []
  | waiting, .push value :: rest =>
    if value ∈ waiting then entered waiting rest else value :: entered (waiting ++ [value]) rest
  | waiting, .pop :: rest => entered waiting.tail rest

theorem mem_push_iff {waiting : List α} {value other : α} :
    other ∈ push waiting value ↔ other ∈ waiting ∨ other = value := by
  unfold push
  split
  · rename_i waits
    exact ⟨.inl, fun member => member.elim id fun same => same ▸ waits⟩
  · simp

theorem nodup_push {waiting : List α} (distinct : waiting.Nodup) (value : α) :
    (push waiting value).Nodup := by
  unfold push
  split
  · exact distinct
  · rename_i fresh
    rw [← List.concat_eq_append]
    exact distinct.concat fresh

theorem append_entered_push (waiting : List α) (value : α) (rest : List (Operation α)) :
    waiting ++ entered waiting (.push value :: rest) =
      push waiting value ++ entered (push waiting value) rest := by
  unfold push
  rw [entered]
  split
  · rfl
  · rw [List.append_assoc]
    rfl

/-- What has waited and what joins is what leaves and what still waits, in the same order. -/
theorem append_entered (waiting : List α) (operations : List (Operation α)) :
    waiting ++ entered waiting operations =
      ((store α).answers waiting operations).filterMap id ++
        (store α).after waiting operations := by
  induction operations generalizing waiting with
  | nil => exact List.append_nil waiting
  | cons operation rest ih =>
    cases operation with
    | push value => exact (append_entered_push waiting value rest).trans (ih (push waiting value))
    | pop =>
      cases waiting with
      | nil => exact ih []
      | cons value later => exact congrArg (value :: ·) (ih later)

/-- No value is lost that waits: it leaves, or it still waits. -/
theorem mem_answers_or_mem_after {waiting : List α} {value : α} (waits : value ∈ waiting)
    (operations : List (Operation α)) :
    some value ∈ (store α).answers waiting operations ∨
      value ∈ (store α).after waiting operations := by
  have among : value ∈ waiting ++ entered waiting operations := List.mem_append_left _ waits
  rw [append_entered, List.mem_append] at among
  exact among.imp_left fun left => by simpa using left

theorem mem_answers_or_mem_after_push (waiting : List α) (value : α)
    (later : List (Operation α)) :
    some value ∈ (store α).answers waiting (.push value :: later) ∨
      value ∈ (store α).after waiting (.push value :: later) :=
  (mem_answers_or_mem_after (mem_push_iff.mpr (.inr rfl)) later).imp_left
    (List.mem_cons_of_mem none)

theorem mem_fill {waiting values : List α} {value : α} :
    value ∈ (store α).fill waiting values ↔ value ∈ waiting ∨ value ∈ values := by
  unfold Store.fill
  induction values generalizing waiting with
  | nil => simp
  | cons other rest ih => rw [List.foldl_cons, ih, store, mem_push_iff, List.mem_cons, or_assoc]

/-- So many values leave, one by one, as wait. -/
theorem answers_replicate_pop (waiting : List α) :
    (store α).answers waiting (List.replicate waiting.length .pop) = waiting.map some := by
  induction waiting with
  | nil => rfl
  | cons value rest ih => exact congrArg (some value :: ·) ih

end Line

/-! ## Lines that keep the set of their values -/

/-- Take a value out of a list of entries. The last entry moves to its place. -/
def swapRemove (entries : List α) (value : α) : List α :=
  match entries.idxOf? value with
  | none => entries
  | some place => (entries.set place (entries.getLastD value)).dropLast

theorem swapRemove_perm (entries : List α) (value : α) :
    (swapRemove entries value).Perm (entries.erase value) := by
  unfold swapRemove
  split
  · rename_i absent
    rw [List.erase_of_not_mem (List.idxOf?_eq_none_iff.mp absent)]
  · rename_i place found
    obtain ⟨inside, here, -⟩ := List.idxOf?_eq_some_iff.mp found
    obtain ⟨before, after, rfl, rfl⟩ : ∃ before after, entries = before ++ value :: after ∧
        before.length = place := by
      refine ⟨entries.take place, entries.drop (place + 1), ?_,
        List.length_take_of_le (Nat.le_of_lt inside)⟩
      rw [← here, ← List.drop_eq_getElem_cons inside, List.take_append_drop]
    have moved : (before ++ value :: after).Perm (value :: (before ++ after)) := List.perm_middle
    have erased := moved.erase value
    rw [List.erase_cons_head] at erased
    refine .trans ?_ erased.symm
    rcases List.eq_nil_or_concat after with rfl | ⟨middle, last, rfl⟩
    · simp
    · have filled : (before ++ value :: (middle ++ [last])).set before.length
          ((before ++ value :: (middle ++ [last])).getLastD value) =
            (before ++ last :: middle) ++ [last] := by
        rw [← List.cons_append, ← List.append_assoc, List.getLastD_concat]
        simp
      rw [List.concat_eq_append, filled, List.dropLast_concat]
      exact (List.perm_append_singleton last middle).symm.append_left before

structure TrackedLine (α : Type) where
  waiting : List α
  members : List α
deriving DecidableEq

namespace TrackedLine

def push (tracked : TrackedLine α) (value : α) : TrackedLine α :=
  if value ∈ tracked.members then tracked
  else ⟨tracked.waiting ++ [value], tracked.members ++ [value]⟩

def pop? (tracked : TrackedLine α) : Option (α × TrackedLine α) :=
  match tracked.waiting with
  | [] => none
  | value :: rest => some (value, ⟨rest, swapRemove tracked.members value⟩)

def store (α : Type) [DecidableEq α] : Store (TrackedLine α) α :=
  ⟨push, pop?⟩

def ofList (values : List α) : TrackedLine α :=
  (store α).fill ⟨[], []⟩ values

/-- The set has the values that wait, each once. -/
structure Tracks (tracked : TrackedLine α) (waiting : List α) : Prop where
  listed : tracked.waiting = waiting
  distinct : waiting.Nodup
  members : tracked.members.Perm waiting

theorem simulates_line : (store α).Simulates (Line.store α) Tracks where
  push {tracked waiting} tracks value := by
    obtain ⟨rfl, distinct, members⟩ := tracks
    show Tracks (tracked.push value) (Line.push tracked.waiting value)
    refine ⟨?_, Line.nodup_push distinct value, ?_⟩
    · simp only [push, Line.push, members.mem_iff]
      split <;> rfl
    · simp only [push, Line.push, members.mem_iff]
      split
      · exact members
      · exact members.append_right [value]
  pop {tracked waiting} tracks := by
    obtain ⟨rfl, distinct, members⟩ := tracks
    show tracked.pop? = none ∧ Line.pop? tracked.waiting = none ∨
      ∃ value s' t', tracked.pop? = some (value, s') ∧
        Line.pop? tracked.waiting = some (value, t') ∧ Tracks s' t'
    unfold pop?
    cases same : tracked.waiting with
    | nil => exact .inl ⟨rfl, rfl⟩
    | cons value rest =>
      rw [same] at distinct members
      have removed := (swapRemove_perm tracked.members value).trans (members.erase value)
      rw [List.erase_cons_head] at removed
      exact .inr ⟨value, _, rest, rfl, rfl, rfl, (List.nodup_cons.mp distinct).2, removed⟩

end TrackedLine

/-! ## Worklists -/

namespace Worklist

def store (α : Type) [DecidableEq α] : Store (Worklist α) α :=
  ⟨push, pop?⟩

theorem simulates_line :
    (store α).Simulates (Line.store α) fun work waiting => work.toList = waiting where
  push := by
    rintro work _ rfl value
    exact work.toList_push value
  pop := by
    rintro work _ rfl
    show work.pop? = none ∧ Line.pop? work.toList = none ∨
      ∃ value s' t', work.pop? = some (value, s') ∧ Line.pop? work.toList = some (value, t') ∧
        s'.toList = t'
    cases same : work.toList with
    | nil => exact .inl ⟨pop?_of_nil same, rfl⟩
    | cons value rest =>
      obtain ⟨later, popped, listed⟩ := pop?_of_cons same
      exact .inr ⟨value, later, rest, popped, rfl, listed⟩

/-- A worklist and a line that keeps its set have the same values, each once. -/
structure Holds (work : Worklist α) (tracked : TrackedLine α) (waiting : List α) : Prop where
  distinct : waiting.Nodup
  listed : work.toList = waiting
  contains : ∀ value, work.contains value = true ↔ value ∈ waiting
  tracks : tracked.waiting = waiting
  once : tracked.members.Nodup
  members : ∀ value, value ∈ tracked.members ↔ value ∈ waiting

omit [DecidableEq α] in
/-- A value that has left is not among those that wait. -/
theorem not_mem_of_pop? {work later : Worklist α} {value : α} (distinct : work.toList.Nodup)
    (popped : work.pop? = some (value, later)) : value ∉ later.toList := by
  have listed := work.pop?_toList
  rw [popped, Option.map_some] at listed
  split at listed
  · cases listed
  · rw [← Option.some.inj listed] at distinct
    exact (List.nodup_cons.mp distinct).1

/-- A worklist gives out what a line does, and so does a line that keeps its set. None of them has
a value twice or loses one: what has entered leaves in this order or still waits, and what has left
may enter again and then leaves again. -/
theorem first_come_first_served (values : List α) (operations : List (Operation α)) :
    ((store α).answers (ofList values) operations =
        (Line.store α).answers (Line.ofList values) operations ∧
      (TrackedLine.store α).answers (.ofList values) operations =
        (Line.store α).answers (Line.ofList values) operations) ∧
    Holds ((store α).after (ofList values) operations)
      ((TrackedLine.store α).after (.ofList values) operations)
      ((Line.store α).after (Line.ofList values) operations) ∧
    Line.ofList values ++ Line.entered (Line.ofList values) operations =
      ((store α).answers (ofList values) operations).filterMap id ++
        ((store α).after (ofList values) operations).toList ∧
    (∀ value ∈ values, some value ∈ (store α).answers (ofList values) operations ∨
      value ∈ ((store α).after (ofList values) operations).toList) ∧
    (∀ before value later, operations = before ++ .push value :: later →
      some value ∈ (store α).answers ((store α).after (ofList values) before)
          (.push value :: later) ∨
        value ∈ ((store α).after (ofList values) operations).toList) ∧
    ∀ value later, ((store α).after (ofList values) operations).pop? = some (value, later) →
      later.contains value = false ∧
        (store α).answers later (.push value :: List.replicate (later.toList.length + 1) .pop) =
          none :: (later.toList ++ [value]).map some := by
  have first : (ofList values).toList = Line.ofList values := simulates_line.fill rfl values
  have tracks : (TrackedLine.ofList values).Tracks (Line.ofList values) :=
    TrackedLine.simulates_line.fill ⟨rfl, List.nodup_nil, .refl _⟩ values
  have last := simulates_line.after first operations
  have given := simulates_line.answers first operations
  obtain ⟨tracked, distinct, members⟩ := TrackedLine.simulates_line.after tracks operations
  refine ⟨⟨given, TrackedLine.simulates_line.answers tracks operations⟩, ?_, ?_, ?_, ?_, ?_⟩
  · refine ⟨distinct, last, fun value => ?_, tracked, ?_, fun value => members.mem_iff⟩
    · rw [contains_iff, last]
    · exact members.nodup_iff.mpr distinct
  · rw [given, last, Line.append_entered]
  · intro value member
    rw [given, last]
    exact Line.mem_answers_or_mem_after (Line.mem_fill.mpr (.inr member)) operations
  · rintro before value later rfl
    have midway := simulates_line.after first before
    rw [simulates_line.answers midway, last, Store.after_append]
    exact Line.mem_answers_or_mem_after_push _ value later
  · intro value later popped
    have left := not_mem_of_pop? (last ▸ distinct) popped
    have fresh : Line.push later.toList value = later.toList ++ [value] := if_neg left
    have drained := Line.answers_replicate_pop (later.toList ++ [value])
    rw [List.length_append, List.length_singleton] at drained
    refine ⟨Bool.eq_false_iff.mpr (mt contains_iff.mp left), ?_⟩
    rw [simulates_line.answers rfl, ← drained, ← fresh]
    rfl

/-- `1` leaves, enters again behind `2`, and leaves again. -/
theorem one_leaves_twice :
    (store Nat).answers (ofList [1, 2, 1]) [.pop, .push 2, .push 1, .pop, .pop, .pop] =
      [some 1, none, none, some 2, some 1, none] ∧
    (TrackedLine.store Nat).answers (.ofList [1, 2, 1])
      [.pop, .push 2, .push 1, .pop, .pop, .pop] =
        [some 1, none, none, some 2, some 1, none] ∧
    ∃ later, (ofList [1, 2, 1]).pop? = some (1, later) ∧
      (store Nat).answers later [.push 1, .pop, .pop] = [none, some 2, some 1] := by
  obtain ⟨⟨worklist, tracked⟩, -⟩ :=
    first_come_first_served [1, 2, 1] [.pop, .push 2, .push 1, .pop, .pop, .pop]
  obtain ⟨-, -, -, -, -, again⟩ := first_come_first_served [1, 2, 1] []
  obtain ⟨later, popped, rest⟩ :
      ∃ later, (ofList [1, 2, 1]).pop? = some (1, later) ∧ later.toList = [2] :=
    pop?_of_cons rfl
  refine ⟨worklist.trans (by decide), tracked.trans (by decide), later, popped, ?_⟩
  have answers := (again 1 later popped).2
  rwa [rest] at answers

end Worklist

end CanonicalLR
