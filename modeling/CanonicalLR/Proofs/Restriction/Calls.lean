import CanonicalLR.Proofs.Grammar.Naming
import CanonicalLR.Proofs.Grammar.Refusals
import CanonicalLR.Proofs.Restriction.ReachablePart

/-!
# Declaring the reachable part

Without the calls that are about unreachable nonterminals no other call is refused,
as the checks then have less to refuse it for. They end in the reachable part.
-/

namespace CanonicalLR

namespace Grammar

/-- A call with the ids that are given out once unreachable nonterminals are not declared; there is
none in place of a call that is about such a nonterminal. -/
def keptCall? (g : Grammar) : Call → Option Call
  | .terminal name => some (.terminal name)
  | .nonterminal name =>
      if (g.nonterminal? name).any (· ∉ g.unreachable) then some (.nonterminal name) else none
  | .production left right =>
      if left ∉ g.unreachable then
        some (.production (g.rank left) (right.map g.rankSymbol))
      else none
  | .start n => if n ∉ g.unreachable then some (.start (g.rank n)) else none

def keptCalls (g : Grammar) (calls : List Call) : List Call :=
  calls.filterMap g.keptCall?

end Grammar

namespace Definition

/-! ## Checks -/

/-- A name passes its check if it passes it where more names are taken. -/
theorem checkName_of_fewer {d part : Definition} {name : String}
    (fewer : part.symbols.contains name = true → d.symbols.contains name = true)
    (passed : d.checkName name = .ok ()) : part.checkName name = .ok () := by
  obtain ⟨-, fresh⟩ := of_checkName passed
  have free := mt fewer fresh
  unfold checkName at passed ⊢
  simp_all

/-! ## One call -/

/-- What has been declared stands where it does in the grammar. -/
structure Leads (d : Definition) (g : Grammar) : Prop where
  nonterminals : ∀ {i : Nat} {name : String}, d.nonterminals[i]? = some name →
    g.nonterminalName? (i + 1) = some name
  productions : ∀ production ∈ d.productions, ∃ p, g.production? p = some production

theorem Leads.of_attempt {d : Definition} {g : Grammar} {call : Call}
    (leads : (d.attempt call).Leads g) : d.Leads g := by
  unfold attempt at leads
  split at leads
  · cases call with
    | terminal name => exact ⟨leads.nonterminals, leads.productions⟩
    | nonterminal name =>
      refine ⟨fun {i other} found => leads.nonterminals ?_, leads.productions⟩
      obtain ⟨inside, rfl⟩ := Array.getElem?_eq_some_iff.mp found
      exact Array.getElem?_push_lt inside
    | production left right =>
      exact ⟨leads.nonterminals, fun production listed =>
        leads.productions production (Array.mem_push.mpr (.inl listed))⟩
    | start n => exact ⟨leads.nonterminals, leads.productions⟩
  · exact leads

theorem Leads.of_foldl {d : Definition} {g : Grammar} {calls : List Call}
    (leads : (calls.foldl attempt d).Leads g) : d.Leads g := by
  induction calls generalizing d with
  | nil => exact leads
  | cons call rest ih => exact (ih leads).of_attempt

/-- One definition has of the other what is about reachable nonterminals. -/
structure Narrows (g : Grammar) (d part : Definition) : Prop where
  terminals : part.terminals = d.terminals
  nonterminals : part.nonterminals.toList = g.keptNames d.nonterminals.toList
  productions : part.productions.toList = (d.productions.toList.filter fun production =>
    production.left ∉ g.unreachable).map g.rankProduction
  symbols : ∀ name, part.symbols.contains name = true → d.symbols.contains name = true
  unchosen : d.start = none → part.start = none
  chosen : ∀ n, d.start = some n → n ∉ g.unreachable → part.start = some (g.rank n)

theorem narrows_empty (g : Grammar) : Narrows g {} {} :=
  ⟨rfl, rfl, rfl, fun _ => id, fun _ => rfl, nofun⟩

namespace Narrows

variable {g : Grammar} {d part : Definition} (narrows : Narrows g d part)
include narrows

theorem size_nonterminals_le : part.nonterminals.size ≤ d.nonterminals.size := by
  rw [← Array.length_toList, narrows.nonterminals, Grammar.keptNames, List.length_map]
  exact (List.length_filter_le ..).trans_eq List.length_zipIdx

theorem size_productions_le : part.productions.size ≤ d.productions.size := by
  rw [← Array.length_toList, narrows.productions, List.length_map, ← Array.length_toList]
  exact List.length_filter_le ..

section

variable (reached : augmentedStart ∉ g.unreachable)
include reached

theorem size_nonterminals :
    part.nonterminals.size + 1 = g.rank (d.nonterminals.size + 1) := by
  rw [← Array.length_toList, narrows.nonterminals, Grammar.length_keptNames reached,
    Array.length_toList]

/-- Declared symbols are declared under their ranks, if they are kept. -/
theorem declared {symbol : Symbol}
    (declared : symbol.Declared (d.terminals.size + 1) (d.nonterminals.size + 1))
    (kept : ∀ n, symbol = .nonterminal n → n ∉ g.unreachable) :
    (g.rankSymbol symbol).Declared (part.terminals.size + 1) (part.nonterminals.size + 1) := by
  cases symbol with
  | terminal t => exact narrows.terminals ▸ declared
  | nonterminal n =>
    have positive : g.rank augmentedStart < g.rank n := Grammar.rank_lt reached declared.1
    refine ⟨positive, ?_⟩
    rw [narrows.size_nonterminals reached]
    exact Grammar.rank_lt (kept n rfl) declared.2

end

end Narrows

/-- A call has no counterpart and changes nothing there, or it has one that passes its check. -/
inductive Follows (g : Grammar) (d part : Definition) (call : Call) : Prop where
  | without (dropped : g.keptCall? call = none) (narrows : Narrows g (d.record call).1 part)
  | along {other : Call} (kept : g.keptCall? call = some other) (passed : part.check other = .ok ())
      (narrows : Narrows g (d.record call).1 (part.record other).1)

namespace Narrows

variable {calls : List Call} {g : Grammar} {d part : Definition} (narrows : Narrows g d part)
include narrows

theorem terminal {name : String} (passed : d.check (.terminal name) = .ok ()) :
    Follows g d part (.terminal name) := by
  rw [check, bind_eq_ok] at passed
  obtain ⟨fresh, room⟩ := passed
  refine .along rfl ?_ ?_
  · rw [check, bind_eq_ok, narrows.terminals]
    exact ⟨checkName_of_fewer (narrows.symbols name) fresh, room⟩
  · refine ⟨congrArg (·.push name) narrows.terminals, narrows.nonterminals, narrows.productions,
      fun other => ?_, narrows.unchosen, narrows.chosen⟩
    simp only [Definition.record, Std.TreeMap.contains_insert, Bool.or_eq_true]
    exact Or.imp_right (narrows.symbols other)

theorem nonterminal {name : String} (passed : d.check (.nonterminal name) = .ok ())
    (looked : g.nonterminal? name = some (d.nonterminals.size + 1)) :
    Follows g d part (.nonterminal name) := by
  rw [check, bind_eq_ok] at passed
  obtain ⟨fresh, room⟩ := passed
  have names : (d.nonterminals.push name).toList = d.nonterminals.toList ++ [name] := by simp
  have next := g.keptNames_append d.nonterminals.toList name
  rw [← names, Array.length_toList] at next
  by_cases kept : d.nonterminals.size + 1 ∈ g.unreachable
  · refine .without (by simp [Grammar.keptCall?, looked, kept]) ?_
    rw [if_neg (by simpa using kept), List.append_nil] at next
    refine ⟨narrows.terminals, narrows.nonterminals.trans next.symm, narrows.productions,
      fun other known => ?_, narrows.unchosen, narrows.chosen⟩
    simp only [Definition.record, Std.TreeMap.contains_insert, Bool.or_eq_true]
    exact .inr (narrows.symbols other known)
  · have counterpart : g.keptCall? (.nonterminal name) = some (.nonterminal name) := by
      simp [Grammar.keptCall?, looked, kept]
    refine .along counterpart ?_ ?_
    · rw [check, bind_eq_ok]
      refine ⟨checkName_of_fewer (narrows.symbols name) fresh, checkRoom_eq_ok.mpr ?_⟩
      exact Nat.lt_of_le_of_lt narrows.size_nonterminals_le (checkRoom_eq_ok.mp room)
    · rw [if_pos kept] at next
      refine ⟨narrows.terminals, ?_, narrows.productions, fun other => ?_, narrows.unchosen,
        narrows.chosen⟩
      · refine Eq.trans ?_ next.symm
        rw [← narrows.nonterminals]
        exact Array.toList_push ..
      · simp only [Definition.record, Std.TreeMap.contains_insert, Bool.or_eq_true]
        exact Or.imp_right (narrows.symbols other)

section

variable (reached : augmentedStart ∉ g.unreachable)
include reached

theorem production {left : Nat} {right : List Symbol}
    (passed : d.check (.production left right) = .ok ())
    (uses : left ∉ g.unreachable → ∀ n, .nonterminal n ∈ right → n ∉ g.unreachable) :
    Follows g d part (.production left right) := by
  obtain ⟨declared, room⟩ := check_production_eq_ok.mp passed
  by_cases kept : left ∈ g.unreachable
  · refine .without (by simp [Grammar.keptCall?, kept]) ?_
    refine ⟨narrows.terminals, narrows.nonterminals, ?_, narrows.symbols, narrows.unchosen,
      narrows.chosen⟩
    simp [Definition.record, kept, narrows.productions]
  · refine .along (if_pos kept) ?_ ?_
    · refine check_production_eq_ok.mpr ⟨⟨?_, ?_, ?_⟩, ?_⟩
      · have leftDeclared := narrows.declared reached declared.left
        exact leftDeclared fun n same => Symbol.nonterminal.inj same ▸ kept
      · intro symbol member
        obtain ⟨source, used, rfl⟩ := List.mem_map.mp member
        exact narrows.declared reached (declared.right source used)
          fun n same => uses kept n (same ▸ used)
      · exact (List.length_map _).trans_le declared.length
      · exact Nat.lt_of_le_of_lt narrows.size_productions_le room
    · refine ⟨narrows.terminals, narrows.nonterminals, ?_, narrows.symbols, narrows.unchosen,
        narrows.chosen⟩
      simp [Definition.record, kept, narrows.productions, Grammar.rankProduction]

theorem start {n : Nat} (passed : d.check (.start n) = .ok ()) :
    Follows g d part (.start n) := by
  by_cases kept : n ∈ g.unreachable
  · refine .without (by simp [Grammar.keptCall?, kept]) ?_
    refine ⟨narrows.terminals, narrows.nonterminals, narrows.productions, narrows.symbols, nofun,
      fun m same user => ?_⟩
    exact absurd (Option.some.inj same ▸ kept) user
  · refine .along (if_pos kept) ?_ ?_
    · have declared := narrows.declared reached (check_start_eq_ok.mp passed)
      exact check_start_eq_ok.mpr (declared fun m same => Symbol.nonterminal.inj same ▸ kept)
    · refine ⟨narrows.terminals, narrows.nonterminals, narrows.productions, narrows.symbols, nofun,
        fun m same _ => ?_⟩
      obtain rfl := Option.some.inj same
      rfl

end

end Narrows

/-! ## All calls -/

section

variable {calls : List Call} {g : Grammar} (defined : Grammar.ofCalls calls = .ok g)
include defined

theorem leads_ofCalls : (ofCalls calls).Leads g := by
  obtain ⟨start, -, -, -, rfl⟩ := finish_eq_ok defined
  constructor
  · intro i name found
    rw [Grammar.nonterminalName?, augment, Array.getElem?_append_right (by simp)]
    simpa using found
  · intro production listed
    obtain ⟨i, found⟩ := Array.mem_iff_getElem?.mp listed
    exact ⟨i + 1, Grammar.production?_augment.trans found⟩

theorem Narrows.follows {d part : Definition} {call : Call} (narrows : Narrows g d part)
    (passed : d.check call = .ok ()) (leads : (d.record call).1.Leads g) :
    Follows g d part call := by
  have wellFormed := Grammar.wellFormed_ofCalls defined
  have reached := (Grammar.occurs_augmentedStart g).not_unreachable wellFormed
  cases call with
  | terminal name => exact narrows.terminal passed
  | nonterminal name =>
    have named := leads.nonterminals (i := d.nonterminals.size) Array.getElem?_push_size
    exact narrows.nonterminal passed
      ((Grammar.nonterminal?_eq_some_iff defined).mpr ⟨Nat.succ_ne_zero _, named⟩)
  | production left right =>
    -- In the end it is a production of the grammar, so that what it uses stays where it stays.
    obtain ⟨p, found⟩ := leads.productions ⟨left, right⟩ Array.mem_push_self
    exact narrows.production reached passed fun kept n used =>
      Grammar.not_unreachable_of_mem wellFormed found kept used
  | start n => exact narrows.start reached passed

/-- None of the calls that are kept is refused. -/
theorem Narrows.foldlM {d part : Definition} (narrows : Narrows g d part) {rest : List Call}
    (leads : (rest.foldl attempt d).Leads g) : ∃ later,
      (g.keptCalls (d.carriedOut rest)).foldlM (fun d call => Prod.fst <$> d.call call) part =
        .ok later ∧ Narrows g (rest.foldl attempt d) later := by
  induction rest generalizing d part with
  | nil => exact ⟨part, rfl, narrows⟩
  | cons call rest ih =>
    rw [List.foldl_cons] at leads ⊢
    cases checked : d.check call with
    | error cause =>
      rw [attempt_of_error checked] at leads ⊢
      simpa [carriedOut, checked] using ih narrows leads
    | ok _ =>
      rw [attempt_of_ok checked] at leads ⊢
      cases narrows.follows defined checked leads.of_foldl with
      | without dropped same =>
        obtain ⟨later, carried, ends⟩ := ih same leads
        refine ⟨later, ?_, ends⟩
        simpa [carriedOut, checked, Grammar.keptCalls, dropped] using carried
      | @along other kept passed both =>
        obtain ⟨later, carried, ends⟩ := ih both leads
        have called : part.call other = .ok (part.record other) := call_eq_ok.mpr ⟨passed, rfl⟩
        refine ⟨later, ?_, ends⟩
        simpa [carriedOut, checked, Grammar.keptCalls, kept, called, bind, Except.bind]
          using carried

end

/-! ## The final check -/

namespace Narrows

variable {g : Grammar} {d part : Definition} (narrows : Narrows g d part)
include narrows

theorem mem_productions {production : Production} : production ∈ part.productions ↔
    ∃ source ∈ d.productions, source.left ∉ g.unreachable ∧
      g.rankProduction source = production := by
  rw [← Array.mem_toList_iff, narrows.productions, List.mem_map]
  simp [and_assoc]

theorem mem_defined {n : Nat} (kept : n ∉ g.unreachable) (listed : n ∈ d.defined) :
    g.rank n ∈ part.defined := by
  obtain ⟨source, member, rfl⟩ := Definition.mem_defined.mp listed
  exact Definition.mem_defined.mpr
    ⟨_, narrows.mem_productions.mpr ⟨source, member, kept, rfl⟩, rfl⟩

theorem startSymbol? (reached : augmentedStart ∉ g.unreachable) {start : Nat}
    (kept : start ∉ g.unreachable) (chosen : d.startSymbol? = some start) :
    part.startSymbol? = some (g.rank start) := by
  unfold Definition.startSymbol? at chosen ⊢
  cases said : d.start with
  | some n =>
    rw [said] at chosen
    obtain rfl := Option.some.inj chosen
    rw [narrows.chosen n said kept]
    rfl
  | none =>
    rw [said] at chosen
    cases bare : d.nonterminals.isEmpty with
    | true => simp [bare] at chosen
    | false =>
      obtain rfl : 1 = start := by simpa [bare] using chosen
      have first : g.rank 1 = 1 := by
        rw [Grammar.rank_succ, if_pos (by exact reached)]
        rfl
      have size := narrows.size_nonterminals reached
      have some : 0 < d.nonterminals.size := by simpa [Array.size_pos_iff] using bare
      have more : g.rank 1 < g.rank (d.nonterminals.size + 1) :=
        Grammar.rank_lt kept (Nat.succ_lt_succ some)
      have listed : part.nonterminals.isEmpty = false := by
        rw [Array.isEmpty_eq_false_iff_exists_mem, ← Array.size_pos_iff_exists_mem]
        omega
      rw [narrows.unchosen said, listed, first]
      rfl

section

variable (wellFormed : g.WellFormed) {start : Nat} (same : g = d.augment start)
include wellFormed same

theorem keptNonterminals : g.keptNonterminals.map Prod.fst =
    (d.nonterminalName start ++ "'") :: part.nonterminals.toList := by
  have reached := (Grammar.occurs_augmentedStart g).not_unreachable wellFormed
  have names : g.nonterminals.toList =
      (d.nonterminalName start ++ "'") :: d.nonterminals.toList := by
    simp [same, Definition.augment]
  rw [g.keptNonterminals_eq reached names, List.map_cons, narrows.nonterminals]
  rfl

theorem keptProductions : (g.keptProductions.map Prod.fst).map g.rankProduction =
    ⟨augmentedStart, [.nonterminal (g.rank start)]⟩ :: part.productions.toList := by
  have reached := (Grammar.occurs_augmentedStart g).not_unreachable wellFormed
  have productions : g.productions.toList =
      ⟨augmentedStart, [.nonterminal start]⟩ :: d.productions.toList := by
    simp [same, Definition.augment]
  rw [g.map_fst_keptProductions, productions,
    List.filter_cons_of_pos (by exact decide_eq_true reached), List.map_cons, narrows.productions]
  rfl

/-- The start symbol has its name under its rank. -/
theorem nonterminalName : part.nonterminalName (g.rank start) = d.nonterminalName start := by
  have reached := (Grammar.occurs_augmentedStart g).not_unreachable wellFormed
  have kept := Grammar.start_not_unreachable wellFormed
  obtain ⟨positive, inside⟩ := wellFormed.start
  have first : g.start = start := by
    rw [same, Definition.augment]
  rw [first] at kept positive inside
  have named : g.nonterminalName? start = some (d.nonterminalName start) := by
    have size : g.nonterminals.size = d.nonterminals.size + 1 := by
      simp [same, Definition.augment, Nat.add_comm]
    obtain ⟨place, shifted⟩ := Nat.exists_eq_succ_of_ne_zero (Nat.ne_of_gt positive)
    have listed : place < d.nonterminals.size := by omega
    rw [Grammar.nonterminalName?, same, Definition.augment, shifted,
      Array.getElem?_append_right (by simp)]
    simp [Definition.nonterminalName, listed]
  have ahead : g.rank augmentedStart < g.rank start := Grammar.rank_lt reached positive
  obtain ⟨before, rank⟩ := Nat.exists_eq_succ_of_ne_zero (Nat.ne_of_gt ahead)
  have found : (g.keptNonterminals.map Prod.fst)[g.rank start]? =
      some (d.nonterminalName start) := by
    rw [List.getElem?_map, Grammar.getElem?_keptNonterminals_rank named kept, Option.map_some]
  rw [narrows.keptNonterminals wellFormed same, rank, List.getElem?_cons_succ,
    Array.getElem?_toList] at found
  rw [rank, Definition.nonterminalName, Nat.succ_sub_one, Array.getD_eq_getD_getElem?, found,
    Option.getD_some]

theorem augment : part.augment (g.rank start) = g.reachablePart := by
  have first : g.start = start := by
    rw [same, Definition.augment]
  have terminals : g.terminals = #[endMarkerName] ++ d.terminals := by
    rw [same, Definition.augment]
  rw [Definition.augment, Grammar.reachablePart, narrows.keptNonterminals wellFormed same,
    narrows.keptProductions wellFormed same, narrows.nonterminalName wellFormed same, first,
    terminals, narrows.terminals]
  simp

end

theorem finish (wellFormed : g.WellFormed) (leads : d.Leads g) (finished : d.finish = .ok g) :
    part.finish = .ok g.reachablePart := by
  obtain ⟨start, chosen, startDefined, none, same⟩ := finish_eq_ok finished
  have reached := (Grammar.occurs_augmentedStart g).not_unreachable wellFormed
  have kept : start ∉ g.unreachable := by
    have kept := Grammar.start_not_unreachable wellFormed
    rwa [same] at kept ⊢
  have all : part.firstUndefined? = Option.none := by
    refine firstUndefined?_eq_none_iff.mpr fun production listed n used => ?_
    obtain ⟨source, member, user, rfl⟩ := narrows.mem_productions.mp listed
    obtain ⟨symbol, inside, ranked⟩ := List.mem_map.mp used
    cases symbol with
    | terminal t => cases ranked
    | nonterminal m =>
      obtain rfl := Symbol.nonterminal.inj ranked
      obtain ⟨p, found⟩ := leads.productions source member
      exact narrows.mem_defined (Grammar.not_unreachable_of_mem wellFormed found user inside)
        (firstUndefined?_eq_none_iff.mp none source member m inside)
  rw [Definition.finish, narrows.startSymbol? reached kept chosen]
  simp only [narrows.mem_defined kept startDefined, if_true, all, narrows.augment wellFormed same]

end Narrows

end Definition

/-- The calls that are about reachable nonterminals are carried out without the others, and declare
the reachable part. -/
theorem Grammar.define_keptCalls {calls : List Call} {g : Grammar}
    (defined : Grammar.ofCalls calls = .ok g) :
    Grammar.define (g.keptCalls (Definition.carriedOut {} calls)) = .ok g.reachablePart := by
  have leads := Definition.leads_ofCalls defined
  obtain ⟨part, carried, narrows⟩ := (Definition.narrows_empty g).foldlM defined leads
  rw [Grammar.define, carried]
  exact narrows.finish (wellFormed_ofCalls defined) leads defined

end CanonicalLR
