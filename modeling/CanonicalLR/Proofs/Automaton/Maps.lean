import CanonicalLR.Proofs.Automaton.Numbering
import Std.Data.HashMap

/-!
# Maps beside the lists of an automaton

Each state can be looked up by its items and each transition by its source and
symbol. As no two of them share what they are looked up by, maps answer as the
lists do, and they are kept up to date by one insertion for each addition.
-/

namespace CanonicalLR

section

variable {κ ν : Type} [BEq κ] [Hashable κ]

theorem ofList_concat (entries : List (κ × ν)) (key : κ) (value : ν) :
    Std.HashMap.ofList (entries ++ [(key, value)]) =
      (Std.HashMap.ofList entries).insert key value := by
  rw [Std.HashMap.ofList_eq_insertMany_empty, Std.HashMap.insertMany_append,
    Std.HashMap.insertMany_list_singleton, ← Std.HashMap.ofList_eq_insertMany_empty]

theorem getElem?_ofList_eq_some_iff [LawfulBEq κ] {entries : List (κ × ν)}
    (once : (entries.map Prod.fst).Nodup) {key : κ} {value : ν} :
    (Std.HashMap.ofList entries)[key]? = some value ↔ (key, value) ∈ entries := by
  have differ : entries.Pairwise fun first second => (first.1 == second.1) = false :=
    (List.pairwise_map.mp once).imp beq_false_of_ne
  have stored {value : ν} (member : (key, value) ∈ entries) :
      (Std.HashMap.ofList entries)[key]? = some value :=
    Std.HashMap.getElem?_ofList_of_mem (beq_self_eq_true key) differ member
  refine ⟨fun found => ?_, stored⟩
  by_cases known : key ∈ entries.map Prod.fst
  · obtain ⟨⟨_, other⟩, member, rfl⟩ := List.mem_map.mp known
    obtain rfl := Option.some.inj ((stored member).symm.trans found)
    exact member
  · have absent : (entries.map Prod.fst).contains key = false := by simpa using known
    rw [Std.HashMap.getElem?_ofList_of_contains_eq_false absent] at found
    cases found

end

namespace Automaton

variable {g : Grammar} {a : Automaton}

/-! ## States by their items -/

def lookup (a : Automaton) : Std.HashMap ItemSet Nat :=
  .ofList (a.states.toList.map State.items).zipIdx

theorem lookup_addState (a : Automaton) (state : State) :
    (a.addState state).lookup = a.lookup.insert state.items a.states.size := by
  unfold lookup addState
  rw [Array.toList_push, List.map_append, List.zipIdx_append, ← ofList_concat]
  simp

theorem found_addState (a : Automaton) (state : State) :
    (a.addState state).itemGraph.found = a.itemGraph.found ++ [state.items] := by
  simp [itemGraph, addState]

theorem nodup_found_addState (distinct : a.itemGraph.found.Nodup) {state : State}
    (unknown : a.find? state.items = none) : (a.addState state).itemGraph.found.Nodup := by
  rw [found_addState, ← List.concat_eq_append]
  exact distinct.concat (find?_eq_none.mp unknown)

theorem nodup_found_followFreely (distinct : a.itemGraph.found.Nodup) (rules : ClosureRules)
    (s : Nat) (items : ItemSet) (symbol : Symbol) :
    (followFreely rules s items a symbol).itemGraph.found.Nodup := by
  rcases followFreely_cases rules s items a symbol with ⟨target, -, same⟩ | ⟨unknown, same⟩
  · exact same ▸ distinct
  · exact same ▸ nodup_found_addState distinct unknown

/-- The map of the states answers as a search in their list does. -/
theorem getElem?_lookup (distinct : a.itemGraph.found.Nodup) (items : ItemSet) :
    a.lookup[items]? = a.find? items := by
  have stored {s : Nat} : a.lookup[items]? = some s ↔ a.itemGraph.found[s]? = some items := by
    have once : (a.itemGraph.found.zipIdx.map Prod.fst).Nodup := by rwa [List.zipIdx_map_fst]
    exact (getElem?_ofList_eq_some_iff once).trans List.mk_mem_zipIdx_iff_getElem?
  cases searched : a.find? items with
  | some s =>
    obtain ⟨state, found, rfl⟩ := find?_eq_some searched
    refine stored.mpr ?_
    rw [itemGraph, List.getElem?_map, Array.getElem?_toList]
    exact congrArg (Option.map State.items) found
  | none =>
    refine Option.eq_none_iff_forall_ne_some.mpr fun s found => ?_
    exact find?_eq_none.mp searched (List.mem_of_getElem? (stored.mp found))

/-! ## Transitions by their sources and symbols -/

def edges (a : Automaton) : Std.HashMap (Nat × Symbol) Nat :=
  .ofList (a.transitions.toList.map fun transition =>
    ((transition.source, transition.symbol), transition.target))

theorem edges_addTransition (a : Automaton) (transition : Transition) :
    (a.addTransition transition).edges =
      a.edges.insert (transition.source, transition.symbol) transition.target := by
  unfold edges addTransition
  rw [Array.toList_push, List.map_append, List.map_singleton, ofList_concat]

/-- The map of the transitions answers as a search in their list does. -/
theorem getElem?_edges (once : (a.transitions.toList.map fun transition =>
      (transition.source, transition.symbol)).Nodup) (s : Nat) (symbol : Symbol) :
    a.edges[(s, symbol)]? = a.transition? s symbol := by
  have keys : ((a.transitions.toList.map fun transition =>
      ((transition.source, transition.symbol), transition.target)).map Prod.fst).Nodup := by
    rwa [List.map_map]
  ext t
  rw [edges, getElem?_ofList_eq_some_iff keys, transition?_eq_some_iff once, List.mem_map]
  constructor
  · rintro ⟨transition, member, same⟩
    obtain ⟨origin, rfl⟩ := Prod.mk.inj same
    obtain ⟨rfl, rfl⟩ := Prod.mk.inj origin
    exact Array.mem_toList_iff.mp member
  · exact fun member => ⟨_, Array.mem_toList_iff.mpr member, rfl⟩

/-- However far a construction has got, no two of its transitions share source and symbol. -/
theorem origins_nodup_of_precedes {n : Nat}
    (precedes : a.Precedes (grown (.ofGrammar g g.firstSets) n)) :
    (a.transitions.toList.map fun transition =>
      (transition.source, transition.symbol)).Nodup :=
  (origins_nodup (explored_grown g n).reached.sound.once).sublist
    (precedes.transitions.sublist.map _)

end Automaton

end CanonicalLR
