import Coverability.Proofs.Overflows
import Coverability.Proofs.SearchInvariant

/-!
# Searches end with a tree or an overflow

The potential of a state bounds the number of moves that are left, and the number of finite counts how
often a path is swept. Without limits only a failing transition can end a search early, and on a
well-formed net a transition that is not merely disabled fails by an overflow.
-/

namespace Coverability

namespace Marking

/-- The marking that sweeping the path leads to, if it takes at most so many sweeps to find that nothing
changes any more. -/
def accelerateWithin (path : List Marking) : ℕ → Marking → Option Marking
  | 0, _ => none
  | sweeps + 1, m => if m.sweep path = m then some m else accelerateWithin path sweeps (m.sweep path)

lemma accelerateWithin_eq_accelerate (path : List Marking) {m : Marking} {sweeps : ℕ}
    (h : m.finiteCount < sweeps) : accelerateWithin path sweeps m = some (m.accelerate path) := by
  induction sweeps generalizing m with
  | zero => omega
  | succ sweeps ih =>
    rw [accelerateWithin, accelerate]
    by_cases hm : m.sweep path = m
    · rw [if_pos hm, if_pos hm]
    · have hlt : (m.sweep path).finiteCount < m.finiteCount :=
        (sweep_eq_or_finiteCount_lt path m).resolve_left hm
      rw [if_neg hm, if_neg hm]
      exact ih (by omega)

lemma finiteCount_le_dimension (m : Marking) : m.finiteCount ≤ m.dimension :=
  List.countP_le_length

end Marking

namespace Search

variable {search : Search} {initial : Marking} {state : SearchState}

/-- The result of a search that ends with at most so many moves. -/
def runWithin (search : Search) : ℕ → SearchState → Option (Except SearchError (Array Node))
  | 0, _ => none
  | moves + 1, state =>
    match search.step state with
    | .done result => some result
    | .next next => search.runWithin moves next

lemma runWithin_eq_run {hv : state.Valid search.net.placeCount} {moves : ℕ}
    (h : state.potential search < moves) : search.runWithin moves state = some (search.run state hv) := by
  fun_induction Search.run search state hv generalizing moves with
  | case1 state hv result hr =>
    obtain ⟨moves, rfl⟩ := Nat.exists_eq_add_of_lt h
    rw [runWithin, hr]
  | case2 state hv next hn ih =>
    have hlt := (valid_and_potential_lt hv hn).2
    obtain ⟨moves, rfl⟩ := Nat.exists_eq_add_of_lt h
    rw [runWithin, hn]
    exact ih (by omega)

/-- Without limits a search can only fail by an overflow. -/
lemma exists_overflow_of_explore (hw : search.net.WellFormed) (hd : initial.dimension = search.net.placeCount)
    (hnodes : search.maxNodes = none) (htime : search.timeout = none) {e : SearchError}
    (h : search.explore initial = .error e) :
    ∃ t < search.net.transitionCount, ∃ p < search.net.placeCount,
      e = .net (.tokenOverflow (search.net.transitionName t) (search.net.placeName p)) := by
  obtain ⟨last, frame, below, ht, hstack, hmoves⟩ := exists_through_of_explore_eq_error hd h
  cases hmoves with
  | timeout hlt hout => simp [isOutOfTime, htime] at hout
  | full hlt hfire hlimit hsize => simp [hnodes] at hlimit
  | fail hlt hfire he =>
    have hdim := dimension_of_mem_stack (ht.invariant hw hd) hd (hstack ▸ List.mem_cons_self)
    obtain ⟨p, hp, rfl, -⟩ := Net.overflows_of_fire hw hdim hlt hfire he
    exact ⟨frame.next, hlt, p, hp, rfl⟩

/-- Without limits every search ends after some number of moves, each of which sweeps a path at most once
more than the net has places, and it gives a tree or reports an overflow. -/
theorem build_ends (hnet : search.net.Constructed) (hd : initial.dimension = search.net.placeCount)
    (hnodes : search.maxNodes = none) (htime : search.timeout = none) :
    (∃ moves, search.runWithin moves (.start initial) = some (search.explore initial)) ∧
    (∀ path m, ∃ sweeps ≤ m.dimension + 1, Marking.accelerateWithin path sweeps m = some (m.accelerate path)) ∧
    ((∃ tree, search.build initial = .ok tree) ∨
      ∃ t < search.net.transitionCount, ∃ p < search.net.placeCount, search.build initial =
        .error (.net (.tokenOverflow (search.net.transitionName t) (search.net.placeName p)))) := by
  refine ⟨?_, ?_, ?_⟩
  · unfold explore
    rw [dif_pos hd]
    exact ⟨_, runWithin_eq_run (Nat.lt_succ_self _)⟩
  · intro path m
    have hle := m.finiteCount_le_dimension
    exact ⟨m.dimension + 1, le_refl _, Marking.accelerateWithin_eq_accelerate path (by omega)⟩
  · unfold build
    cases h : search.explore initial with
    | ok nodes => exact .inl ⟨_, rfl⟩
    | error e =>
      obtain ⟨t, ht, p, hp, rfl⟩ := exists_overflow_of_explore hnet.wellFormed hd hnodes htime h
      exact .inr ⟨t, ht, p, hp, rfl⟩

end Search

section Flood

/-- What is poured into the basin spills over into a tank that has room for one token. -/
def flood : Net where
  name := "flood"
  placeNames := ["basin", "tank"]
  transitionNames := ["pour", "spill"]
  rules := ["pour -> basin", "basin -> spill", "spill -> 2*tank"]
  arcs := [⟨[], [⟨1, 0⟩]⟩, ⟨[⟨1, 0⟩], [⟨2, 1⟩]⟩]
  initial := ⟨[.finite 0, .finite 4294967294]⟩
  marking := ⟨[.finite 0, .finite 4294967294]⟩

def floodSearch : Search where
  net := flood
  pruning := .ancestorOnly
  maxNodes := none
  timeout := none

lemma ofEntities_flood : Net.ofEntities "flood"
    [.place "basin" (.finite 0), .place "tank" (.finite 4294967294), .transition "pour", .transition "spill"]
    ["pour -> basin\nbasin -> spill", "spill -> 2*tank"] = .ok flood := by
  decide +kernel

lemma constructed_flood : floodSearch.net.Constructed := .ofEntities ofEntities_flood

lemma explore_flood : floodSearch.explore flood.initial =
    .error (.net (.tokenOverflow "spill" "tank")) := by
  cbv

lemma build_flood : floodSearch.build flood.initial = .error (.net (.tokenOverflow "spill" "tank")) := by
  rw [Search.build, explore_flood]
  rfl

theorem runWithin_flood : floodSearch.net.Constructed ∧
    flood.initial.dimension = flood.placeCount ∧ floodSearch.maxNodes = none ∧ floodSearch.timeout = none ∧
    (∃ moves, floodSearch.runWithin moves (.start flood.initial) =
      some (.error (.net (.tokenOverflow "spill" "tank")))) ∧
    (∃ t < flood.transitionCount, ∃ p < flood.placeCount, floodSearch.build flood.initial =
      .error (.net (.tokenOverflow (flood.transitionName t) (flood.placeName p)))) := by
  have hfail : floodSearch.build flood.initial = .error (.net (.tokenOverflow "spill" "tank")) := by
    rw [Search.build, explore_flood]
    rfl
  have hd : flood.initial.dimension = floodSearch.net.placeCount := rfl
  obtain ⟨hmoves, -, hresult⟩ := Search.build_ends constructed_flood hd rfl rfl
  rw [explore_flood] at hmoves
  refine ⟨constructed_flood, hd, rfl, rfl, hmoves, hresult.resolve_left ?_⟩
  rintro ⟨tree, htree⟩
  rw [hfail] at htree
  contradiction

end Flood

end Coverability
