import Coverability.Proofs.BoundedTrees
import Coverability.Proofs.DeadTransitions
import Coverability.Proofs.EndingSearches

/-!
# Overflowing searches

The node whose transition overflows is approximated by reachable markings, also where it holds omega. One of
them has enough tokens to fire the transition too, and it holds the same number of tokens on the place that
overflows. So searches only overflow on nets that leave 32 bits.
-/

namespace Coverability

variable {net : Net} {t p : ℕ} {x M : ExactMarking}

/-- A finite count that leaves 32 bits does so in every good approximation. -/
lemma Approximates.overflows (h : Approximates UInt32.size x M) (hover : net.Overflows t p x) :
    net.Overflows t p M := by
  obtain ⟨N, hfires, hfinite, hsize⟩ := hover
  obtain ⟨K, hK⟩ := (h.enables hfires.enables).exists_fires
  have hp : M p = x p := (h p).1 (mt (hfires.eq_top_iff p).mpr hfinite)
  have hsame : K p = N p := hK.apply_eq hfires hp
  rw [← hsame] at hfinite hsize
  exact ⟨K, hK, hfinite, hsize⟩

namespace Search

variable {search : Search} {initial : Marking} {state : SearchState} {frame : Frame} {below : List Frame}

/-- The node that is being expanded is approximated by reachable markings. -/
lemma Through.exists_approximates (h : search.Through initial state) (hw : search.net.WellFormed)
    (hd : initial.dimension = search.net.placeCount) (hs : state.stack = frame :: below) (k : ℕ) :
    ∃ M, search.net.Reachable initial.exact M ∧ Approximates k frame.marking.exact M := by
  have hinv := h.invariant hw hd
  obtain ⟨⟨node, hn, hm, -⟩, hlineage, -⟩ := (hinv.stackFits hs).1
  rw [← hm]
  exact (hinv.grown.earned hw hlineage hn).approaches k

/-- A search that fails because of its net leaves 32 bits in a reachable marking. -/
theorem overflows_of_explore (hw : search.net.WellFormed) (hd : initial.dimension = search.net.placeCount)
    {e : NetError} (h : search.explore initial = .error (.net e)) :
    ∃ t < search.net.transitionCount, ∃ p < search.net.placeCount,
      e = .tokenOverflow (search.net.transitionName t) (search.net.placeName p) ∧
      ∃ M, search.net.Reachable initial.exact M ∧ search.net.Overflows t p M := by
  obtain ⟨last, frame, below, ht, hs, hmoves⟩ := exists_through_of_explore_eq_error hd h
  cases hmoves with
  | fail hlt hfire he =>
    have hdim := dimension_of_mem_stack (ht.invariant hw hd) hd (hs ▸ List.mem_cons_self)
    obtain ⟨p, hp, he, hover⟩ := Net.overflows_of_fire hw hdim hlt hfire he
    obtain ⟨M, hM, happrox⟩ := ht.exists_approximates hw hd hs UInt32.size
    exact ⟨frame.next, hlt, p, hp, he, M, hM, happrox.overflows hover⟩

lemma explore_ne_error (hw : search.net.WellFormed) (hd : initial.dimension = search.net.placeCount)
    (hfits : ∀ M, search.net.Reachable initial.exact M → ∀ p, M p ≠ ⊤ → M p < UInt32.size) {e : NetError} :
    search.explore initial ≠ .error (.net e) := by
  intro h
  obtain ⟨t, -, p, -, -, M, hM, N, hfires, hfinite, hsize⟩ := overflows_of_explore hw hd h
  have hN : search.net.Reachable initial.exact N := hM.tail ⟨t, hfires⟩
  exact absurd (hfits N hN p hfinite) (not_lt.mpr hsize)

/-- A search that reports an overflow has found a transition that some reachable marking enables, and that
leaves more tokens on the place than 32 bits can count. So no search overflows on a net whose reachable
markings stay within 32 bits, and without limits it gives a tree. -/
theorem overflow_of_build (hnet : search.net.Constructed) (hd : initial.dimension = search.net.placeCount) :
    (∀ transition place, search.build initial = .error (.net (.tokenOverflow transition place)) →
      ∃ t p M N, search.net.transitionNames[t]? = some transition ∧ search.net.placeNames[p]? = some place ∧
        search.net.Reachable initial.exact M ∧ search.net.Fires t M N ∧ N p ≠ ⊤ ∧ (UInt32.size : ℕ∞) ≤ N p) ∧
    ((∀ M, search.net.Reachable initial.exact M → ∀ p, M p ≠ ⊤ → M p < UInt32.size) →
      (∀ transition place, search.build initial ≠ .error (.net (.tokenOverflow transition place))) ∧
      (search.maxNodes = none → search.timeout = none → ∃ tree, search.build initial = .ok tree)) := by
  refine ⟨fun transition place h => ?_, fun hfits => ⟨fun transition place h => ?_, fun hnodes htime => ?_⟩⟩
  · obtain ⟨t, ht, p, hp, he, M, hM, N, hover⟩ :=
      overflows_of_explore hnet.wellFormed hd (explore_of_build_eq_error h)
    cases he
    exact ⟨t, p, M, N, getElem?_eq_getD ht, getElem?_eq_getD hp, hM, hover⟩
  · exact explore_ne_error hnet.wellFormed hd hfits (explore_of_build_eq_error h)
  · cases h : search.explore initial with
    | ok nodes => exact ⟨search.toTree nodes, by rw [build, h]; rfl⟩
    | error e =>
      obtain ⟨t, -, p, -, rfl⟩ := exists_overflow_of_explore hnet.wellFormed hd hnodes htime h
      exact absurd h (explore_ne_error hnet.wellFormed hd hfits)

end Search

section Unlimited

/-- The diners with as many nodes as it takes. -/
def unlimitedDiners : Search :=
  { dinersSearch with maxNodes := none }

lemma lt_size_of_reachable_diners {M : ExactMarking} (h : diners.Reachable diners.initial.exact M) (p : ℕ)
    (hp : M p ≠ ⊤) : M p < UInt32.size := by
  have hc : Complete dinersSearch.net diners.initial dinersTree.nodes :=
    Search.complete_of_explore constructed_diners.wellFormed (Search.explore_of_build build_diners)
  have hfinite : ∀ node ∈ dinersTree.nodes, ∀ p, node.marking.exact p ≠ ⊤ :=
    Tree.isBounded_iff.mp (by decide +kernel)
  obtain ⟨node, -, rfl⟩ := (hc.exists_exact_eq_iff hfinite).mpr h
  exact Marking.exact_lt_size hp

/-- The tank of the flood really gets too full, and the diners never run out of counts. -/
theorem overflow_flood : floodSearch.net.Constructed ∧ flood.initial.dimension = flood.placeCount ∧
    floodSearch.build flood.initial = .error (.net (.tokenOverflow "spill" "tank")) ∧
    (∃ t p M N, flood.transitionNames[t]? = some "spill" ∧ flood.placeNames[p]? = some "tank" ∧
      flood.Reachable flood.initial.exact M ∧ flood.Fires t M N ∧ N p ≠ ⊤ ∧ (UInt32.size : ℕ∞) ≤ N p) ∧
    unlimitedDiners.net.Constructed ∧ diners.initial.dimension = diners.placeCount ∧
    unlimitedDiners.maxNodes = none ∧ unlimitedDiners.timeout = none ∧
    (∀ M, diners.Reachable diners.initial.exact M → ∀ p, M p ≠ ⊤ → M p < UInt32.size) ∧
    ∃ tree, unlimitedDiners.build diners.initial = .ok tree := by
  have hd : flood.initial.dimension = floodSearch.net.placeCount := rfl
  have hd' : diners.initial.dimension = unlimitedDiners.net.placeCount := rfl
  have hdiners : unlimitedDiners.net.Constructed := constructed_diners
  have hfits : ∀ M, diners.Reachable diners.initial.exact M → ∀ p, M p ≠ ⊤ → M p < UInt32.size :=
    fun _ => lt_size_of_reachable_diners
  obtain ⟨hover, -⟩ := Search.overflow_of_build constructed_flood hd
  obtain ⟨-, hnone⟩ := Search.overflow_of_build hdiners hd'
  exact ⟨constructed_flood, hd, build_flood, hover "spill" "tank" build_flood, hdiners, hd', rfl, rfl, hfits,
    (hnone hfits).2 rfl rfl⟩

end Unlimited

end Coverability
