import Coverability.Proofs.DeadTransitions
import Coverability.Proofs.PlaceBounds

/-!
# Rearranged nets

Declaring the transitions of a net in another order, or listing their arcs in another order, changes the
shape of its trees and even the markings in them, and so does the pruning policy. But the exact net
stays the same up to the indices of its transitions, and with it everything that trees are asked for.
-/

namespace Coverability

namespace Net

/-- The two nets only differ in the order of their transitions and arcs, and in what no search looks at. -/
structure Rearranged (net other : Net) : Prop where
  placeNames : net.placeNames = other.placeNames
  mem_transitionNames : ∀ name, name ∈ net.transitionNames ↔ name ∈ other.transitionNames
  weights : ∀ (t u : ℕ) (name : String) (arcs arcs' : Arcs), net.transitionNames[t]? = some name →
    other.transitionNames[u]? = some name → net.arcs[t]? = some arcs → other.arcs[u]? = some arcs' →
    ∀ p < net.placeCount, arcs.consumedWeight p = arcs'.consumedWeight p ∧
      arcs.producedWeight p = arcs'.producedWeight p

variable {net other : Net} {t u p : ℕ} {name : String} {arcs : Arcs} {M N : ExactMarking} {initial x : Marking}

lemma WellFormed.weight_eq_zero (hw : net.WellFormed) (ht : net.arcs[t]? = some arcs)
    (hp : net.placeCount ≤ p) : arcs.consumedWeight p = 0 ∧ arcs.producedWeight p = 0 :=
  ⟨(hw.arc_fit ht).consumes.weightAt_eq_zero hp, (hw.arc_fit ht).produces.weightAt_eq_zero hp⟩

namespace Rearranged

lemma symm (h : net.Rearranged other) : other.Rearranged net where
  placeNames := h.placeNames.symm
  mem_transitionNames name := (h.mem_transitionNames name).symm
  weights t u name arcs arcs' ht hu harcs harcs' p hp := by
    have hlt : p < net.placeCount := by rwa [placeCount, h.placeNames]
    obtain ⟨hconsumed, hproduced⟩ := h.weights u t name arcs' arcs hu ht harcs' harcs p hlt
    exact ⟨hconsumed.symm, hproduced.symm⟩

lemma placeCount_eq (h : net.Rearranged other) : net.placeCount = other.placeCount :=
  congrArg List.length h.placeNames

lemma exists_index (h : net.Rearranged other) (ht : net.transitionNames[t]? = some name) :
    ∃ u : ℕ, other.transitionNames[u]? = some name :=
  List.mem_iff_getElem?.mp ((h.mem_transitionNames name).mp (List.mem_of_getElem? ht))

/-- Transitions of one name move the same tokens, also at indices that no place has. -/
lemma exists_arcs (h : net.Rearranged other) (hw : net.WellFormed) (hw' : other.WellFormed)
    (ht : net.transitionNames[t]? = some name) (hu : other.transitionNames[u]? = some name)
    (harcs : net.arcs[t]? = some arcs) : ∃ arcs', other.arcs[u]? = some arcs' ∧
      (∀ p, arcs.consumedWeight p = arcs'.consumedWeight p) ∧
      ∀ p, arcs.producedWeight p = arcs'.producedWeight p := by
  obtain ⟨arcs', harcs'⟩ := hw'.exists_arcs (List.getElem?_eq_some_iff.mp hu).1
  have hweights : ∀ p, arcs.consumedWeight p = arcs'.consumedWeight p ∧
      arcs.producedWeight p = arcs'.producedWeight p := by
    intro p
    by_cases hp : p < net.placeCount
    · exact h.weights t u name arcs arcs' ht hu harcs harcs' p hp
    · have hle : net.placeCount ≤ p := Nat.not_lt.mp hp
      obtain ⟨hconsumed, hproduced⟩ := hw.weight_eq_zero harcs hle
      obtain ⟨hconsumed', hproduced'⟩ := hw'.weight_eq_zero harcs' (h.placeCount_eq ▸ hle)
      exact ⟨hconsumed.trans hconsumed'.symm, hproduced.trans hproduced'.symm⟩
  exact ⟨arcs', harcs', fun p => (hweights p).1, fun p => (hweights p).2⟩

lemma enables (h : net.Rearranged other) (hw : net.WellFormed) (hw' : other.WellFormed)
    (ht : net.transitionNames[t]? = some name) (hu : other.transitionNames[u]? = some name)
    (henabled : net.Enables M t) : other.Enables M u := by
  obtain ⟨arcs, harcs, hle⟩ := henabled
  obtain ⟨arcs', harcs', hconsumed, -⟩ := h.exists_arcs hw hw' ht hu harcs
  refine ⟨arcs', harcs', fun p => ?_⟩
  rw [← hconsumed p]
  exact hle p

lemma exists_fires (h : net.Rearranged other) (hw : net.WellFormed) (hw' : other.WellFormed)
    (hf : net.Fires t M N) : ∃ u, other.Fires u M N := by
  have hlt : t < net.transitionCount := hf.enables.lt_transitionCount hw
  obtain ⟨u, hu⟩ := h.exists_index (List.getElem?_eq_getElem hlt)
  obtain ⟨arcs, harcs, hle, hN⟩ := hf
  obtain ⟨arcs', harcs', hconsumed, hproduced⟩ :=
    h.exists_arcs hw hw' (List.getElem?_eq_getElem hlt) hu harcs
  refine ⟨u, arcs', harcs', fun p => ?_, fun p => ?_⟩
  · rw [← hconsumed p]
    exact hle p
  · rw [← hconsumed p, ← hproduced p]
    exact hN p

/-- The same markings are reached. -/
theorem reachable_eq (h : net.Rearranged other) (hw : net.WellFormed) (hw' : other.WellFormed) :
    net.Reachable = other.Reachable := by
  have hstep : (fun M N => ∃ t, net.Fires t M N) = fun M N => ∃ t, other.Fires t M N := by
    funext M N
    refine propext ⟨?_, ?_⟩
    · rintro ⟨t, hf⟩
      exact h.exists_fires hw hw' hf
    · rintro ⟨u, hf⟩
      exact h.symm.exists_fires hw' hw hf
  rw [Reachable, Reachable, hstep]

lemma coverable_iff (h : net.Rearranged other) (hw : net.WellFormed) (hw' : other.WellFormed) :
    net.Coverable initial x ↔ other.Coverable initial x := by
  rw [Coverable, Coverable, h.reachable_eq hw hw']

lemma reachedCounts_eq (h : net.Rearranged other) (hw : net.WellFormed) (hw' : other.WellFormed) :
    net.reachedCounts initial p = other.reachedCounts initial p := by
  rw [reachedCounts, reachedCounts, h.reachable_eq hw hw']

lemma unbounded_iff (h : net.Rearranged other) (hw : net.WellFormed) (hw' : other.WellFormed) :
    net.Unbounded initial p ↔ other.Unbounded initial p := by
  rw [Unbounded, Unbounded, h.reachedCounts_eq hw hw']

/-- A transition can be enabled under its index in the one net exactly if it can under that in the other. -/
lemma exists_enables_iff (h : net.Rearranged other) (hw : net.WellFormed) (hw' : other.WellFormed)
    (ht : net.transitionNames[t]? = some name) (hu : other.transitionNames[u]? = some name) :
    (∃ M, net.Reachable initial.exact M ∧ net.Enables M t) ↔
      ∃ M, other.Reachable initial.exact M ∧ other.Enables M u := by
  rw [h.reachable_eq hw hw']
  exact exists_congr fun M => and_congr_right fun _ =>
    ⟨h.enables hw hw' ht hu, h.symm.enables hw' hw hu ht⟩

end Rearranged

end Net

section Answers

variable {search other : Search} {initial : Marking} {nodes nodes' : Array Node} {tree tree' : Tree}

namespace Complete

variable (h : Complete search.net initial nodes) (h' : Complete other.net initial nodes')
  (hr : search.net.Rearranged other.net)

include h h' hr

lemma covers_eq_of_rearranged {x : Marking} (hx : x.dimension = search.net.placeCount) :
    (search.toTree nodes).covers x = (other.toTree nodes').covers x := by
  rw [Bool.eq_iff_iff, h.covers_iff hx, h'.covers_iff (hx.trans hr.placeCount_eq)]
  exact hr.coverable_iff h.wellFormed h'.wellFormed

lemma placeBound_eq_of_rearranged {name : String} (hname : name ∈ search.net.placeNames) :
    ∃ bound, (search.toTree nodes).placeBound name = .ok bound ∧
      (other.toTree nodes').placeBound name = .ok bound := by
  obtain ⟨p, hp⟩ := List.mem_iff_getElem?.mp hname
  obtain ⟨bound, hbound, hfinite, homega⟩ := h.placeBound_iff hp
  obtain ⟨bound', hbound', hfinite', homega'⟩ := h'.placeBound_iff (hr.placeNames ▸ hp)
  have heq : bound' = bound := by
    cases bound with
    | finite b =>
      rw [hfinite' b, ← hr.reachedCounts_eq h.wellFormed h'.wellFormed]
      exact (hfinite b).mp rfl
    | infinite =>
      rw [homega', ← hr.unbounded_iff h.wellFormed h'.wellFormed]
      exact homega.mp rfl
  exact ⟨bound, hbound, heq ▸ hbound'⟩

lemma unboundedPlaces_eq_of_rearranged : ∃ places, (search.toTree nodes).unboundedPlaces = .ok places ∧
    (other.toTree nodes').unboundedPlaces = .ok places := by
  have homega : ∀ p, (other.toTree nodes').hasOmega p = (search.toTree nodes).hasOmega p := by
    intro p
    have hiff : (∃ node ∈ nodes', node.marking.exact p = ⊤) ↔ ∃ node ∈ nodes, node.marking.exact p = ⊤ := by
      rw [h.exists_eq_top_iff, h'.exists_eq_top_iff, hr.unbounded_iff h.wellFormed h'.wellFormed]
    rw [Bool.eq_iff_iff, Tree.hasOmega_iff, Tree.hasOmega_iff]
    exact hiff
  have hnames : (other.toTree nodes').placeNames = (search.toTree nodes).placeNames := hr.placeNames.symm
  refine ⟨_, Tree.unboundedPlaces_eq_ok h.dimension_of_mem_toTree, ?_⟩
  rw [Tree.unboundedPlaces_eq_ok h'.dimension_of_mem_toTree, hnames]
  simp only [homega]

lemma isBounded_eq_of_rearranged : (search.toTree nodes).isBounded = (other.toTree nodes').isBounded := by
  rw [Bool.eq_iff_iff, h.isBounded_iff, h'.isBounded_iff, hr.placeCount_eq]
  simp only [hr.unbounded_iff h.wellFormed h'.wellFormed]

lemma mem_deadTransitions_iff_of_rearranged : ∃ dead dead',
    (search.toTree nodes).deadTransitions = .ok dead ∧
    (other.toTree nodes').deadTransitions = .ok dead' ∧ ∀ name, name ∈ dead ↔ name ∈ dead' := by
  obtain ⟨dead, hdead, hsub, hiff⟩ := h.transitionsByUsage_iff false
  obtain ⟨dead', hdead', hsub', hiff'⟩ := h'.transitionsByUsage_iff false
  refine ⟨dead, dead', hdead, hdead', fun name => ?_⟩
  by_cases hname : name ∈ search.net.transitionNames
  · obtain ⟨t, ht⟩ := List.mem_iff_getElem?.mp hname
    obtain ⟨u, hu⟩ := hr.exists_index ht
    rw [hiff t name ht, hiff' u name hu, hr.exists_enables_iff h.wellFormed h'.wellFormed ht hu]
  · have hname' : name ∉ other.net.transitionNames := mt (hr.mem_transitionNames name).mpr hname
    exact iff_of_false (mt (hsub.subset ·) hname) (mt (hsub'.subset ·) hname')

end Complete

/-- Trees of rearranged nets give the same answers, whatever they were pruned by. -/
theorem Search.answers_eq_of_rearranged (hnet : search.net.Constructed) (hnet' : other.net.Constructed)
    (hr : search.net.Rearranged other.net) (h : search.build initial = .ok tree)
    (h' : other.build initial = .ok tree') :
    (∀ x : Marking, x.dimension = search.net.placeCount → tree.covers x = tree'.covers x) ∧
    (∀ name ∈ search.net.placeNames, ∃ bound, tree.placeBound name = .ok bound ∧
      tree'.placeBound name = .ok bound) ∧
    (∃ places, tree.unboundedPlaces = .ok places ∧ tree'.unboundedPlaces = .ok places) ∧
    tree.isBounded = tree'.isBounded ∧
    ∃ dead dead', tree.deadTransitions = .ok dead ∧ tree'.deadTransitions = .ok dead' ∧
      ∀ name, name ∈ dead ↔ name ∈ dead' := by
  obtain ⟨nodes, hc, rfl⟩ := search.exists_nodes_of_build hnet.wellFormed h
  obtain ⟨nodes', hc', rfl⟩ := other.exists_nodes_of_build hnet'.wellFormed h'
  refine ⟨fun x hx => ?_, fun name hname => ?_, ?_, ?_, ?_⟩
  · exact hc.covers_eq_of_rearranged hc' hr hx
  · exact hc.placeBound_eq_of_rearranged hc' hr hname
  · exact hc.unboundedPlaces_eq_of_rearranged hc' hr
  · exact hc.isBounded_eq_of_rearranged hc' hr
  · exact hc.mem_deadTransitions_iff_of_rearranged hc' hr

end Answers

section TurnedMill

/-- The mill with shipping declared before working, and with the arcs of working in the other order. -/
def turnedMill : Net where
  name := "turned mill"
  placeNames := ["idle", "parts", "shipped"]
  transitionNames := ["ship", "work"]
  rules := ["ship -> shipped", "parts -> 2*ship", "idle -> work", "work -> parts idle"]
  arcs := [⟨[⟨2, 1⟩], [⟨1, 2⟩]⟩, ⟨[⟨1, 0⟩], [⟨1, 1⟩, ⟨1, 0⟩]⟩]
  initial := ⟨[.finite 1, .finite 0, .finite 0]⟩
  marking := ⟨[.finite 1, .finite 0, .finite 0]⟩

def turnedMillSearch : Search where
  net := turnedMill
  pruning := .ancestorOnly
  maxNodes := some 6
  timeout := none

def turnedMillTree : Tree := turnedMillSearch.toTree #[
  ⟨none, ⟨[.finite 1, .finite 0, .finite 0]⟩, none, [1], .interior, 0⟩,
  ⟨some 1, ⟨[.finite 1, .infinite, .finite 0]⟩, some 0, [2, 5], .interior, 1⟩,
  ⟨some 0, ⟨[.finite 1, .infinite, .infinite]⟩, some 1, [3, 4], .interior, 2⟩,
  ⟨some 0, ⟨[.finite 1, .infinite, .infinite]⟩, some 2, [], .duplicate 2, 3⟩,
  ⟨some 1, ⟨[.finite 1, .infinite, .infinite]⟩, some 2, [], .duplicate 2, 3⟩,
  ⟨some 1, ⟨[.finite 1, .infinite, .finite 0]⟩, some 1, [], .duplicate 1, 2⟩]

lemma constructed_turnedMill : turnedMillSearch.net.Constructed := by
  have h : Net.ofEntities "turned mill"
      [.transition "ship", .place "idle" (.finite 1), .place "parts" (.finite 0), .transition "work",
        .place "shipped" (.finite 0)]
      ["ship -> shipped\nparts -> 2*ship", "idle -> work\n work -> parts idle"] = .ok turnedMill := by
    decide +kernel
  exact .ofEntities h

lemma build_turnedMill : turnedMillSearch.build mill.initial = .ok turnedMillTree := by
  cbv

lemma rearranged_mill : mill.Rearranged turnedMill where
  placeNames := rfl
  mem_transitionNames := by simp [mill, turnedMill, or_comm]
  weights := by
    have hweights : ∀ t < 2, ∀ u < 2, mill.transitionNames[t]? = turnedMill.transitionNames[u]? → ∀ p < 3,
        mill.arcs[t]?.map (·.consumedWeight p) = turnedMill.arcs[u]?.map (·.consumedWeight p) ∧
          mill.arcs[t]?.map (·.producedWeight p) = turnedMill.arcs[u]?.map (·.producedWeight p) := by
      decide +kernel
    intro t u name arcs arcs' ht hu harcs harcs' p hp
    have hsame := hweights t (List.getElem?_eq_some_iff.mp ht).1 u (List.getElem?_eq_some_iff.mp hu).1
      (ht.trans hu.symm) p hp
    simpa [harcs, harcs'] using hsame

/-- The tree of the turned mill has its nodes in another order, and tells the same of the mill. -/
theorem answers_eq_mill : millSearch.net.Constructed ∧ turnedMillSearch.net.Constructed ∧
    mill.Rearranged turnedMill ∧ millSearch.build mill.initial = .ok millTree ∧
    turnedMillSearch.build mill.initial = .ok turnedMillTree ∧
    turnedMillTree.covers ⟨[.finite 1, .infinite, .finite 7]⟩ = true ∧
    turnedMillTree.placeBound "idle" = .ok (.finite 1) ∧
    turnedMillTree.unboundedPlaces = .ok ["parts", "shipped"] ∧ turnedMillTree.isBounded = false ∧
    ∃ dead, turnedMillTree.deadTransitions = .ok dead ∧ "ship" ∉ dead := by
  obtain ⟨hcovers, hbounds, ⟨places, hplaces, hplaces'⟩, hbounded, dead, dead', hdead, hdead', hiff⟩ :=
    Search.answers_eq_of_rearranged constructed_mill constructed_turnedMill rearranged_mill build_mill
      build_turnedMill
  have hmill : millTree.covers ⟨[.finite 1, .infinite, .finite 7]⟩ = true ∧ millTree.isBounded = false := by
    decide +kernel
  obtain ⟨bound, hbound, hbound'⟩ := hbounds "idle" (by decide)
  cases hbound
  cases hplaces
  cases hdead
  exact ⟨constructed_mill, constructed_turnedMill, rearranged_mill, build_mill, build_turnedMill,
    (hcovers _ rfl).symm.trans hmill.1, hbound', hplaces', hbounded.symm.trans hmill.2, dead', hdead',
    mt (hiff "ship").mpr (by decide +kernel)⟩

end TurnedMill

end Coverability
