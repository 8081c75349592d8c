import Coverability.Proofs.Pumping
import Coverability.Proofs.SearchInvariant

/-!
# Every omega is earned

Along every path of a tree the markings can be approached from the root, and ways lead between them.
Firing prolongs the ways, and acceleration only raises places that grow on one of them. So for every
node there are reachable markings with the same finite counts and any number of tokens in place of
every omega.
-/

namespace Coverability

/-- The marking `m` can be approached from `initial`, and ways lead to it from the markings of the path. -/
structure Earned (net : Net) (initial : Marking) (path : List Marking) (m : Marking) : Prop where
  approaches : net.Approaches initial.exact m.exact
  ways : ∀ ancestor ∈ path, net.LeadsTo ancestor.exact m.exact

variable {net : Net} {initial m n : Marking} {path : List Marking} {t : ℕ}

lemma earned_initial : Earned net initial [initial] initial := by
  refine ⟨Net.approaches_refl _, fun ancestor ha => ?_⟩
  rw [List.mem_singleton.mp ha]
  exact Net.leadsTo_refl _

lemma Earned.fire (h : Earned net initial path m) (hf : net.Fires t m.exact n.exact) :
    Earned net initial path n :=
  ⟨h.approaches.fire hf, fun ancestor ha => (h.ways ancestor ha).fire hf⟩

lemma Earned.snoc (h : Earned net initial path m) : Earned net initial (path ++ [m]) m := by
  refine ⟨h.approaches, fun ancestor ha => ?_⟩
  rcases List.mem_append.mp ha with ha | ha
  · exact h.ways ancestor ha
  · rw [List.mem_singleton.mp ha]
    exact Net.leadsTo_refl _

lemma Earned.raise (h : Earned net initial path m) {ancestor : Marking} (ha : ancestor ∈ path)
    (hd : m.dimension = ancestor.dimension) : Earned net initial path (m.raise ancestor) := by
  unfold Marking.raise
  split
  · next hcovers =>
    have hle : ancestor.exact ≤ m.exact := (Marking.covers_iff hd).mp hcovers.1
    constructor
    · rw [Marking.exact_raiseCounts hd]
      exact h.approaches.raise (h.ways ancestor ha) hle
    · -- the ways from the other markings of the path end at the same counts or at omega
      intro other ho
      rw [Marking.exact_raiseCounts hd]
      exact (h.ways other ho).raisedTo (raisedTo_raisedOver _ _)
  · exact h

lemma Earned.accelerate (h : Earned net initial path m)
    (hd : ∀ ancestor ∈ path, ancestor.dimension = m.dimension) :
    Earned net initial path (m.accelerate path) := by
  have hboth : (m.accelerate path).dimension = m.dimension ∧
      Earned net initial path (m.accelerate path) := by
    refine Marking.accelerate_induction
      (P := fun n => n.dimension = m.dimension ∧ Earned net initial path n) ?_ ⟨rfl, h⟩
    rintro ancestor ha n ⟨hn, he⟩
    refine ⟨?_, he.raise ha ?_⟩
    · rw [Marking.dimension_raise, hn]
    · rw [hn, hd ancestor ha]
  exact hboth.2

/-- The markings of a tree are earned along their paths. -/
theorem Grown.earned {nodes : Array Node} (h : Grown net initial nodes) (hw : net.WellFormed) {i : ℕ}
    {node : Node} {above : List ℕ} (hl : Lineage nodes i above) (hn : nodes[i]? = some node) :
    Earned net initial (pathMarkings nodes (i :: above)) node.marking := by
  induction hl generalizing node with
  | root hn' hp =>
    cases hn.symm.trans hn'
    rw [pathMarkings, List.map_cons, markingAt_of_getElem? hn, (h.sameOrigin_root hn hp).marking]
    exact earned_initial
  | @child i parent _ above hn' hp hl ih =>
    cases hn.symm.trans hn'
    obtain ⟨t, successor, -, hfire, hm, hd⟩ := h.exists_successor hn hp hl
    obtain ⟨parentNode, hparent⟩ := hl.exists_node
    rw [markingAt_of_getElem? hparent] at hfire
    have hearned := (ih hparent).fire (Net.fires_of_fire hw hfire)
    have haccelerated := hearned.accelerate hd
    rw [← hm] at haccelerated
    have hpath : pathMarkings nodes (i :: parent :: above) =
        pathMarkings nodes (parent :: above) ++ [markingAt nodes i] := by
      rw [pathMarkings, List.map_cons, List.reverse_cons, pathMarkings]
    rw [hpath, markingAt_of_getElem? hn]
    exact haccelerated.snoc

/-- Every node is approximated by reachable markings as well as wanted. -/
theorem Complete.exists_approximates {nodes : Array Node} (h : Complete net initial nodes)
    {node : Node} (hn : node ∈ nodes) (k : ℕ) :
    ∃ M, net.Reachable initial.exact M ∧ Approximates k node.marking.exact M := by
  obtain ⟨i, hi⟩ := Array.mem_iff_getElem?.mp hn
  obtain ⟨above, hl⟩ := h.grown.exists_lineage hi
  exact (h.grown.earned h.wellFormed hl hi).approaches k

/-- For every node and every number of tokens there is one reachable marking that has the finite counts
of the node, and at least that many tokens wherever the node holds omega. -/
theorem Search.exists_reachable_of_mem_nodes {search : Search} {tree : Tree}
    (hnet : search.net.Constructed) (h : search.build initial = .ok tree) {node : Node}
    (hn : node ∈ tree.nodes) (k : ℕ) :
    ∃ M, search.net.Reachable initial.exact M ∧
      ∀ p count, node.marking.get? p = some count →
        (∀ n, count = .finite n → M p = n.toNat) ∧ (count = .infinite → (k : ℕ∞) ≤ M p) := by
  obtain ⟨nodes, hc, rfl⟩ := search.exists_nodes_of_build hnet.wellFormed h
  obtain ⟨M, hM, happrox⟩ := hc.exists_approximates hn k
  refine ⟨M, hM, fun p count hcount => ?_⟩
  obtain ⟨hfinite, homega⟩ := happrox p
  rw [Marking.exact_of_get? hcount] at hfinite homega
  constructor
  · rintro n rfl
    exact hfinite (by simp)
  · rintro rfl
    exact homega rfl

section Mill

def mill : Net where
  name := "mill"
  placeNames := ["idle", "parts", "shipped"]
  transitionNames := ["work", "ship"]
  rules := ["work -> idle parts", "idle -> work", "parts -> 2*ship", "ship -> shipped"]
  arcs := [⟨[⟨1, 0⟩], [⟨1, 0⟩, ⟨1, 1⟩]⟩, ⟨[⟨2, 1⟩], [⟨1, 2⟩]⟩]
  initial := ⟨[.finite 1, .finite 0, .finite 0]⟩
  marking := ⟨[.finite 1, .finite 0, .finite 0]⟩

def millSearch : Search where
  net := mill
  pruning := .globalSeen
  maxNodes := none
  timeout := none

/-- Parts can be made at any time, and shipped once there are two. -/
def millTree : Tree := millSearch.toTree #[
  ⟨none, ⟨[.finite 1, .finite 0, .finite 0]⟩, none, [1], .interior, 0⟩,
  ⟨some 0, ⟨[.finite 1, .infinite, .finite 0]⟩, some 0, [2, 3], .interior, 1⟩,
  ⟨some 0, ⟨[.finite 1, .infinite, .finite 0]⟩, some 1, [], .duplicate 1, 2⟩,
  ⟨some 1, ⟨[.finite 1, .infinite, .infinite]⟩, some 1, [4, 5], .interior, 2⟩,
  ⟨some 0, ⟨[.finite 1, .infinite, .infinite]⟩, some 3, [], .duplicate 3, 3⟩,
  ⟨some 1, ⟨[.finite 1, .infinite, .infinite]⟩, some 3, [], .duplicate 3, 3⟩]

lemma constructed_mill : millSearch.net.Constructed := by
  have h : Net.ofEntities "mill"
      [.place "idle" (.finite 1), .transition "work", .place "parts" (.finite 0), .transition "ship",
        .place "shipped" (.finite 0)]
      ["work -> idle parts\n idle -> work", "parts -> 2*ship", "ship -> shipped"] = .ok mill := by
    decide +kernel
  exact .ofEntities h

set_option maxRecDepth 20000 in
lemma build_mill : millSearch.build mill.initial = .ok millTree := by
  cbv

/-- A thousand parts can be in stock together with a thousand shipped ones. -/
theorem exists_reachable_mill : millSearch.net.Constructed ∧
    millSearch.build mill.initial = .ok millTree ∧ ∃ M : ExactMarking,
      mill.Reachable mill.initial.exact M ∧ M 0 = 1 ∧ (1000 : ℕ) ≤ M 1 ∧ (1000 : ℕ) ≤ M 2 := by
  have hnode : millTree.nodes[3]? =
    some ⟨some 1, ⟨[.finite 1, .infinite, .infinite]⟩, some 1, [4, 5], .interior, 2⟩ := rfl
  obtain ⟨M, hM, hcounts⟩ := Search.exists_reachable_of_mem_nodes constructed_mill build_mill
    (Array.mem_of_getElem? hnode) 1000
  refine ⟨constructed_mill, build_mill, M, hM, ?_, ?_, ?_⟩
  · exact (hcounts 0 (.finite 1) rfl).1 1 rfl
  · exact (hcounts 1 .infinite rfl).2 rfl
  · exact (hcounts 2 .infinite rfl).2 rfl

end Mill

end Coverability
