import Coverability.Proofs.CoveringNodes
import Coverability.Proofs.Deadlocks

/-!
# Bounded trees

In a tree without omega no marking was ever raised, so every child carries the marking that its transition
leads to, and the nodes carry exactly the reachable markings. What the tree says about deadlocks then holds
in both directions.
-/

namespace Coverability

variable {net : Net} {initial : Marking} {nodes : Array Node} {x y M : ExactMarking} {t : ℕ}
  {search : Search} {tree : Tree}

lemma Net.Fires.unique {N : ExactMarking} (h : net.Fires t x y) (h' : net.Fires t x N) : y = N := by
  funext p
  exact h.apply_eq h' rfl

section Omegaless

variable (hfinite : ∀ node ∈ nodes, ∀ p, node.marking.exact p ≠ ⊤)

include hfinite

/-- Every reachable marking is that of an expanded node. -/
theorem Complete.exists_exact_eq (h : Complete net initial nodes) (hM : net.Reachable initial.exact M) :
    ∃ (i : ℕ) (node : Node), nodes[i]? = some node ∧ node.kind.isDuplicate = false ∧
      node.marking.exact = M := by
  induction hM with
  | refl =>
    obtain ⟨root, hr, hs⟩ := h.grown.root
    refine ⟨0, root, hr, ?_, ?_⟩
    · rw [hs.isDuplicate]
      rfl
    · rw [hs.marking]
  | tail _ hstep ih =>
    obtain ⟨i, node, hn, hdup, rfl⟩ := ih
    obtain ⟨t, hfires⟩ := hstep
    obtain ⟨c, child, n, hchild, -, hfires', hraised⟩ := h.exists_child hn hdup hfires.enables
    -- A child was raised only where it holds omega, and no node does.
    have hexact : child.marking.exact = n :=
      hraised.eq fun p htop => absurd htop (hfinite child (Array.mem_of_getElem? hchild) p)
    obtain ⟨j, twin, ht, hm, hdup'⟩ := h.exists_expanded hchild
    refine ⟨j, twin, ht, hdup', ?_⟩
    rw [hm, hexact]
    exact hfires'.unique hfires

/-- The nodes carry exactly the reachable markings. -/
theorem Complete.exists_exact_eq_iff (h : Complete net initial nodes) :
    (∃ node ∈ nodes, node.marking.exact = M) ↔ net.Reachable initial.exact M := by
  constructor
  · rintro ⟨node, hn, rfl⟩
    obtain ⟨N, hN, happrox⟩ := h.exists_approximates hn 0
    have hexact : N = node.marking.exact := by
      funext p
      exact (happrox p).1 (hfinite node hn p)
    rwa [← hexact]
  · intro hM
    obtain ⟨i, node, hn, -, hexact⟩ := h.exists_exact_eq hfinite hM
    exact ⟨node, Array.mem_of_getElem? hn, hexact⟩

lemma Complete.exists_dead_iff (h : Complete net initial nodes) :
    (∃ node ∈ nodes, node.kind = .dead) ↔ ∃ M, net.Reachable initial.exact M ∧ net.IsDead M := by
  constructor
  · rintro ⟨node, hn, hkind⟩
    exact ⟨_, (h.exists_exact_eq_iff hfinite).mp ⟨node, hn, rfl⟩, h.isDead_of_kind_eq_dead hn hkind⟩
  · rintro ⟨M, hM, hdead⟩
    obtain ⟨i, node, hn, hdup, rfl⟩ := h.exists_exact_eq hfinite hM
    exact ⟨node, Array.mem_of_getElem? hn, (h.kind_eq_dead_iff hn hdup).mpr hdead⟩

end Omegaless

/-- A bounded tree carries exactly the reachable markings, and it reports a deadlock exactly if one of them
enables no transition. -/
theorem Search.reachable_of_isBounded (hnet : search.net.Constructed) (h : search.build initial = .ok tree)
    (hb : tree.isBounded = true) :
    {M | ∃ node ∈ tree.nodes, node.marking.exact = M} = {M | search.net.Reachable initial.exact M} ∧
      (tree.hasDeadlock = true ↔ ∃ M, search.net.Reachable initial.exact M ∧ search.net.IsDead M) := by
  obtain ⟨nodes, hc, rfl⟩ := search.exists_nodes_of_build hnet.wellFormed h
  have hfinite : ∀ node ∈ nodes, ∀ p, node.marking.exact p ≠ ⊤ := Tree.isBounded_iff.mp hb
  refine ⟨?_, ?_⟩
  · ext M
    exact hc.exists_exact_eq_iff hfinite
  · rw [Tree.hasDeadlock_iff]
    exact hc.exists_dead_iff hfinite

section Diners

/-- Two diners take one fork each, in opposite order, and eat with both. -/
def diners : Net where
  name := "diners"
  placeNames := ["thinking1", "holding1", "thinking2", "holding2", "fork1", "fork2"]
  transitionNames := ["take1", "eat1", "take2", "eat2"]
  rules := ["thinking1 -> take1", "fork1 -> take1 eat2", "take1 -> holding1", "holding1 -> eat1",
    "eat1 -> thinking1 fork1 fork2", "thinking2 -> take2", "fork2 -> take2 eat1", "take2 -> holding2",
    "holding2 -> eat2", "eat2 -> thinking2 fork1 fork2"]
  arcs := [⟨[⟨1, 0⟩, ⟨1, 4⟩], [⟨1, 1⟩]⟩, ⟨[⟨1, 1⟩, ⟨1, 5⟩], [⟨1, 0⟩, ⟨1, 4⟩, ⟨1, 5⟩]⟩,
    ⟨[⟨1, 2⟩, ⟨1, 5⟩], [⟨1, 3⟩]⟩, ⟨[⟨1, 4⟩, ⟨1, 3⟩], [⟨1, 2⟩, ⟨1, 4⟩, ⟨1, 5⟩]⟩]
  initial := .ofFinite [1, 0, 1, 0, 1, 1]
  marking := .ofFinite [1, 0, 1, 0, 1, 1]

def dinersSearch : Search where
  net := diners
  pruning := .globalSeen
  maxNodes := some 7
  timeout := none

def dinersTree : Tree := dinersSearch.toTree #[
  ⟨none, .ofFinite [1, 0, 1, 0, 1, 1], none, [1, 4], .interior, 0⟩,
  ⟨some 0, .ofFinite [0, 1, 1, 0, 0, 1], some 0, [2, 3], .interior, 1⟩,
  ⟨some 1, .ofFinite [1, 0, 1, 0, 1, 1], some 1, [], .duplicate 0, 2⟩,
  ⟨some 2, .ofFinite [0, 1, 0, 1, 0, 0], some 1, [], .dead, 2⟩,
  ⟨some 2, .ofFinite [1, 0, 0, 1, 1, 0], some 0, [5, 6], .interior, 1⟩,
  ⟨some 0, .ofFinite [0, 1, 0, 1, 0, 0], some 4, [], .duplicate 3, 2⟩,
  ⟨some 3, .ofFinite [1, 0, 1, 0, 1, 1], some 4, [], .duplicate 0, 2⟩]

lemma constructed_diners : dinersSearch.net.Constructed := by
  have h : Net.ofEntities "diners"
      [.place "thinking1" (.finite 1), .place "holding1" (.finite 0), .place "thinking2" (.finite 1),
        .place "holding2" (.finite 0), .place "fork1" (.finite 1), .place "fork2" (.finite 1),
        .transition "take1", .transition "eat1", .transition "take2", .transition "eat2"]
      diners.rules = .ok diners := by
    decide +kernel
  exact .ofEntities h

lemma build_diners : dinersSearch.build diners.initial = .ok dinersTree := by
  cbv

theorem reachable_diners : dinersSearch.net.Constructed ∧
    dinersSearch.build diners.initial = .ok dinersTree ∧ dinersTree.isBounded = true ∧
    {M | ∃ node ∈ dinersTree.nodes, node.marking.exact = M} =
      {M | diners.Reachable diners.initial.exact M} ∧
    ∃ M, diners.Reachable diners.initial.exact M ∧ diners.IsDead M := by
  have hb : dinersTree.isBounded = true := by decide +kernel
  obtain ⟨hmarkings, hdeadlock⟩ := Search.reachable_of_isBounded constructed_diners build_diners hb
  exact ⟨constructed_diners, build_diners, hb, hmarkings, hdeadlock.mp rfl⟩

end Diners

end Coverability
