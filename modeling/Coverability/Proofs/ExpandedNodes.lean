import Coverability.Proofs.CallsInRange
import Coverability.Proofs.ChildLinks

/-!
# Expanded nodes

In a finished tree every node that is no duplicate has one child for each transition that is enabled in its
marking, in the order of the transitions, and each child carries the accelerated marking that its transition
leads to. The kind of a node says which case it is: a duplicate without children, a dead node, or an inner one.
-/

namespace Coverability

variable {net : Net} {initial m : Marking} {nodes : Array Node} {node : Node} {i bound t : ℕ}
  {search : Search} {tree : Tree}

/-- The children of an expanded node and the transitions that they stand for, side by side. -/
lemma Expanded.forall₂_begets (h : Expanded net nodes i node bound) (hg : Grown net initial nodes) :
    List.Forall₂ (fun c t => ∃ child : Node, nodes[c]? = some child ∧ Begets net nodes i t child)
      node.children ((List.range bound).filter (net.isEnabled node.marking · = .ok true)) := by
  have heq : List.Forall₂ (· = ·) (node.children.map (transitionAt nodes))
      (((List.range bound).filter (net.isEnabled node.marking · = .ok true)).map some) :=
    List.forall₂_eq_eq_eq ▸ h.transitions
  rw [List.forall₂_map_left_iff, List.forall₂_map_right_iff] at heq
  have hboth := (List.forall₂_and_left _ _).mpr ⟨h.parent, heq⟩
  refine hboth.imp fun c t hc => ?_
  obtain ⟨child, hchild, hparent⟩ := Option.bind_eq_some_iff.mp hc.1
  obtain ⟨-, t', hb⟩ := hg.begets hchild hparent
  cases hc.2.symm.trans (hb.transitionAt hchild)
  exact ⟨child, hchild, hb⟩

/-- The root of a tree carries the initial marking. A node that is no duplicate has exactly one child for
each enabled transition, in order, a duplicate has none, and the kinds say which nodes have children. -/
theorem Search.expanded_of_build (hnet : search.net.Constructed) (h : search.build initial = .ok tree) :
    (∃ root : Node, tree.nodes[0]? = some root ∧ root.parent = none ∧ root.marking = initial) ∧
    ∀ (i : ℕ) (node : Node), tree.nodes[i]? = some node →
      ∃ enabled, search.net.enabledTransitions node.marking = .ok enabled ∧
        (node.kind.isDuplicate = false → List.Forall₂ (fun c t => ∃ child : Node,
          tree.nodes[c]? = some child ∧ Begets search.net tree.nodes i t child) node.children enabled) ∧
        (∀ c, c ∈ node.children ↔ parentAt tree.nodes c = some i) ∧
        (node.kind.isDuplicate = true → node.children = []) ∧
        (node.kind = .dead ↔ node.kind.isDuplicate = false ∧ enabled = []) ∧
        (node.kind = .interior ↔ node.kind.isDuplicate = false ∧ node.children ≠ []) := by
  have hexplore : search.explore initial = .ok tree.nodes := explore_of_build h
  have hc : Complete search.net initial tree.nodes := complete_of_explore hnet.wellFormed hexplore
  have hadopted : Adopted tree.nodes := adopted_of_explore hnet.wellFormed hexplore
  refine ⟨?_, fun i node hn => ?_⟩
  · obtain ⟨root, hr, hs⟩ := hc.grown.root
    exact ⟨root, hr, hs.parent, hs.marking⟩
  · have hd : node.marking.dimension = search.net.placeCount :=
      (hc.grown.dimension hn).trans hc.dimension_initial
    refine ⟨_, hc.wellFormed.enabledTransitions_eq_ok hd, fun hdup => ?_,
      fun c => hc.mem_children_iff hadopted hn, hc.unexpanded i node hn, ?_⟩
    · exact (hc.finished i node hn hdup).expanded.forall₂_begets hc.grown
    · cases hdup : node.kind.isDuplicate with
      | true =>
        obtain ⟨j, hj⟩ := NodeKind.isDuplicate_eq_true.mp hdup
        simp [hj]
      | false =>
        have hfinished := hc.finished i node hn hdup
        have hpairs := hfinished.expanded.forall₂_begets hc.grown
        have hnil := hpairs.length_eq
        rw [hfinished.kind_iff.1, hfinished.kind_iff.2, ← List.length_eq_zero_iff, hnil,
          List.length_eq_zero_iff]
        simp

/-- An open shop with any stock can be filled again, which leads to node 2, or closed, which leads to node 3. -/
theorem expanded_shop : shopSearch.net.Constructed ∧ shopSearch.build shop.initial = .ok shopTree ∧
    shop.enabledTransitions ⟨[.finite 1, .infinite]⟩ = .ok [0, 1] ∧
    List.Forall₂ (fun c t => ∃ child : Node, shopTree.nodes[c]? = some child ∧
      Begets shop shopTree.nodes 1 t child) [2, 3] [0, 1] := by
  obtain ⟨-, hnodes⟩ := Search.expanded_of_build constructed_shop build_shop
  obtain ⟨enabled, henabled, hchildren, -⟩ := hnodes 1 _ rfl
  have hboth : enabled = [0, 1] := Except.ok.inj (henabled.symm.trans rfl)
  subst hboth
  exact ⟨constructed_shop, build_shop, henabled, hchildren rfl⟩

end Coverability
