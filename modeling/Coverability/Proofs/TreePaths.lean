import Coverability.Proofs.DeadTransitions
import Coverability.Proofs.PathOrder

/-!
# Paths of a tree

The walk from a node up to the root meets the proper ancestors of the node, with ever smaller indices, so it
takes fewer steps than there are nodes. On the way back down there is one transition for each edge.
-/

namespace Coverability

variable {net : Net} {initial : Marking} {nodes : Array Node} {tree : Tree} {i t : ℕ} {above l : List ℕ}
  {search : Search}

section Grown

lemma Grown.pairwise_lineage (h : Grown net initial nodes) (hl : Lineage nodes i above) :
    (i :: above).Pairwise (· > ·) := by
  induction hl with
  | root hn hp => exact List.pairwise_singleton _ _
  | child hn hp hl ih => exact List.pairwise_cons.mpr ⟨fun j hj => h.lt_of_mem_lineage (.child hn hp hl) hj, ih⟩

lemma Grown.length_lineage_lt (h : Grown net initial nodes) (hl : Lineage nodes i above) :
    above.length < nodes.size := by
  have hnodup : (i :: above).Nodup := (h.pairwise_lineage hl).imp fun hlt => hlt.ne'
  have hlength : (i :: above).length ≤ nodes.size := length_le_of_nodup_of_lt hnodup hl.lt_size
  rwa [List.length_cons] at hlength

lemma Grown.getLast?_lineage (h : Grown net initial nodes) (hl : Lineage nodes i above) :
    (i :: above).getLast? = some 0 := by
  induction hl with
  | root hn hp => rw [h.eq_zero_of_parent_eq_none hn hp, List.getLast?_singleton]
  | child hn hp hl ih => rw [List.getLast?_cons_cons, ih]

lemma Grown.transition_lt (h : Grown net initial nodes) (hw : net.WellFormed)
    (ht : transitionAt nodes i = some t) : t < net.transitionCount := by
  obtain ⟨node, hn, htransition⟩ := Option.bind_eq_some_iff.mp ht
  exact (h.exists_enables hw hn htransition).1

lemma Grown.lt_of_mem_pathLabels (h : Grown net initial nodes) (hw : net.WellFormed)
    (ht : t ∈ pathLabels nodes l) : t < net.transitionCount := by
  obtain ⟨j, -, hj⟩ := List.mem_filterMap.mp (List.mem_reverse.mp ht)
  exact h.transition_lt hw hj

lemma Grown.pathLabels_root (h : Grown net initial nodes) (hl : Lineage nodes i []) :
    pathLabels nodes [i] = [] := by
  obtain ⟨root, hn⟩ := hl.exists_node
  have hnone : transitionAt nodes i = none :=
    (transitionAt_of_getElem? hn).trans (h.transition_eq_none hl hn)
  rw [pathLabels, List.filterMap_cons_none hnone]
  rfl

/-- There is one transition for each edge of the path. -/
lemma Grown.length_pathLabels (h : Grown net initial nodes) (hl : Lineage nodes i above) :
    (pathLabels nodes (i :: above)).length = above.length := by
  induction hl with
  | root hn hp => rw [h.pathLabels_root (.root hn hp)]
  | child hn hp hl ih =>
    obtain ⟨t, ht⟩ := h.exists_transitionAt ((parentAt_of_getElem? hn).trans hp)
    rw [pathLabels_cons ht, List.length_append, ih]
    rfl

end Grown

namespace Tree

lemma node_eq_ok {node : Node} (hn : tree.nodes[i]? = some node) : tree.node i = .ok node := by
  rw [Tree.node, hn]

lemma ancestorsWithin_eq_ok (hl : Lineage tree.nodes i above) {steps : ℕ} (hs : above.length < steps) :
    tree.ancestorsWithin steps i = .ok (i :: above) := by
  induction hl generalizing steps with
  | root hn hp =>
    obtain ⟨steps, rfl⟩ := Nat.exists_eq_add_one_of_ne_zero (Nat.ne_zero_of_lt hs)
    rw [ancestorsWithin, node_eq_ok hn]
    simp only [bind, Except.bind, hp]
    rfl
  | @child i parent node above hn hp hl ih =>
    obtain ⟨steps, rfl⟩ := Nat.exists_eq_add_one_of_ne_zero (Nat.ne_zero_of_lt hs)
    have hparent : tree.ancestorsWithin steps parent = .ok (parent :: above) :=
      ih (Nat.lt_of_succ_lt_succ hs)
    rw [ancestorsWithin, node_eq_ok hn]
    simp only [bind, Except.bind, hp, hparent]
    rfl

lemma exists_mapM_node (hl : ∀ j ∈ l, j < tree.nodes.size) :
    ∃ found, l.mapM tree.node = .ok found ∧
      found.filterMap Node.transition = l.filterMap (transitionAt tree.nodes) := by
  induction l with
  | nil => exact ⟨[], rfl, rfl⟩
  | cons j l ih =>
    obtain ⟨hj, hl⟩ := List.forall_mem_cons.mp hl
    obtain ⟨found, hfound, hlabels⟩ := ih hl
    have hn : tree.nodes[j]? = some tree.nodes[j] := Array.getElem?_eq_getElem hj
    refine ⟨tree.nodes[j] :: found, ?_, ?_⟩
    · rw [List.mapM_cons, node_eq_ok hn, hfound]
      rfl
    · rw [List.filterMap_cons, List.filterMap_cons, hlabels, transitionAt_of_getElem? hn]

end Tree

section Complete

variable (hc : Complete search.net initial nodes)

include hc

theorem Complete.ancestors_eq_ok (hl : Lineage nodes i above) :
    (search.toTree nodes).ancestors i = .ok (i :: above) :=
  Tree.ancestorsWithin_eq_ok hl (hc.grown.length_lineage_lt hl)

/-- The names on the way from the root to a node are those of the transitions of the path. -/
theorem Complete.pathTo_eq_ok (hl : Lineage nodes i above) : (search.toTree nodes).pathTo i =
    .ok ((pathLabels nodes (i :: above)).map search.net.transitionName) := by
  obtain ⟨found, hfound, (hlabels : _ = (i :: above).filterMap (transitionAt nodes))⟩ :=
    (search.toTree nodes).exists_mapM_node hl.lt_size
  have hnames : ∀ t ∈ (i :: above).filterMap (transitionAt nodes),
      (search.toTree nodes).transitionName t = .ok (search.net.transitionName t) := by
    intro t ht
    have hlt : t < search.net.transitionNames.length :=
      hc.grown.lt_of_mem_pathLabels hc.wellFormed (List.mem_reverse.mpr ht)
    simp [Tree.transitionName, Search.toTree, Net.transitionName, hlt]
  rw [Tree.pathTo, hc.ancestors_eq_ok hl]
  simp only [bind, Except.bind, hfound]
  rw [hlabels, mapM_eq_ok hnames, pathLabels, List.map_reverse]
  rfl

end Complete

end Coverability
