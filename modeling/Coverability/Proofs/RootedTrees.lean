import Coverability.Proofs.BoundedTrees
import Coverability.Proofs.TreePaths

/-!
# Rooted trees

The parents, children, transitions and depths that a search writes down one by one fit together: the nodes
form a tree below node 0, in which siblings have the order of their transitions. So the walk from a node
to the root takes one step for each level.
-/

namespace Coverability

/-- The links of the nodes agree, and children are in order. -/
structure Rooted (nodes : Array Node) : Prop where
  root : ∃ root : Node, nodes[0]? = some root ∧ root.parent = none ∧ root.transition = none ∧ root.depth = 0
  child : ∀ (i : ℕ) (node : Node), nodes[i]? = some node → 0 < i →
    ∃ (p t : ℕ) (parent : Node), p < i ∧ node.parent = some p ∧ node.transition = some t ∧
      nodes[p]? = some parent ∧ node.depth = parent.depth + 1
  count_children : ∀ (i : ℕ) (node : Node), nodes[i]? = some node →
    ∀ c, node.children.count c = if parentAt nodes c = some i then 1 else 0
  pairwise_children : ∀ (i : ℕ) (node : Node), nodes[i]? = some node → node.children.Pairwise fun c c' =>
    c < c' ∧ ∃ t t', transitionAt nodes c = some t ∧ transitionAt nodes c' = some t' ∧ t < t'

variable {net : Net} {initial : Marking} {nodes : Array Node} {node : Node} {i c c' t t' : ℕ}
  {search : Search} {tree : Tree}

/-- A child for an earlier transition has a smaller index. -/
lemma LabelsOrdered.lt_of_transitionAt_lt (ho : LabelsOrdered nodes) (hg : Grown net initial nodes)
    (hp : parentAt nodes c = some i) (hp' : parentAt nodes c' = some i) (ht : transitionAt nodes c = some t)
    (ht' : transitionAt nodes c' = some t') (hlt : t < t') : c < c' := by
  obtain ⟨child, hn, hparent⟩ := Option.bind_eq_some_iff.mp hp
  obtain ⟨child', hn', hparent'⟩ := Option.bind_eq_some_iff.mp hp'
  obtain ⟨-, u, hb⟩ := hg.begets hn hparent
  obtain ⟨above, -, hl, -⟩ := hb.marking
  -- the two paths only differ in their last transition
  have hlabels : pathLabels nodes (i :: above) ++ [t] < pathLabels nodes (i :: above) ++ [t'] :=
    List.append_left_lt (List.Lex.rel hlt)
  rw [← pathLabels_cons ht, ← pathLabels_cons ht'] at hlabels
  exact ho.lt_of_pathLabels_lt (.child hn hparent hl) (.child hn' hparent' hl) hlabels

lemma Expanded.pairwise_transitionAt {bound : ℕ} (h : Expanded net nodes i node bound) :
    node.children.Pairwise fun c c' =>
      ∃ t t', transitionAt nodes c = some t ∧ transitionAt nodes c' = some t' ∧ t < t' := by
  have henabled : ((List.range bound).filter (net.isEnabled node.marking · = .ok true)).Pairwise (· < ·) :=
    List.pairwise_lt_range.filter _
  have hsome : (node.children.map (transitionAt nodes)).Pairwise fun a b =>
      ∃ t t', a = some t ∧ b = some t' ∧ t < t' := by
    rw [h.transitions, List.pairwise_map]
    exact henabled.imp fun hlt => ⟨_, _, rfl, rfl, hlt⟩
  exact List.pairwise_map.mp hsome

section Complete

variable (h : Complete net initial nodes)

include h

lemma Complete.pairwise_children (ho : LabelsOrdered nodes) (hn : nodes[i]? = some node) :
    node.children.Pairwise fun c c' =>
      c < c' ∧ ∃ t t', transitionAt nodes c = some t ∧ transitionAt nodes c' = some t' ∧ t < t' := by
  cases hdup : node.kind.isDuplicate with
  | true =>
    rw [h.unexpanded i node hn hdup]
    exact List.Pairwise.nil
  | false =>
    have hexp := (h.finished i node hn hdup).expanded
    refine hexp.pairwise_transitionAt.imp_of_mem ?_
    rintro c c' hc hc' ⟨t, t', ht, ht', hlt⟩
    exact ⟨ho.lt_of_transitionAt_lt h.grown (hexp.parent c hc) (hexp.parent c' hc') ht ht' hlt,
      t, t', ht, ht', hlt⟩

lemma Complete.count_children (ha : Adopted nodes) (ho : LabelsOrdered nodes) (hn : nodes[i]? = some node)
    (c : ℕ) : node.children.count c = if parentAt nodes c = some i then 1 else 0 := by
  have hnodup : node.children.Nodup := (h.pairwise_children ho hn).imp fun hc => hc.1.ne
  simp only [hnodup.count, h.mem_children_iff ha hn]

theorem Complete.rooted (ha : Adopted nodes) (ho : LabelsOrdered nodes) : Rooted nodes := by
  refine ⟨?_, fun i node hn hpos => ?_, fun i node hn => h.count_children ha ho hn,
    fun i node hn => h.pairwise_children ho hn⟩
  · obtain ⟨root, hr, hs⟩ := h.grown.root
    exact ⟨root, hr, hs.parent, hs.transition, hs.depth⟩
  · obtain ⟨p, t, hlt, hb⟩ := h.grown.born i node hn hpos
    obtain ⟨above, successor, hl, -, -, hdepth⟩ := hb.marking
    obtain ⟨parent, hparent⟩ := hl.exists_node
    refine ⟨p, t, parent, hlt, hb.parent_eq, hb.transition_eq, hparent, ?_⟩
    rw [hdepth, h.grown.depth_eq hl hparent]

end Complete

/-- The nodes of a built tree form a rooted tree. The walk from a node to the root ends after as many steps as
the node is deep, with ever smaller indices, and the path down to it has one name for each step. -/
theorem Search.rooted_of_build (hnet : search.net.Constructed) (h : search.build initial = .ok tree) :
    Rooted tree.nodes ∧ ∀ (i : ℕ) (node : Node), tree.nodes[i]? = some node →
      (∃ above, Lineage tree.nodes i above ∧ tree.ancestors i = .ok (i :: above) ∧
        (∀ steps > node.depth, tree.ancestorsWithin steps i = .ok (i :: above)) ∧
        (i :: above).Pairwise (· > ·) ∧ (i :: above).getLast? = some 0 ∧
        (i :: above).length = node.depth + 1) ∧
      ∃ names, tree.pathTo i = .ok names ∧ names.length = node.depth := by
  have hexplore : search.explore initial = .ok tree.nodes := explore_of_build h
  have hadopted : Adopted tree.nodes := adopted_of_explore hnet.wellFormed hexplore
  have hordered : LabelsOrdered tree.nodes := labelsOrdered_of_explore hnet.wellFormed hexplore
  obtain ⟨nodes, hc, rfl⟩ := search.exists_nodes_of_build hnet.wellFormed h
  refine ⟨hc.rooted hadopted hordered, fun i node hn => ?_⟩
  obtain ⟨above, hl⟩ := hc.grown.exists_lineage hn
  have hdepth : node.depth = above.length := hc.grown.depth_eq hl hn
  refine ⟨⟨above, hl, hc.ancestors_eq_ok hl, fun steps hs => ?_, hc.grown.pairwise_lineage hl,
    hc.grown.getLast?_lineage hl, ?_⟩, _, hc.pathTo_eq_ok hl, ?_⟩
  · exact Tree.ancestorsWithin_eq_ok hl (hdepth ▸ hs)
  · rw [List.length_cons, hdepth]
  · rw [List.length_map, hc.grown.length_pathLabels hl, hdepth]

/-- That both diners hold a fork is met again two steps below the root. -/
theorem rooted_diners : dinersSearch.net.Constructed ∧
    dinersSearch.build diners.initial = .ok dinersTree ∧ Rooted dinersTree.nodes ∧
    dinersTree.ancestors 5 = .ok [5, 4, 0] ∧
    ∃ names, dinersTree.pathTo 5 = .ok names ∧ names.length = 2 := by
  obtain ⟨hrooted, hwalk⟩ := Search.rooted_of_build constructed_diners build_diners
  obtain ⟨⟨above, hl, hancestors, -⟩, hnames⟩ := hwalk 5 _ rfl
  rw [hl.unique (.child rfl rfl (.child rfl rfl (.root rfl rfl)))] at hancestors
  exact ⟨constructed_diners, build_diners, hrooted, hancestors, hnames⟩

end Coverability
