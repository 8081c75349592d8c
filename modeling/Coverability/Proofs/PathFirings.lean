import Coverability.Proofs.BoundedTrees
import Coverability.Proofs.FiringSequences
import Coverability.Proofs.PathGrowth
import Coverability.Proofs.TreePaths

/-!
# Paths without acceleration

Acceleration does nothing but put omega on places. A node that has no omega but those of the root is on a path
where none came up, so along it each node carries just what its transition made of the marking before.
Hence the path is a firing sequence, and the engine gets from the root to the node by it.
-/

namespace Coverability

variable {net : Net} {initial : Marking} {nodes : Array Node} {i : ℕ} {above : List ℕ}

/-- The transitions of a path fire one after the other if the path adds no omega. -/
theorem Grown.firesAll_pathLabels (h : Grown net initial nodes) (hw : net.WellFormed)
    (hl : Lineage nodes i above) (homega : ∀ p, (markingAt nodes i).exact p = ⊤ → initial.exact p = ⊤) :
    net.FiresAll initial (pathLabels nodes (i :: above)) (markingAt nodes i) := by
  induction hl with
  | root hn hp =>
    rw [h.pathLabels_root (.root hn hp), markingAt_of_getElem? hn, (h.sameOrigin_root hn hp).marking]
    exact .nil initial
  | @child i parent node above hn hp hl ih =>
    have hchild : Lineage nodes i (parent :: above) := .child hn hp hl
    have hparent : net.FiresAll initial (pathLabels nodes (parent :: above)) (markingAt nodes parent) := by
      apply ih
      intro p htop
      exact homega p (h.exact_eq_top_of_mem_lineage hw hchild List.mem_cons_self htop)
    obtain ⟨t, successor, ht, hfire, hm, hd⟩ := h.exists_successor hn hp hl
    -- every omega of the node is one of the root, which the path has kept, so acceleration put none there
    have hsame : node.marking = successor := by
      rw [hm]
      apply Marking.accelerate_eq hd
      intro p htop
      rw [← hm, ← markingAt_of_getElem? hn] at htop
      rw [(Net.fires_of_fire hw hfire).eq_top_iff p, hparent.eq_top_iff hw p]
      exact homega p htop
    rw [pathLabels_cons ((transitionAt_of_getElem? hn).trans ht), markingAt_of_getElem? hn, hsame]
    exact hparent.snoc hfire

/-- The path to a node without new omegas is a firing sequence that leads from the root to its marking. -/
theorem Search.fireSequence_pathTo {search : Search} {tree : Tree} {node : Node}
    (hnet : search.net.Constructed) (h : search.build initial = .ok tree) (hn : tree.nodes[i]? = some node)
    (homega : ∀ p, node.marking.get? p = some .infinite → initial.get? p = some .infinite) :
    ∃ names, tree.pathTo i = .ok names ∧ search.net.fireSequence initial names =
      .ok { success := true, marking := node.marking, applied := names } := by
  obtain ⟨nodes, hc, rfl⟩ := search.exists_nodes_of_build hnet.wellFormed h
  obtain ⟨above, hl⟩ := hc.grown.exists_lineage hn
  have hmarking : markingAt nodes i = node.marking := markingAt_of_getElem? hn
  have hfires : search.net.FiresAll initial (pathLabels nodes (i :: above)) (markingAt nodes i) := by
    apply hc.grown.firesAll_pathLabels hc.wellFormed hl
    intro p htop
    rw [hmarking, Marking.exact_eq_top_iff] at htop
    exact Marking.exact_eq_top_iff.mpr (homega p htop)
  have hlt : ∀ t ∈ pathLabels nodes (i :: above), t < search.net.transitionCount :=
    fun t ht => hc.grown.lt_of_mem_pathLabels hc.wellFormed ht
  refine ⟨_, hc.pathTo_eq_ok hl, ?_⟩
  rw [hc.wellFormed.fireSequence_map_transitionName hc.dimension_initial hlt, hfires.fireAll_eq_ok, hmarking]

/-- The diners get into their deadlock by taking one fork each. -/
theorem fireSequence_diners : dinersSearch.net.Constructed ∧
    dinersSearch.build diners.initial = .ok dinersTree ∧
    (∀ p, Marking.get? (.ofFinite [0, 1, 0, 1, 0, 0]) p = some .infinite →
      diners.initial.get? p = some .infinite) ∧
    diners.fireSequence diners.initial ["take1", "take2"] = .ok {
      success := true, marking := .ofFinite [0, 1, 0, 1, 0, 0], applied := ["take1", "take2"] } := by
  have homega : ∀ p, Marking.get? (.ofFinite [0, 1, 0, 1, 0, 0]) p = some .infinite →
      diners.initial.get? p = some .infinite := by
    intro p hp
    simp [Marking.get?, Marking.ofFinite, -List.map_cons] at hp
  have hn : dinersTree.nodes[3]? =
    some ⟨some 2, .ofFinite [0, 1, 0, 1, 0, 0], some 1, [], .dead, 2⟩ := rfl
  obtain ⟨names, hpath, hfire⟩ := Search.fireSequence_pathTo constructed_diners build_diners hn homega
  have hnames : names = ["take1", "take2"] := Except.ok.inj (hpath.symm.trans rfl)
  subst hnames
  exact ⟨constructed_diners, build_diners, homega, hfire⟩

end Coverability
