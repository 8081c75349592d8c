import Coverability.Proofs.CallsInRange
import Coverability.Proofs.ChildLinks
import Coverability.Proofs.TreePaths

/-!
# Statistics of a tree

Every node but the root is entered among the children of one node when it is created, so there is one child less
than there are nodes. The nodes without children are the duplicates and the dead nodes, and a node of the greatest
depth is one of them.
-/

namespace Coverability

/-- Changing one entry by `k` changes the sum by `k`. -/
lemma sum_map_modify {α : Type} {l : List α} {f : α → α} {g : α → ℕ} {k i : ℕ} (hf : ∀ a, g (f a) = g a + k)
    (hi : i < l.length) : ((l.modify i f).map g).sum = (l.map g).sum + k := by
  induction l generalizing i with
  | nil => contradiction
  | cons a l ih =>
    cases i with
    | zero =>
      rw [List.modify_zero_cons, List.map_cons, List.map_cons, List.sum_cons, List.sum_cons, hf]
      omega
    | succ i =>
      rw [List.modify_succ_cons, List.map_cons, List.map_cons, List.sum_cons, List.sum_cons,
        ih (Nat.lt_of_succ_lt_succ hi), Nat.add_assoc]

/-- The number of entries in all lists of children. -/
def childCount (nodes : Array Node) : ℕ :=
  (nodes.toList.map (·.children.length)).sum

namespace SearchState

variable {state : SearchState} {frame : Frame} {below : List Frame}

lemma childCount_leave (hlt : frame.node < state.nodes.size) :
    childCount (state.leave frame below).nodes = childCount state.nodes := by
  rw [childCount, SearchState.leave, Array.toList_modify]
  exact sum_map_modify (f := Node.left) (k := 0) (fun _ => congrArg List.length Node.children_left) hlt

lemma childCount_create (hlt : frame.node < state.nodes.size) (m : Marking) (d : Option ℕ) :
    childCount (state.create frame below m d).nodes = childCount state.nodes + 1 := by
  rw [childCount, nodes_create, Array.toList_push, List.map_append, List.sum_append, Array.toList_modify,
    sum_map_modify (fun node => List.length_append) hlt]
  rfl

end SearchState

namespace Search

variable {search : Search} {initial : Marking} {state : SearchState} {nodes : Array Node}

/-- A step that appends a node enters it among the children of one other node. -/
theorem Through.childCount_add_one (h : search.Through initial state) (hw : search.net.WellFormed)
    (hd : initial.dimension = search.net.placeCount) : childCount state.nodes + 1 = state.nodes.size := by
  refine h.preserves hw hd (P := fun state => childCount state.nodes + 1 = state.nodes.size) rfl ?_
  intro state frame below next _ hinv hs hadv hcount
  have hlt : frame.node < state.nodes.size := (hinv.stackFits hs).node_lt List.mem_cons_self
  cases hadv with
  | leave hle => rw [SearchState.childCount_leave hlt, SearchState.size_leave, hcount]
  | skip hlt hfire he => exact hcount
  | create hlt' hfire hsize => rw [SearchState.childCount_create hlt, SearchState.size_create, hcount]

theorem childCount_add_one_of_explore (hw : search.net.WellFormed) (h : search.explore initial = .ok nodes) :
    childCount nodes + 1 = nodes.size := by
  obtain ⟨hd, last, ht, -, rfl⟩ := exists_through_of_explore h
  exact ht.childCount_add_one hw hd

end Search

lemma Statistics.exists_maxDepth {nodes : Array Node} (hpos : 0 < nodes.size) (time : Duration) :
    (∃ node ∈ nodes, node.depth = (ofNodes nodes time).maxDepth) ∧
      ∀ node ∈ nodes, node.depth ≤ (ofNodes nodes time).maxDepth := by
  have hfold : (ofNodes nodes time).maxDepth = (nodes.toList.map Node.depth).foldl max 0 := by
    rw [List.foldl_map, Array.foldl_toList]
    rfl
  obtain ⟨depth, hdepth⟩ : ∃ depth, (nodes.toList.map Node.depth).max? = some depth := by
    rw [← Option.isSome_iff_exists, List.isSome_max?_iff]
    simpa using Array.ne_empty_of_size_pos hpos
  obtain ⟨hmem, hle⟩ := List.max?_eq_some_iff.mp hdepth
  rw [hfold, List.foldl_max, hdepth, Option.getD_some, Nat.zero_max]
  refine ⟨?_, fun node hn => hle _ (List.mem_map_of_mem (Array.mem_toList_iff.mpr hn))⟩
  obtain ⟨node, hn, rfl⟩ := List.mem_map.mp hmem
  exact ⟨node, Array.mem_toList_iff.mp hn, rfl⟩

/-- Duplicates and dead nodes are counted apart, since a node has one kind. -/
lemma countP_eq_add {l : List Node} {q : Node → Bool}
    (hq : ∀ node ∈ l, q node = true ↔ node.kind.isDuplicate = true ∨ node.kind = .dead) :
    l.countP q = l.countP (·.kind.isDuplicate) + l.countP (·.kind = .dead) := by
  induction l with
  | nil => rfl
  | cons node l ih =>
    obtain ⟨hnode, hl⟩ := List.forall_mem_cons.mp hq
    simp only [List.countP_cons, ih hl, hnode]
    cases hkind : node.kind <;> simp [NodeKind.isDuplicate] <;> omega

section Complete

variable {search : Search} {net : Net} {initial : Marking} {nodes : Array Node} {node : Node} {i : ℕ}

/-- The nodes without children are the duplicates and the dead nodes. -/
lemma Complete.isLeaf_iff (h : Complete net initial nodes) (hn : nodes[i]? = some node) :
    node.isLeaf = true ↔ node.kind.isDuplicate = true ∨ node.kind = .dead := by
  rw [Node.isLeaf, List.isEmpty_iff]
  cases hdup : node.kind.isDuplicate with
  | true => simp [h.unexpanded i node hn hdup]
  | false => simp [(h.finished i node hn hdup).kind_iff.1]

lemma Complete.exists_pathTo (h : Complete search.net initial nodes) (hn : nodes[i]? = some node) :
    ∃ names, (search.toTree nodes).pathTo i = .ok names ∧ names.length = node.depth := by
  obtain ⟨above, hl⟩ := h.grown.exists_lineage hn
  refine ⟨_, h.pathTo_eq_ok hl, ?_⟩
  rw [List.length_map, h.grown.length_pathLabels hl, h.grown.depth_eq hl hn]

/-- A child is deeper than its parent. -/
lemma Complete.exists_deeper (h : Complete net initial nodes) (ha : Adopted nodes) (hn : nodes[i]? = some node)
    (hleaf : node.isLeaf = false) : ∃ child ∈ nodes, node.depth < child.depth := by
  obtain ⟨c, hc⟩ := List.isEmpty_eq_false_iff_exists_mem.mp hleaf
  obtain ⟨child, hchild, hparent⟩ := Option.bind_eq_some_iff.mp ((h.mem_children_iff ha hn).mp hc)
  obtain ⟨above, hl⟩ := h.grown.exists_lineage hn
  refine ⟨child, Array.mem_of_getElem? hchild, ?_⟩
  rw [h.grown.depth_eq hl hn, h.grown.depth_eq (.child hchild hparent hl) hchild, List.length_cons]
  exact Nat.lt_succ_self _

end Complete

/-- The statistics of a built tree count its nodes, which are one more than all children together. The leaves are the
duplicates and the dead nodes, and they are as many as the statistics say. The greatest depth is the length of the
longest path to a node, which leads to a leaf. -/
theorem Search.statistics_of_build {search : Search} {initial : Marking} {tree : Tree}
    (hnet : search.net.Constructed) (h : search.build initial = .ok tree) :
    tree.statistics.nodeCount = tree.nodes.size ∧
    tree.statistics.nodeCount = (tree.nodes.toList.map (·.children.length)).sum + 1 ∧
    (tree.leaves.Pairwise (· < ·) ∧ ∀ i, i ∈ tree.leaves ↔
      ∃ node : Node, tree.nodes[i]? = some node ∧ (node.kind.isDuplicate = true ∨ node.kind = .dead)) ∧
    tree.leaves.length = tree.statistics.duplicateCount + tree.statistics.deadCount ∧
    tree.statistics.deadCount = tree.deadNodes.length ∧
    (∀ i < tree.nodes.size, ∃ names, tree.pathTo i = .ok names ∧ names.length ≤ tree.statistics.maxDepth) ∧
    ∃ i ∈ tree.leaves, ∃ names, tree.pathTo i = .ok names ∧ names.length = tree.statistics.maxDepth := by
  have hexplore : search.explore initial = .ok tree.nodes := explore_of_build h
  have hadopted : Adopted tree.nodes := adopted_of_explore hnet.wellFormed hexplore
  have hcount : childCount tree.nodes + 1 = tree.nodes.size :=
    childCount_add_one_of_explore hnet.wellFormed hexplore
  obtain ⟨nodes, hc, rfl⟩ := search.exists_nodes_of_build hnet.wellFormed h
  obtain ⟨⟨deepest, hdeepest, hmax⟩, hle⟩ := Statistics.exists_maxDepth hc.grown.size_pos .zero
  refine ⟨rfl, hcount.symm, ⟨Tree.pairwise_indicesOf _ _, fun i => ?_⟩, ?_, ?_, fun i hi => ?_, ?_⟩
  · rw [Tree.leaves, Tree.mem_indicesOf]
    exact exists_congr fun node => and_congr_right fun hn => hc.isLeaf_iff hn
  · rw [Tree.leaves, Tree.length_indicesOf, ← Array.countP_toList, countP_eq_add fun node hn => ?_,
      Array.countP_toList, Array.countP_toList]
    · rfl
    · obtain ⟨i, hi⟩ := Array.mem_iff_getElem?.mp (Array.mem_toList_iff.mp hn)
      exact hc.isLeaf_iff hi
  · rw [Tree.deadNodes, Tree.length_indicesOf]
    rfl
  · obtain ⟨names, hnames, hlength⟩ := hc.exists_pathTo (Array.getElem?_eq_getElem hi)
    exact ⟨names, hnames, hlength ▸ hle _ (Array.getElem_mem hi)⟩
  · obtain ⟨i, hi⟩ := Array.mem_iff_getElem?.mp hdeepest
    obtain ⟨names, hnames, hlength⟩ := hc.exists_pathTo hi
    refine ⟨i, ?_, names, hnames, hlength.trans hmax⟩
    rw [Tree.leaves, Tree.mem_indicesOf]
    refine ⟨deepest, hi, ?_⟩
    by_contra hleaf
    obtain ⟨child, hchild, hlt⟩ := hc.exists_deeper hadopted hi (by simpa using hleaf)
    exact absurd (hle child hchild) (by omega)

/-- In the tree of the shop one leaf repeats that it is open, and at the other it is closed. Both are two steps below
the root. -/
theorem statistics_shop : shopSearch.net.Constructed ∧ shopSearch.build shop.initial = .ok shopTree ∧
    shopTree.leaves = [2, 3] ∧ [2, 3].length = shopTree.statistics.duplicateCount + shopTree.statistics.deadCount ∧
    shopTree.statistics.nodeCount = ([[1], [2, 3], [], []].map List.length).sum + 1 ∧
    ∃ i ∈ [2, 3], ∃ names, shopTree.pathTo i = .ok names ∧ names.length = 2 := by
  have hleaves : shopTree.leaves = [2, 3] := by decide +kernel
  obtain ⟨-, hchildren, -, hlength, -, -, hdeepest⟩ := Search.statistics_of_build constructed_shop build_shop
  rw [hleaves] at hlength hdeepest
  exact ⟨constructed_shop, build_shop, hleaves, hlength, hchildren, hdeepest⟩

end Coverability
