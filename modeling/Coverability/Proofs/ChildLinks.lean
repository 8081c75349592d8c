import Coverability.Proofs.SearchInvariant

/-!
# Links between parents and children

A new node is entered among the children of its parent, and no child is ever taken away, so the links of a
tree agree in both directions. Hence a duplicate is nobody's parent, and the children of the node on top of
the stack stand for transitions that have been tried.
-/

namespace Coverability

/-- Every node that names a parent is among the children of that parent. -/
def Adopted (nodes : Array Node) : Prop :=
  ∀ c parent, parentAt nodes c = some parent →
    ∃ node : Node, nodes[parent]? = some node ∧ c ∈ node.children

variable {net : Net} {initial : Marking} {old new nodes : Array Node} {i j c parent : ℕ} {node : Node}

lemma Adopted.keeps (h : Adopted old) (hk : Keeps old new)
    (hchildren : ∀ (i : ℕ) (node : Node), old[i]? = some node →
      ∃ node' : Node, new[i]? = some node' ∧ node.children ⊆ node'.children)
    (hnew : ∀ c parent, old.size ≤ c → parentAt new c = some parent →
      ∃ node : Node, new[parent]? = some node ∧ c ∈ node.children) : Adopted new := by
  intro c parent hp
  by_cases hc : c < old.size
  · rw [hk.parentAt_eq hc] at hp
    obtain ⟨node, hn, hmem⟩ := h c parent hp
    obtain ⟨node', hn', hsub⟩ := hchildren parent node hn
    exact ⟨node', hn', hsub hmem⟩
  · exact hnew c parent (Nat.not_lt.mp hc) hp

lemma Adopted.mem_children (h : Adopted nodes) (hn : nodes[i]? = some node) (hp : parentAt nodes c = some i) :
    c ∈ node.children := by
  obtain ⟨node', hn', hc⟩ := h c i hp
  cases hn.symm.trans hn'
  exact hc

/-- A node with a child was expanded. -/
lemma Adopted.isDuplicate_eq_false (h : Adopted nodes)
    (hu : ∀ (i : ℕ) (node : Node), nodes[i]? = some node → node.kind.isDuplicate = true → node.children = [])
    (hp : parentAt nodes c = some parent) (hn : nodes[parent]? = some node) :
    node.kind.isDuplicate = false := by
  have hc : c ∈ node.children := h.mem_children hn hp
  by_contra hdup
  rw [hu parent node hn (by simpa using hdup)] at hc
  contradiction

/-- All proper ancestors of a node were expanded. -/
lemma Adopted.isDuplicate_eq_false_of_mem (h : Adopted nodes)
    (hu : ∀ (i : ℕ) (node : Node), nodes[i]? = some node → node.kind.isDuplicate = true → node.children = [])
    {above : List ℕ} (hl : Lineage nodes i above) (hj : j ∈ above) (hn : nodes[j]? = some node) :
    node.kind.isDuplicate = false := by
  induction hl with
  | root _ _ => contradiction
  | child hn' hp _ ih =>
    rcases List.mem_cons.mp hj with rfl | hj
    · exact h.isDuplicate_eq_false hu ((parentAt_of_getElem? hn').trans hp) hn
    · exact ih hj

namespace SearchState

variable {state : SearchState} {frame : Frame} {below : List Frame} {m : Marking} {d : Option ℕ}

lemma exists_children_leave (hn : state.nodes[i]? = some node) :
    ∃ node' : Node, (state.leave frame below).nodes[i]? = some node' ∧ node.children ⊆ node'.children := by
  rw [getElem?_leave, hn]
  split
  · exact ⟨node.left, rfl, by rw [Node.children_left]; exact List.Subset.refl _⟩
  · exact ⟨node, rfl, List.Subset.refl _⟩

lemma exists_children_create (hn : state.nodes[i]? = some node) :
    ∃ node' : Node, (state.create frame below m d).nodes[i]? = some node' ∧ node.children ⊆ node'.children := by
  rw [getElem?_create (Array.getElem?_eq_some_iff.mp hn).1, hn]
  split
  · exact ⟨_, rfl, List.subset_append_left _ _⟩
  · exact ⟨node, rfl, List.Subset.refl _⟩

lemma adopted_start : Adopted (start initial).nodes := by
  intro c parent hp
  obtain ⟨node, hn, hparent⟩ := Option.bind_eq_some_iff.mp hp
  rw [(eq_root_of_getElem?_start hn).2] at hparent
  contradiction

lemma Invariant.adopted_create (h : state.Invariant net initial) (hs : state.stack = frame :: below)
    (ha : Adopted state.nodes) : Adopted (state.create frame below m d).nodes := by
  refine ha.keeps (keeps_create m d) (fun i node hn => exists_children_create hn) fun c parent hc hp => ?_
  obtain ⟨child, hchild, hparent⟩ := Option.bind_eq_some_iff.mp hp
  obtain ⟨rfl, rfl⟩ := (lt_or_eq_created hchild).resolve_left (Nat.not_lt.mpr hc)
  cases hparent
  obtain ⟨node, hn, -⟩ := h.stack.exists_node (hs ▸ List.mem_cons_self)
  refine ⟨{ node with children := node.children ++ [state.nodes.size] }, ?_, by simp⟩
  rw [getElem?_create (Array.getElem?_eq_some_iff.mp hn).1, if_pos rfl, hn]
  rfl

/-- The children of the node on top of the stack stand for transitions before the next one. -/
lemma Invariant.transition_lt (h : state.Invariant net initial) (hs : state.stack = frame :: below)
    (ha : Adopted state.nodes) (hp : parentAt state.nodes c = some frame.node) :
    ∃ t < frame.next, transitionAt state.nodes c = some t := by
  obtain ⟨node, hn, -, -, hexp⟩ := (h.stackFits hs).1.node
  have hmem : transitionAt state.nodes c ∈ node.children.map (transitionAt state.nodes) :=
    List.mem_map_of_mem (ha.mem_children hn hp)
  rw [hexp.transitions] at hmem
  obtain ⟨t, ht, he⟩ := List.mem_map.mp hmem
  exact ⟨t, List.mem_range.mp (List.mem_filter.mp ht).1, he.symm⟩

end SearchState

namespace Search

variable {search : Search} {state : SearchState}

theorem Through.adopted (h : search.Through initial state) (hw : search.net.WellFormed)
    (hd : initial.dimension = search.net.placeCount) : Adopted state.nodes := by
  refine h.preserves hw hd (P := fun state => Adopted state.nodes) SearchState.adopted_start ?_
  intro state frame below next _ hinv hs hadv ha
  cases hadv with
  | leave hle =>
    refine ha.keeps (hinv.leave_keeps hs) (fun i node hn => SearchState.exists_children_leave hn) ?_
    intro c parent hc hp
    obtain ⟨child, hchild, -⟩ := Option.bind_eq_some_iff.mp hp
    simp [SearchState.leave, hc] at hchild
  | skip hlt hfire he => exact ha
  | create hlt hfire hsize => exact hinv.adopted_create hs ha

theorem adopted_of_explore (hw : search.net.WellFormed) (h : search.explore initial = .ok nodes) :
    Adopted nodes := by
  obtain ⟨hd, last, ht, -, rfl⟩ := exists_through_of_explore h
  exact ht.adopted hw hd

end Search

/-- In a finished tree the children of a node are the nodes that name it as their parent. -/
theorem Complete.mem_children_iff (h : Complete net initial nodes) (ha : Adopted nodes)
    (hn : nodes[i]? = some node) : c ∈ node.children ↔ parentAt nodes c = some i := by
  constructor
  · intro hc
    have hdup : node.kind.isDuplicate = false := by
      by_contra hdup
      rw [h.unexpanded i node hn (by simpa using hdup)] at hc
      contradiction
    exact (h.finished i node hn hdup).expanded.parent c hc
  · exact ha.mem_children hn

end Coverability
