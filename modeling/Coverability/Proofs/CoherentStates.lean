import Coverability.Proofs.Duplicates
import Coverability.Proofs.ExpandedNodes
import Coverability.Proofs.TreePaths

/-!
# Coherent states

A search keeps its nodes, its stack, the counters on the stack and the map of the seen markings apart. In every
state that it goes through they agree: the stack is a path of the tree, the counters say which children are there,
and the map leads to the expanded nodes. So no index that the next step looks up is missing.
-/

namespace Coverability

/-- The children of `node`, which is node `i`, stand for the given transitions, one for each and in order, and
no other node names it as its parent. -/
structure ChildrenFor (net : Net) (nodes : Array Node) (i : ℕ) (node : Node) (transitions : List ℕ) : Prop where
  begets : List.Forall₂ (fun c t => ∃ child : Node, nodes[c]? = some child ∧ Begets net nodes i t child)
    node.children transitions
  mem_iff : ∀ c, c ∈ node.children ↔ parentAt nodes c = some i

/-- The stack is the path from the node on top to the root, its markings differ, and the children of a node are
there for the enabled transitions that have been tried on it. -/
structure SearchState.Coherent (search : Search) (state : SearchState) : Prop where
  lineage : ∀ (frame : Frame) (below : List Frame), state.stack = frame :: below →
    Lineage state.nodes frame.node (below.map Frame.node)
  root : state.stack ≠ [] → (state.stack.map Frame.node).getLast? = some 0
  nodup : (state.stack.map Frame.marking).Nodup
  tried : ∀ frame ∈ state.stack, ∃ (node : Node) (enabled : List ℕ), state.nodes[frame.node]? = some node ∧
    node.marking = frame.marking ∧ node.kind.isDuplicate = false ∧
    search.net.enabledTransitions node.marking = .ok enabled ∧
    ChildrenFor search.net state.nodes frame.node node (enabled.filter (· < frame.next))
  finished : ∀ (i : ℕ) (node : Node), state.nodes[i]? = some node → node.kind.isDuplicate = false →
    i ∉ state.stack.map Frame.node → ∃ enabled, search.net.enabledTransitions node.marking = .ok enabled ∧
      ChildrenFor search.net state.nodes i node enabled
  seen_iff : search.pruning = .globalSeen → ∀ m i, state.seen[m]? = some i ↔ ExpandedWith state.nodes m i

/-- Every node, transition and place that the next step looks up is there. -/
structure SearchState.IndicesInRange (search : Search) (state : SearchState) : Prop where
  node_lt : ∀ frame ∈ state.stack, frame.node < state.nodes.size
  next_le : ∀ frame ∈ state.stack, frame.next ≤ search.net.transitionCount
  twin_lt : ∀ m j, search.duplicateOf? state m = some j → j < state.nodes.size
  dimension_eq : ∀ m ∈ state.path, m.dimension = search.net.placeCount
  fire : ∀ frame ∈ state.stack, frame.next < search.net.transitionCount →
    search.net.InRange (search.net.fire frame.marking frame.next)
  successor : ∀ frame ∈ state.stack, ∀ successor, search.net.fire frame.marking frame.next = .ok successor →
    successor.dimension = search.net.placeCount
  reports : ∀ e, search.step state = .done (.error (.net e)) → search.net.Reports e

variable {net : Net} {initial : Marking} {nodes : Array Node} {node : Node} {i bound : ℕ}
  {search : Search} {state : SearchState}

lemma filter_lt_range {n k : ℕ} (h : k ≤ n) : (List.range n).filter (· < k) = List.range k := by
  obtain ⟨d, rfl⟩ := Nat.exists_eq_add_of_le h
  rw [List.range_add, List.filter_append, List.filter_eq_self.mpr (by simp), List.filter_eq_nil_iff.mpr (by simp),
    List.append_nil]

/-- The children of an expanded node stand for the enabled transitions below the bound. -/
lemma Expanded.childrenFor (h : Expanded net nodes i node bound) (hg : Grown net initial nodes)
    (ha : Adopted nodes) (hn : nodes[i]? = some node) (hbound : bound ≤ net.transitionCount) :
    ChildrenFor net nodes i node
      (((List.range net.transitionCount).filter (net.isEnabled node.marking · = .ok true)).filter (· < bound)) := by
  constructor
  · rw [List.filter_comm, filter_lt_range hbound]
    exact h.forall₂_begets hg
  · exact fun c => ⟨h.parent c, ha.mem_children hn⟩

namespace Search

variable (hw : search.net.WellFormed) (hd : initial.dimension = search.net.placeCount)

include hd

lemma Through.valid (h : search.Through initial state) : state.Valid search.net.placeCount := by
  induction h with
  | start => exact SearchState.valid_start hd
  | step _ hs ih => exact (valid_and_potential_lt ih hs).1

include hw

lemma Through.seen_iff (h : search.Through initial state) (hp : search.pruning = .globalSeen) (m : Marking)
    (i : ℕ) : state.seen[m]? = some i ↔ ExpandedWith state.nodes m i := by
  constructor
  · exact (h.invariant hw hd).seen m i
  · rintro ⟨node, hn, rfl, hdup⟩
    exact h.seesAll hw hd hp i node hn hdup

lemma Through.enabledTransitions_eq_ok (h : search.Through initial state) (hn : state.nodes[i]? = some node) :
    search.net.enabledTransitions node.marking = .ok
      ((List.range search.net.transitionCount).filter (search.net.isEnabled node.marking · = .ok true)) :=
  hw.enabledTransitions_eq_ok (((h.invariant hw hd).grown.dimension hn).trans hd)

theorem Through.coherent (h : search.Through initial state) : state.Coherent search := by
  have hinv : state.Invariant search.net initial := h.invariant hw hd
  have ha : Adopted state.nodes := h.adopted hw hd
  constructor
  · intro frame below hs
    exact (hinv.stackFits hs).1.lineage
  · intro hne
    obtain ⟨frame, below, hs⟩ := List.exists_cons_of_ne_nil hne
    rw [hs]
    exact hinv.grown.getLast?_lineage (hinv.stackFits hs).1.lineage
  · exact (h.valid hd).nodup
  · intro frame hf
    obtain ⟨below, ⟨node, hn, hm, hkind, hexp⟩, -, hnext⟩ := hinv.stack.exists_fits hf
    refine ⟨node, _, hn, hm, ?_, h.enabledTransitions_eq_ok hw hd hn, hexp.childrenFor hinv.grown ha hn hnext⟩
    rw [hkind]
    rfl
  · intro i node hn hdup hnot
    refine ⟨_, h.enabledTransitions_eq_ok hw hd hn, ?_⟩
    have hchildren := (hinv.finished i node hn hdup hnot).expanded.childrenFor hinv.grown ha hn le_rfl
    -- all transitions have been tried, so the bound leaves out none of them
    rwa [List.filter_eq_self.mpr fun t ht => by simpa using (List.mem_filter.mp ht).1] at hchildren
  · exact h.seen_iff hw hd

theorem Through.indicesInRange (h : search.Through initial state) : state.IndicesInRange search := by
  have hinv : state.Invariant search.net initial := h.invariant hw hd
  have hfire : ∀ frame ∈ state.stack, frame.next < search.net.transitionCount →
      search.net.InRange (search.net.fire frame.marking frame.next) :=
    fun frame _ hlt => hw.inRange_fire frame.marking hlt
  constructor
  · exact fun frame hf => hinv.stack.node_lt hf
  · intro frame hf
    obtain ⟨below, hfits⟩ := hinv.stack.exists_fits hf
    exact hfits.next_le
  · intro m j hj
    obtain ⟨twin, htwin, -⟩ := exists_twin hinv hj
    exact (Array.getElem?_eq_some_iff.mp htwin).1
  · intro m hm
    obtain ⟨frame, hf, rfl⟩ := List.mem_map.mp (List.mem_reverse.mp hm)
    exact dimension_of_mem_stack hinv hd hf
  · exact hfire
  · intro frame hf successor hs
    exact (Net.dimension_fire hs).trans (dimension_of_mem_stack hinv hd hf)
  · intro e he
    obtain ⟨frame, below, hs, hmoves⟩ := moves_of_step_eq_error he
    cases hmoves with
    | fail hlt hfails _ => exact hfire frame (hs ▸ List.mem_cons_self) hlt e hfails

omit hw hd

/-- In every state that a search goes through, the nodes, the stack, its counters and the seen markings agree,
and no index of the next step is out of range. A search does not start from a marking of another dimension. -/
theorem coherent_of_through (hnet : search.net.Constructed) (hd : initial.dimension = search.net.placeCount)
    (h : search.Through initial state) : state.Coherent search ∧ state.IndicesInRange search :=
  ⟨h.coherent hnet.wellFormed hd, h.indicesInRange hnet.wellFormed hd⟩

end Search

section Diners

/-- The marking in which the first diner holds a fork. -/
def heldFork : Marking :=
  .ofFinite [0, 1, 1, 0, 0, 1]

/-- The state of the search for the diners after the first of them has taken a fork, which leads to node 1. -/
def forkTaken : SearchState :=
  (SearchState.start diners.initial).create ⟨0, diners.initial, 0⟩ [] heldFork none

/-- The state after the first diner has also eaten, which leads back to the marking of the root. -/
def forkReturned : SearchState :=
  (forkTaken.skip ⟨1, heldFork, 0⟩ [⟨0, diners.initial, 1⟩]).create ⟨1, heldFork, 1⟩ [⟨0, diners.initial, 1⟩]
    diners.initial (some 0)

lemma through_forkReturned : dinersSearch.Through diners.initial forkReturned := by
  have hcreate : dinersSearch.step (.start diners.initial) = .next forkTaken := by cbv
  have hskip : dinersSearch.step forkTaken =
      .next (forkTaken.skip ⟨1, heldFork, 0⟩ [⟨0, diners.initial, 1⟩]) := by cbv
  have hduplicate : dinersSearch.step (forkTaken.skip ⟨1, heldFork, 0⟩ [⟨0, diners.initial, 1⟩]) =
      .next forkReturned := by cbv
  exact ((Search.Through.start.step hcreate).step hskip).step hduplicate

/-- With one fork taken the first diner can eat and the second one can take a fork, but only the first of the two
has been tried. -/
theorem coherent_forkReturned : dinersSearch.net.Constructed ∧
    diners.initial.dimension = dinersSearch.net.placeCount ∧
    dinersSearch.Through diners.initial forkReturned ∧ forkReturned.stack.map Frame.node = [1, 0] ∧
    Lineage forkReturned.nodes 1 [0] ∧ diners.enabledTransitions heldFork = .ok [1, 2] ∧
    (∃ node : Node, forkReturned.nodes[1]? = some node ∧ node.children = [2] ∧
      ChildrenFor diners forkReturned.nodes 1 node [1]) ∧
    ∀ i, forkReturned.seen[heldFork]? = some i ↔ ExpandedWith forkReturned.nodes heldFork i := by
  obtain ⟨hcoherent, -⟩ := Search.coherent_of_through constructed_diners rfl through_forkReturned
  have henabled : diners.enabledTransitions heldFork = .ok [1, 2] := by cbv
  have hstack : forkReturned.stack = [⟨1, heldFork, 2⟩, ⟨0, diners.initial, 1⟩] := rfl
  obtain ⟨node, enabled, hn, hm, -, htried, hchildren⟩ :=
    hcoherent.tried ⟨1, heldFork, 2⟩ (hstack ▸ List.mem_cons_self)
  rw [hm] at htried
  obtain rfl : enabled = [1, 2] := Except.ok.inj (htried.symm.trans henabled)
  refine ⟨constructed_diners, rfl, through_forkReturned, rfl, hcoherent.lineage _ _ hstack, henabled,
    ⟨node, hn, ?_, hchildren⟩, hcoherent.seen_iff rfl heldFork⟩
  cases hn
  rfl

end Diners

end Coverability
