import Coverability.Proofs.EarnedOmegas
import Coverability.Tree.Query

/-!
# Covering nodes

Every marking that can be reached lies below the marking of a node that was expanded: firing a
transition leads from such a node to one of its children or to the twin of a duplicate. Together with
`Complete.exists_approximates` this makes the tree decide which markings can be covered.
-/

namespace Coverability

variable {net : Net} {initial : Marking} {nodes : Array Node} {M : ExactMarking}

/-- An expanded node has a child for every transition that its marking enables. -/
lemma Complete.exists_begets (h : Complete net initial nodes) {i t : ℕ} {node : Node}
    (hn : nodes[i]? = some node) (hdup : node.kind.isDuplicate = false)
    (henabled : net.Enables node.marking.exact t) :
    ∃ (c : ℕ) (child : Node), nodes[c]? = some child ∧ Begets net nodes i t child := by
  have hdim : node.marking.dimension = net.placeCount := (h.grown.dimension hn).trans h.dimension_initial
  have hexp := (h.finished i node hn hdup).expanded
  have hlt : t < net.transitionCount := henabled.lt_transitionCount h.wellFormed
  have hmem : some t ∈ node.children.map (transitionAt nodes) := by
    rw [hexp.transitions]
    refine List.mem_map_of_mem (List.mem_filter.mpr ⟨List.mem_range.mpr hlt, ?_⟩)
    simpa using (Net.isEnabled_iff h.wellFormed hdim).mpr henabled
  obtain ⟨c, hc, ht⟩ := List.mem_map.mp hmem
  obtain ⟨child, hchild, htransition⟩ := Option.bind_eq_some_iff.mp ht
  obtain ⟨child', hchild', hparent⟩ := Option.bind_eq_some_iff.mp (hexp.parent c hc)
  cases hchild.symm.trans hchild'
  obtain ⟨-, t', hb⟩ := h.grown.begets hchild hparent
  cases htransition.symm.trans hb.transition_eq
  exact ⟨c, child, hchild, hb⟩

/-- The child for a transition has the tokens that the transition leads to, or omega. -/
lemma Complete.exists_child (h : Complete net initial nodes) {i t : ℕ} {node : Node}
    (hn : nodes[i]? = some node) (hdup : node.kind.isDuplicate = false)
    (henabled : net.Enables node.marking.exact t) :
    ∃ (c : ℕ) (child : Node) (n : ExactMarking), nodes[c]? = some child ∧ child.transition = some t ∧
      net.Fires t node.marking.exact n ∧ RaisedTo n child.marking.exact := by
  have hdim : node.marking.dimension = net.placeCount := (h.grown.dimension hn).trans h.dimension_initial
  obtain ⟨c, child, hchild, hb⟩ := h.exists_begets hn hdup henabled
  obtain ⟨above, successor, hl, hfire, hm, -⟩ := hb.marking
  rw [markingAt_of_getElem? hn] at hfire
  refine ⟨c, child, successor.exact, hchild, hb.transition_eq, Net.fires_of_fire h.wellFormed hfire, ?_⟩
  rw [hm]
  refine Marking.raisedTo_accelerate fun ancestor ha => ?_
  rw [h.grown.dimension_of_mem_path hl ha, Net.dimension_fire hfire, hdim, h.dimension_initial]

lemma Complete.exists_expanded (h : Complete net initial nodes) {i : ℕ} {node : Node}
    (hn : nodes[i]? = some node) :
    ∃ (j : ℕ) (twin : Node), nodes[j]? = some twin ∧ twin.marking = node.marking ∧
      twin.kind.isDuplicate = false := by
  cases hdup : node.kind.isDuplicate with
  | false => exact ⟨i, node, hn, rfl, hdup⟩
  | true =>
    obtain ⟨j, hj⟩ := NodeKind.isDuplicate_eq_true.mp hdup
    obtain ⟨-, twin, ht, hm, hdup'⟩ := h.grown.twin i node j hn hj
    exact ⟨j, twin, ht, hm, hdup'⟩

/-- Every reachable marking lies below the marking of an expanded node. -/
theorem Complete.exists_ge_of_reachable (h : Complete net initial nodes)
    (hM : net.Reachable initial.exact M) :
    ∃ (i : ℕ) (node : Node), nodes[i]? = some node ∧ node.kind.isDuplicate = false ∧ M ≤ node.marking.exact := by
  induction hM with
  | refl =>
    obtain ⟨root, hr, hs⟩ := h.grown.root
    refine ⟨0, root, hr, ?_, ?_⟩
    · rw [hs.isDuplicate]
      rfl
    · rw [hs.marking]
  | tail _ hstep ih =>
    obtain ⟨i, node, hn, hdup, hle⟩ := ih
    obtain ⟨t, hfires⟩ := hstep
    -- the larger marking enables the transition as well, and its child may only repeat an expanded node
    obtain ⟨c, child, n, hchild, -, hfires', hraised⟩ := h.exists_child hn hdup (hfires.enables.mono hle)
    obtain ⟨j, twin, ht, hm, hdup'⟩ := h.exists_expanded hchild
    refine ⟨j, twin, ht, hdup', ?_⟩
    rw [hm]
    exact (hfires.mono hfires' hle).trans hraised.le

/-- Markings are reached that have the tokens of `x` at the places where it is finite, and any number of
tokens at the others. -/
def Net.Coverable (net : Net) (initial x : Marking) : Prop :=
  ∀ k : ℕ, ∃ M, net.Reachable initial.exact M ∧ ∀ p count, x.get? p = some count →
    (∀ n, count = .finite n → (n.toNat : ℕ∞) ≤ M p) ∧ (count = .infinite → (k : ℕ∞) ≤ M p)

/-- A node covers exactly the markings that can be covered from the root. -/
theorem Complete.exists_covers_iff (h : Complete net initial nodes) {x : Marking}
    (hx : x.dimension = net.placeCount) :
    (∃ node ∈ nodes, node.marking.Covers x) ↔ net.Coverable initial x := by
  have hdim : ∀ (i : ℕ) (node : Node), nodes[i]? = some node → node.marking.dimension = x.dimension :=
    fun i node hn => by rw [h.grown.dimension hn, h.dimension_initial, hx]
  constructor
  · rintro ⟨node, hn, hcovers⟩ k
    obtain ⟨i, hi⟩ := Array.mem_iff_getElem?.mp hn
    rw [Marking.covers_iff (hdim i node hi)] at hcovers
    obtain ⟨M, hM, happrox⟩ := h.exists_approximates hn (k + UInt32.size)
    refine ⟨M, hM, fun p count hcount => ?_⟩
    have hle := hcovers p
    rw [Marking.exact_of_get? hcount] at hle
    constructor
    · rintro n rfl
      by_cases hp : node.marking.exact p = ⊤
      · refine le_trans ?_ ((happrox p).2 hp)
        exact Nat.cast_le.mpr (n.toNat_lt_size.le.trans (Nat.le_add_left _ k))
      · rw [(happrox p).1 hp]
        exact hle
    · rintro rfl
      exact (Nat.cast_le.mpr (Nat.le_add_right k _)).trans ((happrox p).2 (top_le_iff.mp hle))
  · intro hx'
    obtain ⟨M, hM, hcounts⟩ := hx' UInt32.size
    obtain ⟨i, node, hi, -, hle⟩ := h.exists_ge_of_reachable hM
    refine ⟨node, Array.mem_of_getElem? hi, (Marking.covers_iff (hdim i node hi)).mpr fun p => ?_⟩
    by_cases hp : p < x.dimension
    · obtain ⟨count, hcount⟩ := Marking.exists_get? hp
      obtain ⟨hfinite, homega⟩ := hcounts p count hcount
      rw [Marking.exact_of_get? hcount]
      cases count with
      | finite n => exact (hfinite n rfl).trans (hle p)
      | infinite =>
        -- a count beyond 32 bits can only be omega
        refine top_le_iff.mpr (Not.imp_symm Marking.exact_lt_size ?_)
        exact not_lt.mpr ((homega rfl).trans (hle p))
    · rw [Marking.exact_of_le (Nat.not_lt.mp hp)]
      exact zero_le

lemma Tree.covers_iff {tree : Tree} {x : Marking} :
    tree.covers x = true ↔ ∃ node ∈ tree.nodes, node.marking.Covers x := by
  rw [covers, coveringNode?, Array.findIdx?_isSome, Array.any_eq_true']
  simp

lemma Complete.covers_iff {search : Search} (h : Complete search.net initial nodes) {x : Marking}
    (hx : x.dimension = search.net.placeCount) :
    (search.toTree nodes).covers x = true ↔ search.net.Coverable initial x := by
  rw [← h.exists_covers_iff hx]
  exact Tree.covers_iff

/-- A tree covers exactly the markings that can be covered from its root. -/
theorem Search.covers_iff_coverable {search : Search} {tree : Tree} (hnet : search.net.Constructed)
    (h : search.build initial = .ok tree) {x : Marking} (hx : x.dimension = search.net.placeCount) :
    (tree.covers x = true ↔ search.net.Coverable initial x) ∧
      ((∃ i, tree.coveringNode? x = some i) ↔ search.net.Coverable initial x) := by
  obtain ⟨nodes, hc, rfl⟩ := search.exists_nodes_of_build hnet.wellFormed h
  have hcovers : (search.toTree nodes).covers x = true ↔ search.net.Coverable initial x := hc.covers_iff hx
  exact ⟨hcovers, by rw [← hcovers, Tree.covers, Option.isSome_iff_exists]⟩

/-- Seven shipped parts can be covered together with any number in stock. -/
theorem coverable_mill : millSearch.net.Constructed ∧ millSearch.build mill.initial = .ok millTree ∧
    mill.Coverable mill.initial ⟨[.finite 1, .infinite, .finite 7]⟩ := by
  have hx : Marking.dimension ⟨[.finite 1, .infinite, .finite 7]⟩ = millSearch.net.placeCount := rfl
  have hcovers : millTree.covers ⟨[.finite 1, .infinite, .finite 7]⟩ = true := by decide +kernel
  exact ⟨constructed_mill, build_mill, (Search.covers_iff_coverable constructed_mill build_mill hx).1.mp hcovers⟩

end Coverability
