import Coverability.Proofs.CoveringNodes
import Coverability.Proofs.DeclaredNames

/-!
# Bounds of places

The counts that a place takes in the nodes of a tree have the same supremum as those that it takes in
the reachable markings: a finite count is reached as it is, omega stands for counts without a bound, and
every reachable count lies below one of a node.
-/

namespace Coverability

variable {net : Net} {initial : Marking} {nodes : Array Node} {p : ℕ} {tree : Tree}

/-- The counts that place `p` takes in the markings that are reached from `initial`. -/
def Net.reachedCounts (net : Net) (initial : Marking) (p : ℕ) : Set ℕ∞ :=
  {count | ∃ M, net.Reachable initial.exact M ∧ M p = count}

/-- The counts that place `p` takes exceed every number. -/
def Net.Unbounded (net : Net) (initial : Marking) (p : ℕ) : Prop :=
  ∀ k : ℕ, ∃ count ∈ net.reachedCounts initial p, (k : ℕ∞) < count

lemma Complete.exists_ge (h : Complete net initial nodes) {count : ℕ∞}
    (hc : count ∈ net.reachedCounts initial p) :
    ∃ node ∈ nodes, count ≤ node.marking.exact p := by
  obtain ⟨M, hM, rfl⟩ := hc
  obtain ⟨i, node, hi, -, hle⟩ := h.exists_ge_of_reachable hM
  exact ⟨node, Array.mem_of_getElem? hi, hle p⟩

lemma Complete.mem_reachedCounts (h : Complete net initial nodes) {node : Node} (hn : node ∈ nodes)
    (hp : node.marking.exact p ≠ ⊤) :
    node.marking.exact p ∈ net.reachedCounts initial p := by
  obtain ⟨M, hM, happrox⟩ := h.exists_approximates hn 0
  exact ⟨M, hM, (happrox p).1 hp⟩

/-- A place holds omega somewhere exactly if it is unbounded. -/
theorem Complete.exists_eq_top_iff (h : Complete net initial nodes) :
    (∃ node ∈ nodes, node.marking.exact p = ⊤) ↔ net.Unbounded initial p := by
  constructor
  · rintro ⟨node, hn, hp⟩ k
    obtain ⟨M, hM, happrox⟩ := h.exists_approximates hn (k + 1)
    have hlt : (k : ℕ∞) < (k + 1 : ℕ) := Nat.cast_lt.mpr k.lt_succ_self
    exact ⟨M p, ⟨M, hM, rfl⟩, hlt.trans_le ((happrox p).2 hp)⟩
  · intro hunbounded
    obtain ⟨count, hc, hlt⟩ := hunbounded UInt32.size
    obtain ⟨node, hn, hle⟩ := h.exists_ge hc
    refine ⟨node, hn, Not.imp_symm Marking.exact_lt_size ?_⟩
    exact not_lt.mpr (hlt.le.trans hle)

/-- The largest count of the nodes is the largest of the reached ones, or omega if there is none. -/
theorem Complete.largest_iff (h : Complete net initial nodes) {bound : TokenCount}
    (hle : ∀ node ∈ nodes, node.marking.exact p ≤ bound.exact)
    (hattained : ∃ node ∈ nodes, node.marking.exact p = bound.exact) :
    (∀ b : UInt32, bound = .finite b ↔ IsGreatest (net.reachedCounts initial p) (b.toNat : ℕ∞)) ∧
      (bound = .infinite ↔ net.Unbounded initial p) := by
  obtain ⟨node, hn, hnode⟩ := hattained
  have hupper : bound.exact ∈ upperBounds (net.reachedCounts initial p) := by
    intro count hc
    obtain ⟨other, ho, hle'⟩ := h.exists_ge hc
    exact hle'.trans (hle other ho)
  have hgreatest : bound.exact ≠ ⊤ → IsGreatest (net.reachedCounts initial p) bound.exact := by
    intro htop
    rw [← hnode] at htop hupper ⊢
    exact ⟨h.mem_reachedCounts hn htop, hupper⟩
  have hunbounded : bound.exact = ⊤ → net.Unbounded initial p := fun htop =>
    h.exists_eq_top_iff.mp ⟨node, hn, hnode.trans htop⟩
  constructor
  · intro b
    constructor
    · rintro rfl
      exact hgreatest (by simp)
    · intro hb
      cases bound with
      | finite b' =>
        have heq : (b'.toNat : ℕ∞) = b.toNat := (hgreatest (by simp)).unique hb
        rw [UInt32.toNat_inj.mp (Nat.cast_injective heq)]
      | infinite =>
        obtain ⟨count, hc, hlt⟩ := hunbounded rfl b.toNat
        exact absurd (hb.2 hc) (not_le.mpr hlt)
  · constructor
    · rintro rfl
      exact hunbounded rfl
    · intro hu
      cases bound with
      | finite b =>
        obtain ⟨count, hc, hlt⟩ := hu b.toNat
        exact absurd (hupper hc) (not_le.mpr hlt)
      | infinite => rfl

lemma Tree.hasOmega_iff : tree.hasOmega p = true ↔ ∃ node ∈ tree.nodes, node.marking.exact p = ⊤ := by
  simp only [hasOmega, List.any_eq_true, Array.mem_toList_iff, ← Node.exact_count,
    TokenCount.exact_eq_top]
  refine exists_congr fun node => and_congr_right fun _ => ?_
  cases node.count p <;> simp [TokenCount.isInfinite]

lemma Tree.largestCount_spec (tree : Tree) (p : ℕ) (hn : tree.nodes.size ≠ 0) :
    (∀ node ∈ tree.nodes, node.marking.exact p ≤ (tree.largestCount p).exact) ∧
      ∃ node ∈ tree.nodes, node.marking.exact p = (tree.largestCount p).exact := by
  have hle : ∀ node ∈ tree.nodes, node.marking.exact p ≤ (tree.largestCount p).exact := by
    intro node hnode
    rw [← Node.exact_count]
    refine TokenCount.exact_le_foldl_max _ _ (List.mem_cons_of_mem _ ?_)
    exact List.mem_map_of_mem (Array.mem_toList_iff.mpr hnode)
  refine ⟨hle, ?_⟩
  rcases List.mem_cons.mp (TokenCount.foldl_max_mem (tree.nodes.toList.map (Node.count p)) (.finite 0))
    with h | h
  · -- nothing exceeds zero, so the first node attains it
    have hpos : 0 < tree.nodes.size := Nat.pos_of_ne_zero hn
    have hfirst := hle tree.nodes[0] (Array.getElem_mem hpos)
    refine ⟨tree.nodes[0], Array.getElem_mem hpos, le_antisymm hfirst ?_⟩
    rw [largestCount, h]
    exact zero_le
  · obtain ⟨node, hnode, hcount⟩ := List.mem_map.mp h
    exact ⟨node, Array.mem_toList_iff.mp hnode, by rw [← Node.exact_count, hcount]; rfl⟩

section Build

variable {search : Search}

lemma Complete.dimension_of_mem_toTree (h : Complete search.net initial nodes) :
    ∀ node ∈ (search.toTree nodes).nodes,
      node.marking.dimension = (search.toTree nodes).placeNames.length :=
  fun _ hn => h.dimension_of_mem hn

/-- The bound that a tree gives for a place is finite exactly if it is the largest reached count, and
omega exactly if the reached counts have no bound. -/
lemma Complete.placeBound_iff (h : Complete search.net initial nodes) {name : String}
    (hp : search.net.placeNames[p]? = some name) :
    ∃ bound, (search.toTree nodes).placeBound name = .ok bound ∧
      (∀ b : UInt32, bound = .finite b ↔
        IsGreatest (search.net.reachedCounts initial p) (b.toNat : ℕ∞)) ∧
      (bound = .infinite ↔ search.net.Unbounded initial p) := by
  have hn : (search.toTree nodes).placeNames.Nodup := h.wellFormed.placeNames_nodup
  obtain ⟨hle, hattained⟩ := (search.toTree nodes).largestCount_spec p h.grown.size_pos.ne'
  exact ⟨_, Tree.placeBound_eq_ok h.dimension_of_mem_toTree hn hp,
    h.largest_iff hle hattained⟩

lemma Complete.unboundedPlaces_iff (h : Complete search.net initial nodes) :
    ∃ places, (search.toTree nodes).unboundedPlaces = .ok places ∧
      places.Sublist search.net.placeNames ∧
      ∀ p name, search.net.placeNames[p]? = some name →
        (name ∈ places ↔ search.net.Unbounded initial p) := by
  refine ⟨_, Tree.unboundedPlaces_eq_ok h.dimension_of_mem_toTree, filter_zipIdx_sublist _ _, ?_⟩
  intro p name hp
  have hn : search.net.placeNames.Nodup := h.wellFormed.placeNames_nodup
  rw [← h.exists_eq_top_iff]
  exact (mem_filter_zipIdx_iff hn hp _).trans Tree.hasOmega_iff

lemma Complete.isBounded_iff (h : Complete search.net initial nodes) :
    (search.toTree nodes).isBounded = true ↔
      ∀ p < search.net.placeCount, ¬search.net.Unbounded initial p := by
  rw [Tree.isBounded_iff]
  constructor
  · intro hnone p _ hu
    obtain ⟨node, hn, htop⟩ := h.exists_eq_top_iff.mpr hu
    exact hnone node hn p htop
  · intro hnone node hn p htop
    have hlt : p < search.net.placeCount := by
      refine Nat.lt_of_not_le fun hle => ?_
      rw [Marking.exact_of_le ((h.dimension_of_mem_toTree node hn).trans_le hle)] at htop
      contradiction
    exact hnone p hlt (h.exists_eq_top_iff.mp ⟨node, hn, htop⟩)

/-- The bounds that a tree reports are those of the reachable markings: for every place, in the list of
the unbounded places, and for all places together. -/
theorem Search.bounds_of_build (hnet : search.net.Constructed) (h : search.build initial = .ok tree) :
    (∀ p name, search.net.placeNames[p]? = some name → ∃ bound, tree.placeBound name = .ok bound ∧
      (∀ b : UInt32, bound = .finite b ↔
        IsGreatest (search.net.reachedCounts initial p) (b.toNat : ℕ∞)) ∧
      (bound = .infinite ↔ search.net.Unbounded initial p)) ∧
    (∃ places, tree.unboundedPlaces = .ok places ∧ places.Sublist search.net.placeNames ∧
      ∀ p name, search.net.placeNames[p]? = some name →
        (name ∈ places ↔ search.net.Unbounded initial p)) ∧
    (tree.isBounded = true ↔ ∀ p < search.net.placeCount, ¬search.net.Unbounded initial p) := by
  obtain ⟨nodes, hc, rfl⟩ := search.exists_nodes_of_build hnet.wellFormed h
  refine ⟨fun p name hp => ?_, ?_, ?_⟩
  · exact hc.placeBound_iff hp
  · exact hc.unboundedPlaces_iff
  · exact hc.isBounded_iff

theorem bounds_mill : millSearch.net.Constructed ∧ millSearch.build mill.initial = .ok millTree ∧
    IsGreatest (mill.reachedCounts mill.initial 0) 1 ∧ mill.Unbounded mill.initial 2 := by
  obtain ⟨hbound, -, -⟩ := Search.bounds_of_build constructed_mill build_mill
  obtain ⟨idle, hidle, hgreatest, -⟩ := hbound 0 "idle" rfl
  obtain ⟨shipped, hshipped, -, hunbounded⟩ := hbound 2 "shipped" rfl
  have hone : idle = .finite 1 := Except.ok.inj (hidle.symm.trans rfl)
  have homega : shipped = .infinite := Except.ok.inj (hshipped.symm.trans rfl)
  exact ⟨constructed_mill, build_mill, (hgreatest 1).mp hone, hunbounded.mp homega⟩

end Build

end Coverability
