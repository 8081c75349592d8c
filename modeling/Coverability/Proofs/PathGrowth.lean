import Coverability.Proofs.EarnedOmegas

/-!
# Growth along a path

A path is swept until no marking on it raises the new one any more. So wherever a node is larger than an
ancestor that it covers, it holds omega, and once a place holds omega it does so in all nodes below.
-/

namespace Coverability

namespace Marking

variable {m ancestor : Marking} {path : List Marking}

/-- Wherever the marking is larger than one of the path that it covers, it holds omega. -/
def Accelerated (path : List Marking) (m : Marking) : Prop :=
  ∀ ancestor ∈ path, m.Covers ancestor → ∀ p, m.exact p = ancestor.exact p ∨ m.exact p = ⊤

/-- If a sweep changes nothing, none of its steps does, since each change uses up a finite count. -/
lemma raise_eq_of_sweep_eq (h : m.sweep path = m) : ∀ ancestor ∈ path, m.raise ancestor = m := by
  induction path with
  | nil => simp
  | cons first path ih =>
    rw [sweep, List.foldl_cons, ← sweep] at h
    have hfirst : m.raise first = m := by
      apply (raise_eq_or_finiteCount_lt m first).resolve_right
      intro hlt
      rcases sweep_eq_or_finiteCount_lt path (m.raise first) with hs | hs
      · rw [← hs, h] at hlt
        omega
      · rw [h] at hs
        omega
    rw [hfirst] at h
    exact List.forall_mem_cons.mpr ⟨hfirst, ih h⟩

lemma sweep_accelerate (path : List Marking) (m : Marking) :
    (m.accelerate path).sweep path = m.accelerate path := by
  fun_induction accelerate path m with
  | case1 m h => exact h
  | case2 m h ih => exact ih

/-- A marking that an ancestor does not raise holds omega wherever it is larger. -/
lemma eq_or_eq_top_of_raise_eq (hd : m.dimension = ancestor.dimension) (h : m.raise ancestor = m)
    (hc : m.Covers ancestor) (p : ℕ) : m.exact p = ancestor.exact p ∨ m.exact p = ⊤ := by
  by_cases he : m = ancestor
  · exact .inl (by rw [he])
  · rw [raise, if_pos ⟨hc, he⟩] at h
    have hraised : raisedOver ancestor.exact m.exact p = m.exact p := by
      rw [← exact_raiseCounts hd, h]
    by_cases hlt : ancestor.exact p < m.exact p
    · rw [raisedOver, if_pos hlt] at hraised
      exact .inr hraised.symm
    · exact .inl (le_antisymm (not_lt.mp hlt) ((covers_iff hd).mp hc p))

theorem accelerated_accelerate (hd : ∀ ancestor ∈ path, ancestor.dimension = m.dimension) :
    (m.accelerate path).Accelerated path := by
  intro ancestor ha hc
  apply eq_or_eq_top_of_raise_eq
  · rw [dimension_accelerate, hd ancestor ha]
  · exact raise_eq_of_sweep_eq (sweep_accelerate path m) ancestor ha
  · exact hc

end Marking

section Grown

variable {net : Net} {initial : Marking} {nodes : Array Node} {i a p : ℕ} {node : Node} {above : List ℕ}

theorem Grown.accelerated (h : Grown net initial nodes) (hl : Lineage nodes i above)
    (hn : nodes[i]? = some node) : node.marking.Accelerated (above.map (markingAt nodes)) := by
  cases hl with
  | root hn' hp => simp [Marking.Accelerated]
  | child hn' hp hl =>
    cases hn.symm.trans hn'
    obtain ⟨t, successor, -, -, hm, hd⟩ := h.exists_successor hn hp hl
    intro ancestor ha
    rw [hm]
    exact Marking.accelerated_accelerate hd ancestor (List.mem_reverse.mpr ha)

/-- Neither firing nor acceleration takes omega away from a place. -/
theorem Grown.exact_eq_top_of_mem_lineage (h : Grown net initial nodes) (hw : net.WellFormed)
    (hl : Lineage nodes i above) (ha : a ∈ above) (htop : (markingAt nodes a).exact p = ⊤) :
    (markingAt nodes i).exact p = ⊤ := by
  induction hl with
  | root _ _ => contradiction
  | @child i parent _ above hn hp hl ih =>
    have hparent : (markingAt nodes parent).exact p = ⊤ := by
      rcases List.mem_cons.mp ha with rfl | ha
      · exact htop
      · exact ih ha
    obtain ⟨t, successor, -, hfire, hm, hd⟩ := h.exists_successor hn hp hl
    have hsuccessor : successor.exact p = ⊤ := ((Net.fires_of_fire hw hfire).eq_top_iff p).mpr hparent
    rw [markingAt_of_getElem? hn, hm]
    apply top_le_iff.mp
    rw [← hsuccessor]
    exact (Marking.raisedTo_accelerate hd).le p

end Grown

/-- A place that holds omega in an ancestor holds omega, and a node that covers an ancestor holds at every
place the same count or omega. -/
theorem Search.growth_of_build {search : Search} {initial : Marking} {tree : Tree}
    (hnet : search.net.Constructed) (h : search.build initial = .ok tree) {i : ℕ} {node : Node}
    (hn : tree.nodes[i]? = some node) :
    ∃ above, Lineage tree.nodes i above ∧ ∀ a ∈ above, ∃ ancestor : Node, tree.nodes[a]? = some ancestor ∧
      ∀ p < search.net.placeCount, ∃ count low, node.marking.get? p = some count ∧
        ancestor.marking.get? p = some low ∧ (low = .infinite → count = .infinite) ∧
        (node.marking.Covers ancestor.marking → count = low ∨ count = .infinite) := by
  have hc : Complete search.net initial tree.nodes := complete_of_explore hnet.wellFormed (explore_of_build h)
  obtain ⟨above, hl⟩ := hc.grown.exists_lineage hn
  refine ⟨above, hl, fun a ha => ?_⟩
  have hlt : a < tree.nodes.size := hl.lt_size a (List.mem_cons_of_mem i ha)
  have hancestor : tree.nodes[a]? = some tree.nodes[a] := Array.getElem?_eq_getElem hlt
  refine ⟨tree.nodes[a], hancestor, fun p hp => ?_⟩
  have hd : ∀ (j : ℕ) (other : Node), tree.nodes[j]? = some other → p < other.marking.dimension := by
    intro j other ho
    rwa [hc.grown.dimension ho, hc.dimension_initial]
  obtain ⟨count, hcount⟩ := Marking.exists_get? (hd i node hn)
  obtain ⟨low, hlow⟩ := Marking.exists_get? (hd a _ hancestor)
  refine ⟨count, low, hcount, hlow, ?_, fun hcovers => ?_⟩
  · have homega := hc.grown.exact_eq_top_of_mem_lineage hc.wellFormed hl ha (p := p)
    rw [markingAt_of_getElem? hn, markingAt_of_getElem? hancestor, Marking.exact_of_get? hcount,
      Marking.exact_of_get? hlow, TokenCount.exact_eq_top, TokenCount.exact_eq_top] at homega
    exact homega
  · have hgrowth := hc.grown.accelerated hl hn _ (List.mem_map_of_mem ha)
    rw [markingAt_of_getElem? hancestor] at hgrowth
    have hcase := hgrowth hcovers p
    rw [Marking.exact_of_get? hcount, Marking.exact_of_get? hlow, TokenCount.exact_eq_top] at hcase
    exact hcase.imp_left fun he => TokenCount.exact_injective he

/-- With parts and shipped parts without bound, the mill covers its initial marking. -/
theorem growth_mill : millSearch.net.Constructed ∧ millSearch.build mill.initial = .ok millTree ∧
    millTree.nodes[3]? = some ⟨some 1, ⟨[.finite 1, .infinite, .infinite]⟩, some 1, [4, 5], .interior, 2⟩ ∧
    (∃ above, Lineage millTree.nodes 3 above ∧ 0 ∈ above) ∧
    Marking.Covers ⟨[.finite 1, .infinite, .infinite]⟩ mill.initial ∧
    ∀ p < mill.placeCount, ∃ count low, Marking.get? ⟨[.finite 1, .infinite, .infinite]⟩ p = some count ∧
      mill.initial.get? p = some low ∧ (count = low ∨ count = .infinite) := by
  have hn : millTree.nodes[3]? =
    some ⟨some 1, ⟨[.finite 1, .infinite, .infinite]⟩, some 1, [4, 5], .interior, 2⟩ := rfl
  have hroot : millTree.nodes[0]? = some ⟨none, mill.initial, none, [1], .interior, 0⟩ := rfl
  have hcovers : Marking.Covers ⟨[.finite 1, .infinite, .infinite]⟩ mill.initial := by decide
  obtain ⟨above, hl, hgrowth⟩ := Search.growth_of_build constructed_mill build_mill hn
  have hmem : 0 ∈ above := by
    rw [hl.unique (.child rfl rfl (.child rfl rfl (.root rfl rfl)))]
    decide
  obtain ⟨ancestor, hancestor, hcounts⟩ := hgrowth 0 hmem
  cases hancestor.symm.trans hroot
  refine ⟨constructed_mill, build_mill, hn, ⟨above, hl, hmem⟩, hcovers, fun p hp => ?_⟩
  obtain ⟨count, low, hcount, hlow, -, hcase⟩ := hcounts p hp
  exact ⟨count, low, hcount, hlow, hcase hcovers⟩

end Coverability
