import Coverability.Proofs.CoveringNodes
import Coverability.Proofs.DeclaredNames

/-!
# Dead transitions

A transition labels an edge of a tree exactly if some reachable marking enables it. An edge only needs a
bounded number of tokens from places that hold omega, so a marking that approximates its source enables
the transition as well.
-/

namespace Coverability

variable {net : Net} {initial : Marking} {nodes : Array Node} {t : ℕ} {x M : ExactMarking}
  {search : Search} {tree : Tree}

/-- With more tokens than 32 bits can count in place of omega, all enabled transitions stay enabled. -/
lemma Approximates.enables (h : Approximates UInt32.size x M) (henabled : net.Enables x t) :
    net.Enables M t := by
  obtain ⟨arcs, ht, hle⟩ := henabled
  refine ⟨arcs, ht, fun p => ?_⟩
  by_cases hp : x p = ⊤
  · exact (Nat.cast_le.mpr (UInt32.toNat_lt_size _).le).trans ((h p).2 hp)
  · rw [(h p).1 hp]
    exact hle p

lemma Grown.exists_enables (h : Grown net initial nodes) (hw : net.WellFormed) {i : ℕ} {node : Node}
    (hn : nodes[i]? = some node) (ht : node.transition = some t) :
    t < net.transitionCount ∧ ∃ parent ∈ nodes, net.Enables parent.marking.exact t := by
  have hpos : 0 < i := by
    rcases Nat.eq_zero_or_pos i with rfl | hpos
    · obtain ⟨root, hr, hs⟩ := h.root
      cases hn.symm.trans hr
      rw [hs.transition] at ht
      contradiction
    · exact hpos
  obtain ⟨parent, t', -, hb⟩ := h.born i node hn hpos
  cases ht.symm.trans hb.transition_eq
  obtain ⟨above, successor, hl, hfire, -⟩ := hb.marking
  obtain ⟨parentNode, hparent⟩ := hl.exists_node
  rw [markingAt_of_getElem? hparent] at hfire
  exact ⟨hb.transition_lt, parentNode, Array.mem_of_getElem? hparent, (Net.fires_of_fire hw hfire).enables⟩

/-- A transition labels an edge exactly if a reachable marking enables it. -/
theorem Complete.exists_transition_iff (h : Complete net initial nodes) :
    (∃ node ∈ nodes, node.transition = some t) ↔
      ∃ M, net.Reachable initial.exact M ∧ net.Enables M t := by
  constructor
  · rintro ⟨node, hn, ht⟩
    obtain ⟨i, hi⟩ := Array.mem_iff_getElem?.mp hn
    obtain ⟨-, parent, hparent, henabled⟩ := h.grown.exists_enables h.wellFormed hi ht
    obtain ⟨M, hM, happrox⟩ := h.exists_approximates hparent UInt32.size
    exact ⟨M, hM, happrox.enables henabled⟩
  · rintro ⟨M, hM, henabled⟩
    obtain ⟨i, node, hn, hdup, hle⟩ := h.exists_ge_of_reachable hM
    obtain ⟨c, child, -, hchild, ht, -⟩ := h.exists_child hn hdup (henabled.mono hle)
    exact ⟨child, Array.mem_of_getElem? hchild, ht⟩

lemma Tree.mem_labels : t ∈ tree.labels ↔ ∃ node ∈ tree.nodes, node.transition = some t := by
  simp [labels, Array.mem_toList_iff]

/-- By its name, a transition is among those that are used or among those that are not. -/
lemma Complete.transitionsByUsage_iff (h : Complete search.net initial nodes) (used : Bool) :
    ∃ names, (search.toTree nodes).transitionsByUsage used = .ok names ∧
      names.Sublist search.net.transitionNames ∧
      ∀ t name, search.net.transitionNames[t]? = some name →
        (name ∈ names ↔
          ((∃ M, search.net.Reachable initial.exact M ∧ search.net.Enables M t) ↔ used = true)) := by
  have hlt : ∀ t ∈ (search.toTree nodes).labels, t < (search.toTree nodes).transitionNames.length := by
    intro t ht
    obtain ⟨node, hn, ht⟩ := Tree.mem_labels.mp ht
    obtain ⟨i, hi⟩ := Array.mem_iff_getElem?.mp hn
    exact (h.grown.exists_enables h.wellFormed hi ht).1
  refine ⟨_, Tree.transitionsByUsage_eq_ok hlt used, filter_zipIdx_sublist _ _, fun t name ht => ?_⟩
  have hn : search.net.transitionNames.Nodup := h.wellFormed.transitionNames_nodup
  rw [← h.exists_transition_iff]
  refine (mem_filter_zipIdx_iff hn ht fun t => (search.toTree nodes).labels.contains t == used).trans ?_
  rw [beq_iff_eq, Bool.eq_iff_iff, List.contains_iff_mem, Tree.mem_labels]
  rfl

/-- A tree lists a transition as dead exactly if no reachable marking enables it, and as fired exactly if
some reachable marking does. -/
theorem Search.dead_of_build (hnet : search.net.Constructed) (h : search.build initial = .ok tree) :
    ∃ dead fired, tree.deadTransitions = .ok dead ∧ tree.firedTransitions = .ok fired ∧
      dead.Sublist search.net.transitionNames ∧ fired.Sublist search.net.transitionNames ∧
      ∀ t name, search.net.transitionNames[t]? = some name →
        (name ∈ dead ↔ ∀ M, search.net.Reachable initial.exact M → ¬search.net.Enables M t) ∧
        (name ∈ fired ↔ ∃ M, search.net.Reachable initial.exact M ∧ search.net.Enables M t) := by
  obtain ⟨nodes, hc, rfl⟩ := search.exists_nodes_of_build hnet.wellFormed h
  obtain ⟨dead, hdead, hsub, hdeadIff⟩ := hc.transitionsByUsage_iff false
  obtain ⟨fired, hfired, hsub', hfiredIff⟩ := hc.transitionsByUsage_iff true
  refine ⟨dead, fired, hdead, hfired, hsub, hsub', fun t name ht => ⟨?_, ?_⟩⟩
  · rw [hdeadIff t name ht]
    simp
  · rw [hfiredIff t name ht]
    simp

theorem fired_mill : millSearch.net.Constructed ∧ millSearch.build mill.initial = .ok millTree ∧
    ∃ M, mill.Reachable mill.initial.exact M ∧ mill.Enables M 1 := by
  obtain ⟨dead, fired, -, hfired, -, -, hiff⟩ := Search.dead_of_build constructed_mill build_mill
  have hboth : fired = ["work", "ship"] := Except.ok.inj (hfired.symm.trans rfl)
  exact ⟨constructed_mill, build_mill, (hiff 1 "ship" rfl).2.mp (by simp [hboth])⟩

end Coverability
