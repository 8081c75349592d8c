import Coverability.Proofs.ChildLinks
import Coverability.Proofs.Subtrees

/-!
# The order of nodes

A search visits paths in lexicographic order: a node comes before its descendants, and what lies below an
earlier transition before what lies below a later one. So the indices of nodes are ordered as the lists of
transitions that lead to them, and a node is determined by its list.
-/

namespace Coverability

/-- The transitions on the way from the root down to the first node of the list. -/
def pathLabels (nodes : Array Node) (lineage : List ℕ) : List ℕ :=
  (lineage.filterMap (transitionAt nodes)).reverse

/-- Nodes have the order of the lists of transitions that lead to them. -/
def LabelsOrdered (nodes : Array Node) : Prop :=
  ∀ i j above above', Lineage nodes i above → Lineage nodes j above' → i < j →
    pathLabels nodes (i :: above) < pathLabels nodes (j :: above')

variable {net : Net} {initial : Marking} {old new nodes : Array Node} {i j a t : ℕ} {above above' : List ℕ}

private lemma lt_append_singleton (l : List ℕ) (t : ℕ) : l < l ++ [t] := by
  have h : l ++ [] < l ++ [t] := List.append_left_lt List.Lex.nil
  rwa [List.append_nil] at h

private lemma append_cons_lt (l rest : List ℕ) {t u : ℕ} (h : t < u) : l ++ t :: rest < l ++ [u] :=
  List.append_left_lt (List.Lex.rel h)

lemma pathLabels_cons (ht : transitionAt nodes i = some t) :
    pathLabels nodes (i :: above) = pathLabels nodes above ++ [t] := by
  rw [pathLabels, List.filterMap_cons_some ht, List.reverse_cons, pathLabels]

lemma Lineage.pathLabels_keeps (h : Lineage old i above) (hk : Keeps old new) :
    pathLabels new (i :: above) = pathLabels old (i :: above) := by
  have hsame : ∀ k ∈ i :: above, transitionAt new k = transitionAt old k := by
    intro k hmem
    have hlt : k < old.size := h.lt_size k hmem
    obtain ⟨node, hn, hs⟩ := hk k old[k] (Array.getElem?_eq_getElem hlt)
    rw [transitionAt_of_getElem? hn, transitionAt_of_getElem? (Array.getElem?_eq_getElem hlt), hs.transition]
  rw [pathLabels, pathLabels, List.filterMap_congr hsame]

/-- The way to a proper descendant starts with the way to the node itself, and goes on to one of its children. -/
lemma Grown.exists_pathLabels_eq (h : Grown net initial nodes) (ha : Lineage nodes a above)
    (hl : Lineage nodes i above') (hmem : a ∈ above') :
    ∃ c t rest, parentAt nodes c = some a ∧ transitionAt nodes c = some t ∧
      pathLabels nodes (i :: above') = pathLabels nodes (a :: above) ++ t :: rest := by
  induction hl with
  | root _ _ => contradiction
  | @child i parent node above' hn hp hl ih =>
    have hparent : parentAt nodes i = some parent := (parentAt_of_getElem? hn).trans hp
    obtain ⟨t, ht⟩ := h.exists_transitionAt hparent
    rw [pathLabels_cons ht]
    rcases List.mem_cons.mp hmem with rfl | hmem
    · rw [hl.unique ha]
      exact ⟨i, t, [], hparent, ht, rfl⟩
    · obtain ⟨c, u, rest, hc, hu, heq⟩ := ih hmem
      refine ⟨c, u, rest ++ [t], hc, hu, ?_⟩
      rw [heq, List.append_assoc, List.cons_append]

lemma LabelsOrdered.le (h : LabelsOrdered nodes) (hi : Lineage nodes i above) (hj : Lineage nodes j above')
    (hij : i ≤ j) : pathLabels nodes (i :: above) ≤ pathLabels nodes (j :: above') := by
  rcases hij.lt_or_eq with hlt | rfl
  · exact (h i j above above' hi hj hlt).le
  · rw [hi.unique hj]

lemma LabelsOrdered.lt_of_pathLabels_lt (h : LabelsOrdered nodes) (hi : Lineage nodes i above)
    (hj : Lineage nodes j above') (hlt : pathLabels nodes (i :: above) < pathLabels nodes (j :: above')) :
    i < j := by
  by_contra hle
  exact (h.le hj hi (Nat.not_lt.mp hle)).not_gt hlt

lemma LabelsOrdered.eq_of_pathLabels_eq (h : LabelsOrdered nodes) (hi : Lineage nodes i above)
    (hj : Lineage nodes j above') (heq : pathLabels nodes (i :: above) = pathLabels nodes (j :: above')) :
    i = j := by
  rcases Nat.lt_trichotomy i j with hlt | rfl | hlt
  · exact absurd heq (h i j above above' hi hj hlt).ne
  · rfl
  · exact absurd heq (h j i above' above hj hi hlt).ne'

lemma LabelsOrdered.keeps (h : LabelsOrdered old) (hg : Grown net initial old) (hk : Keeps old new)
    (hnew : ∀ i j above above', old.size ≤ j → Lineage new i above → Lineage new j above' → i < j →
      pathLabels new (i :: above) < pathLabels new (j :: above')) : LabelsOrdered new := by
  intro i j above above' hi hj hij
  by_cases hlt : j < old.size
  · have hi' : Lineage old i above := hg.lineage_of_keeps hk (hij.trans hlt) hi
    have hj' : Lineage old j above' := hg.lineage_of_keeps hk hlt hj
    rw [hi'.pathLabels_keeps hk, hj'.pathLabels_keeps hk]
    exact h i j above above' hi' hj' hij
  · exact hnew i j above above' (Nat.not_lt.mp hlt) hi hj hij

namespace SearchState

variable {state : SearchState} {frame : Frame} {below : List Frame} {m : Marking} {d : Option ℕ}

/-- The next transition of the node on top of the stack leads beyond all nodes so far. -/
lemma Invariant.pathLabels_lt (h : state.Invariant net initial) (hs : state.stack = frame :: below)
    (ha : Adopted state.nodes) (ho : state.Ordered) (hlabels : LabelsOrdered state.nodes)
    (hi : Lineage state.nodes i above) :
    pathLabels state.nodes (i :: above) <
      pathLabels state.nodes ((frame :: below).map Frame.node) ++ [frame.next] := by
  have htop : Lineage state.nodes frame.node (below.map Frame.node) := (h.stackFits hs).1.lineage
  obtain ⟨last, hlast, hmem⟩ := ho.last frame (hs ▸ List.mem_cons_self)
  have hle : pathLabels state.nodes (i :: above) ≤ pathLabels state.nodes ((state.nodes.size - 1) :: last) := by
    have hlt : i < state.nodes.size := hi.lt_size i List.mem_cons_self
    exact hlabels.le hi hlast (by omega)
  refine hle.trans_lt ?_
  rw [List.map_cons]
  rcases List.mem_cons.mp hmem with hsame | hmem
  · -- the top node is the last one
    rw [← hsame] at hlast ⊢
    rw [hlast.unique htop]
    exact lt_append_singleton _ _
  · obtain ⟨c, t, rest, hc, ht, heq⟩ := h.grown.exists_pathLabels_eq htop hlast hmem
    obtain ⟨u, hu, htu⟩ := h.transition_lt hs ha hc
    cases ht.symm.trans htu
    rw [heq]
    exact append_cons_lt _ _ hu

lemma labelsOrdered_start : LabelsOrdered (start initial).nodes := by
  intro i j above above' _ hj hij
  have hlt : j < 1 := hj.lt_size j List.mem_cons_self
  omega

lemma Invariant.labelsOrdered_create (h : state.Invariant net initial) (hs : state.stack = frame :: below)
    (ha : Adopted state.nodes) (ho : state.Ordered) (hlabels : LabelsOrdered state.nodes) :
    LabelsOrdered (state.create frame below m d).nodes := by
  have hk : Keeps state.nodes (state.create frame below m d).nodes := keeps_create m d
  refine hlabels.keeps h.grown hk fun i j above above' hj hi hl hij => ?_
  have hlast : j = state.nodes.size := by
    have hlt : j < (state.create frame below m d).nodes.size := hl.lt_size j List.mem_cons_self
    rw [size_create] at hlt
    omega
  subst hlast
  have hi' : Lineage state.nodes i above := h.grown.lineage_of_keeps hk hij hi
  have htop : Lineage state.nodes frame.node (below.map Frame.node) := (h.stackFits hs).1.lineage
  have htransition : transitionAt (state.create frame below m d).nodes state.nodes.size = some frame.next := by
    simp [transitionAt, getElem?_create_size, created]
  rw [hl.unique (h.lineage_created hs m d), pathLabels_cons htransition, hi'.pathLabels_keeps hk,
    List.map_cons, htop.pathLabels_keeps hk]
  exact h.pathLabels_lt hs ha ho hlabels hi'

end SearchState

namespace Search

variable {search : Search} {state : SearchState}

theorem Through.labelsOrdered (h : search.Through initial state) (hw : search.net.WellFormed)
    (hd : initial.dimension = search.net.placeCount) : LabelsOrdered state.nodes := by
  refine h.preserves hw hd (P := fun state => LabelsOrdered state.nodes) SearchState.labelsOrdered_start ?_
  intro state frame below next ht hinv hs hadv hlabels
  cases hadv with
  | leave hle =>
    refine hlabels.keeps hinv.grown (hinv.leave_keeps hs) fun i j above above' hj _ hl _ => ?_
    have hlt : j < (state.leave frame below).nodes.size := hl.lt_size j List.mem_cons_self
    rw [SearchState.size_leave] at hlt
    omega
  | skip hlt hfire he => exact hlabels
  | create hlt hfire hsize =>
    exact hinv.labelsOrdered_create hs (ht.adopted hw hd) (ht.ordered hw hd) hlabels

theorem labelsOrdered_of_explore (hw : search.net.WellFormed) (h : search.explore initial = .ok nodes) :
    LabelsOrdered nodes := by
  obtain ⟨hd, last, ht, -, rfl⟩ := exists_through_of_explore h
  exact ht.labelsOrdered hw hd

end Search

end Coverability
