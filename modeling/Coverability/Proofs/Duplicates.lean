import Coverability.Proofs.BoundedTrees
import Coverability.Proofs.ChildLinks
import Coverability.Proofs.SeenMarkings

/-!
# Duplicates

A duplicate has the marking of an earlier node that was expanded. When only ancestors are compared, this is
the one ancestor with that marking, and along every path the markings of the expanded nodes differ. When all
seen markings are compared, it is the one expanded node of the tree with that marking.
-/

namespace Coverability

/-- Node `i` has the marking `m`, and it is no duplicate. -/
def ExpandedWith (nodes : Array Node) (m : Marking) (i : ℕ) : Prop :=
  ∃ node : Node, nodes[i]? = some node ∧ node.marking = m ∧ node.kind.isDuplicate = false

/-- No marking is expanded at two nodes. -/
def ExpandedOnce (nodes : Array Node) : Prop :=
  ∀ m i j, ExpandedWith nodes m i → ExpandedWith nodes m j → i = j

/-- A duplicate points to one of its ancestors, and every other node differs from all of its ancestors. -/
structure PathsDiffer (nodes : Array Node) : Prop where
  mem_above : ∀ (i : ℕ) (node : Node) (above : List ℕ) (j : ℕ), nodes[i]? = some node →
    Lineage nodes i above → node.kind = .duplicate j → j ∈ above
  marking_ne : ∀ (i : ℕ) (node : Node) (above : List ℕ), nodes[i]? = some node → Lineage nodes i above →
    node.kind.isDuplicate = false → ∀ j ∈ above, markingAt nodes j ≠ node.marking

variable {net : Net} {initial : Marking} {old new nodes : Array Node} {node : Node} {i j : ℕ}
  {above : List ℕ} {search : Search} {tree : Tree}

lemma Lineage.map_markingAt_keeps (hl : Lineage old i above) (hk : Keeps old new) :
    above.map (markingAt new) = above.map (markingAt old) := by
  have hpath := (hl.keeps hk).2
  rw [pathMarkings, pathMarkings, List.reverse_inj, List.map_cons, List.map_cons, List.cons.injEq] at hpath
  exact hpath.2

/-- The paths of the old nodes stay as they are. -/
lemma PathsDiffer.keeps (h : PathsDiffer old) (hg : Grown net initial old) (hk : Keeps old new)
    (hnew : ∀ (i : ℕ) (node : Node) (above : List ℕ), old.size ≤ i → new[i]? = some node →
      Lineage new i above → (∀ j, node.kind = .duplicate j → j ∈ above) ∧
        (node.kind.isDuplicate = false → ∀ j ∈ above, markingAt new j ≠ node.marking)) :
    PathsDiffer new := by
  constructor
  · intro i node above j hn hl hj
    by_cases hi : i < old.size
    · obtain ⟨before, hb, hs⟩ := hk.exists_old hi hn
      exact h.mem_above i before above j hb (hg.lineage_of_keeps hk hi hl) ((hs.duplicate j).mp hj)
    · exact (hnew i node above (Nat.not_lt.mp hi) hn hl).1 j hj
  · intro i node above hn hl hdup j hj
    by_cases hi : i < old.size
    · obtain ⟨before, hb, hs⟩ := hk.exists_old hi hn
      have hl' : Lineage old i above := hg.lineage_of_keeps hk hi hl
      have hsame : markingAt new j = markingAt old j :=
        List.map_inj_left.mp (hl'.map_markingAt_keeps hk) j hj
      rw [hsame, hs.marking]
      exact h.marking_ne i before above hb hl' (hs.isDuplicate ▸ hdup) j hj
    · exact (hnew i node above (Nat.not_lt.mp hi) hn hl).2 hdup j hj

/-- The proper ancestors of a node have different markings. -/
lemma PathsDiffer.nodup_map_markingAt (h : PathsDiffer nodes) (hc : Complete net initial nodes)
    (ha : Adopted nodes) (hl : Lineage nodes i above) : (above.map (markingAt nodes)).Nodup := by
  induction hl with
  | root _ _ => exact List.nodup_nil
  | @child i parent child above hn hp hl ih =>
    obtain ⟨node, hnode⟩ := hl.exists_node
    have hparent : parentAt nodes i = some parent := (parentAt_of_getElem? hn).trans hp
    have hdup : node.kind.isDuplicate = false := ha.isDuplicate_eq_false hc.unexpanded hparent hnode
    rw [List.map_cons, List.nodup_cons]
    refine ⟨fun hmem => ?_, ih⟩
    obtain ⟨j, hj, hm⟩ := List.mem_map.mp hmem
    rw [markingAt_of_getElem? hnode] at hm
    exact h.marking_ne parent node above hnode hl hdup j hj hm

lemma PathsDiffer.mem_above_iff (h : PathsDiffer nodes) (hc : Complete net initial nodes)
    (ha : Adopted nodes) (hn : nodes[i]? = some node) (hl : Lineage nodes i above)
    (hj : node.kind = .duplicate j) (a : ℕ) :
    a ∈ above ∧ markingAt nodes a = node.marking ↔ a = j := by
  have hmem : j ∈ above := h.mem_above i node above j hn hl hj
  have hmarking : markingAt nodes j = node.marking := hc.grown.markingAt_twin hn hj
  constructor
  · rintro ⟨ha', hm'⟩
    exact List.inj_on_of_nodup_map (h.nodup_map_markingAt hc ha hl) ha' hmem (hm'.trans hmarking.symm)
  · rintro rfl
    exact ⟨hmem, hmarking⟩

namespace SearchState

variable {state : SearchState} {frame : Frame} {below : List Frame} {m : Marking} {d : Option ℕ}

lemma pathsDiffer_start : PathsDiffer (start initial).nodes := by
  constructor
  · intro i node above j hn _ hj
    rw [(eq_root_of_getElem?_start hn).2] at hj
    contradiction
  · intro i node above hn hl _ j hj
    obtain ⟨rfl, rfl⟩ := eq_root_of_getElem?_start hn
    cases hl.unique (.root hn rfl)
    contradiction

lemma SeesAll.expandedOnce (h : state.SeesAll) : ExpandedOnce state.nodes := by
  rintro m i j ⟨a, ha, rfl, hadup⟩ ⟨b, hb, hm, hbdup⟩
  have hi : state.seen[a.marking]? = some i := h i a ha hadup
  rw [← hm, h j b hb hbdup] at hi
  exact (Option.some.inj hi).symm

lemma Invariant.pathsDiffer_create (h : state.Invariant net initial) (hs : state.stack = frame :: below)
    (hdiffer : PathsDiffer state.nodes)
    (hd : d = (state.stack.find? (·.marking = m)).map Frame.node) :
    PathsDiffer (state.create frame below m d).nodes := by
  refine hdiffer.keeps h.grown (keeps_create m d) fun i node above hi hn hl => ?_
  obtain ⟨rfl, rfl⟩ := (lt_or_eq_created hn).resolve_left (Nat.not_lt.mpr hi)
  have habove : above = (frame :: below).map Frame.node := hl.unique (h.lineage_created hs m d)
  have hmarkings := h.map_markingAt_create hs m d
  rw [hs] at hd
  constructor
  · intro j hj
    have hfound : d = some j := by
      cases d with
      | none => contradiction
      | some other =>
        cases hj
        rfl
    obtain ⟨found, hf, rfl⟩ := Option.map_eq_some_iff.mp (hd.symm.trans hfound)
    rw [habove]
    exact List.mem_map_of_mem (List.mem_of_find?_eq_some hf)
  · intro hdup j hj he
    have hnone : d = none := by
      cases d with
      | none => rfl
      | some other => contradiction
    have hall := List.find?_eq_none.mp (Option.map_eq_none_iff.mp (hd.symm.trans hnone))
    have hmem : markingAt (state.create frame below m d).nodes j ∈ (frame :: below).map Frame.marking := by
      rw [← hmarkings, ← habove]
      exact List.mem_map_of_mem hj
    rw [he] at hmem
    obtain ⟨other, ho, hm⟩ := List.mem_map.mp hmem
    exact hall other ho (decide_eq_true hm)

end SearchState

namespace Search

variable {state : SearchState}

theorem Through.pathsDiffer (h : search.Through initial state) (hw : search.net.WellFormed)
    (hd : initial.dimension = search.net.placeCount) (hp : search.pruning = .ancestorOnly) :
    PathsDiffer state.nodes := by
  refine h.preserves hw hd (P := fun state => PathsDiffer state.nodes) SearchState.pathsDiffer_start ?_
  intro state frame below next _ hinv hs hadv hdiffer
  cases hadv with
  | leave hle =>
    refine hdiffer.keeps hinv.grown (hinv.leave_keeps hs) fun i node above hi hn _ => ?_
    simp [SearchState.leave, hi] at hn
  | skip hlt hfire he => exact hdiffer
  | create hlt hfire hsize =>
    refine hinv.pathsDiffer_create hs hdiffer ?_
    rw [duplicateOf?, hp]

theorem pathsDiffer_of_explore (hw : search.net.WellFormed) (hp : search.pruning = .ancestorOnly)
    (h : search.explore initial = .ok nodes) : PathsDiffer nodes := by
  obtain ⟨hd, last, ht, -, rfl⟩ := exists_through_of_explore h
  exact ht.pathsDiffer hw hd hp

theorem expandedOnce_of_explore (hw : search.net.WellFormed) (hp : search.pruning = .globalSeen)
    (h : search.explore initial = .ok nodes) : ExpandedOnce nodes := by
  obtain ⟨hd, last, ht, -, rfl⟩ := exists_through_of_explore h
  exact (ht.seesAll hw hd hp).expandedOnce

/-- A duplicate points to an earlier expanded node with its marking. This is its only proper ancestor with
that marking when only ancestors are compared, where an expanded node differs from all of its ancestors, and
the only expanded node with that marking when all seen markings are. -/
theorem duplicates_of_build (hnet : search.net.Constructed) (h : search.build initial = .ok tree) :
    (∀ (i : ℕ) (node : Node) (j : ℕ), tree.nodes[i]? = some node → node.kind = .duplicate j →
      j < i ∧ ExpandedWith tree.nodes node.marking j) ∧
    (∀ node ∈ tree.nodes, ∃ j, ExpandedWith tree.nodes node.marking j) ∧
    (search.pruning = .ancestorOnly → ∀ (i : ℕ) (node : Node), tree.nodes[i]? = some node →
      ∃ above, Lineage tree.nodes i above ∧
        (∀ j, node.kind = .duplicate j →
          ∀ a, a ∈ above ∧ markingAt tree.nodes a = node.marking ↔ a = j) ∧
        (node.kind.isDuplicate = false → ∀ a ∈ above, markingAt tree.nodes a ≠ node.marking)) ∧
    (search.pruning = .globalSeen →
      (∀ m j k, ExpandedWith tree.nodes m j → ExpandedWith tree.nodes m k → j = k) ∧
      ∀ (i : ℕ) (node : Node) (j : ℕ), tree.nodes[i]? = some node → node.kind = .duplicate j →
        ∀ k, ExpandedWith tree.nodes node.marking k ↔ k = j) := by
  have hexplore : search.explore initial = .ok tree.nodes := explore_of_build h
  have hc : Complete search.net initial tree.nodes := complete_of_explore hnet.wellFormed hexplore
  have hadopted : Adopted tree.nodes := adopted_of_explore hnet.wellFormed hexplore
  refine ⟨hc.grown.twin, fun node hn => ?_, fun hp i node hn => ?_, fun hp => ?_⟩
  · obtain ⟨i, hi⟩ := Array.mem_iff_getElem?.mp hn
    exact hc.exists_expanded hi
  · have hdiffer : PathsDiffer tree.nodes := pathsDiffer_of_explore hnet.wellFormed hp hexplore
    obtain ⟨above, hl⟩ := hc.grown.exists_lineage hn
    refine ⟨above, hl, fun j hj a => ?_, hdiffer.marking_ne i node above hn hl⟩
    exact hdiffer.mem_above_iff hc hadopted hn hl hj a
  · have honce : ExpandedOnce tree.nodes := expandedOnce_of_explore hnet.wellFormed hp hexplore
    refine ⟨honce, fun i node j hn hj k => ⟨fun hk => ?_, ?_⟩⟩
    · exact honce node.marking k j hk (hc.grown.twin i node j hn hj).2
    · rintro rfl
      exact (hc.grown.twin i node k hn hj).2

end Search

/-- Filling an open shop again repeats the marking of one ancestor only. In the tree of the diners, the two
orders of taking the forks meet in one expanded node. -/
theorem duplicates_shop_diners : shopSearch.net.Constructed ∧
    shopSearch.build shop.initial = .ok shopTree ∧ shopSearch.pruning = .ancestorOnly ∧
    (∃ above, Lineage shopTree.nodes 2 above ∧
      ∀ a, a ∈ above ∧ markingAt shopTree.nodes a = ⟨[.finite 1, .infinite]⟩ ↔ a = 1) ∧
    dinersSearch.net.Constructed ∧ dinersSearch.build diners.initial = .ok dinersTree ∧
    dinersSearch.pruning = .globalSeen ∧
    ∀ k, ExpandedWith dinersTree.nodes (.ofFinite [0, 1, 0, 1, 0, 0]) k ↔ k = 3 := by
  obtain ⟨-, -, hancestors, -⟩ := Search.duplicates_of_build constructed_shop build_shop
  obtain ⟨above, hl, htwin, -⟩ := hancestors rfl 2 _ rfl
  obtain ⟨-, -, -, hseen⟩ := Search.duplicates_of_build constructed_diners build_diners
  exact ⟨constructed_shop, build_shop, rfl, ⟨above, hl, htwin 1 rfl⟩, constructed_diners, build_diners, rfl,
    (hseen rfl).2 5 _ 3 rfl rfl⟩

end Coverability
