import Coverability.Proofs.SearchInvariant

/-!
# Subtrees are ranges

The search gives a node its index while all of its ancestors are on the stack, and the node created last
never leaves the subtree of a node on the stack. So the parent of each node lies on the path from the node
before it to the root, and the descendants of a node follow it without a gap.
-/

namespace Coverability

/-- Node `j` is node `i` or one of its descendants. -/
def InSubtree (nodes : Array Node) (i j : ℕ) : Prop :=
  ∃ above, Lineage nodes j above ∧ i ∈ j :: above

/-- Each node comes directly after a node of its parent's subtree. -/
def Preordered (nodes : Array Node) : Prop :=
  ∀ j parent, parentAt nodes (j + 1) = some parent → InSubtree nodes parent j

variable {net : Net} {initial : Marking} {old new nodes : Array Node} {i j k : ℕ}

lemma InSubtree.keeps (h : InSubtree old i j) (hk : Keeps old new) : InSubtree new i j := by
  obtain ⟨above, hl, hi⟩ := h
  exact ⟨above, (hl.keeps hk).1, hi⟩

lemma InSubtree.child (h : InSubtree nodes i k) (hp : parentAt nodes j = some k) : InSubtree nodes i j := by
  obtain ⟨above, hl, hi⟩ := h
  obtain ⟨node, hn, hparent⟩ := Option.bind_eq_some_iff.mp hp
  exact ⟨k :: above, .child hn hparent hl, List.mem_cons_of_mem _ hi⟩

lemma InSubtree.exists_parent (h : InSubtree nodes i j) (hne : i ≠ j) :
    ∃ parent, parentAt nodes j = some parent ∧ InSubtree nodes i parent := by
  obtain ⟨above, hl, hi⟩ := h
  have hmem : i ∈ above := (List.mem_cons.mp hi).resolve_left hne
  cases hl with
  | root hn hp => contradiction
  | child hn hp hl => exact ⟨_, (parentAt_of_getElem? hn).trans hp, _, hl, hmem⟩

lemma InSubtree.trans (h : InSubtree nodes i j) (h' : InSubtree nodes j k) : InSubtree nodes i k := by
  obtain ⟨above, hl, hj⟩ := h'
  induction hl with
  | root hn hp => rwa [← List.mem_singleton.mp hj]
  | child hn hp hl ih =>
    rcases List.mem_cons.mp hj with rfl | hj
    · exact h
    · exact (ih hj).child ((parentAt_of_getElem? hn).trans hp)

lemma Grown.le_of_inSubtree (h : Grown net initial nodes) (hs : InSubtree nodes i j) : i ≤ j := by
  obtain ⟨above, hl, hi⟩ := hs
  rcases List.mem_cons.mp hi with rfl | hi
  · exact le_refl _
  · exact (h.lt_of_mem_lineage hl hi).le

lemma InSubtree.lt_size (h : InSubtree nodes i j) : j < nodes.size := by
  obtain ⟨above, hl, -⟩ := h
  obtain ⟨node, hn⟩ := hl.exists_node
  exact (Array.getElem?_eq_some_iff.mp hn).1

/-- Going back from a node of a subtree, one meets only nodes of the subtree until its first node. -/
lemma Preordered.inSubtree_of_le (h : Preordered nodes) (hij : i ≤ j) (hjk : j ≤ k)
    (hs : InSubtree nodes i k) : InSubtree nodes i j := by
  -- Backwards from `k`: the node before one of the subtree lies below the parent of that one.
  obtain ⟨d, rfl⟩ := Nat.exists_eq_add_of_le hjk
  induction d with
  | zero => exact hs
  | succ d ih =>
    obtain ⟨parent, hp, hs'⟩ := hs.exists_parent (by omega)
    have hprev : InSubtree nodes parent (j + d) := h (j + d) parent hp
    exact ih (by omega) (hs'.trans hprev)

theorem Preordered.exists_range (h : Preordered nodes) (hg : Grown net initial nodes) (hi : i < nodes.size) :
    ∃ stop, ∀ j, InSubtree nodes i j ↔ i ≤ j ∧ j < stop := by
  classical
  have hend : ∃ j, i ≤ j ∧ ¬InSubtree nodes i j := ⟨nodes.size, hi.le, fun hs => hs.lt_size.false⟩
  refine ⟨Nat.find hend, fun j => ⟨fun hs => ⟨hg.le_of_inSubtree hs, ?_⟩, fun hj => ?_⟩⟩
  · obtain ⟨hle, hnot⟩ := Nat.find_spec hend
    by_contra hlt
    exact hnot (h.inSubtree_of_le hle (Nat.not_lt.mp hlt) hs)
  · by_contra hnot
    exact Nat.find_min hend hj.2 ⟨hj.1, hnot⟩

/-- The order is kept if every new node continues the subtree of its parent. -/
lemma Preordered.keeps (h : Preordered old) (hk : Keeps old new)
    (hnew : ∀ j parent, old.size ≤ j + 1 → parentAt new (j + 1) = some parent → InSubtree new parent j) :
    Preordered new := by
  intro j parent hp
  by_cases hj : j + 1 < old.size
  · rw [hk.parentAt_eq hj] at hp
    exact (h j parent hp).keeps hk
  · exact hnew j parent (by omega) hp

namespace SearchState

/-- The nodes so far are in order, and the last one lies in the subtrees of all nodes on the stack. -/
structure Ordered (state : SearchState) : Prop where
  preordered : Preordered state.nodes
  last : ∀ frame ∈ state.stack, InSubtree state.nodes frame.node (state.nodes.size - 1)

variable {state : SearchState} {frame : Frame} {below : List Frame}

lemma ordered_start : (start initial).Ordered := by
  constructor
  · intro j parent hp
    simp [parentAt, start] at hp
  · intro frame hf
    rw [List.mem_singleton.mp hf]
    exact ⟨[], .root rfl rfl, List.mem_singleton_self _⟩

lemma Ordered.leave (h : state.Ordered) (hinv : state.Invariant net initial)
    (hs : state.stack = frame :: below) : (state.leave frame below).Ordered := by
  have hk : Keeps state.nodes (state.leave frame below).nodes := hinv.leave_keeps hs
  constructor
  · refine h.preordered.keeps hk fun j parent hj hp => ?_
    rw [parentAt, Array.getElem?_eq_none (size_leave.trans_le hj)] at hp
    contradiction
  · intro other ho
    rw [size_leave]
    exact (h.last other (hs ▸ List.mem_cons_of_mem _ ho)).keeps hk

lemma Ordered.skip (h : state.Ordered) (hs : state.stack = frame :: below) :
    (state.skip frame below).Ordered := by
  refine ⟨h.preordered, fun other ho => ?_⟩
  rcases List.mem_cons.mp ho with rfl | ho
  · exact h.last frame (hs ▸ List.mem_cons_self)
  · exact h.last other (hs ▸ List.mem_cons_of_mem _ ho)

lemma Ordered.create (h : state.Ordered) (hinv : state.Invariant net initial)
    (hs : state.stack = frame :: below) (m : Marking) (d : Option ℕ) :
    (state.create frame below m d).Ordered := by
  have hk : Keeps state.nodes (state.create frame below m d).nodes := keeps_create m d
  have hparent : parentAt (state.create frame below m d).nodes state.nodes.size = some frame.node := by
    simp [parentAt, getElem?_create_size, created]
  constructor
  · refine h.preordered.keeps hk fun j parent hj hp => ?_
    have hlt : j + 1 < (state.create frame below m d).nodes.size := by
      obtain ⟨node, hn, -⟩ := Option.bind_eq_some_iff.mp hp
      exact (Array.getElem?_eq_some_iff.mp hn).1
    rw [size_create] at hlt
    have hlast : j + 1 = state.nodes.size := by omega
    have hj' : j = state.nodes.size - 1 := by omega
    rw [hlast, hparent] at hp
    cases hp
    rw [hj']
    exact (h.last frame (hs ▸ List.mem_cons_self)).keeps hk
  · intro other ho
    rw [size_create, Nat.add_sub_cancel]
    have hmem : other.node ∈ (state.create frame below m d).stack.map Frame.node := List.mem_map_of_mem ho
    rw [mem_stack_create, ← List.mem_cons] at hmem
    rcases hmem with ⟨-, hlast⟩ | hmem
    · rw [hlast]
      exact ⟨_, hinv.lineage_created hs m d, List.mem_cons_self⟩
    · have hbelow : InSubtree state.nodes other.node frame.node :=
        ⟨_, (hinv.stackFits hs).1.lineage, hmem⟩
      exact (hbelow.keeps hk).child hparent

end SearchState

namespace Search

variable {search : Search} {state : SearchState}

theorem Through.ordered (h : search.Through initial state) (hw : search.net.WellFormed)
    (hd : initial.dimension = search.net.placeCount) : state.Ordered := by
  refine h.preserves hw hd (P := SearchState.Ordered) SearchState.ordered_start ?_
  intro state frame below next _ hinv hs hadv hordered
  cases hadv with
  | leave hle => exact hordered.leave hinv hs
  | skip hlt hfire he => exact hordered.skip hs
  | create hlt hfire hsize => exact hordered.create hinv hs _ _

/-- In the nodes of a search, every subtree is a range that starts at its root. -/
theorem exists_subtree_range (hw : search.net.WellFormed) (h : search.explore initial = .ok nodes)
    (hi : i < nodes.size) : ∃ stop, ∀ j, InSubtree nodes i j ↔ i ≤ j ∧ j < stop := by
  obtain ⟨hd, last, ht, -, rfl⟩ := exists_through_of_explore h
  exact (ht.ordered hw hd).preordered.exists_range (ht.invariant hw hd).grown hi

end Search

end Coverability
