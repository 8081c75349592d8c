import Coverability.Proofs.Duplicates
import Coverability.Proofs.PathOrder
import Mathlib.Order.Interval.Set.Monotone

/-!
# Pruned copies

A search that compares a new node with all seen markings finds a part of the tree that the search finds
which compares it with its ancestors only. What a node carries depends on its path alone, and a path is cut
in the larger tree only where it repeats one of its own markings, where it is cut in the smaller tree as well.
-/

namespace Coverability

/-- Node `i` of `small` and node `j` of `large` are reached over the same transitions and markings. -/
structure SamePath (small large : Array Node) (i j : ℕ) (above above' : List ℕ) : Prop where
  left : Lineage small i above
  right : Lineage large j above'
  labels : pathLabels small (i :: above) = pathLabels large (j :: above')
  markings : (i :: above).map (markingAt small) = (j :: above').map (markingAt large)

/-- The map `f` finds the nodes of `small` in `large`, in the same order, with the same links and contents. A
dead node is found as a dead node, and only a duplicate is found as a duplicate, of the node that it repeats. -/
structure PrunedCopy (small large : Array Node) (f : ℕ → ℕ) : Prop where
  root : f 0 = 0
  strictMonoOn : StrictMonoOn f (Set.Iio small.size)
  image : ∀ (i : ℕ) (node : Node), small[i]? = some node → ∃ image : Node, large[f i]? = some image ∧
    image.parent = node.parent.map f ∧ image.transition = node.transition ∧
    image.marking = node.marking ∧ image.depth = node.depth ∧
    (node.kind = .dead → image.kind = .dead) ∧
    ∀ b, image.kind = .duplicate b → ∃ a, node.kind = .duplicate a ∧ f a = b

namespace PrunedCopy

variable {small large : Array Node} {f : ℕ → ℕ} {i : ℕ}

lemma le (h : PrunedCopy small large f) (hi : i < small.size) : i ≤ f i :=
  (h.strictMonoOn.mono (Set.Iic_subset_Iio.mpr hi)).Iic_id_le i le_rfl

lemma size_le (h : PrunedCopy small large f) : small.size ≤ large.size := by
  rcases Nat.eq_zero_or_pos small.size with hzero | hpos
  · exact hzero ▸ Nat.zero_le _
  · have hlast : small.size - 1 < small.size := Nat.sub_lt hpos Nat.one_pos
    obtain ⟨image, hi, -⟩ := h.image _ _ (Array.getElem?_eq_getElem hlast)
    have hlt : f (small.size - 1) < large.size := (Array.getElem?_eq_some_iff.mp hi).1
    have hle : small.size - 1 ≤ f (small.size - 1) := h.le hlast
    omega

end PrunedCopy

namespace SamePath

variable {net : Net} {initial : Marking} {small large : Array Node} {i j k l : ℕ}
  {above above' under under' : List ℕ} {node image : Node}

lemma marking_eq (h : SamePath small large i j above above') (hn : small[i]? = some node)
    (hi : large[j]? = some image) : image.marking = node.marking := by
  have hm := h.markings
  rw [List.map_cons, List.map_cons, List.cons.injEq, markingAt_of_getElem? hn, markingAt_of_getElem? hi] at hm
  exact hm.1.symm

lemma map_markingAt_above (h : SamePath small large i j above above') :
    above.map (markingAt small) = above'.map (markingAt large) := by
  have hm := h.markings
  rw [List.map_cons, List.map_cons, List.cons.injEq] at hm
  exact hm.2

lemma length_eq (h : SamePath small large i j above above') : above.length = above'.length := by
  simpa using congrArg List.length h.map_markingAt_above

lemma pathMarkings_eq (h : SamePath small large i j above above') :
    pathMarkings small (i :: above) = pathMarkings large (j :: above') := by
  rw [pathMarkings, pathMarkings, h.markings]

lemma child (h : SamePath small large i j above above') {t : ℕ} {a b : Node}
    (ha : small[k]? = some a) (hb : large[l]? = some b) (hbegets : Begets net small i t a)
    (hbegets' : Begets net large j t b) : SamePath small large k l (i :: above) (j :: above') := by
  obtain ⟨aboveA, s, hla, hfire, hm, -⟩ := hbegets.marking
  obtain ⟨aboveB, s', hlb, hfire', hm', -⟩ := hbegets'.marking
  cases h.left.unique hla
  cases h.right.unique hlb
  obtain ⟨node, hn⟩ := h.left.exists_node
  obtain ⟨image, hi⟩ := h.right.exists_node
  -- both children come from one marking over one path
  have hsuccessor : s = s' := by
    rw [markingAt_of_getElem? hn] at hfire
    rw [markingAt_of_getElem? hi, h.marking_eq hn hi, hfire] at hfire'
    exact Except.ok.inj hfire'
  have hmarking : markingAt small k = markingAt large l := by
    rw [markingAt_of_getElem? ha, markingAt_of_getElem? hb, hm, hm', hsuccessor, h.pathMarkings_eq]
  refine ⟨.child ha hbegets.parent_eq h.left, .child hb hbegets'.parent_eq h.right, ?_, ?_⟩
  · rw [pathLabels_cons (hbegets.transitionAt ha), pathLabels_cons (hbegets'.transitionAt hb), h.labels]
  · exact congrArg₂ List.cons hmarking h.markings

/-- Paths that agree do so one step earlier, and the last transition is the same. -/
lemma parent (h : SamePath small large k l (i :: above) (j :: above')) (hs : Grown net initial small)
    (hl : Grown net initial large) :
    SamePath small large i j above above' ∧ transitionAt small k = transitionAt large l := by
  obtain ⟨hleft, hright, hlabels, hmarkings⟩ := h
  cases hleft with
  | @child _ _ a _ ha hpa hleft =>
    cases hright with
    | @child _ _ b _ hb hpb hright =>
      obtain ⟨t, hta⟩ := hs.exists_transitionAt ((parentAt_of_getElem? ha).trans hpa)
      obtain ⟨u, hub⟩ := hl.exists_transitionAt ((parentAt_of_getElem? hb).trans hpb)
      rw [pathLabels_cons hta, pathLabels_cons hub] at hlabels
      obtain ⟨hinit, hlast⟩ := List.append_inj' hlabels rfl
      cases hlast
      exact ⟨⟨hleft, hright, hinit, (List.cons.inj hmarkings).2⟩, hta.trans hub.symm⟩

lemma transition_eq (h : SamePath small large i j above above') (hs : Grown net initial small)
    (hl : Grown net initial large) (hn : small[i]? = some node) (hi : large[j]? = some image) :
    image.transition = node.transition := by
  cases above with
  | nil =>
    obtain rfl : above' = [] := List.eq_nil_of_length_eq_zero h.length_eq.symm
    rw [hs.transition_eq_none h.left hn, hl.transition_eq_none h.right hi]
  | cons p above =>
    cases above' with
    | nil => simpa using h.length_eq
    | cons q above' =>
      have ht := (h.parent hs hl).2
      rw [transitionAt_of_getElem? hn, transitionAt_of_getElem? hi] at ht
      exact ht.symm

end SamePath

/-- The nodes of a search that compares new markings with those of the ancestors. -/
structure Unpruned (net : Net) (initial : Marking) (nodes : Array Node) : Prop where
  complete : Complete net initial nodes
  differ : PathsDiffer nodes
  ordered : LabelsOrdered nodes

lemma Unpruned.mem_above {net : Net} {initial : Marking} {nodes : Array Node} {i j : ℕ} {node : Node}
    {above : List ℕ} (h : Unpruned net initial nodes) (hl : Lineage nodes i above)
    (hn : nodes[i]? = some node) (hj : node.kind = .duplicate j) :
    j ∈ above ∧ markingAt nodes j = node.marking :=
  ⟨h.differ.mem_above i node above j hn hl hj, h.complete.grown.markingAt_twin hn hj⟩

/-- A state of a search that compares new markings with all that have been seen. -/
structure SearchState.Unrepeated (net : Net) (initial : Marking) (state : SearchState) : Prop where
  invariant : state.Invariant net initial
  adopted : Adopted state.nodes
  once : ExpandedOnce state.nodes
  preordered : state.Ordered
  ordered : LabelsOrdered state.nodes

/-- The map `f` takes every path to one with the same transitions and markings. -/
def KeepsPaths (small large : Array Node) (f : ℕ → ℕ) : Prop :=
  ∀ i above, Lineage small i above → SamePath small large i (f i) above (above.map f)

namespace SearchState.Unrepeated

variable {net : Net} {initial : Marking} {state : SearchState} {large : Array Node} {i j a : ℕ}
  {above above' : List ℕ} {node image : Node} {f : ℕ → ℕ}

lemma expandedWith_of_mem (h : state.Unrepeated net initial) (hl : Lineage state.nodes i above)
    (ha : a ∈ above) : ExpandedWith state.nodes (markingAt state.nodes a) a := by
  have hlt : a < state.nodes.size := hl.lt_size a (List.mem_cons_of_mem i ha)
  have hn : state.nodes[a]? = some state.nodes[a] := Array.getElem?_eq_getElem hlt
  exact ⟨_, hn, (markingAt_of_getElem? hn).symm,
    h.adopted.isDuplicate_eq_false_of_mem h.invariant.unexpanded hl ha hn⟩

/-- A node that repeats the marking of an ancestor is a duplicate of it. -/
lemma kind_eq_of_mem (h : state.Unrepeated net initial) (hl : Lineage state.nodes i above)
    (hn : state.nodes[i]? = some node) (ha : a ∈ above) (hm : markingAt state.nodes a = node.marking) :
    node.kind = .duplicate a := by
  have hexpanded := h.expandedWith_of_mem hl ha
  rw [hm] at hexpanded
  have hdup : node.kind.isDuplicate = true := by
    by_contra hdup
    have hsame : a = i := h.once node.marking a i hexpanded ⟨node, hn, rfl, by simpa using hdup⟩
    exact (h.invariant.grown.lt_of_mem_lineage hl ha).ne hsame
  obtain ⟨b, hb⟩ := NodeKind.isDuplicate_eq_true.mp hdup
  have htwin : ExpandedWith state.nodes node.marking b := (h.invariant.grown.twin i node b hn hb).2
  rw [hb, h.once node.marking b a htwin hexpanded]

lemma isDuplicate_image (h : state.Unrepeated net initial) (hu : Unpruned net initial large)
    (hp : SamePath state.nodes large i j above above') (hn : state.nodes[i]? = some node)
    (hi : large[j]? = some image) (hdup : node.kind.isDuplicate = false) :
    image.kind.isDuplicate = false := by
  by_contra hdup'
  obtain ⟨b, hb⟩ := NodeKind.isDuplicate_eq_true.mp (by simpa using hdup')
  obtain ⟨hmem, hm⟩ := hu.mem_above hp.right hi hb
  have hmarking : node.marking ∈ above'.map (markingAt large) := by
    rw [← hp.marking_eq hn hi, ← hm]
    exact List.mem_map_of_mem hmem
  rw [← hp.map_markingAt_above] at hmarking
  obtain ⟨a, ha, he⟩ := List.mem_map.mp hmarking
  rw [h.kind_eq_of_mem hp.left hn ha he] at hdup
  contradiction

/-- Where the smaller tree goes on, the larger one does as well. -/
theorem exists_samePath (h : state.Unrepeated net initial) (hu : Unpruned net initial large)
    (hl : Lineage state.nodes i above) : ∃ j above', SamePath state.nodes large i j above above' := by
  induction hl with
  | root hn hp =>
    have hroot := h.invariant.grown.sameOrigin_root hn hp
    obtain ⟨image, hi, hs⟩ := hu.complete.grown.root
    refine ⟨0, [], .root hn hp, .root hi hs.parent, ?_, ?_⟩
    · simp [pathLabels, transitionAt_of_getElem? hn, transitionAt_of_getElem? hi, hroot.transition, hs.transition]
    · simp [markingAt_of_getElem? hn, markingAt_of_getElem? hi, hroot.marking, hs.marking]
  | @child k i node above hk hp hl ih =>
    obtain ⟨j, above', hpath⟩ := ih
    obtain ⟨-, t, hbegets⟩ := h.invariant.grown.begets hk hp
    obtain ⟨parent, hparent⟩ := hl.exists_node
    obtain ⟨image, hi⟩ := hpath.right.exists_node
    have hdup : image.kind.isDuplicate = false := by
      have hchild : parentAt state.nodes k = some i := (parentAt_of_getElem? hk).trans hp
      exact h.isDuplicate_image hu hpath hparent hi
        (h.adopted.isDuplicate_eq_false h.invariant.unexpanded hchild hparent)
    have henabled : net.Enables image.marking.exact t := by
      obtain ⟨-, successor, -, hfire, -⟩ := hbegets.marking
      rw [markingAt_of_getElem? hparent] at hfire
      rw [hpath.marking_eq hparent hi]
      exact (Net.fires_of_fire hu.complete.wellFormed hfire).enables
    obtain ⟨l, child, hchild, hbegets'⟩ := hu.complete.exists_begets hi hdup henabled
    exact ⟨l, _, hpath.child hk hchild hbegets hbegets'⟩

theorem exists_keepsPaths (h : state.Unrepeated net initial) (hu : Unpruned net initial large) :
    ∃ f, KeepsPaths state.nodes large f := by
  have hex : ∀ i, ∃ j, ∀ above, Lineage state.nodes i above →
      ∃ above', SamePath state.nodes large i j above above' := by
    intro i
    by_cases hl : ∃ above, Lineage state.nodes i above
    · obtain ⟨above, hl⟩ := hl
      obtain ⟨j, above', hpath⟩ := h.exists_samePath hu hl
      exact ⟨j, fun other ho => ⟨above', ho.unique hl ▸ hpath⟩⟩
    · exact ⟨0, fun above hl' => absurd ⟨above, hl'⟩ hl⟩
  choose f hf using hex
  refine ⟨f, fun i above hl => ?_⟩
  induction hl with
  | @root i node hn hp =>
    obtain ⟨above', hpath⟩ := hf i [] (.root hn hp)
    obtain rfl : above' = [] := List.eq_nil_of_length_eq_zero hpath.length_eq.symm
    exact hpath
  | @child k i node above hk hp hl ih =>
    obtain ⟨above', hpath⟩ := hf k (i :: above) (.child hk hp hl)
    cases above' with
    | nil => simpa using hpath.length_eq
    | cons j above' =>
      -- in the larger tree the same transitions lead to one node only
      have hparent := (hpath.parent h.invariant.grown hu.complete.grown).1
      obtain rfl : j = f i :=
        hu.ordered.eq_of_pathLabels_eq hparent.right ih.right (hparent.labels.symm.trans ih.labels)
      rw [hparent.right.unique ih.right] at hpath
      exact hpath

lemma parent_eq_map (hf : KeepsPaths state.nodes large f) (hl : Lineage state.nodes i above)
    (hn : state.nodes[i]? = some node) (hi : large[f i]? = some image) :
    image.parent = node.parent.map f := by
  have hright := (hf i above hl).right
  cases hl with
  | root hn' hp =>
    cases hn.symm.trans hn'
    cases hright with
    | root hi' hp' =>
      cases hi.symm.trans hi'
      rw [hp, hp', Option.map_none]
  | child hn' hp _ =>
    cases hn.symm.trans hn'
    cases hright with
    | child hi' hp' _ =>
      cases hi.symm.trans hi'
      rw [hp, hp', Option.map_some]

lemma kind_image_eq_dead (h : state.Unrepeated net initial) (hu : Unpruned net initial large)
    (hp : SamePath state.nodes large i j above above') (hn : state.nodes[i]? = some node)
    (hi : large[j]? = some image) (hdead : node.kind = .dead) : image.kind = .dead := by
  have hdup : node.kind.isDuplicate = false := by
    rw [hdead]
    rfl
  have hoff : i ∉ state.stack.map Frame.node := by
    intro hmem
    obtain ⟨frame, hframe, rfl⟩ := List.mem_map.mp hmem
    obtain ⟨node', hn', -, hkind⟩ := h.invariant.stack.exists_node hframe
    cases hn.symm.trans hn'
    rw [hdead] at hkind
    contradiction
  have hfinished := h.invariant.finished i node hn hdup hoff
  have hd : node.marking.dimension = net.placeCount :=
    (h.invariant.grown.dimension hn).trans hu.complete.dimension_initial
  have hstuck : net.IsDead node.marking.exact :=
    (hfinished.children_eq_nil_iff hu.complete.wellFormed hd).mp (hfinished.kind_iff.1.mp hdead)
  rw [← hp.marking_eq hn hi] at hstuck
  exact (hu.complete.kind_eq_dead_iff hi (h.isDuplicate_image hu hp hn hi hdup)).mpr hstuck

lemma exists_kind_eq_of_image (h : state.Unrepeated net initial) (hu : Unpruned net initial large)
    (hf : KeepsPaths state.nodes large f) (hl : Lineage state.nodes i above)
    (hn : state.nodes[i]? = some node) (hi : large[f i]? = some image) {b : ℕ}
    (hb : image.kind = .duplicate b) : ∃ a, node.kind = .duplicate a ∧ f a = b := by
  have hpath := hf i above hl
  obtain ⟨hmem, hm⟩ := hu.mem_above hpath.right hi hb
  obtain ⟨a, ha, rfl⟩ := List.mem_map.mp hmem
  refine ⟨a, h.kind_eq_of_mem hl hn ha ?_, rfl⟩
  have hlt : a < state.nodes.size := hl.lt_size a (List.mem_cons_of_mem i ha)
  obtain ⟨above', hl'⟩ := h.invariant.grown.exists_lineage (Array.getElem?_eq_getElem hlt)
  rw [← hpath.marking_eq hn hi, ← hm]
  exact (List.cons.inj (hf a above' hl').markings).1

theorem prunedCopy (h : state.Unrepeated net initial) (hu : Unpruned net initial large)
    (hf : KeepsPaths state.nodes large f) : PrunedCopy state.nodes large f := by
  refine ⟨?_, ?_, fun i node hn => ?_⟩
  · obtain ⟨root, hr, hs⟩ := h.invariant.grown.root
    have hright := (hf 0 [] (.root hr hs.parent)).right
    cases hright with
    | root hi hp => exact hu.complete.grown.eq_zero_of_parent_eq_none hi hp
  · intro i hi j hj hij
    obtain ⟨above, hl⟩ := h.invariant.grown.exists_lineage (Array.getElem?_eq_getElem hi)
    obtain ⟨above', hl'⟩ := h.invariant.grown.exists_lineage (Array.getElem?_eq_getElem hj)
    have hpath := hf i above hl
    have hpath' := hf j above' hl'
    apply hu.ordered.lt_of_pathLabels_lt hpath.right hpath'.right
    rw [← hpath.labels, ← hpath'.labels]
    exact h.ordered i j above above' hl hl' hij
  · obtain ⟨above, hl⟩ := h.invariant.grown.exists_lineage hn
    have hpath := hf i above hl
    obtain ⟨image, hi⟩ := hpath.right.exists_node
    have hdepth : image.depth = node.depth := by
      rw [hu.complete.grown.depth_eq hpath.right hi, h.invariant.grown.depth_eq hl hn, List.length_map]
    exact ⟨image, hi, parent_eq_map hf hl hn hi,
      hpath.transition_eq h.invariant.grown hu.complete.grown hn hi, hpath.marking_eq hn hi, hdepth,
      h.kind_image_eq_dead hu hpath hn hi, fun b hb => h.exists_kind_eq_of_image hu hf hl hn hi hb⟩

end SearchState.Unrepeated

end Coverability
