import Coverability.Proofs.WellFormedNets
import Coverability.Search.Run

/-!
# Growing trees

The nodes of a tree lie in an array that only grows. What a node is given at its creation stays as it is:
its transition, marking, parent and depth, and whether it is a duplicate. `Lineage` walks from a node to
the root, `Begets` says how a node comes from its parent, and `Grown` that all nodes came about in this
way.
-/

namespace Coverability

/-- Two states of one node: only children, and the mark of a dead node, may differ. -/
structure Node.SameOrigin (a b : Node) : Prop where
  transition : a.transition = b.transition
  marking : a.marking = b.marking
  parent : a.parent = b.parent
  depth : a.depth = b.depth
  duplicate : ∀ j, a.kind = .duplicate j ↔ b.kind = .duplicate j

lemma Node.SameOrigin.refl (a : Node) : a.SameOrigin a :=
  ⟨rfl, rfl, rfl, rfl, fun _ => Iff.rfl⟩

lemma NodeKind.isDuplicate_eq_true {kind : NodeKind} :
    kind.isDuplicate = true ↔ ∃ j, kind = .duplicate j := by
  cases kind <;> simp [isDuplicate]

lemma Node.SameOrigin.isDuplicate {a b : Node} (h : a.SameOrigin b) :
    a.kind.isDuplicate = b.kind.isDuplicate := by
  rw [Bool.eq_iff_iff, NodeKind.isDuplicate_eq_true, NodeKind.isDuplicate_eq_true]
  exact exists_congr h.duplicate

/-- Every node of `old` is still there in `new`. -/
def Keeps (old new : Array Node) : Prop :=
  ∀ (i : ℕ) (node : Node), old[i]? = some node → ∃ node' : Node, new[i]? = some node' ∧ node'.SameOrigin node

def markingAt (nodes : Array Node) (i : ℕ) : Marking :=
  (nodes[i]?.map Node.marking).getD ⟨[]⟩

def transitionAt (nodes : Array Node) (i : ℕ) : Option ℕ :=
  nodes[i]?.bind Node.transition

def parentAt (nodes : Array Node) (i : ℕ) : Option ℕ :=
  nodes[i]?.bind Node.parent

variable {old new nodes : Array Node} {i t : ℕ} {node : Node}

lemma markingAt_of_getElem? (h : nodes[i]? = some node) : markingAt nodes i = node.marking := by
  simp [markingAt, h]

lemma transitionAt_of_getElem? (h : nodes[i]? = some node) : transitionAt nodes i = node.transition := by
  simp [transitionAt, h]

lemma parentAt_of_getElem? (h : nodes[i]? = some node) : parentAt nodes i = node.parent := by
  simp [parentAt, h]

lemma Keeps.markingAt (hk : Keeps old new) (h : old[i]? = some node) :
    markingAt new i = markingAt old i := by
  obtain ⟨node', hn, hs⟩ := hk i node h
  rw [markingAt_of_getElem? h, markingAt_of_getElem? hn, hs.marking]

lemma Keeps.transitionAt (hk : Keeps old new) (h : transitionAt old i = some t) :
    transitionAt new i = some t := by
  obtain ⟨node, hn, ht⟩ := Option.bind_eq_some_iff.mp h
  obtain ⟨node', hn', hs⟩ := hk i node hn
  rw [transitionAt_of_getElem? hn', hs.transition, ht]

/-- A node of the larger array with an index of the smaller one is the node that was there before. -/
lemma Keeps.exists_old (hk : Keeps old new) (hi : i < old.size) (hn : new[i]? = some node) :
    ∃ before : Node, old[i]? = some before ∧ node.SameOrigin before := by
  have hold : old[i]? = some old[i] := Array.getElem?_eq_getElem hi
  obtain ⟨node', hn', hs⟩ := hk i old[i] hold
  cases hn.symm.trans hn'
  exact ⟨old[i], hold, hs⟩

lemma Keeps.parentAt {parent : ℕ} (hk : Keeps old new) (h : parentAt old i = some parent) :
    parentAt new i = some parent := by
  obtain ⟨node, hn, hp⟩ := Option.bind_eq_some_iff.mp h
  obtain ⟨node', hn', hs⟩ := hk i node hn
  rw [parentAt_of_getElem? hn', hs.parent, hp]

lemma Keeps.parentAt_eq (hk : Keeps old new) (hi : i < old.size) :
    Coverability.parentAt new i = Coverability.parentAt old i := by
  have hold : old[i]? = some old[i] := Array.getElem?_eq_getElem hi
  obtain ⟨node', hn', hs⟩ := hk i old[i] hold
  rw [parentAt_of_getElem? hold, parentAt_of_getElem? hn', hs.parent]

/-- The proper ancestors of node `i`, from its parent to the root. -/
inductive Lineage (nodes : Array Node) : ℕ → List ℕ → Prop
  | root {i : ℕ} {node : Node} (h : nodes[i]? = some node) (hp : node.parent = none) :
      Lineage nodes i []
  | child {i parent : ℕ} {node : Node} {above : List ℕ} (h : nodes[i]? = some node)
      (hp : node.parent = some parent) (ha : Lineage nodes parent above) :
      Lineage nodes i (parent :: above)

/-- The markings from the root down to the first node of the list. -/
def pathMarkings (nodes : Array Node) (lineage : List ℕ) : List Marking :=
  (lineage.map (markingAt nodes)).reverse

lemma Lineage.keeps {above : List ℕ} (h : Lineage old i above) (hk : Keeps old new) :
    Lineage new i above ∧ pathMarkings new (i :: above) = pathMarkings old (i :: above) := by
  induction h with
  | root h hp =>
    obtain ⟨node', hn, hs⟩ := hk _ _ h
    refine ⟨.root hn (hs.parent.trans hp), ?_⟩
    simp only [pathMarkings, List.map_cons, hk.markingAt h, List.map_nil]
  | child h hp _ ih =>
    obtain ⟨node', hn, hs⟩ := hk _ _ h
    refine ⟨.child hn (hs.parent.trans hp) ih.1, ?_⟩
    have hpath := ih.2
    simp only [pathMarkings, List.reverse_inj] at hpath ⊢
    rw [List.map_cons, hpath, hk.markingAt h, ← List.map_cons]

lemma Lineage.lt_size {above : List ℕ} (h : Lineage nodes i above) : ∀ k ∈ i :: above, k < nodes.size := by
  induction h with
  | root hn _ => simpa using (Array.getElem?_eq_some_iff.mp hn).1
  | child hn _ _ ih => exact List.forall_mem_cons.mpr ⟨(Array.getElem?_eq_some_iff.mp hn).1, ih⟩

lemma Lineage.exists_node {above : List ℕ} (h : Lineage nodes i above) :
    ∃ node : Node, nodes[i]? = some node := by
  cases h with
  | root hn _ | child hn _ _ => exact ⟨_, hn⟩

lemma Lineage.unique {above above' : List ℕ} (h : Lineage nodes i above) (h' : Lineage nodes i above') :
    above = above' := by
  induction h generalizing above' with
  | root h hp =>
    cases h' with
    | root _ _ => rfl
    | child h' hp' _ =>
      cases h.symm.trans h'
      simp [hp] at hp'
  | child h hp _ ih =>
    cases h' with
    | root h' hp' =>
      cases h.symm.trans h'
      simp [hp] at hp'
    | child h' hp' ha' =>
      cases h.symm.trans h'
      cases hp.symm.trans hp'
      rw [ih ha']

/-- Node `parent` gives rise to `child` by firing transition `t` and accelerating over its path. -/
structure Begets (net : Net) (nodes : Array Node) (parent t : ℕ) (child : Node) : Prop where
  parent_eq : child.parent = some parent
  transition_eq : child.transition = some t
  transition_lt : t < net.transitionCount
  marking : ∃ above successor, Lineage nodes parent above ∧
    net.fire (markingAt nodes parent) t = .ok successor ∧
    child.marking = successor.accelerate (pathMarkings nodes (parent :: above)) ∧
    child.depth = above.length + 1

lemma Begets.transitionAt {net : Net} {parent : ℕ} (h : Begets net nodes parent t node)
    (hn : nodes[i]? = some node) : transitionAt nodes i = some t :=
  (transitionAt_of_getElem? hn).trans h.transition_eq

lemma Begets.keeps {net : Net} {parent : ℕ} {child child' : Node} (h : Begets net old parent t child)
    (hk : Keeps old new) (hs : child'.SameOrigin child) : Begets net new parent t child' := by
  obtain ⟨above, successor, hl, hfire, hm, hd⟩ := h.marking
  obtain ⟨hl', hpath⟩ := hl.keeps hk
  have hmarking : markingAt new parent = markingAt old parent := by
    cases hl with
    | root h _ => exact hk.markingAt h
    | child h _ _ => exact hk.markingAt h
  refine ⟨hs.parent.trans h.parent_eq, hs.transition.trans h.transition_eq, h.transition_lt,
    above, successor, hl', ?_, ?_, hs.depth.trans hd⟩
  · rw [hmarking, hfire]
  · rw [hs.marking, hm, hpath]

/-- All nodes but the root were begot by an earlier node, and every duplicate repeats the marking of an
earlier node that is none. -/
structure Grown (net : Net) (initial : Marking) (nodes : Array Node) : Prop where
  root : ∃ node : Node, nodes[0]? = some node ∧ node.SameOrigin
    { transition := none, marking := initial, parent := none, children := [], kind := .interior, depth := 0 }
  born : ∀ (i : ℕ) (node : Node), nodes[i]? = some node → 0 < i →
    ∃ parent t, parent < i ∧ Begets net nodes parent t node
  twin : ∀ (i : ℕ) (node : Node) (j : ℕ), nodes[i]? = some node → node.kind = .duplicate j →
    j < i ∧ ∃ twin : Node, nodes[j]? = some twin ∧ twin.marking = node.marking ∧ twin.kind.isDuplicate = false

/-- A change that keeps all nodes and adds only nodes that belong there. -/
lemma Grown.keeps {net : Net} {initial : Marking} (h : Grown net initial old) (hk : Keeps old new)
    (hnew : ∀ (i : ℕ) (node : Node), old.size ≤ i → new[i]? = some node →
      (∃ parent t, parent < i ∧ Begets net new parent t node) ∧
      ∀ j, node.kind = .duplicate j → j < i ∧
        ∃ twin : Node, new[j]? = some twin ∧ twin.marking = node.marking ∧ twin.kind.isDuplicate = false) :
    Grown net initial new := by
  refine ⟨?_, fun i node hn hpos => ?_, fun i node j hn hj => ?_⟩
  · obtain ⟨node, hn, hs⟩ := h.root
    obtain ⟨node', hn', hs'⟩ := hk 0 node hn
    exact ⟨node', hn', hs'.transition.trans hs.transition, hs'.marking.trans hs.marking,
      hs'.parent.trans hs.parent, hs'.depth.trans hs.depth,
      fun j => (hs'.duplicate j).trans (hs.duplicate j)⟩
  · by_cases hi : i < old.size
    · obtain ⟨before, hb, hs⟩ := hk.exists_old hi hn
      obtain ⟨parent, t, hlt, hbegets⟩ := h.born i before hb hpos
      exact ⟨parent, t, hlt, hbegets.keeps hk hs⟩
    · exact (hnew i node (Nat.not_lt.mp hi) hn).1
  · by_cases hi : i < old.size
    · obtain ⟨before, hb, hs⟩ := hk.exists_old hi hn
      obtain ⟨hlt, twin, ht, hm, hd⟩ := h.twin i before j hb ((hs.duplicate j).mp hj)
      obtain ⟨twin', ht', hs'⟩ := hk j twin ht
      exact ⟨hlt, twin', ht', by rw [hs'.marking, hm, hs.marking], by rw [hs'.isDuplicate, hd]⟩
    · exact (hnew i node (Nat.not_lt.mp hi) hn).2 j hj

section Grown

variable {net : Net} {initial m : Marking} {parent : ℕ} {above : List ℕ}

lemma Grown.size_pos (h : Grown net initial nodes) : 0 < nodes.size := by
  obtain ⟨root, hr, -⟩ := h.root
  exact (Array.getElem?_eq_some_iff.mp hr).1

lemma Grown.eq_zero_of_parent_eq_none (h : Grown net initial nodes) (hn : nodes[i]? = some node)
    (hp : node.parent = none) : i = 0 := by
  by_contra hi
  obtain ⟨parent, t, -, hb⟩ := h.born i node hn (Nat.pos_of_ne_zero hi)
  rw [hb.parent_eq] at hp
  contradiction

lemma Grown.sameOrigin_root (h : Grown net initial nodes) (hn : nodes[i]? = some node)
    (hp : node.parent = none) : node.SameOrigin
      { transition := none, marking := initial, parent := none, children := [], kind := .interior, depth := 0 } := by
  obtain rfl := h.eq_zero_of_parent_eq_none hn hp
  obtain ⟨root, hr, hs⟩ := h.root
  cases hn.symm.trans hr
  exact hs

lemma Grown.markingAt_twin (h : Grown net initial nodes) (hn : nodes[i]? = some node) {j : ℕ}
    (hj : node.kind = .duplicate j) : markingAt nodes j = node.marking := by
  obtain ⟨-, twin, htwin, hm, -⟩ := h.twin i node j hn hj
  exact (markingAt_of_getElem? htwin).trans hm

lemma Grown.begets (h : Grown net initial nodes) (hn : nodes[i]? = some node)
    (hp : node.parent = some parent) : parent < i ∧ ∃ t, Begets net nodes parent t node := by
  rcases Nat.eq_zero_or_pos i with rfl | hpos
  · obtain ⟨root, hr, hs⟩ := h.root
    cases hn.symm.trans hr
    rw [hs.parent] at hp
    contradiction
  · obtain ⟨parent', t, hlt, hb⟩ := h.born i node hn hpos
    cases hp.symm.trans hb.parent_eq
    exact ⟨hlt, t, hb⟩

lemma Grown.exists_transitionAt (h : Grown net initial nodes) (hp : parentAt nodes i = some parent) :
    ∃ t, transitionAt nodes i = some t := by
  obtain ⟨node, hn, hparent⟩ := Option.bind_eq_some_iff.mp hp
  obtain ⟨-, t, hb⟩ := h.begets hn hparent
  exact ⟨t, hb.transitionAt hn⟩

lemma Grown.exists_lineage (h : Grown net initial nodes) (hn : nodes[i]? = some node) :
    ∃ above, Lineage nodes i above := by
  cases hp : node.parent with
  | none => exact ⟨[], .root hn hp⟩
  | some parent =>
    obtain ⟨-, t, hb⟩ := h.begets hn hp
    obtain ⟨above, -, hl, -⟩ := hb.marking
    exact ⟨parent :: above, .child hn hp hl⟩

lemma Grown.lineage_of_keeps (h : Grown net initial old) (hk : Keeps old new) (hi : i < old.size)
    (hl : Lineage new i above) : Lineage old i above := by
  obtain ⟨above', hl'⟩ := h.exists_lineage (Array.getElem?_eq_getElem hi)
  rwa [hl.unique (hl'.keeps hk).1]

lemma Grown.lt_of_mem_lineage (h : Grown net initial nodes) (hl : Lineage nodes i above) {j : ℕ}
    (hj : j ∈ above) : j < i := by
  induction hl with
  | root _ _ => simp at hj
  | child hn hp _ ih =>
    have hlt := (h.begets hn hp).1
    rcases List.mem_cons.mp hj with rfl | hj
    · exact hlt
    · exact Nat.lt_trans (ih hj) hlt

lemma Grown.transition_eq_none (h : Grown net initial nodes) (hl : Lineage nodes i [])
    (hn : nodes[i]? = some node) : node.transition = none := by
  cases hl with
  | root hn' hp =>
    cases hn.symm.trans hn'
    exact (h.sameOrigin_root hn hp).transition

/-- The depth of a node is the number of its proper ancestors. -/
lemma Grown.depth_eq (h : Grown net initial nodes) (hl : Lineage nodes i above) (hn : nodes[i]? = some node) :
    node.depth = above.length := by
  cases hl with
  | root hn' hp =>
    cases hn.symm.trans hn'
    exact (h.sameOrigin_root hn hp).depth
  | child hn' hp hl =>
    cases hn.symm.trans hn'
    obtain ⟨-, t, hb⟩ := h.begets hn hp
    obtain ⟨above', successor, hl', -, -, hdepth⟩ := hb.marking
    rw [hdepth, hl.unique hl', List.length_cons]

lemma Grown.dimension (h : Grown net initial nodes) (hn : nodes[i]? = some node) :
    node.marking.dimension = initial.dimension := by
  obtain ⟨above, hl⟩ := h.exists_lineage hn
  induction hl generalizing node with
  | root hn' hp =>
    cases hn.symm.trans hn'
    rw [(h.sameOrigin_root hn hp).marking]
  | child hn' hp hl' ih =>
    cases hn.symm.trans hn'
    obtain ⟨-, t, hb⟩ := h.begets hn hp
    obtain ⟨above, successor, hl, hfire, hm, -⟩ := hb.marking
    rw [hm, Marking.dimension_accelerate, Net.dimension_fire hfire]
    cases hl with
    | root hparent _ | child hparent _ _ => rw [markingAt_of_getElem? hparent, ih hparent]

lemma Grown.dimension_of_mem_path (h : Grown net initial nodes) (hl : Lineage nodes i above)
    (hm : m ∈ pathMarkings nodes (i :: above)) : m.dimension = initial.dimension := by
  rw [pathMarkings, List.mem_reverse, List.mem_map] at hm
  obtain ⟨j, hj, rfl⟩ := hm
  induction hl with
  | root hn _ =>
    rw [List.mem_singleton.mp hj, markingAt_of_getElem? hn, h.dimension hn]
  | child hn _ _ ih =>
    rcases List.mem_cons.mp hj with rfl | hj
    · rw [markingAt_of_getElem? hn, h.dimension hn]
    · exact ih hj

/-- A node carries what its transition makes of the parent's marking, accelerated over the parent's path. -/
lemma Grown.exists_successor (h : Grown net initial nodes) (hn : nodes[i]? = some node)
    (hp : node.parent = some parent) (hl : Lineage nodes parent above) :
    ∃ t successor, node.transition = some t ∧ net.fire (markingAt nodes parent) t = .ok successor ∧
      node.marking = successor.accelerate (pathMarkings nodes (parent :: above)) ∧
      ∀ ancestor ∈ pathMarkings nodes (parent :: above), ancestor.dimension = successor.dimension := by
  obtain ⟨-, t, hb⟩ := h.begets hn hp
  obtain ⟨above', successor, hl', hfire, hm, -⟩ := hb.marking
  cases hl.unique hl'
  refine ⟨t, successor, hb.transition_eq, hfire, hm, fun ancestor ha => ?_⟩
  obtain ⟨parentNode, hparent⟩ := hl.exists_node
  rw [h.dimension_of_mem_path hl ha, Net.dimension_fire hfire, markingAt_of_getElem? hparent,
    h.dimension hparent]

end Grown

/-- The children of `node`, which is node `i`, are those for the transitions below `bound` that are
enabled in its marking, one for each and in order. -/
structure Expanded (net : Net) (nodes : Array Node) (i : ℕ) (node : Node) (bound : ℕ) : Prop where
  transitions : node.children.map (transitionAt nodes) =
    ((List.range bound).filter (net.isEnabled node.marking · = .ok true)).map some
  parent : ∀ c ∈ node.children, parentAt nodes c = some i

lemma expanded_zero {net : Net} (h : node.children = []) : Expanded net nodes i node 0 := by
  constructor
  · rw [h]
    rfl
  · intro c hc
    rw [h] at hc
    contradiction

lemma Expanded.keeps {net : Net} {node' : Node} {bound : ℕ} (h : Expanded net old i node bound)
    (hk : Keeps old new) (hm : node'.marking = node.marking) (hc : node'.children = node.children) :
    Expanded net new i node' bound := by
  refine ⟨?_, fun c hmem => hk.parentAt (h.parent c (hc ▸ hmem))⟩
  rw [hm, hc, ← h.transitions]
  apply List.map_congr_left
  intro c hmem
  have hsome : transitionAt old c ∈ node.children.map (transitionAt old) := List.mem_map_of_mem hmem
  rw [h.transitions] at hsome
  obtain ⟨u, -, hu⟩ := List.mem_map.mp hsome
  rw [← hu, hk.transitionAt hu.symm]

lemma Expanded.skip {net : Net} {bound : ℕ} (h : Expanded net nodes i node bound)
    (hnot : net.isEnabled node.marking bound ≠ .ok true) : Expanded net nodes i node (bound + 1) := by
  refine ⟨?_, h.parent⟩
  rw [h.transitions, List.range_succ, List.filter_append]
  simp [hnot]

lemma Expanded.append {net : Net} {bound child : ℕ} (h : Expanded net nodes i node bound)
    (henabled : net.isEnabled node.marking bound = .ok true) (ht : transitionAt nodes child = some bound)
    (hp : parentAt nodes child = some i) :
    Expanded net nodes i { node with children := node.children ++ [child] } (bound + 1) := by
  constructor
  · rw [List.map_append, h.transitions, List.range_succ, List.filter_append, List.map_append]
    simp [henabled, ht]
  · intro c hc
    rcases List.mem_append.mp hc with hc | hc
    · exact h.parent c hc
    · rwa [List.mem_singleton.mp hc]

end Coverability
