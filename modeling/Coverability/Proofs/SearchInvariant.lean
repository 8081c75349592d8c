import Coverability.Proofs.ExactFiring
import Coverability.Proofs.Lineage
import Coverability.Proofs.SearchStates

/-!
# The invariant of a search

In every state of a search the stack is the path from the node that is being expanded to the root. A node on
it has its children for the transitions tried so far, and every other node that is no duplicate has
all of its children. `Search.Through.invariant` states this for all states, and
`Search.complete_of_explore` for the nodes of a search that succeeds.
-/

namespace Coverability

/-- The frame stands for an inner node, whose ancestors are the nodes of the frames below it and whose
children for the transitions before the next one are there. -/
structure Frame.Fits (net : Net) (nodes : Array Node) (frame : Frame) (below : List Frame) : Prop where
  node : ∃ node, nodes[frame.node]? = some node ∧ node.marking = frame.marking ∧
    node.kind = .interior ∧ Expanded net nodes frame.node node frame.next
  lineage : Lineage nodes frame.node (below.map Frame.node)
  next_le : frame.next ≤ net.transitionCount

/-- Every frame fits with the frames below it. -/
def StackFits (net : Net) (nodes : Array Node) : List Frame → Prop
  | [] => True
  | frame :: below => frame.Fits net nodes below ∧ StackFits net nodes below

/-- A node with all of its children, which is dead if it has none. -/
structure Finished (net : Net) (nodes : Array Node) (i : ℕ) (node : Node) : Prop where
  expanded : Expanded net nodes i node net.transitionCount
  kind_eq : node.kind = if node.children = [] then .dead else .interior

/-- What holds in every state of a search from `initial`. -/
structure SearchState.Invariant (net : Net) (initial : Marking) (state : SearchState) : Prop where
  grown : Grown net initial state.nodes
  stack : StackFits net state.nodes state.stack
  finished : ∀ (i : ℕ) (node : Node), state.nodes[i]? = some node → node.kind.isDuplicate = false →
    i ∉ state.stack.map Frame.node → Finished net state.nodes i node
  unexpanded : ∀ (i : ℕ) (node : Node), state.nodes[i]? = some node → node.kind.isDuplicate = true →
    node.children = []
  seen : ∀ (m : Marking) (i : ℕ), state.seen[m]? = some i →
    ∃ node : Node, state.nodes[i]? = some node ∧ node.marking = m ∧ node.kind.isDuplicate = false

section Nodes

variable {net : Net} {initial : Marking} {old new nodes : Array Node} {stack : List Frame}

lemma StackFits.exists_fits (h : StackFits net nodes stack) {frame : Frame} (hf : frame ∈ stack) :
    ∃ below, frame.Fits net nodes below := by
  induction stack with
  | nil => contradiction
  | cons first below ih =>
    rcases List.mem_cons.mp hf with rfl | hf
    · exact ⟨below, h.1⟩
    · exact ih h.2 hf

lemma StackFits.exists_node (h : StackFits net nodes stack) {frame : Frame} (hf : frame ∈ stack) :
    ∃ node : Node, nodes[frame.node]? = some node ∧ node.marking = frame.marking ∧ node.kind = .interior := by
  obtain ⟨below, ⟨node, hn, hm, hkind, -⟩, -⟩ := h.exists_fits hf
  exact ⟨node, hn, hm, hkind⟩

lemma StackFits.node_lt (h : StackFits net nodes stack) {frame : Frame} (hf : frame ∈ stack) :
    frame.node < nodes.size := by
  obtain ⟨node, hn, -⟩ := h.exists_node hf
  exact (Array.getElem?_eq_some_iff.mp hn).1

/-- Frames keep fitting if their nodes stay as they are. -/
lemma StackFits.keeps (h : StackFits net old stack) (hk : Keeps old new)
    (hsame : ∀ frame ∈ stack, new[frame.node]? = old[frame.node]?) : StackFits net new stack := by
  induction stack with
  | nil => trivial
  | cons frame below ih =>
    obtain ⟨hframe, hbelow⟩ := List.forall_mem_cons.mp hsame
    obtain ⟨node, hn, hm, hkind, he⟩ := h.1.node
    refine ⟨⟨⟨node, hframe.trans hn, hm, hkind, he.keeps hk rfl rfl⟩, (h.1.lineage.keeps hk).1,
      h.1.next_le⟩, ih h.2 hbelow⟩

/-- The markings on the stack are those of the path, from the node on top to the root. -/
lemma StackFits.pathMarkings_eq (h : StackFits net nodes stack) :
    pathMarkings nodes (stack.map Frame.node) = (stack.map Frame.marking).reverse := by
  rw [pathMarkings, List.reverse_inj, List.map_map]
  induction stack with
  | nil => rfl
  | cons frame below ih =>
    obtain ⟨node, hn, hm, -⟩ := h.1.node
    rw [List.map_cons, List.map_cons, ih h.2, Function.comp_apply, markingAt_of_getElem? hn, hm]

end Nodes

/-- The node when all of its transitions have been tried. -/
def Node.left (node : Node) : Node :=
  if node.isLeaf then { node with kind := .dead } else node

namespace Node

variable {node : Node}

lemma children_left : node.left.children = node.children := by
  unfold left
  split <;> rfl

lemma marking_left : node.left.marking = node.marking := by
  unfold left
  split <;> rfl

lemma kind_left (h : node.kind = .interior) :
    node.left.kind = if node.left.children = [] then .dead else .interior := by
  rw [children_left]
  by_cases hc : node.children = [] <;> simp [left, isLeaf, hc, h]

lemma sameOrigin_left (h : node.kind = .interior) : node.left.SameOrigin node := by
  unfold left
  split
  · exact ⟨rfl, rfl, rfl, rfl, by simp [h]⟩
  · exact .refl _

end Node

namespace SearchState

variable {net : Net} {initial : Marking} {state : SearchState} {frame : Frame} {below : List Frame}

lemma Invariant.stackFits (h : state.Invariant net initial) {stack : List Frame}
    (hs : state.stack = stack) : StackFits net state.nodes stack :=
  hs ▸ h.stack

lemma Invariant.ne_of_mem_below (h : state.Invariant net initial) (hs : state.stack = frame :: below) :
    ∀ other ∈ below, other.node ≠ frame.node := by
  intro other ho
  have hlineage := (h.stackFits hs).1.lineage
  exact (h.grown.lt_of_mem_lineage hlineage (List.mem_map_of_mem ho)).ne

lemma getElem?_leave (i : ℕ) : (state.leave frame below).nodes[i]? =
    if frame.node = i then state.nodes[i]?.map Node.left else state.nodes[i]? :=
  Array.getElem?_modify

/-- The node that is appended for the next transition of `frame`. -/
def created (frame : Frame) (below : List Frame) (m : Marking) (d : Option ℕ) : Node where
  transition := some frame.next
  marking := m
  parent := some frame.node
  children := []
  kind := match d with
    | some other => .duplicate other
    | none => .interior
  depth := below.length + 1

lemma nodes_create (m : Marking) (d : Option ℕ) : (state.create frame below m d).nodes =
    (state.nodes.modify frame.node fun parent =>
      { parent with children := parent.children ++ [state.nodes.size] }).push
        (created frame below m d) := by
  cases d <;> rfl

lemma getElem?_create {m : Marking} {d : Option ℕ} {i : ℕ} (hi : i < state.nodes.size) :
    (state.create frame below m d).nodes[i]? =
      if frame.node = i then state.nodes[i]?.map fun node =>
        { node with children := node.children ++ [state.nodes.size] }
      else state.nodes[i]? := by
  rw [nodes_create, Array.getElem?_push_lt (by simpa using hi), ← Array.getElem?_eq_getElem,
    Array.getElem?_modify]

lemma getElem?_create_size (m : Marking) (d : Option ℕ) :
    (state.create frame below m d).nodes[state.nodes.size]? = some (created frame below m d) := by
  rw [nodes_create, Array.getElem?_push, Array.size_modify, if_pos rfl]

lemma size_create (m : Marking) (d : Option ℕ) :
    (state.create frame below m d).nodes.size = state.nodes.size + 1 := by
  rw [nodes_create]
  simp

lemma size_leave : (state.leave frame below).nodes.size = state.nodes.size :=
  Array.size_modify

lemma keeps_leave {node : Node} (hn : state.nodes[frame.node]? = some node)
    (hkind : node.kind = .interior) : Keeps state.nodes (state.leave frame below).nodes := by
  intro i old ho
  rw [getElem?_leave]
  split
  · next he =>
    subst he
    cases hn.symm.trans ho
    exact ⟨node.left, by rw [hn]; rfl, Node.sameOrigin_left hkind⟩
  · exact ⟨old, ho, .refl _⟩

lemma keeps_create (m : Marking) (d : Option ℕ) :
    Keeps state.nodes (state.create frame below m d).nodes := by
  intro i old ho
  rw [getElem?_create (Array.getElem?_eq_some_iff.mp ho).1]
  split
  · rw [ho]
    exact ⟨_, rfl, rfl, rfl, rfl, rfl, fun _ => Iff.rfl⟩
  · exact ⟨old, ho, .refl _⟩

lemma Invariant.seen_keeps (h : state.Invariant net initial) {new : Array Node}
    (hk : Keeps state.nodes new) {m : Marking} {i : ℕ} (hm : state.seen[m]? = some i) :
    ∃ node : Node, new[i]? = some node ∧ node.marking = m ∧ node.kind.isDuplicate = false := by
  obtain ⟨node, hn, he, hd⟩ := h.seen m i hm
  obtain ⟨node', hn', hs⟩ := hk i node hn
  exact ⟨node', hn', hs.marking.trans he, hs.isDuplicate.trans hd⟩

lemma Invariant.leave_keeps (h : state.Invariant net initial) (hs : state.stack = frame :: below) :
    Keeps state.nodes (state.leave frame below).nodes := by
  obtain ⟨node, hn, -, hkind⟩ := h.stack.exists_node (hs ▸ List.mem_cons_self)
  exact keeps_leave hn hkind

/-- At first there is only the root. -/
lemma eq_root_of_getElem?_start {i : ℕ} {node : Node} (hn : (start initial).nodes[i]? = some node) :
    i = 0 ∧ node =
      { transition := none, marking := initial, parent := none, children := [], kind := .interior,
        depth := 0 } := by
  obtain ⟨hi, rfl⟩ := Array.getElem?_eq_some_iff.mp hn
  have hi0 : i = 0 := Nat.lt_one_iff.mp hi
  subst hi0
  exact ⟨rfl, rfl⟩

theorem invariant_start : (start initial).Invariant net initial := by
  refine ⟨⟨⟨_, rfl, .refl _⟩, ?_, ?_⟩, ⟨⟨⟨_, rfl, rfl, rfl, expanded_zero rfl⟩, .root rfl rfl, Nat.zero_le _⟩,
    trivial⟩, ?_, ?_, ?_⟩
  · intro i node hn hpos
    exact absurd (eq_root_of_getElem?_start hn).1 hpos.ne'
  · intro i node j hn hj
    rw [(eq_root_of_getElem?_start hn).2] at hj
    contradiction
  · intro i node hn _ hnot
    exact absurd (by simp [start, (eq_root_of_getElem?_start hn).1]) hnot
  · intro i node hn hdup
    rw [(eq_root_of_getElem?_start hn).2]
  · intro m i hm
    simp only [start, Std.HashMap.getElem?_insert] at hm
    split at hm
    · next he =>
      cases hm
      exact ⟨_, rfl, eq_of_beq he, rfl⟩
    · simp at hm

/-- A node that has been left has all of its children. -/
theorem Invariant.leave (h : state.Invariant net initial) (hs : state.stack = frame :: below)
    (hle : net.transitionCount ≤ frame.next) : (state.leave frame below).Invariant net initial := by
  have hne := h.ne_of_mem_below hs
  obtain ⟨⟨⟨node, hn, hm, hkind, hexp⟩, hlineage, hnext⟩, hbelow⟩ := h.stackFits hs
  have hk : Keeps state.nodes (state.leave frame below).nodes := keeps_leave hn hkind
  refine ⟨h.grown.keeps hk ?_, hbelow.keeps hk ?_, ?_, ?_, fun m i hm => h.seen_keeps hk hm⟩
  · intro i new hi hnew
    simp [SearchState.leave, hi] at hnew
  · intro other ho
    rw [getElem?_leave, if_neg (hne other ho).symm]
  · intro i new hnew hdup hnot
    rw [getElem?_leave] at hnew
    split at hnew
    · next he =>
      subst he
      rw [hn] at hnew
      cases hnew
      rw [Nat.le_antisymm hnext hle] at hexp
      exact ⟨hexp.keeps hk Node.marking_left Node.children_left, Node.kind_left hkind⟩
    · next hi =>
      obtain ⟨hexp', hkind'⟩ := h.finished i new hnew hdup (by
        rw [hs, List.map_cons, List.mem_cons, not_or]
        exact ⟨Ne.symm hi, hnot⟩)
      exact ⟨hexp'.keeps hk rfl rfl, hkind'⟩
  · intro i new hnew hdup
    rw [getElem?_leave] at hnew
    split at hnew
    · next he =>
      subst he
      rw [hn] at hnew
      cases hnew
      rw [(Node.sameOrigin_left hkind).isDuplicate, hkind] at hdup
      contradiction
    · exact h.unexpanded i new hnew hdup

theorem Invariant.skip (h : state.Invariant net initial) (hs : state.stack = frame :: below)
    (hlt : frame.next < net.transitionCount)
    (hnot : net.isEnabled frame.marking frame.next ≠ .ok true) :
    (state.skip frame below).Invariant net initial := by
  obtain ⟨⟨⟨node, hn, hm, hkind, hexp⟩, hlineage, -⟩, hbelow⟩ := h.stackFits hs
  refine ⟨h.grown, ⟨⟨⟨node, hn, hm, hkind, hexp.skip (hm ▸ hnot)⟩, hlineage, hlt⟩, hbelow⟩, ?_,
    h.unexpanded, h.seen⟩
  intro i other ho hdup hmem
  refine h.finished i other ho hdup ?_
  rw [hs]
  exact hmem

lemma Invariant.begets_created (h : state.Invariant net initial) (hs : state.stack = frame :: below)
    (hlt : frame.next < net.transitionCount) {successor : Marking}
    (hfire : net.fire frame.marking frame.next = .ok successor) (d : Option ℕ) :
    Begets net state.nodes frame.node frame.next
      (created frame below (successor.accelerate state.path) d) := by
  obtain ⟨⟨node, hn, hm, -⟩, hlineage, -⟩ := (h.stackFits hs).1
  have hpath := (h.stackFits hs).pathMarkings_eq
  refine ⟨rfl, rfl, hlt, below.map Frame.node, successor, hlineage, ?_, ?_, ?_⟩
  · rw [markingAt_of_getElem? hn, hm, hfire]
  · rw [← List.map_cons, hpath, ← hs]
    rfl
  · rw [List.length_map]
    rfl

lemma Invariant.lineage_created (h : state.Invariant net initial) (hs : state.stack = frame :: below)
    (m : Marking) (d : Option ℕ) : Lineage (state.create frame below m d).nodes state.nodes.size
      ((frame :: below).map Frame.node) :=
  .child (getElem?_create_size m d) rfl ((h.stackFits hs).1.lineage.keeps (keeps_create m d)).1

/-- The path of the new node carries the markings on the stack. -/
lemma Invariant.map_markingAt_create (h : state.Invariant net initial) (hs : state.stack = frame :: below)
    (m : Marking) (d : Option ℕ) :
    ((frame :: below).map Frame.node).map (markingAt (state.create frame below m d).nodes) =
      (frame :: below).map Frame.marking := by
  have hk : Keeps state.nodes (state.create frame below m d).nodes := keeps_create m d
  have hpath := (h.stackFits hs).pathMarkings_eq
  have hkeeps := ((h.stackFits hs).1.lineage.keeps hk).2
  rw [← List.map_cons] at hkeeps
  rw [← hkeeps, pathMarkings, List.reverse_inj] at hpath
  exact hpath

lemma lt_or_eq_created {m : Marking} {d : Option ℕ} {i : ℕ} {node : Node}
    (hn : (state.create frame below m d).nodes[i]? = some node) :
    i < state.nodes.size ∨ i = state.nodes.size ∧ node = created frame below m d := by
  have hi := (Array.getElem?_eq_some_iff.mp hn).1
  rw [size_create] at hi
  rcases Nat.lt_succ_iff_lt_or_eq.mp hi with hi | rfl
  · exact .inl hi
  · rw [getElem?_create_size] at hn
    exact .inr ⟨rfl, (Option.some.inj hn).symm⟩

lemma mem_stack_create {m : Marking} {d : Option ℕ} {i : ℕ} :
    i ∈ (state.create frame below m d).stack.map Frame.node ↔
      d = none ∧ i = state.nodes.size ∨ i = frame.node ∨ i ∈ below.map Frame.node := by
  cases d <;> simp [SearchState.create, Frame.advance]

/-- The parent has the new node as its child for the transition that has been tried. -/
lemma Invariant.stackFits_advance (h : state.Invariant net initial) (hs : state.stack = frame :: below)
    (hlt : frame.next < net.transitionCount)
    (henabled : net.isEnabled frame.marking frame.next = .ok true) (m : Marking) (d : Option ℕ) :
    StackFits net (state.create frame below m d).nodes (frame.advance :: below) := by
  have hk : Keeps state.nodes (state.create frame below m d).nodes := keeps_create m d
  have hlast : (state.create frame below m d).nodes[state.nodes.size]? = some (created frame below m d) :=
    getElem?_create_size m d
  have htransition : transitionAt (state.create frame below m d).nodes state.nodes.size = some frame.next := by
    simp [transitionAt, hlast, created]
  have hparent : parentAt (state.create frame below m d).nodes state.nodes.size = some frame.node := by
    simp [parentAt, hlast, created]
  have hne := h.ne_of_mem_below hs
  have hsize : ∀ other ∈ frame :: below, other.node < state.nodes.size := fun _ => (h.stackFits hs).node_lt
  obtain ⟨⟨⟨node, hn, hmarking, hkind, hexp⟩, hlineage, -⟩, hbelow⟩ := h.stackFits hs
  have hexp' := (hexp.keeps hk rfl rfl).append (hmarking ▸ henabled) htransition hparent
  refine ⟨⟨⟨{ node with children := node.children ++ [state.nodes.size] }, ?_, hmarking, hkind, hexp'⟩,
    (hlineage.keeps hk).1, hlt⟩, hbelow.keeps hk ?_⟩
  · rw [Frame.advance, getElem?_create (hsize frame List.mem_cons_self), if_pos rfl, hn]
    rfl
  · intro other ho
    rw [getElem?_create (hsize other (List.mem_cons_of_mem frame ho)), if_neg (hne other ho).symm]

lemma Invariant.grown_create (h : state.Invariant net initial) (hs : state.stack = frame :: below)
    (hlt : frame.next < net.transitionCount) {successor m : Marking}
    (hfire : net.fire frame.marking frame.next = .ok successor)
    (hm : m = successor.accelerate state.path) {d : Option ℕ}
    (htwin : ∀ j, d = some j → ∃ twin : Node, state.nodes[j]? = some twin ∧ twin.marking = m ∧
      twin.kind.isDuplicate = false) : Grown net initial (state.create frame below m d).nodes := by
  have hk : Keeps state.nodes (state.create frame below m d).nodes := keeps_create m d
  have hbegets := (h.begets_created hs hlt hfire d).keeps hk (.refl _)
  rw [← hm] at hbegets
  refine h.grown.keeps hk fun i new hi hnew => ?_
  obtain ⟨rfl, rfl⟩ := (lt_or_eq_created hnew).resolve_left (Nat.not_lt.mpr hi)
  refine ⟨⟨frame.node, frame.next, (h.stackFits hs).node_lt List.mem_cons_self, hbegets⟩, fun j hj => ?_⟩
  cases d with
  | none => contradiction
  | some other =>
    cases hj
    obtain ⟨twin, ht, htm, hdup⟩ := htwin j rfl
    obtain ⟨twin', ht', hsame⟩ := hk j twin ht
    exact ⟨(Array.getElem?_eq_some_iff.mp ht).1, twin', ht', hsame.marking.trans htm,
      hsame.isDuplicate.trans hdup⟩

/-- A transition that is enabled gets a child, which is expanded next unless it is a duplicate. -/
theorem Invariant.create (h : state.Invariant net initial) (hs : state.stack = frame :: below)
    (hlt : frame.next < net.transitionCount)
    (henabled : net.isEnabled frame.marking frame.next = .ok true) {successor m : Marking}
    (hfire : net.fire frame.marking frame.next = .ok successor)
    (hm : m = successor.accelerate state.path) {d : Option ℕ}
    (htwin : ∀ j, d = some j → ∃ twin : Node, state.nodes[j]? = some twin ∧ twin.marking = m ∧
      twin.kind.isDuplicate = false) :
    (state.create frame below m d).Invariant net initial := by
  have hk : Keeps state.nodes (state.create frame below m d).nodes := keeps_create m d
  have hlast : (state.create frame below m d).nodes[state.nodes.size]? = some (created frame below m d) :=
    getElem?_create_size m d
  have hadvance := h.stackFits_advance hs hlt henabled m d
  refine ⟨h.grown_create hs hlt hfire hm htwin, ?_, ?_, ?_, ?_⟩
  · -- only a child that is no duplicate is pushed
    cases d with
    | some other => exact hadvance
    | none =>
      have hlineage := hadvance.1.lineage
      exact ⟨⟨⟨_, hlast, rfl, rfl, expanded_zero rfl⟩, .child hlast rfl hlineage, Nat.zero_le _⟩, hadvance⟩
  · -- nodes off the stack were finished before, since the new node is on the stack or a duplicate
    intro i new hnew hdup hnot
    rw [mem_stack_create, not_or, not_or] at hnot
    obtain ⟨hlastnot, hi, hnotbelow⟩ := hnot
    rcases lt_or_eq_created hnew with hlt' | ⟨rfl, rfl⟩
    · rw [getElem?_create hlt', if_neg (Ne.symm hi)] at hnew
      obtain ⟨hexp', hkind'⟩ := h.finished i new hnew hdup (by
        rw [hs, List.map_cons, List.mem_cons, not_or]
        exact ⟨hi, hnotbelow⟩)
      exact ⟨hexp'.keeps hk rfl rfl, hkind'⟩
    · cases d with
      | none => exact absurd ⟨rfl, rfl⟩ hlastnot
      | some other => contradiction
  · intro i new hnew hdup
    rcases lt_or_eq_created hnew with hlt' | ⟨rfl, rfl⟩
    · obtain ⟨node, hn, -, hkind, -⟩ := (h.stackFits hs).1.node
      rw [getElem?_create hlt'] at hnew
      split at hnew
      · next he =>
        subst he
        rw [hn] at hnew
        cases hnew
        rw [hkind] at hdup
        contradiction
      · exact h.unexpanded i new hnew hdup
    · rfl
  · intro m' i hseen
    cases d with
    | some other => exact h.seen_keeps hk hseen
    | none =>
      simp only [SearchState.create, Std.HashMap.getElem?_insert] at hseen
      split at hseen
      · next he =>
        cases hseen
        exact ⟨_, hlast, eq_of_beq he, rfl⟩
      · exact h.seen_keeps hk hseen

end SearchState

namespace Search

variable {search : Search} {initial : Marking} {state : SearchState} {nodes : Array Node}

lemma exists_twin (h : state.Invariant search.net initial) {m : Marking} {j : ℕ}
    (hj : search.duplicateOf? state m = some j) :
    ∃ twin : Node, state.nodes[j]? = some twin ∧ twin.marking = m ∧ twin.kind.isDuplicate = false := by
  unfold duplicateOf? at hj
  split at hj
  · obtain ⟨frame, hf, rfl⟩ := Option.map_eq_some_iff.mp hj
    obtain ⟨node, hn, hm, hkind⟩ := h.stack.exists_node (List.mem_of_find?_eq_some hf)
    refine ⟨node, hn, hm.trans ?_, ?_⟩
    · simpa using List.find?_some hf
    · rw [hkind]
      rfl
  · exact h.seen m j hj

lemma dimension_of_mem_stack (h : state.Invariant search.net initial)
    (hd : initial.dimension = search.net.placeCount) {frame : Frame} (hf : frame ∈ state.stack) :
    frame.marking.dimension = search.net.placeCount := by
  obtain ⟨node, hn, hm, -⟩ := h.stack.exists_node hf
  rw [← hm, h.grown.dimension hn, hd]

theorem Through.invariant (h : search.Through initial state) (hw : search.net.WellFormed)
    (hd : initial.dimension = search.net.placeCount) : state.Invariant search.net initial := by
  induction h with
  | start => exact SearchState.invariant_start
  | @step state next _ hs ih =>
    obtain ⟨frame, below, hstack, hadv⟩ := advances_of_step hs
    have hdim := dimension_of_mem_stack ih hd (hstack ▸ List.mem_cons_self)
    cases hadv with
    | leave hle => exact ih.leave hstack hle
    | skip hlt hfire he =>
      refine ih.skip hstack hlt ?_
      rw [ne_eq, Net.isEnabled_iff hw hdim]
      exact Net.not_enables_of_fire hw hfire he
    | create hlt hfire hsize =>
      exact ih.create hstack hlt ((Net.isEnabled_iff hw hdim).mpr (Net.fires_of_fire hw hfire).enables)
        hfire rfl fun j hj => exists_twin ih hj

/-- What holds at the start of a search and is kept by every step holds in all of its states. -/
theorem Through.preserves {P : SearchState → Prop} (h : search.Through initial state)
    (hw : search.net.WellFormed) (hd : initial.dimension = search.net.placeCount)
    (hstart : P (.start initial))
    (hstep : ∀ (state : SearchState) (frame : Frame) (below : List Frame) (next : SearchState),
      search.Through initial state → state.Invariant search.net initial → state.stack = frame :: below →
      search.Advances state frame below next → P state → P next) : P state := by
  induction h with
  | start => exact hstart
  | step ht hs ih =>
    obtain ⟨frame, below, hstack, hadv⟩ := advances_of_step hs
    exact hstep _ frame below _ ht (ht.invariant hw hd) hstack hadv ih

end Search

/-- The nodes of a search that has ended: every node is a duplicate without children, or has all of its
children. -/
structure Complete (net : Net) (initial : Marking) (nodes : Array Node) : Prop where
  wellFormed : net.WellFormed
  dimension_initial : initial.dimension = net.placeCount
  grown : Grown net initial nodes
  finished : ∀ (i : ℕ) (node : Node), nodes[i]? = some node → node.kind.isDuplicate = false →
    Finished net nodes i node
  unexpanded : ∀ (i : ℕ) (node : Node), nodes[i]? = some node → node.kind.isDuplicate = true →
    node.children = []

lemma Complete.dimension_of_mem {net : Net} {initial : Marking} {nodes : Array Node}
    (h : Complete net initial nodes) {node : Node} (hn : node ∈ nodes) :
    node.marking.dimension = net.placeCount := by
  obtain ⟨i, hi⟩ := Array.mem_iff_getElem?.mp hn
  exact (h.grown.dimension hi).trans h.dimension_initial

theorem Search.complete_of_explore {search : Search} {initial : Marking} {nodes : Array Node}
    (hw : search.net.WellFormed) (h : search.explore initial = .ok nodes) :
    Complete search.net initial nodes := by
  obtain ⟨hd, last, ht, hstack, rfl⟩ := exists_through_of_explore h
  have hinv := ht.invariant hw hd
  refine ⟨hw, hd, hinv.grown, fun i node hn hdup => hinv.finished i node hn hdup ?_, hinv.unexpanded⟩
  rw [hstack]
  exact List.not_mem_nil

theorem Search.exists_nodes_of_build {search : Search} {initial : Marking} {tree : Tree}
    (hw : search.net.WellFormed) (h : search.build initial = .ok tree) :
    ∃ nodes, Complete search.net initial nodes ∧ tree = search.toTree nodes := by
  unfold build at h
  cases he : search.explore initial with
  | error e =>
    rw [he] at h
    contradiction
  | ok nodes =>
    rw [he] at h
    cases h
    exact ⟨nodes, complete_of_explore hw he, rfl⟩

end Coverability
