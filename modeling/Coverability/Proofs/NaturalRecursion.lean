import Coverability.Proofs.BoundedTrees
import Coverability.Proofs.SeenMarkings
import Coverability.Proofs.Subtrees

/-!
# The search as a recursion

`Search.expand` is the search without a stack: it tries the transitions of a node in order, and expands
each new child before it tries the next one. `Search.resume` reads a stack as the work that the recursion
has left to do, and every step of the search leaves the result of that work as it is.
-/

namespace Coverability

/-- A node on a path, with its marking. -/
structure Waypoint where
  node : ℕ
  marking : Marking
deriving DecidableEq, Repr

/-- The nodes with one more at the end, which becomes a child of node `parent`. -/
def attach (nodes : Array Node) (parent : ℕ) (child : Node) : Array Node :=
  (nodes.modify parent fun node => { node with children := node.children ++ [nodes.size] }).push child

/-- The first node with the marking `m` that is no duplicate. -/
def expandedWith? (nodes : Array Node) (m : Marking) : Option ℕ :=
  nodes.findIdx? fun node => !node.kind.isDuplicate && node.marking = m

namespace Search

/-- The node that a child with the marking `m` would repeat: one on the path, or any one that is there. -/
def repeated? (search : Search) (path : List Waypoint) (nodes : Array Node) (m : Marking) : Option ℕ :=
  match search.pruning with
  | .ancestorOnly => (path.find? (·.marking = m)).map Waypoint.node
  | .globalSeen => expandedWith? nodes m

/-- Tries transition `t` on the node `here` at the end of the path. If it fires, the node gets a child,
which is to be expanded unless it is a duplicate. -/
def branch (search : Search) (path : List Waypoint) (here : Waypoint) (nodes : Array Node) (t : ℕ) :
    Except SearchError (Array Node × Option Waypoint) :=
  match search.net.fire here.marking t with
  | .error e => if e.isNotEnabled then .ok (nodes, none) else .error (.net e)
  | .ok successor =>
    let m := successor.accelerate (path.map Waypoint.marking)
    let twin := search.repeated? path nodes m
    match search.maxNodes.filter (· ≤ nodes.size) with
    | some limit => .error (.maxNodesReached limit)
    | none =>
      let child : Node := {
        transition := some t
        marking := m
        parent := some here.node
        children := []
        kind := twin.elim .interior .duplicate
        depth := path.length }
      .ok (attach nodes here.node child, if twin.isSome then none else some ⟨nodes.size, m⟩)

/-- Expands the node `here` at the end of the path: it tries all transitions in order, and expands every
child that is no duplicate before it goes on. A node that is left without children is dead. The outcome
is `none` if the recursion does not end. -/
def expand (search : Search) (path : List Waypoint) (here : Waypoint) (nodes : Array Node) :
    ExceptT SearchError Option (Array Node) := do
  let grown ← (List.range search.net.transitionCount).foldlM (fun nodes t => do
    match ← liftExcept (search.branch path here nodes t) with
    | (nodes, none) => return nodes
    | (nodes, some child) => search |>.expand (path ++ [child]) child nodes) nodes
  return grown.modify here.node fun node =>
    if node.children = [] then { node with kind := .dead } else node
partial_fixpoint

/-- The nodes that the recursion finds below a root with the marking `initial`. -/
def exploreRecursively (search : Search) (initial : Marking) : Option (Except SearchError (Array Node)) :=
  let root : Node := {
    transition := none
    marking := initial
    parent := none
    children := []
    kind := .interior
    depth := 0 }
  search.expand [⟨0, initial⟩] ⟨0, initial⟩ #[root]

/-- Tries one transition, and expands the child that it leads to. -/
def grow (search : Search) (path : List Waypoint) (here : Waypoint) (nodes : Array Node) (t : ℕ) :
    ExceptT SearchError Option (Array Node) := do
  match ← liftExcept (search.branch path here nodes t) with
  | (nodes, none) => return nodes
  | (nodes, some child) => search.expand (path ++ [child]) child nodes

/-- Expands a node from transition `next` on. -/
def expandFrom (search : Search) (path : List Waypoint) (here : Waypoint) (next : ℕ) (nodes : Array Node) :
    ExceptT SearchError Option (Array Node) := do
  let grown ← (List.range' next (search.net.transitionCount - next)).foldlM (search.grow path here) nodes
  return grown.modify here.node Node.left

end Search

def Frame.waypoint (frame : Frame) : Waypoint := ⟨frame.node, frame.marking⟩

/-- The path that a stack stands for, from the root to the node on top. -/
def waypoints (stack : List Frame) : List Waypoint :=
  (stack.map Frame.waypoint).reverse

namespace Search

/-- Finishes the nodes on the stack, each from its next transition on. -/
def resume (search : Search) : List Frame → Array Node → ExceptT SearchError Option (Array Node)
  | [], nodes => return nodes
  | frame :: below, nodes => do
    search.resume below (← search.expandFrom (waypoints (frame :: below)) frame.waypoint frame.next nodes)

variable {search : Search} {path : List Waypoint} {here : Waypoint} {nodes : Array Node} {next : ℕ}

lemma expand_eq_expandFrom : search.expand path here nodes = search.expandFrom path here 0 nodes := by
  have hleft : (fun node : Node => if node.children = [] then { node with kind := .dead } else node) =
      Node.left := by
    funext node
    simp [Node.left, Node.isLeaf]
  rw [expand, expandFrom, List.range_eq_range', Nat.sub_zero, ← hleft]
  rfl

lemma expandFrom_of_le (h : search.net.transitionCount ≤ next) :
    search.expandFrom path here next nodes = pure (nodes.modify here.node Node.left) := by
  rw [expandFrom, Nat.sub_eq_zero_of_le h]
  rfl

lemma expandFrom_of_lt (h : next < search.net.transitionCount) :
    search.expandFrom path here next nodes =
      search.grow path here nodes next >>= search.expandFrom path here (next + 1) := by
  have hsub : search.net.transitionCount - next = search.net.transitionCount - (next + 1) + 1 := by omega
  rw [expandFrom, hsub, List.range'_succ, List.foldlM_cons, bind_assoc]
  rfl

lemma grow_of_none {grown : Array Node} {t : ℕ} (h : search.branch path here nodes t = .ok (grown, none)) :
    search.grow path here nodes t = pure grown := by
  rw [grow, h]
  rfl

lemma grow_of_some {grown : Array Node} {child : Waypoint} {t : ℕ}
    (h : search.branch path here nodes t = .ok (grown, some child)) :
    search.grow path here nodes t = search.expandFrom (path ++ [child]) child 0 grown := by
  rw [grow, h, ← expand_eq_expandFrom]
  rfl

lemma grow_of_error {e : SearchError} {t : ℕ} (h : search.branch path here nodes t = .error e) :
    search.grow path here nodes t = throw e := by
  rw [grow, h]
  rfl

lemma resume_of_le {frame : Frame} {below : List Frame} (h : search.net.transitionCount ≤ frame.next) :
    search.resume (frame :: below) nodes = search.resume below (nodes.modify frame.node Node.left) := by
  rw [resume, expandFrom_of_le h]
  rfl

/-- The transitions that are left after the next one are those of the advanced frame. -/
lemma resume_of_lt {frame : Frame} {below : List Frame} (h : frame.next < search.net.transitionCount) :
    search.resume (frame :: below) nodes =
      search.grow (waypoints (frame :: below)) frame.waypoint nodes frame.next >>=
        search.resume (frame.advance :: below) := by
  rw [resume, expandFrom_of_lt h, bind_assoc]
  rfl

section Branch

variable {t : ℕ} {successor : Marking} {e : NetError}

lemma branch_of_disabled (hfire : search.net.fire here.marking t = .error e) (he : e.isNotEnabled = true) :
    search.branch path here nodes t = .ok (nodes, none) := by
  simp [branch, hfire, he]

lemma branch_of_fail (hfire : search.net.fire here.marking t = .error e) (he : e.isNotEnabled = false) :
    search.branch path here nodes t = .error (.net e) := by
  simp [branch, hfire, he]

lemma branch_of_full {limit : ℕ} (hfire : search.net.fire here.marking t = .ok successor)
    (hlimit : search.maxNodes = some limit) (hsize : limit ≤ nodes.size) :
    search.branch path here nodes t = .error (.maxNodesReached limit) := by
  have hfull : search.maxNodes.filter (· ≤ nodes.size) = some limit := by
    simp [hlimit, Option.filter, hsize]
  simp [branch, hfire, hfull]

end Branch

section Simulation

variable {initial m : Marking} {state succ : SearchState} {frame : Frame} {below : List Frame}

lemma waypoints_cons (frame : Frame) (below : List Frame) :
    waypoints (frame :: below) = waypoints below ++ [frame.waypoint] := by
  rw [waypoints, List.map_cons, List.reverse_cons, waypoints]

lemma marking_waypoints (stack : List Frame) :
    (waypoints stack).map Waypoint.marking = (stack.map Frame.marking).reverse := by
  rw [waypoints, List.map_reverse, List.map_map]
  rfl

/-- The frame with a marking is found in a stack whose markings are pairwise different. -/
lemma find?_marking_iff {stack : List Frame} (hn : (stack.map Frame.marking).Nodup) :
    stack.find? (·.marking = m) = some frame ↔ frame ∈ stack ∧ frame.marking = m := by
  constructor
  · intro h
    exact ⟨List.mem_of_find?_eq_some h, by simpa using List.find?_some h⟩
  · rintro ⟨hmem, hm⟩
    cases h : stack.find? (·.marking = m) with
    | none => exact absurd hm (by simpa using List.find?_eq_none.mp h frame hmem)
    | some other =>
      have hother : other.marking = m := by simpa using List.find?_some h
      rw [List.inj_on_of_nodup_map hn (List.mem_of_find?_eq_some h) hmem (hother.trans hm.symm)]

/-- It does not matter from which end of the path one looks for a marking. -/
lemma find?_waypoints {stack : List Frame} (hn : (stack.map Frame.marking).Nodup) :
    ((waypoints stack).find? (·.marking = m)).map Waypoint.node =
      (stack.find? (·.marking = m)).map Frame.node := by
  have hn' : (stack.reverse.map Frame.marking).Nodup := by
    rw [List.map_reverse]
    exact List.nodup_reverse.mpr hn
  have hreverse : stack.reverse.find? (·.marking = m) = stack.find? (·.marking = m) := by
    apply Option.ext
    intro frame
    rw [find?_marking_iff hn', find?_marking_iff hn, List.mem_reverse]
  rw [waypoints, ← List.map_reverse, List.find?_map, Option.map_map, ← hreverse]
  rfl

lemma expandedWith?_eq_seen {net : Net} (hall : state.SeesAll) (hinv : state.Invariant net initial) :
    expandedWith? state.nodes m = state.seen[m]? := by
  have hfirst : ∀ i, expandedWith? state.nodes m = some i → state.seen[m]? = some i := by
    intro i hi
    obtain ⟨hlt, hp, -⟩ := Array.findIdx?_eq_some_iff_getElem.mp hi
    simp only [Bool.and_eq_true, Bool.not_eq_true', decide_eq_true_eq] at hp
    rw [← hp.2]
    exact hall i _ (Array.getElem?_eq_getElem hlt) hp.1
  cases he : expandedWith? state.nodes m with
  | some i => exact (hfirst i he).symm
  | none =>
    cases hseen : state.seen[m]? with
    | none => rfl
    | some i =>
      obtain ⟨node, hn, hm, hdup⟩ := hinv.seen m i hseen
      have hnot := Array.findIdx?_eq_none_iff.mp he node (Array.mem_of_getElem? hn)
      simp [hm, hdup] at hnot

lemma repeated?_eq_duplicateOf? (hv : state.Valid search.net.placeCount)
    (ht : search.Through initial state) (hw : search.net.WellFormed)
    (hd : initial.dimension = search.net.placeCount) :
    search.repeated? (waypoints state.stack) state.nodes m = search.duplicateOf? state m := by
  unfold repeated? duplicateOf?
  cases hp : search.pruning with
  | ancestorOnly => exact find?_waypoints hv.nodup
  | globalSeen => exact expandedWith?_eq_seen (ht.seesAll hw hd hp) (ht.invariant hw hd)

lemma attach_eq_nodes_create (m : Marking) (d : Option ℕ) :
    attach state.nodes frame.node {
      transition := some frame.next
      marking := m
      parent := some frame.node
      children := []
      kind := d.elim .interior .duplicate
      depth := (waypoints (frame :: below)).length } = (state.create frame below m d).nodes := by
  have hlength : (waypoints (frame :: below)).length = below.length + 1 := by simp [waypoints]
  rw [SearchState.nodes_create, attach, hlength]
  cases d <;> rfl

/-- The recursion gives the node on top the same child as the search. -/
lemma branch_of_create (hs : state.stack = frame :: below) (hv : state.Valid search.net.placeCount)
    (ht : search.Through initial state) (hw : search.net.WellFormed)
    (hd : initial.dimension = search.net.placeCount) {successor : Marking}
    (hfire : search.net.fire frame.marking frame.next = .ok successor)
    (hsize : ∀ limit, search.maxNodes = some limit → state.nodes.size < limit)
    (hm : m = successor.accelerate state.path) :
    search.branch (waypoints (frame :: below)) frame.waypoint state.nodes frame.next =
      .ok ((state.create frame below m (search.duplicateOf? state m)).nodes,
        if (search.duplicateOf? state m).isSome then none else some ⟨state.nodes.size, m⟩) := by
  have hroom : search.maxNodes.filter (· ≤ state.nodes.size) = none := by
    rw [Option.filter_eq_none_iff]
    intro limit hlimit
    simpa using hsize limit hlimit
  have hpath : (waypoints (frame :: below)).map Waypoint.marking = state.path := by
    rw [marking_waypoints, ← hs]
    rfl
  have htwin := repeated?_eq_duplicateOf? (m := m) hv ht hw hd
  rw [hs] at htwin
  rw [← attach_eq_nodes_create]
  simp only [branch, Frame.waypoint, hfire, hpath, ← hm, htwin, hroom]

theorem resume_of_step (hv : state.Valid search.net.placeCount) (ht : search.Through initial state)
    (hw : search.net.WellFormed) (hd : initial.dimension = search.net.placeCount)
    (h : search.step state = .next succ) :
    search.resume state.stack state.nodes = search.resume succ.stack succ.nodes := by
  obtain ⟨frame, below, hs, hadv⟩ := advances_of_step h
  rw [hs]
  cases hadv with
  | leave hle =>
    rw [resume_of_le hle]
    rfl
  | skip hlt hfire he =>
    rw [resume_of_lt hlt, grow_of_none (branch_of_disabled hfire he), pure_bind]
    rfl
  | @create successor hlt hfire hsize =>
    have hbranch := branch_of_create hs hv ht hw hd hfire hsize rfl
    cases htwin : search.duplicateOf? state (successor.accelerate state.path) with
    | some other =>
      rw [htwin] at hbranch
      rw [resume_of_lt hlt, grow_of_none hbranch, pure_bind]
      rfl
    | none =>
      rw [htwin] at hbranch
      -- The recursion enters the child before it goes on with its parent, so the child's frame is on top.
      rw [resume_of_lt hlt, grow_of_some hbranch]
      have hpath : waypoints (⟨state.nodes.size, successor.accelerate state.path, 0⟩ :: frame.advance :: below) =
          waypoints (frame :: below) ++ [⟨state.nodes.size, successor.accelerate state.path⟩] :=
        waypoints_cons _ _
      change _ = search.resume (⟨state.nodes.size, _, 0⟩ :: frame.advance :: below) _
      rw [resume, hpath]
      rfl

theorem resume_of_abort {e : SearchError} (hs : state.stack = frame :: below)
    (htime : search.timeout = none) (hmoves : search.Moves state frame (.abort e)) :
    search.resume state.stack state.nodes = throw e := by
  rw [hs]
  cases hmoves with
  | timeout hlt hout => simp [isOutOfTime, htime] at hout
  | fail hlt hfire he =>
    rw [resume_of_lt hlt, grow_of_error (branch_of_fail hfire he)]
    rfl
  | full hlt hfire hlimit hsize =>
    rw [resume_of_lt hlt, grow_of_error (branch_of_full hfire hlimit hsize)]
    rfl

/-- From every state, the search finds what the recursion makes of the stack. -/
theorem resume_eq_run (hv : state.Valid search.net.placeCount) (ht : search.Through initial state)
    (hw : search.net.WellFormed) (hd : initial.dimension = search.net.placeCount)
    (htime : search.timeout = none) :
    search.resume state.stack state.nodes = some (search.run state hv) := by
  fun_induction Search.run search state hv with
  | case1 state hv result hr =>
    cases result with
    | ok nodes =>
      obtain ⟨hs, rfl⟩ := stack_eq_nil_of_step hr
      rw [hs]
      rfl
    | error e =>
      obtain ⟨frame, below, hs, hmoves⟩ := moves_of_step_eq_error hr
      exact resume_of_abort hs htime hmoves
  | case2 state hv next hn ih => rw [resume_of_step hv ht hw hd hn, ih (ht.step hn)]

end Simulation

/-- The search over a stack finds the same nodes as the recursion, or fails with the same error, and each
subtree occupies a range of indices that starts with its root. -/
theorem explore_eq_recursion {initial : Marking} (hnet : search.net.Constructed)
    (hd : initial.dimension = search.net.placeCount) (htime : search.timeout = none) :
    search.exploreRecursively initial = some (search.explore initial) ∧
      ∀ nodes, search.explore initial = .ok nodes → ∀ i < nodes.size,
        ∃ stop, ∀ j, InSubtree nodes i j ↔ i ≤ j ∧ j < stop := by
  refine ⟨?_, fun nodes h i hi => exists_subtree_range hnet.wellFormed h hi⟩
  have hrun := resume_eq_run (SearchState.valid_start hd) .start hnet.wellFormed hd htime
  rw [explore, dif_pos hd, ← hrun, exploreRecursively, expand_eq_expandFrom]
  exact (bind_pure _).symm

end Search

lemma explore_diners : dinersSearch.explore diners.initial = .ok dinersTree.nodes := by
  cbv

/-- When the first diner has taken a fork, the recursion visits nodes 2 and 3 before it lets the second
diner begin. -/
theorem recursion_diners : dinersSearch.net.Constructed ∧ diners.initial.dimension = diners.placeCount ∧
    dinersSearch.timeout = none ∧
    dinersSearch.exploreRecursively diners.initial = some (.ok dinersTree.nodes) ∧
    ∀ j, InSubtree dinersTree.nodes 1 j ↔ 1 ≤ j ∧ j < 4 := by
  have hd : diners.initial.dimension = dinersSearch.net.placeCount := rfl
  obtain ⟨hrecursion, hranges⟩ := Search.explore_eq_recursion constructed_diners hd rfl
  obtain ⟨stop, hstop⟩ := hranges _ explore_diners 1 (by decide)
  have hlast : InSubtree dinersTree.nodes 1 3 :=
    ⟨[1, 0], .child rfl rfl (.child rfl rfl (.root rfl rfl)), by decide⟩
  have hnext : ¬InSubtree dinersTree.nodes 1 4 := by
    rintro ⟨above, hl, hmem⟩
    have habove : above = [0] := hl.unique (.child rfl rfl (.root rfl rfl))
    rw [habove] at hmem
    exact absurd hmem (by decide)
  have hfour : stop = 4 := by
    rw [hstop] at hlast hnext
    omega
  rw [explore_diners] at hrecursion
  rw [hfour] at hstop
  exact ⟨constructed_diners, hd, rfl, hrecursion, hstop⟩

end Coverability
