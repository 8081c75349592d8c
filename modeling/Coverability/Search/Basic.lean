import Coverability.Acceleration
import Coverability.Firing
import Coverability.Tree.Basic
import Std.Data.HashMap

/-!
# The search for coverability trees

The search goes depth first over an explicit stack, which always holds the path from the root to the
node that is being expanded. `Search.move` says what comes next for the node on top of the stack, and
`Search.step` carries it out.
-/

namespace Coverability

/-- Why a search ends without a tree. -/
inductive SearchError where
  | timeout
  /-- The tree would get more nodes than allowed. -/
  | maxNodesReached (limit : Nat)
  /-- The net cannot be searched from this marking, or a count overflows. -/
  | net (error : NetError)
deriving DecidableEq, Repr

def SearchError.message : SearchError → String
  | timeout => "Coverability tree construction timed out"
  | maxNodesReached limit => s!"Coverability tree exceeded {limit} nodes"
  | net error => error.message

/-- What is searched, and within which limits. -/
structure Search where
  net : Net
  pruning : Pruning
  maxNodes : Option Nat
  timeout : Option Duration

/-- A node that is being expanded, and the first transition that has not been tried on it. -/
structure Frame where
  node : Nat
  marking : Marking
  next : Nat
deriving Repr

/-- The frame after its next transition has been tried. -/
def Frame.advance (frame : Frame) : Frame :=
  { frame with next := frame.next + 1 }

/-- The state of a search. -/
structure SearchState where
  /-- The nodes created so far. -/
  nodes : Array Node
  /-- The markings of the nodes that are not duplicates, each with such a node. -/
  seen : Std.HashMap Marking Nat
  /-- The path from the node that is being expanded, on top, to the root. -/
  stack : List Frame

/-- What comes next for the node on top of the stack. -/
inductive Move where
  /-- All transitions have been tried. -/
  | leave
  /-- The next transition is not enabled. -/
  | skip (cause : NetError)
  /-- The next transition leads to a new node, which may repeat the marking of another one. -/
  | create (marking : Marking) (duplicateOf : Option Nat)
  | abort (error : SearchError)

/-- A search either ends with its nodes or an error, or goes on. -/
inductive SearchStep where
  | done (result : Except SearchError (Array Node))
  | next (state : SearchState)

namespace SearchState

/-- The state in which only the root is known. -/
def start (initial : Marking) : SearchState where
  nodes := #[{
    transition := none
    marking := initial
    parent := none
    children := []
    kind := .interior
    depth := 0 }]
  seen := (∅ : Std.HashMap Marking Nat).insert initial 0
  stack := [{ node := 0, marking := initial, next := 0 }]

/-- The markings from the root to the node that is being expanded. -/
def path (state : SearchState) : List Marking :=
  (state.stack.map Frame.marking).reverse

/-- Leaves the node of `frame`, which is dead if it got no children. -/
def leave (state : SearchState) (frame : Frame) (below : List Frame) : SearchState where
  nodes := state.nodes.modify frame.node fun node =>
    if node.isLeaf then { node with kind := .dead } else node
  seen := state.seen
  stack := below

/-- Goes on to the transition after the next one of `frame`. -/
def skip (state : SearchState) (frame : Frame) (below : List Frame) : SearchState :=
  { state with stack := frame.advance :: below }

/-- Appends a child to the node of `frame`, and goes on with the child unless it is a duplicate. -/
def create (state : SearchState) (frame : Frame) (below : List Frame) (marking : Marking)
    (duplicateOf : Option Nat) : SearchState :=
  let child := state.nodes.size
  let node : Node := {
    transition := some frame.next
    marking
    parent := some frame.node
    children := []
    kind := match duplicateOf with
      | some other => .duplicate other
      | none => .interior
    depth := below.length + 1 }
  let linked := state.nodes.modify frame.node fun parent =>
    { parent with children := parent.children ++ [child] }
  match duplicateOf with
  | some _ =>
    { nodes := linked.push node
      seen := state.seen
      stack := frame.advance :: below }
  | none =>
    { nodes := linked.push node
      seen := state.seen.insert marking child
      stack := { node := child, marking, next := 0 } :: frame.advance :: below }

end SearchState

namespace Search

/-- The node that a new node with this marking would repeat. -/
def duplicateOf? (search : Search) (state : SearchState) (marking : Marking) : Option Nat :=
  match search.pruning with
  | .ancestorOnly => (state.stack.find? (·.marking = marking)).map Frame.node
  | .globalSeen => state.seen[marking]?

/-- Whether the time is over. Trying a transition takes some time, but less than any span that is not
zero. -/
def isOutOfTime (search : Search) : Bool :=
  search.timeout = some .zero

/-- The node that the next transition of the top frame leads to with the marking `successor`. -/
def createMove (search : Search) (state : SearchState) (successor : Marking) : Move :=
  let marking := successor.accelerate state.path
  let create : Move := .create marking (search.duplicateOf? state marking)
  match search.maxNodes with
  | none => create
  | some limit =>
    if state.nodes.size < limit then create else .abort (.maxNodesReached limit)

/-- What comes next for the frame on top of the stack. -/
def move (search : Search) (state : SearchState) (frame : Frame) : Move :=
  if frame.next < search.net.transitionCount then
    if search.isOutOfTime then .abort .timeout
    else
      match search.net.fire frame.marking frame.next with
      | .ok successor => search.createMove state successor
      | .error e => if e.isNotEnabled then .skip e else .abort (.net e)
  else .leave

/-- Makes one move. -/
def step (search : Search) (state : SearchState) : SearchStep :=
  match state.stack with
  | [] => .done (.ok state.nodes)
  | frame :: below =>
    match search.move state frame with
    | .leave => .next (state.leave frame below)
    | .skip _ => .next (state.skip frame below)
    | .create marking duplicateOf => .next (state.create frame below marking duplicateOf)
    | .abort e => .done (.error e)

end Search

end Coverability
