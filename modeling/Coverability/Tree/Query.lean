import Coverability.NetError
import Coverability.Tree.Basic

/-!
# Questions to a tree

What a coverability tree says about its net: which places are bounded and by how much, which markings
can be covered, which transitions never fire and where the net can get stuck. A tree that a search
returns answers all of them; one that is put together by hand may hold links, transitions or markings
that lead out of range, and then the question fails.
-/

namespace Coverability.Tree

def node (tree : Tree) (i : Nat) : Except NetError Node :=
  match tree.nodes[i]? with
  | some node => .ok node
  | none => .error .contractViolation

def transitionName (tree : Tree) (t : Nat) : Except NetError String :=
  match tree.transitionNames[t]? with
  | some name => .ok name
  | none => .error .contractViolation

/-- The nodes from `i` up to the root if there are at most `steps` of them. -/
def ancestorsWithin (tree : Tree) : Nat → Nat → Except NetError (List Nat)
  | 0, _ => .error .contractViolation
  | steps + 1, i => do
    match (← tree.node i).parent with
    | none => return [i]
    | some parent => return i :: (← tree.ancestorsWithin steps parent)

/-- The nodes from `i` up to the root. More steps than there are nodes never get there. -/
def ancestors (tree : Tree) (i : Nat) : Except NetError (List Nat) :=
  tree.ancestorsWithin tree.nodes.size i

/-- The names of the transitions on the way from the root to `i`. -/
def pathTo (tree : Tree) (i : Nat) : Except NetError (List String) := do
  let nodes ← (← tree.ancestors i).mapM tree.node
  return (← (nodes.filterMap Node.transition).mapM tree.transitionName).reverse

def indicesOf (tree : Tree) (p : Node → Bool) : List Nat :=
  tree.nodes.toList.zipIdx.filterMap fun (node, i) => if p node then some i else none

def leaves (tree : Tree) : List Nat :=
  tree.indicesOf Node.isLeaf

def deadNodes (tree : Tree) : List Nat :=
  tree.indicesOf (·.kind = .dead)

/-- Whether the net can reach a marking in which no transition is enabled. -/
def hasDeadlock (tree : Tree) : Bool :=
  !tree.deadNodes.isEmpty

def countAt (place : Nat) (node : Node) : Except NetError TokenCount :=
  match node.marking.get? place with
  | some count => .ok count
  | none => .error .contractViolation

def holdsInfinite (tree : Tree) (place : Nat) : Except NetError Bool :=
  tree.nodes.toList.anyM fun node => return (← countAt place node).isInfinite

/-- The names of the places that hold omega in some node. -/
def unboundedPlaces (tree : Tree) : Except NetError (List String) := do
  let places ← tree.placeNames.zipIdx.filterM fun (_, place) => tree.holdsInfinite place
  return places.map Prod.fst

def isBounded (tree : Tree) : Bool :=
  tree.nodes.all fun node => !node.marking.hasInfinite

/-- The largest count that the place with this name takes in any node. -/
def placeBound (tree : Tree) (name : String) : Except NetError TokenCount :=
  match tree.placeNames.idxOf? name with
  | none => .error (.unknownEntity name)
  | some place => do
    return (← tree.nodes.toList.mapM (countAt place)).foldl max (.finite 0)

/-- The first node whose marking covers `m`. -/
def coveringNode? (tree : Tree) (m : Marking) : Option Nat :=
  tree.nodes.findIdx? fun node => node.marking.Covers m

/-- Whether some node covers `m`, which says that `m` can be covered from the root. -/
def covers (tree : Tree) (m : Marking) : Bool :=
  (tree.coveringNode? m).isSome

/-- The names of the transitions for which `used` says whether they label an edge. -/
def transitionsByUsage (tree : Tree) (used : Bool) : Except NetError (List String) :=
  let fired := tree.nodes.toList.filterMap Node.transition
  if ∀ t ∈ fired, t < tree.transitionNames.length then
    .ok ((tree.transitionNames.zipIdx.filter fun (_, t) => fired.contains t == used).map Prod.fst)
  else .error .contractViolation

def firedTransitions (tree : Tree) : Except NetError (List String) :=
  tree.transitionsByUsage true

def deadTransitions (tree : Tree) : Except NetError (List String) :=
  tree.transitionsByUsage false

end Coverability.Tree
