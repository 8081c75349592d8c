import Coverability.Marking

/-!
# Coverability trees

The nodes of a tree lie in the order in which the search creates them: depth first, a node before its
children, and children in the order of their transitions. The root has index 0, and links between
nodes are indices.
-/

namespace Coverability

/-- Which markings a new node is compared with to decide whether it is a duplicate. -/
inductive Pruning where
  /-- The markings on the path from the root to the parent of the new node. -/
  | ancestorOnly
  /-- All markings of the tree so far. -/
  | globalSeen
deriving DecidableEq, Repr

def Pruning.name : Pruning → String
  | ancestorOnly => "AncestorOnly"
  | globalSeen => "GlobalSeen"

def nanosPerSecond : Nat :=
  1000000000

/-- A span of time. Its seconds fit 64 bits. -/
structure Duration where
  secs : Nat
  nanos : Nat
  secs_lt : secs < UInt64.size
  nanos_lt : nanos < nanosPerSecond
deriving DecidableEq, Repr

namespace Duration

/-- The span of `secs` seconds and `nanos` nanoseconds, unless its seconds leave 64 bits. -/
def ofParts? (secs nanos : Nat) : Option Duration :=
  if h : secs + nanos / nanosPerSecond < UInt64.size then
    some {
      secs := secs + nanos / nanosPerSecond
      nanos := nanos % nanosPerSecond
      secs_lt := h
      nanos_lt := Nat.mod_lt _ (by decide) }
  else none

def zero : Duration where
  secs := 0
  nanos := 0
  secs_lt := by decide
  nanos_lt := by decide

@[simp] theorem ofParts?_secs_nanos (d : Duration) : ofParts? d.secs d.nanos = some d := by
  have hs := d.secs_lt
  have hn := d.nanos_lt
  have hd : d.nanos / nanosPerSecond = 0 := Nat.div_eq_of_lt hn
  simp only [ofParts?, hd, Nat.add_zero, hs, Nat.mod_eq_of_lt hn, dite_true]

end Duration

/-- The role of a node. -/
inductive NodeKind where
  /-- The node was expanded and has a child. -/
  | interior
  /-- The marking of the node is that of node `of`, so it was not expanded. -/
  | duplicate (of : Nat)
  /-- No transition is enabled in the marking of the node. -/
  | dead
deriving DecidableEq, Repr

structure Node where
  /-- The transition that leads here from the parent; the root has none. -/
  transition : Option Nat
  marking : Marking
  parent : Option Nat
  children : List Nat
  kind : NodeKind
  /-- The number of edges between the root and the node. -/
  depth : Nat
deriving DecidableEq, Repr

/-- Counts over the nodes of a tree, and the time that its search took. -/
structure Statistics where
  nodeCount : Nat
  duplicateCount : Nat
  deadCount : Nat
  maxDepth : Nat
  time : Duration
deriving DecidableEq, Repr

/-- A coverability tree, with the names by which it reports places and transitions. -/
structure Tree where
  placeNames : List String
  transitionNames : List String
  pruning : Pruning
  nodes : Array Node
  statistics : Statistics
deriving DecidableEq, Repr

namespace NodeKind

def isDuplicate : NodeKind → Bool
  | duplicate _ => true
  | _ => false

end NodeKind

def Node.isLeaf (node : Node) : Bool :=
  node.children.isEmpty

def Statistics.ofNodes (nodes : Array Node) (time : Duration) : Statistics where
  nodeCount := nodes.size
  duplicateCount := nodes.countP (·.kind.isDuplicate)
  deadCount := nodes.countP (·.kind = .dead)
  maxDepth := nodes.foldl (fun depth node => max depth node.depth) 0
  time := time

end Coverability
