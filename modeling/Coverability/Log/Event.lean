import Coverability.Log.Level
import Coverability.NetError
import Coverability.Tree.Basic

/-!
# Log events

What the library tells about its work. An event has a level, a message and named fields, and all
values of fields are texts.
-/

namespace Coverability

inductive Event where
  /-- The arcs of so many transitions were read from so many rules. -/
  | builtIncidence (rules transitions : Nat)
  | constructedNet (net : String) (places transitions : Nat) (initial : Marking)
  /-- The transition in this place of a sequence fired, and led to the marking. -/
  | fired (step : Nat) (transition : String) (marking : Marking)
  /-- The transition in this place of a sequence was not enabled. -/
  | sequenceStopped (step : Nat) (cause : NetError)
  | searchStarted (net : String) (places transitions : Nat) (initial : Marking) (pruning : Pruning)
  | notEnabled (node : Nat) (cause : NetError)
  | newNode (node parent : Nat) (transition : String) (marking : Marking) (duplicateOf : Option Nat)
  | searchFinished (statistics : Statistics) (bounded : Bool)
deriving DecidableEq, Repr

/-- The short name of the place with index `i`. -/
def placeLabel (i : Nat) : String :=
  s!"p{i}"

def transitionLabel (i : Nat) : String :=
  s!"t{i}"

def nodeLabel (i : Nat) : String :=
  s!"n{i}"

namespace Event

def level : Event → LogLevel
  | builtIncidence .. => .debug
  | constructedNet .. => .debug
  | fired .. => .trace
  | sequenceStopped .. => .debug
  | searchStarted .. => .info
  | notEnabled .. => .trace
  | newNode .. => .debug
  | searchFinished .. => .info

def message : Event → String
  | builtIncidence .. => "Built incidence map"
  | constructedNet .. => "Constructed Petri net"
  | fired .. => "Fired"
  | sequenceStopped _ cause => s!"Sequence stopped: {cause.message}"
  | searchStarted .. => "Coverability Info"
  | notEnabled _ cause => cause.message
  | newNode .. => "New node"
  | searchFinished .. => "Result"

/-- The node that a node repeats, as a field shows it. -/
def duplicateField : Option Nat → String
  | none => "None"
  | some i => s!"Some(NodeIndex \x7b index: {i} \x7d)"

def fields : Event → List (String × String)
  | builtIncidence rules transitions =>
    [("rules", toString rules), ("transitions", toString transitions)]
  | constructedNet net places transitions initial =>
    [("net", net), ("places", toString places), ("transitions", toString transitions),
      ("initial", toString initial)]
  | fired step transition marking =>
    [("step", toString step), ("transition", transition), ("marking", toString marking)]
  | sequenceStopped step _ => [("step", toString step)]
  | searchStarted net places transitions initial pruning =>
    [("net", net), ("places", toString places), ("transitions", toString transitions),
      ("initial", toString initial), ("pruning", pruning.name)]
  | notEnabled node _ => [("node", nodeLabel node)]
  | newNode node parent transition marking duplicateOf =>
    [("node", nodeLabel node), ("parent", nodeLabel parent), ("transition", transition),
      ("marking", toString marking), ("duplicate_of", duplicateField duplicateOf)]
  | searchFinished statistics bounded =>
    [("nodes", toString statistics.nodeCount), ("duplicates", toString statistics.duplicateCount),
      ("dead", toString statistics.deadCount), ("max_depth", toString statistics.maxDepth),
      ("bounded", toString bounded)]

end Event

/-- The events that a logger of this level takes. -/
def captured (level : LogLevel) (events : List Event) : List Event :=
  events.filter fun event => level.severity ≤ event.level.severity

end Coverability
