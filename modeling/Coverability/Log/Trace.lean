import Coverability.Log.Event
import Coverability.Net.Command
import Coverability.Search.Run
import Coverability.Tree.Query

/-!
# The events of each operation

The events that building a net, firing a sequence and searching a tree give rise to, in the order in
which they happen. What happens before an operation fails is told as well.
-/

namespace Coverability

/-- The events of reading the arcs of `transitions` transitions from so many rules. -/
def incidenceEvents (rules transitions : Nat) : List Event :=
  [.builtIncidence rules transitions]

namespace Net

def constructionEvents (net : Net) : List Event :=
  incidenceEvents net.rules.length net.transitionCount ++
    [.constructedNet net.name net.placeCount net.transitionCount net.initial]

/-- The events of firing the transitions with these indices, the first of which is number `step` of
its sequence. -/
def firingEvents (net : Net) (step : Nat) (m : Marking) : List Nat → List Event
  | [] => []
  | t :: ts =>
    match net.fire m t with
    | .ok next => .fired step (net.transitionName t) next :: net.firingEvents (step + 1) next ts
    | .error e => if e.isNotEnabled then [.sequenceStopped step e] else []

def sequenceEvents (net : Net) (m : Marking) (transitions : List String) : List Event :=
  match net.checkDimension m, transitions.mapM net.transitionIndex with
  | .ok _, .ok ts => net.firingEvents 1 m ts
  | _, _ => []

def commandEvents (net : Net) : Command → List Event
  | .fireSequence transitions => net.sequenceEvents net.marking transitions
  | _ => []

end Net

namespace Search

def moveEvents (search : Search) (state : SearchState) : List Event :=
  match state.stack with
  | [] => []
  | frame :: _ =>
    match search.move state frame with
    | .skip cause => [.notEnabled frame.node cause]
    | .create marking duplicateOf =>
      [.newNode state.nodes.size frame.node (search.net.transitionName frame.next) marking
        duplicateOf]
    | _ => []

/-- The events of all moves from `state` on, after the events `past`, which stand in reverse. -/
def runEvents (search : Search) (state : SearchState) (hv : state.Valid search.net.placeCount)
    (past : List Event) : List Event :=
  match h : search.step state with
  | .done _ => past.reverse
  | .next next =>
    search.runEvents next (valid_and_potential_lt hv h).1 (search.moveEvents state ++ past)
termination_by state.potential search
decreasing_by exact (valid_and_potential_lt hv h).2

def events (search : Search) (initial : Marking) : List Event :=
  if h : search.net.placeCount = initial.dimension then
    let net := search.net
    let started : Event :=
      .searchStarted net.name net.placeCount net.transitionCount initial search.pruning
    let moves := search.runEvents (.start initial) (SearchState.valid_start h.symm) []
    let finished : List Event :=
      match search.build initial with
      | .ok tree => [.searchFinished tree.statistics tree.isBounded]
      | .error _ => []
    started :: moves ++ finished
  else []

end Search

end Coverability
