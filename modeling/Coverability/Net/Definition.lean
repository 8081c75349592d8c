import Coverability.Net.Basic

/-!
# Net definitions

The plain description of a net: what is handed over to build one, and what a net without omega
reports of itself.
-/

namespace Coverability

/-- A place as it is described. -/
structure PlaceDefinition where
  name : String
  tokens : UInt32 := 0
deriving DecidableEq, Repr

/-- The description of a net. -/
structure NetDefinition where
  name : String
  places : List PlaceDefinition
  transitions : List String
  /-- The rules, each one rule or a block of them. -/
  rules : List String
deriving DecidableEq, Repr

namespace NetDefinition

/-- The entities that the definition declares: the places, and then the transitions. -/
def entities (d : NetDefinition) : List Entity :=
  d.places.map (fun place => .place place.name (.finite place.tokens)) ++
    d.transitions.map .transition

def build (d : NetDefinition) : Except NetError Net :=
  Net.ofEntities d.name d.entities d.rules

end NetDefinition

/-- Describes the net with its current marking as the start, or returns `none` if a place holds
omega. -/
def Net.toDefinition? (net : Net) : Option NetDefinition := do
  let places ← (net.placeNames.zip net.marking.counts).mapM fun (name, count) =>
    count.finite?.map fun tokens => { name, tokens : PlaceDefinition }
  return { name := net.name, places, transitions := net.transitionNames, rules := net.rules }

end Coverability
