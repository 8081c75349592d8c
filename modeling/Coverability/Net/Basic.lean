import Coverability.Incidence
import Coverability.Marking
import Coverability.Rule.Parser

/-!
# Nets

A place/transition net with its current marking. Places and transitions are numbered in the order of
their declaration. The arcs are derived once, when the net is built from its rules, and only the
marking ever changes.
-/

namespace Coverability

structure Net where
  name : String
  placeNames : List String
  transitionNames : List String
  /-- The rule lines from which the net was built. -/
  rules : List String
  arcs : List Arcs
  /-- The marking with which the net was built. -/
  initial : Marking
  marking : Marking
deriving DecidableEq, Repr

/-- What `name` stands for among these places and transitions. -/
def resolveName (placeNames transitionNames : List String) (name : String) : Option EntityRef :=
  match placeNames.idxOf? name with
  | some place => some (.place place)
  | none => (transitionNames.idxOf? name).map .transition

/-- The first name of the list that has occurred before, or is among `seen`. -/
def firstRepeated? (seen : List String) : List String → Option String
  | [] => none
  | name :: names => if name ∈ seen then some name else firstRepeated? (name :: seen) names

namespace Entity

def place? : Entity → Option (String × TokenCount)
  | place name tokens => some (name, tokens)
  | transition _ => none

def transition? : Entity → Option String
  | place _ _ => none
  | transition name => some name

end Entity

namespace Net

/-- Builds a net from its entities and its rules, each of which is one rule or a block of them. Fails
on the first repeated name, else on the first malformed rule, else on the first rule that does not
fit the entities. -/
def ofEntities (name : String) (entities : List Entity) (ruleTexts : List String) :
    Except NetError Net :=
  match firstRepeated? [] (entities.map Entity.name) with
  | some repeated => .error (.duplicateName repeated)
  | none => do
    let places := entities.filterMap Entity.place?
    let placeNames := places.map Prod.fst
    let transitionNames := entities.filterMap Entity.transition?
    let rules := (← ruleTexts.mapM Rule.parseBlock).flatten
    let arcs ← incidence rules transitionNames.length (resolveName placeNames transitionNames)
    let initial : Marking := ⟨places.map Prod.snd⟩
    return {
      name, placeNames, transitionNames
      rules := rules.map Rule.line
      arcs, initial
      marking := initial }

def placeCount (net : Net) : Nat :=
  net.placeNames.length

def transitionCount (net : Net) : Nat :=
  net.transitionNames.length

def resolve (net : Net) (name : String) : Option EntityRef :=
  resolveName net.placeNames net.transitionNames name

def placeIndex (net : Net) (name : String) : Except NetError Nat :=
  match net.resolve name with
  | some (.place place) => .ok place
  | _ => .error (.unknownEntity name)

def transitionIndex (net : Net) (name : String) : Except NetError Nat :=
  match net.resolve name with
  | some (.transition transition) => .ok transition
  | _ => .error (.unknownEntity name)

/-- The name of a place, empty if there is no such place. -/
def placeName (net : Net) (place : Nat) : String :=
  net.placeNames.getD place ""

/-- The name of a transition, empty if there is no such transition. -/
def transitionName (net : Net) (transition : Nat) : String :=
  net.transitionNames.getD transition ""

/-- All places with their current counts, and then all transitions. -/
def entities (net : Net) : List Entity :=
  (net.placeNames.zip net.marking.counts).map (fun (name, count) => .place name count) ++
    net.transitionNames.map .transition

/-- The change that one firing of each transition makes to each place. -/
def effects (net : Net) : List (List Int) :=
  net.arcs.map fun arcs => (List.range net.placeCount).map arcs.effect

/-- Fails unless the marking has one count for each place. -/
def checkDimension (net : Net) (m : Marking) : Except NetError Unit :=
  if m.dimension = net.placeCount then .ok ()
  else .error (.dimensionMismatch net.placeCount m.dimension)

instance : ToString Net where
  toString net :=
    let places := (net.placeNames.zip net.marking.counts).map fun (name, count) =>
      s!"  {name}: {count}\n"
    let rules := net.rules.map fun rule => s!"  {rule}\n"
    s!"{net.name}\n" ++ String.join (places ++ rules)

end Net

end Coverability
