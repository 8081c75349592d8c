import Coverability.Firing
import Coverability.Json.Fields
import Coverability.Json.Parser
import Coverability.Json.Printer
import Coverability.Net.Definition

/-!
# JSON forms of nets and markings

Each type has a writer `toJson` and a reader `ofJson?`. The readers refuse numbers that leave the range
of their field.
-/

namespace Coverability

namespace TokenCount

def toJson : TokenCount → Json
  | finite n => .record [("Finite", .number n.toNat)]
  | infinite => .text "Infinite"

def ofJson? (value : Json) : Option TokenCount := do
  match ← value.variant? with
  | ("Finite", some content) => (Json.word? content).map finite
  | ("Infinite", content) => if Json.isUnit content then some infinite else none
  | _ => none

end TokenCount

namespace Marking

def toJson (m : Marking) : Json :=
  .ofList TokenCount.toJson m.counts

def ofJson? (value : Json) : Option Marking :=
  (value.list? TokenCount.ofJson?).map Marking.mk

end Marking

namespace Entity

def toJson : Entity → Json
  | place name tokens =>
    .record [("Place", .record [("name", .text name), ("tokens", tokens.toJson)])]
  | transition name => .record [("Transition", .record [("name", .text name)])]

def ofJson? (value : Json) : Option Entity := do
  match ← value.variant? with
  | ("Place", some content) =>
    match ← content.fields? ["name", "tokens"] 0 with
    | [name, tokens] =>
      return .place (← Json.required? Json.text? name) (← Json.required? TokenCount.ofJson? tokens)
    | _ => none
  | ("Transition", some content) =>
    match ← content.fields? ["name"] 0 with
    | [name] => return .transition (← Json.required? Json.text? name)
    | _ => none
  | _ => none

end Entity

namespace Arc

def toJson (arc : Arc) : Json :=
  .array [.number arc.weight.toNat, .number arc.place]

def ofJson? : Json → Option Arc
  | .array [weight, place] => return { weight := ← weight.word?, place := ← place.index? }
  | _ => none

end Arc

namespace Arcs

def toJson (arcs : Arcs) : Json :=
  .record [("consumes", .ofList Arc.toJson arcs.consumes),
    ("produces", .ofList Arc.toJson arcs.produces)]

/-- Reads the arcs of a transition as they stand. -/
def ofJson? (value : Json) : Option Arcs := do
  match ← value.fields? ["consumes", "produces"] 0 with
  | [consumes, produces] =>
    return {
      consumes := ← Json.required? (Json.list? Arc.ofJson?) consumes
      produces := ← Json.required? (Json.list? Arc.ofJson?) produces }
  | _ => none

end Arcs

namespace Outcome

def toJson (outcome : Outcome) : Json :=
  .record [("success", .bool outcome.success), ("marking", outcome.marking.toJson),
    ("applied", .ofList .text outcome.applied)]

def ofJson? (value : Json) : Option Outcome := do
  match ← value.fields? ["success", "marking", "applied"] 0 with
  | [success, marking, applied] =>
    return {
      success := ← Json.required? Json.bool? success
      marking := ← Json.required? Marking.ofJson? marking
      applied := ← Json.required? (Json.list? Json.text?) applied }
  | _ => none

end Outcome

namespace PlaceDefinition

def toJson (place : PlaceDefinition) : Json :=
  .record [("name", .text place.name), ("tokens", .number place.tokens.toNat)]

/-- Reads a described place. The number of tokens may be missing. -/
def ofJson? (value : Json) : Option PlaceDefinition := do
  match ← value.fields? ["name", "tokens"] 1 with
  | [name, tokens] =>
    return {
      name := ← Json.required? Json.text? name
      tokens := ← match tokens with
        | none => some 0
        | some tokens => tokens.word? }
  | _ => none

end PlaceDefinition

namespace NetDefinition

def toJson (d : NetDefinition) : Json :=
  .record [("name", .text d.name), ("places", .ofList PlaceDefinition.toJson d.places),
    ("transitions", .ofList .text d.transitions), ("rules", .ofList .text d.rules)]

def ofJson? (value : Json) : Option NetDefinition := do
  match ← value.fields? ["name", "places", "transitions", "rules"] 0 with
  | [name, places, transitions, rules] =>
    return {
      name := ← Json.required? Json.text? name
      places := ← Json.required? (Json.list? PlaceDefinition.ofJson?) places
      transitions := ← Json.required? (Json.list? Json.text?) transitions
      rules := ← Json.required? (Json.list? Json.text?) rules }
  | _ => none

def toText (d : NetDefinition) : String :=
  d.toJson.pretty

def ofText? (text : String) : Option NetDefinition :=
  (Json.parse? text).bind ofJson?

end NetDefinition

end Coverability
