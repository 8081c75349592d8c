import Coverability.Json.Nets
import Coverability.Log.Level
import Coverability.Tree.Basic

/-!
# JSON forms of trees and settings

A tree is read as it stands: its links and statistics are neither checked nor computed anew.
-/

namespace Coverability

def Pruning.ofName? : String → Option Pruning
  | "AncestorOnly" => some ancestorOnly
  | "GlobalSeen" => some globalSeen
  | _ => none

def Json.named? {α : Type} (ofName? : String → Option α) (value : Json) : Option α := do
  let (name, content) ← value.variant?
  if Json.isUnit content then ofName? name else none

def LogLevel.ofName? (name : String) : Option LogLevel :=
  LogLevel.all.find? (·.name = name)

namespace Duration

def toJson (d : Duration) : Json :=
  .record [("secs", .number d.secs), ("nanos", .number d.nanos)]

/-- Whether the value has no members but the parts of a span of time. -/
def hasPartsOnly : Json → Bool
  | .object members => members.all fun (key, _) => key = some "secs" ∨ key = some "nanos"
  | _ => true

def ofJson? (value : Json) : Option Duration := do
  if !hasPartsOnly value then none
  match ← value.fields? ["secs", "nanos"] 0 with
  | [secs, nanos] =>
    ofParts? (← Json.required? Json.count? secs) (← Json.required? Json.index? nanos)
  | _ => none

end Duration

namespace NodeKind

def toJson : NodeKind → Json
  | interior => .text "Interior"
  | duplicate other => .record [("Duplicate", .record [("of", .number other)])]
  | dead => .text "Dead"

def ofJson? (value : Json) : Option NodeKind := do
  match ← value.variant? with
  | ("Interior", content) => if Json.isUnit content then some interior else none
  | ("Dead", content) => if Json.isUnit content then some dead else none
  | ("Duplicate", some content) =>
    match ← content.fields? ["of"] 0 with
    | [other] => return .duplicate (← Json.required? Json.index? other)
    | _ => none
  | _ => none

end NodeKind

namespace Node

def toJson (node : Node) : Json :=
  .record [("transition", .orNull .number node.transition), ("marking", node.marking.toJson),
    ("parent", .orNull .number node.parent), ("children", .ofList .number node.children),
    ("kind", node.kind.toJson), ("depth", .number node.depth)]

def ofJson? (value : Json) : Option Node := do
  match ← value.fields? ["transition", "marking", "parent", "children", "kind", "depth"] 0 with
  | [transition, marking, parent, children, kind, depth] =>
    return {
      transition := ← Json.optional? Json.index? transition
      marking := ← Json.required? Marking.ofJson? marking
      parent := ← Json.optional? Json.index? parent
      children := ← Json.required? (Json.list? Json.index?) children
      kind := ← Json.required? NodeKind.ofJson? kind
      depth := ← Json.required? Json.count? depth }
  | _ => none

end Node

namespace Statistics

def toJson (s : Statistics) : Json :=
  .record [("node_count", .number s.nodeCount), ("duplicate_count", .number s.duplicateCount),
    ("dead_count", .number s.deadCount), ("max_depth", .number s.maxDepth),
    ("time", s.time.toJson)]

def ofJson? (value : Json) : Option Statistics := do
  match ← value.fields? ["node_count", "duplicate_count", "dead_count", "max_depth", "time"] 0 with
  | [nodeCount, duplicateCount, deadCount, maxDepth, time] =>
    return {
      nodeCount := ← Json.required? Json.count? nodeCount
      duplicateCount := ← Json.required? Json.count? duplicateCount
      deadCount := ← Json.required? Json.count? deadCount
      maxDepth := ← Json.required? Json.count? maxDepth
      time := ← Json.required? Duration.ofJson? time }
  | _ => none

end Statistics

namespace Tree

def toJson (tree : Tree) : Json :=
  .record [("place_names", .ofList .text tree.placeNames),
    ("transition_names", .ofList .text tree.transitionNames),
    ("pruning", .text tree.pruning.name), ("nodes", .ofList Node.toJson tree.nodes.toList),
    ("statistics", tree.statistics.toJson)]

def ofJson? (value : Json) : Option Tree := do
  match ← value.fields? ["place_names", "transition_names", "pruning", "nodes", "statistics"] 0 with
  | [placeNames, transitionNames, pruning, nodes, statistics] =>
    return {
      placeNames := ← Json.required? (Json.list? Json.text?) placeNames
      transitionNames := ← Json.required? (Json.list? Json.text?) transitionNames
      pruning := ← Json.required? (Json.named? Pruning.ofName?) pruning
      nodes := (← Json.required? (Json.list? Node.ofJson?) nodes).toArray
      statistics := ← Json.required? Statistics.ofJson? statistics }
  | _ => none

def toText (tree : Tree) : String :=
  tree.toJson.pretty

def ofText? (text : String) : Option Tree :=
  (Json.parse? text).bind ofJson?

end Tree

end Coverability
