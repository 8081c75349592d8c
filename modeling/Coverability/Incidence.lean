import Coverability.Arcs
import Coverability.Entity
import Coverability.NetError
import Coverability.Rule.Basic

/-!
# Incidence

`incidence` turns parsed rules into the arcs of every transition. Each target of a rule adds one arc,
and arcs between the same place and transition in the same direction are summed.
-/

namespace Coverability

/-- Replaces the arcs of transition `t` by what `add?` makes of them, which is `none` if the weight of
`target` leaves 32 bits. -/
def updateArcs (rule : Rule) (target : Target) (arcs : List Arcs) (t : Nat)
    (add? : Arcs → Option Arcs) : Except NetError (List Arcs) :=
  match arcs[t]? with
  | none => .error .contractViolation
  | some old =>
    match add? old with
    | none => .error (.malformedRule rule.line (.overflow target.name))
    | some new => .ok (arcs.set t new)

def resolved (resolve : String → Option EntityRef) (name : String) : Except NetError EntityRef :=
  match resolve name with
  | none => .error (.unknownEntity name)
  | some entity => .ok entity

/-- Adds the arc between the source of a rule and one of its targets. -/
def addTarget (resolve : String → Option EntityRef) (rule : Rule) (source : EntityRef)
    (arcs : List Arcs) (target : Target) : Except NetError (List Arcs) :=
  if target.weight = 0 then
    .error (.malformedRule rule.line (.zeroMultiplicity target.name))
  else do
    match source, ← resolved resolve target.name with
    | .transition t, .place p =>
      updateArcs rule target arcs t (·.addProduced? p target.weight)
    | .place p, .transition t =>
      updateArcs rule target arcs t (·.addConsumed? p target.weight)
    | _, _ => .error (.malformedRule rule.line (.sameKind rule.source target.name))

def addRule (resolve : String → Option EntityRef) (arcs : List Arcs) (rule : Rule) :
    Except NetError (List Arcs) := do
  let source ← resolved resolve rule.source
  rule.targets.foldlM (addTarget resolve rule source) arcs

/-- The arcs of each of `transitionCount` transitions, read from the rules in order. -/
def incidence (rules : List Rule) (transitionCount : Nat) (resolve : String → Option EntityRef) :
    Except NetError (List Arcs) :=
  rules.foldlM (addRule resolve) (List.replicate transitionCount {})

end Coverability
