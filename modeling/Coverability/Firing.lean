import Coverability.Net.Basic

/-!
# Firing

A transition fires on a marking of the net's dimension: it first takes the tokens of the arcs it
consumes over, and then puts down those of the arcs it produces over, in the order of the arcs. A
sequence stops at its first transition that is not enabled.
-/

namespace Coverability

structure Outcome where
  success : Bool
  marking : Marking
  applied : List String
deriving DecidableEq, Repr

/-- Whether the place of the arc holds enough tokens for it. The place has to be one of the marking. -/
def Marking.canConsume (m : Marking) (arc : Arc) : Except NetError Bool :=
  match m.get? arc.place with
  | some count => .ok (count.canConsume arc.weight)
  | none => .error .contractViolation

namespace Net

/-- Takes the tokens that transition `t` consumes over one arc. -/
def consume (net : Net) (t : Nat) (m : Marking) (arc : Arc) : Except NetError Marking :=
  match m.get? arc.place with
  | none => .error .contractViolation
  | some count =>
    match count.sub? arc.weight with
    | some left => .ok (m.set arc.place left)
    | none =>
      .error (.insufficientTokens (net.transitionName t) (net.placeName arc.place) arc.weight
        (count.finite?.getD 0))

/-- Puts down the tokens that transition `t` produces over one arc. -/
def produce (net : Net) (t : Nat) (m : Marking) (arc : Arc) : Except NetError Marking :=
  match m.get? arc.place with
  | none => .error .contractViolation
  | some count =>
    match count.add? arc.weight with
    | some sum => .ok (m.set arc.place sum)
    | none => .error (.tokenOverflow (net.transitionName t) (net.placeName arc.place))

def fire (net : Net) (m : Marking) (t : Nat) : Except NetError Marking := do
  net.checkDimension m
  match net.arcs[t]? with
  | none => .error .contractViolation
  | some arcs =>
    let taken ← arcs.consumes.foldlM (net.consume t) m
    arcs.produces.foldlM (net.produce t) taken

def fireNamed (net : Net) (m : Marking) (transition : String) : Except NetError Marking := do
  net.fire m (← net.transitionIndex transition)

/-- Whether every place that the transition with index `t` consumes from holds enough tokens. The
marking has to fit the net, and `t` has to be a transition. -/
def isEnabled (net : Net) (m : Marking) (t : Nat) : Except NetError Bool :=
  if m.dimension = net.placeCount then
    match net.arcs[t]? with
    | some arcs => arcs.consumes.allM m.canConsume
    | none => .error .contractViolation
  else .error .contractViolation

def enabledTransitions (net : Net) (m : Marking) : Except NetError (List Nat) :=
  (List.range net.transitionCount).filterM (net.isEnabled m)

/-- Fires the transitions with these indices, one after the other. -/
def fireAll (net : Net) (m : Marking) : List Nat → Except NetError Outcome
  | [] => .ok { success := true, marking := m, applied := [] }
  | t :: ts =>
    match net.fire m t with
    | .ok next => do
      let outcome ← net.fireAll next ts
      return { outcome with applied := net.transitionName t :: outcome.applied }
    | .error e =>
      if e.isNotEnabled then .ok { success := false, marking := m, applied := [] } else .error e

/-- Fires the transitions with these names, all of which have to be declared. -/
def fireSequence (net : Net) (m : Marking) (transitions : List String) :
    Except NetError Outcome := do
  net.checkDimension m
  net.fireAll m (← transitions.mapM net.transitionIndex)

end Net

end Coverability
