import Coverability.Firing

/-!
# Commands on a net

A command changes a net in place. It is carried out step by step: what a step has written stays
written, whether a later step fails or not. So a command leaves a net behind in any case, besides its
answer or the reason of its failure.
-/

namespace Coverability

/-- A change of the current marking. -/
inductive Command where
  | fire (transition : String)
  /-- Fires transitions until one is not enabled. -/
  | fireSequence (transitions : List String)
  | setMarking (marking : Marking)
  | setTokens (place : String) (count : TokenCount)
  /-- Goes back to the marking with which the net was built. -/
  | reset
deriving DecidableEq, Repr

/-- Reads and writes a net in place, and may fail. -/
abbrev Change := ExceptT NetError (StateM Net)

/-- A part that does not write may fail, and the net is then left as it was found. -/
theorem Change.run_liftM_bind {α β : Type} (net : Net) (result : Except NetError α)
    (rest : α → Change β) :
    ((liftM result : Change α) >>= rest).run.run net =
      match result with
      | .ok a => (rest a).run.run net
      | .error e => (.error e, net) := by
  cases result <;> rfl

namespace Net

def withMarking (net : Net) (marking : Marking) : Net :=
  { net with marking }

end Net

/-- The steps of a command. A sequence also tells its outcome. -/
def Command.steps : Command → Change (Option Outcome)
  | fire transition => do
    let net ← get
    let marking ← net.fireNamed net.marking transition
    modify (·.withMarking marking)
    return none
  | fireSequence transitions => do
    let net ← get
    let outcome ← net.fireSequence net.marking transitions
    modify (·.withMarking outcome.marking)
    return some outcome
  | setMarking marking => do
    let net ← get
    net.checkDimension marking
    modify (·.withMarking marking)
    return none
  | setTokens place count => do
    let net ← get
    let index ← net.placeIndex place
    match net.marking.set? index count with
    | some marking => modify (·.withMarking marking)
    | none => throw .contractViolation
    return none
  | reset => do
    modify fun net => net.withMarking net.initial
    return none

namespace Net

/-- Carries out a command. The result is its answer, or the reason of its failure, and the net that it
leaves. -/
def call (net : Net) (command : Command) : Except NetError (Option Outcome) × Net :=
  command.steps.run.run net

/-- The net that a command leaves, also if it fails. -/
def after (net : Net) (command : Command) : Net :=
  (net.call command).2

/-- The answer of a command with the net that it leaves, if it succeeds. -/
def perform (net : Net) (command : Command) : Except NetError (Net × Option Outcome) :=
  (net.call command).1.map fun outcome => (net.after command, outcome)

section Calls

variable (net : Net)

theorem call_fire (transition : String) : net.call (.fire transition) =
    match net.fireNamed net.marking transition with
    | .ok marking => (.ok none, net.withMarking marking)
    | .error e => (.error e, net) := by
  refine (Change.run_liftM_bind net (net.fireNamed net.marking transition) _).trans ?_
  cases net.fireNamed net.marking transition <;> rfl

theorem call_fireSequence (transitions : List String) : net.call (.fireSequence transitions) =
    match net.fireSequence net.marking transitions with
    | .ok outcome => (.ok (some outcome), net.withMarking outcome.marking)
    | .error e => (.error e, net) := by
  refine (Change.run_liftM_bind net (net.fireSequence net.marking transitions) _).trans ?_
  cases net.fireSequence net.marking transitions <;> rfl

theorem call_setMarking (marking : Marking) : net.call (.setMarking marking) =
    match net.checkDimension marking with
    | .ok () => (.ok none, net.withMarking marking)
    | .error e => (.error e, net) := by
  refine (Change.run_liftM_bind net (net.checkDimension marking) _).trans ?_
  cases net.checkDimension marking <;> rfl

theorem call_setTokens (place : String) (count : TokenCount) : net.call (.setTokens place count) =
    match net.placeIndex place with
    | .ok index =>
      match net.marking.set? index count with
      | some marking => (.ok none, net.withMarking marking)
      | none => (.error .contractViolation, net)
    | .error e => (.error e, net) := by
  refine (Change.run_liftM_bind net (net.placeIndex place) _).trans ?_
  cases net.placeIndex place with
  | error e => rfl
  | ok index =>
    dsimp only
    cases net.marking.set? index count <;> rfl

theorem call_reset : net.call .reset = (.ok none, net.withMarking net.initial) :=
  rfl

end Calls

def tokens (net : Net) (place : String) : Except NetError TokenCount := do
  match net.marking.get? (← net.placeIndex place) with
  | some count => return count
  | none => .error .contractViolation

/-- Whether the transition with this name is enabled in the current marking. -/
def isEnabledNamed (net : Net) (transition : String) : Except NetError Bool := do
  net.isEnabled net.marking (← net.transitionIndex transition)

end Net

end Coverability
