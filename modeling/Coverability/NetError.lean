/-!
# Errors of nets

What can go wrong while a net is built or its transitions fire, and how it is reported.
-/

namespace Coverability

/-- Why a rule line is rejected. -/
inductive RuleFault where
  | shape
  /-- A rule is followed by this text. -/
  | unexpected (rest : String)
  | zeroMultiplicity (target : String)
  /-- Both names stand for places, or both for transitions. -/
  | sameKind (source target : String)
  /-- The sum of the multiplicities of the target leaves 32 bits. -/
  | overflow (target : String)
deriving DecidableEq, Repr

/-- The reason as it is reported. -/
def RuleFault.message : RuleFault → String
  | shape => "expected 'name -> entries'"
  | unexpected rest => s!"unexpected input '{rest}'"
  | zeroMultiplicity target => s!"multiplicity of '{target}' must be positive"
  | sameKind source target => s!"'{source}' and '{target}' are both places or both transitions"
  | overflow target => s!"multiplicity of '{target}' overflows"

/-- An error of building or firing a net. -/
inductive NetError where
  | malformedRule (line : String) (fault : RuleFault)
  /-- A name is not declared, or not with the kind that is asked for. -/
  | unknownEntity (name : String)
  | duplicateName (name : String)
  | insufficientTokens (transition place : String) (required available : UInt32)
  /-- Firing would leave more tokens on the place than 32 bits hold. -/
  | tokenOverflow (transition place : String)
  /-- The marking has another number of places than the net. -/
  | dimensionMismatch (expected actual : Nat)
  /-- The call breaks its contract: an index is out of range, or a marking does not fit. -/
  | contractViolation
deriving DecidableEq, Repr

namespace NetError

def message : NetError → String
  | malformedRule line fault => s!"Malformed rule '{line}': {fault.message}"
  | unknownEntity name => s!"Can not find entity '{name}'"
  | duplicateName name => s!"Name '{name}' is declared more than once"
  | insufficientTokens transition place required available =>
    s!"Transition '{transition}' needs {required} tokens from '{place}', " ++
      s!"but only {available} are present"
  | tokenOverflow transition place =>
    s!"Firing '{transition}' overflows the token count of '{place}'"
  | dimensionMismatch expected actual =>
    s!"Marking has {actual} entries, but the net has {expected} places"
  | contractViolation => "The call breaks its contract"

/-- Whether the error only says that a transition could not fire. -/
def isNotEnabled : NetError → Bool
  | insufficientTokens .. => true
  | _ => false

end NetError

end Coverability
