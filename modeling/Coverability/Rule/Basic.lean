import Coverability.TokenCount

/-!
# Arc rules

A rule line `name -> entries` lists the targets of one place or transition. A transition on the left
produces tokens on the listed places, and a place on the left is consumed by the listed transitions.
-/

namespace Coverability

/-- A target of a rule with its multiplicity. -/
structure Target where
  /-- The multiplicity, `1` if none is written. -/
  weight : UInt32
  name : String
deriving DecidableEq, Repr

/-- A rule as it is read from a line. -/
structure Rule where
  line : String
  source : String
  /-- The targets on the right, in order. -/
  targets : List Target
deriving DecidableEq, Repr

end Coverability
