import Coverability.TokenCount

/-!
# Entities

The declarations from which a net is built, and the numbers that names stand for.
-/

namespace Coverability

inductive Entity where
  | place (name : String) (tokens : TokenCount)
  | transition (name : String)
deriving DecidableEq, Repr

def Entity.name : Entity → String
  | place name _ => name
  | transition name => name

instance : ToString Entity where
  toString
    | .place name tokens => s!"{name}: {tokens}"
    | .transition name => name

/-- What a name stands for: a place or a transition, numbered in the order of declaration. -/
inductive EntityRef where
  | place (index : Nat)
  | transition (index : Nat)
deriving DecidableEq, Repr

end Coverability
