import Coverability.TokenCount

/-!
# Markings

A marking gives the token count of every place of a net, in the order in which the places are
declared. `Covers` compares markings place by place.
-/

namespace Coverability

structure Marking where
  counts : List TokenCount
deriving DecidableEq, Hashable, Repr

namespace Marking

def zero (dimension : Nat) : Marking :=
  ⟨List.replicate dimension (.finite 0)⟩

def ofFinite (counts : List UInt32) : Marking :=
  ⟨counts.map .finite⟩

def dimension (m : Marking) : Nat :=
  m.counts.length

def get? (m : Marking) (place : Nat) : Option TokenCount :=
  m.counts[place]?

/-- The marking with `count` at `place`; a place out of range changes nothing. -/
def set (m : Marking) (place : Nat) (count : TokenCount) : Marking :=
  ⟨m.counts.set place count⟩

/-- The marking with `count` at `place`, or `none` if there is no such place. -/
def set? (m : Marking) (place : Nat) (count : TokenCount) : Option Marking :=
  if place < m.dimension then some (m.set place count) else none

/-- The marking `m` holds at least as many tokens as `n` in every place. -/
def Covers (m n : Marking) : Prop :=
  ∀ pair ∈ m.counts.zip n.counts, pair.2 ≤ pair.1

instance (m n : Marking) : Decidable (m.Covers n) :=
  inferInstanceAs (Decidable (∀ pair ∈ m.counts.zip n.counts, pair.2 ≤ pair.1))

def StrictlyCovers (m n : Marking) : Prop :=
  m.Covers n ∧ m ≠ n

instance (m n : Marking) : Decidable (m.StrictlyCovers n) :=
  inferInstanceAs (Decidable (m.Covers n ∧ m ≠ n))

def hasInfinite (m : Marking) : Bool :=
  m.counts.any TokenCount.isInfinite

def infinitePlaces (m : Marking) : List Nat :=
  m.counts.zipIdx.filterMap fun (count, place) => if count.isInfinite then some place else none

instance : ToString Marking where
  toString m := "(" ++ " ".intercalate (m.counts.map toString) ++ ")"

@[simp] theorem dimension_set (m : Marking) (place : Nat) (count : TokenCount) :
    (m.set place count).dimension = m.dimension := by
  simp [set, dimension]

theorem get?_set (m : Marking) (place : Nat) (count : TokenCount) (other : Nat) :
    (m.set place count).get? other =
      if place = other then (if place < m.dimension then some count else none)
      else m.get? other := by
  by_cases h : place = other <;> simp [get?, set, dimension, List.getElem?_set, h]

theorem ext_get? {m n : Marking} (h : ∀ place, m.get? place = n.get? place) : m = n := by
  cases m; cases n
  simp only [get?, mk.injEq] at h ⊢
  exact List.ext_getElem? h

end Marking

end Coverability
