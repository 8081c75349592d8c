import Coverability.TokenCount

/-!
# The arcs of a transition

Every transition has a list of arcs it consumes over and a list of arcs it produces over. A place
occurs at most once per list, since repeated arcs are summed into one weight.
-/

namespace Coverability

structure Arc where
  weight : UInt32
  place : Nat
deriving DecidableEq, Repr

namespace Arc

/-- The weight of the first arc at `place`, `0` if there is none. -/
def weightAt (arcs : List Arc) (place : Nat) : UInt32 :=
  match arcs.find? (·.place = place) with
  | some arc => arc.weight
  | none => 0

/-- Adds `weight` to the arc at `place`, or a new arc at the end if there is none; `none` if the sum
leaves 32 bits. -/
def insert? : List Arc → Nat → UInt32 → Option (List Arc)
  | [], place, weight => some [⟨weight, place⟩]
  | arc :: arcs, place, weight =>
    if arc.place = place then
      (addWithin? arc.weight weight).map fun sum => ⟨sum, place⟩ :: arcs
    else
      (insert? arcs place weight).map (arc :: ·)

def insertAll? (arcs added : List Arc) : Option (List Arc) :=
  added.foldlM (fun arcs arc => insert? arcs arc.place arc.weight) arcs

/-- Adds `weight` in place to the arc at `place`, or a new arc at the end if there is none. Reports the
weight that the arc then has, and does not write it back if it leaves 32 bits. -/
def addInPlace : List Arc → Nat → UInt32 → Option UInt32 × List Arc
  | [], place, weight => (some weight, [⟨weight, place⟩])
  | arc :: arcs, place, weight =>
    if arc.place = place then
      match addWithin? arc.weight weight with
      | some sum => (some sum, ⟨sum, place⟩ :: arcs)
      | none => (none, arc :: arcs)
    else
      let (sum, rest) := addInPlace arcs place weight
      (sum, arc :: rest)

end Arc

/-- Whether a transition consumes over an arc or produces over it. -/
inductive Direction where
  | consumes
  | produces
deriving DecidableEq

/-- An arc that is to be added in one of the two directions. -/
structure Addition where
  direction : Direction
  arc : Arc
deriving DecidableEq

structure Arcs where
  consumes : List Arc := []
  produces : List Arc := []
deriving DecidableEq, Repr

namespace Arcs

/-- The arcs with repetitions summed, or `none` if a sum leaves 32 bits. -/
def ofLists? (consumes produces : List Arc) : Option Arcs := do
  return { consumes := ← Arc.insertAll? [] consumes, produces := ← Arc.insertAll? [] produces }

def addConsumed? (arcs : Arcs) (place : Nat) (weight : UInt32) : Option Arcs :=
  (Arc.insert? arcs.consumes place weight).map fun consumes => { arcs with consumes }

def addProduced? (arcs : Arcs) (place : Nat) (weight : UInt32) : Option Arcs :=
  (Arc.insert? arcs.produces place weight).map fun produces => { arcs with produces }

/-- How many tokens a firing takes from `place`. -/
def consumedWeight (arcs : Arcs) (place : Nat) : UInt32 :=
  Arc.weightAt arcs.consumes place

/-- How many tokens a firing puts on `place`. -/
def producedWeight (arcs : Arcs) (place : Nat) : UInt32 :=
  Arc.weightAt arcs.produces place

def effect (arcs : Arcs) (place : Nat) : Int :=
  (arcs.producedWeight place).toNat - (arcs.consumedWeight place).toNat

def side (arcs : Arcs) : Direction → List Arc
  | .consumes => arcs.consumes
  | .produces => arcs.produces

def withSide (arcs : Arcs) : Direction → List Arc → Arcs
  | .consumes, consumes => { arcs with consumes }
  | .produces, produces => { arcs with produces }

/-- How many tokens a firing moves at a place in the direction. -/
def weight (arcs : Arcs) : Direction → Nat → UInt32
  | .consumes => arcs.consumedWeight
  | .produces => arcs.producedWeight

def add? (arcs : Arcs) (a : Addition) : Option Arcs :=
  match a.direction with
  | .consumes => arcs.addConsumed? a.arc.place a.arc.weight
  | .produces => arcs.addProduced? a.arc.place a.arc.weight

/-- Calls for an addition. The result is the new weight, or `none` if the addition is rejected, and the
arcs that are there after the call. -/
def call (arcs : Arcs) (a : Addition) : Option UInt32 × Arcs :=
  let (sum, side) := Arc.addInPlace (arcs.side a.direction) a.arc.place a.arc.weight
  (sum, arcs.withSide a.direction side)

end Arcs

end Coverability
