/-!
# Token counts

The number of tokens on a place: a 32-bit count, or omega, which stands for "as many as wanted".
Omega absorbs every addition and subtraction and lies above every finite count.
-/

namespace Coverability

inductive TokenCount where
  | finite (n : UInt32)
  | infinite
deriving DecidableEq, Hashable, Repr

/-- The sum of two 32-bit counts, or `none` if it does not fit. -/
def addWithin? (m n : UInt32) : Option UInt32 :=
  if m.toNat + n.toNat < UInt32.size then some (m + n) else none

namespace TokenCount

instance : Inhabited TokenCount := ⟨finite 0⟩

/-- The order of counts: that of the numbers, with omega above them all. -/
protected def le : TokenCount → TokenCount → Prop
  | _, infinite => True
  | infinite, finite _ => False
  | finite m, finite n => m ≤ n

instance : LE TokenCount := ⟨TokenCount.le⟩

instance : LT TokenCount := ⟨fun a b => a ≤ b ∧ ¬b ≤ a⟩

instance decidableLe : (a b : TokenCount) → Decidable (a ≤ b)
  | finite _, infinite => isTrue trivial
  | infinite, infinite => isTrue trivial
  | infinite, finite _ => isFalse id
  | finite m, finite n => inferInstanceAs (Decidable (m ≤ n))

instance decidableLt (a b : TokenCount) : Decidable (a < b) :=
  inferInstanceAs (Decidable (a ≤ b ∧ ¬b ≤ a))

instance : Ord TokenCount where
  compare a b := if a = b then .eq else if a ≤ b then .lt else .gt

instance : Max TokenCount := maxOfLe

instance : Min TokenCount := minOfLe

instance : ToString TokenCount where
  toString
    | finite n => toString n.toNat
    | infinite => "Ω"

def isInfinite : TokenCount → Bool
  | finite _ => false
  | infinite => true

def finite? : TokenCount → Option UInt32
  | finite n => some n
  | infinite => none

def canConsume (count : TokenCount) (weight : UInt32) : Bool :=
  finite weight ≤ count

/-- Takes `weight` tokens away, or returns `none` if there are fewer. -/
def sub? : TokenCount → UInt32 → Option TokenCount
  | finite n, weight => if weight ≤ n then some (finite (n - weight)) else none
  | infinite, _ => some infinite

/-- Adds `weight` tokens, or returns `none` if a finite count would leave 32 bits. -/
def add? : TokenCount → UInt32 → Option TokenCount
  | finite n, weight => (addWithin? n weight).map finite
  | infinite, _ => some infinite

@[simp] theorem isInfinite_finite (n : UInt32) : (finite n).isInfinite = false := rfl

@[simp] theorem isInfinite_infinite : infinite.isInfinite = true := rfl

@[simp] theorem le_infinite (a : TokenCount) : a ≤ infinite := by
  cases a <;> exact trivial

@[simp] theorem not_infinite_le_finite (n : UInt32) : ¬infinite ≤ finite n := id

@[simp] theorem finite_le_finite {m n : UInt32} : finite m ≤ finite n ↔ m ≤ n := Iff.rfl

end TokenCount

end Coverability
