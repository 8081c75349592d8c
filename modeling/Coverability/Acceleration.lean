import Coverability.Marking

/-!
# Acceleration

A marking that strictly covers one of its ancestors can be reached with ever more tokens on the places
where it is larger, so these places are raised to omega. A raised marking may cover ancestors that it
did not cover before; `Marking.accelerate` goes over the path until nothing changes.
-/

namespace Coverability

/-- Raises to omega every count that lies above the count of `ancestor` at the same place. -/
def raiseCounts : List TokenCount → List TokenCount → List TokenCount
  | count :: counts, ancestor :: ancestors =>
    (if ancestor < count then .infinite else count) :: raiseCounts counts ancestors
  | counts, _ => counts

namespace Marking

/-- Raises `m` over one ancestor, if it strictly covers it. -/
def raise (m ancestor : Marking) : Marking :=
  if m.StrictlyCovers ancestor then ⟨raiseCounts m.counts ancestor.counts⟩ else m

def sweep (path : List Marking) (m : Marking) : Marking :=
  path.foldl raise m

def finiteCount (m : Marking) : Nat :=
  m.counts.countP (!·.isInfinite)

end Marking

theorem length_raiseCounts (counts ancestors : List TokenCount) :
    (raiseCounts counts ancestors).length = counts.length := by
  induction counts generalizing ancestors with
  | nil => simp [raiseCounts]
  | cons count counts ih =>
    cases ancestors with
    | nil => simp [raiseCounts]
    | cons ancestor ancestors => simp [raiseCounts, ih]

theorem raiseCounts_eq_or_countP_lt (counts ancestors : List TokenCount) :
    raiseCounts counts ancestors = counts ∨
      (raiseCounts counts ancestors).countP (!·.isInfinite) < counts.countP (!·.isInfinite) := by
  induction counts generalizing ancestors with
  | nil => simp [raiseCounts]
  | cons count counts ih =>
    cases ancestors with
    | nil => simp [raiseCounts]
    | cons ancestor ancestors =>
      cases count with
      | infinite =>
        rcases ih ancestors with h | h
        · simp [raiseCounts, h]
        · simp [raiseCounts, h]
      | finite n =>
        by_cases hlt : ancestor < .finite n
        · right
          rcases ih ancestors with h | h
          · simp [raiseCounts, hlt, h]
          · simp [raiseCounts, hlt]
            omega
        · rcases ih ancestors with h | h
          · simp [raiseCounts, hlt, h]
          · simp [raiseCounts, hlt, h]

namespace Marking

@[simp] theorem dimension_raise (m ancestor : Marking) :
    (m.raise ancestor).dimension = m.dimension := by
  unfold raise
  split
  · simp [dimension, length_raiseCounts]
  · rfl

theorem raise_eq_or_finiteCount_lt (m ancestor : Marking) :
    m.raise ancestor = m ∨ (m.raise ancestor).finiteCount < m.finiteCount := by
  unfold raise
  split
  · rcases raiseCounts_eq_or_countP_lt m.counts ancestor.counts with h | h
    · left
      rw [h]
    · right
      exact h
  · left
    rfl

@[simp] theorem dimension_sweep (path : List Marking) (m : Marking) :
    (m.sweep path).dimension = m.dimension := by
  induction path generalizing m with
  | nil => rfl
  | cons ancestor path ih =>
    rw [sweep, List.foldl_cons, ← sweep, ih, dimension_raise]

theorem sweep_eq_or_finiteCount_lt (path : List Marking) (m : Marking) :
    m.sweep path = m ∨ (m.sweep path).finiteCount < m.finiteCount := by
  induction path generalizing m with
  | nil => exact Or.inl rfl
  | cons ancestor path ih =>
    rw [sweep, List.foldl_cons, ← sweep]
    rcases raise_eq_or_finiteCount_lt m ancestor with h | h
    · rw [h]
      exact ih m
    · rcases ih (m.raise ancestor) with h' | h' <;> right
      · rw [h']
        exact h
      · omega

/-- Raises `m` over the markings of the path until every one that it strictly covers has omega in all
places where `m` is larger. -/
def accelerate (path : List Marking) (m : Marking) : Marking :=
  if m.sweep path = m then m else accelerate path (m.sweep path)
termination_by m.finiteCount
decreasing_by
  rcases sweep_eq_or_finiteCount_lt path m with h | h
  · contradiction
  · exact h

@[simp] theorem dimension_accelerate (path : List Marking) (m : Marking) :
    (m.accelerate path).dimension = m.dimension := by
  fun_induction accelerate path m with
  | case1 m h => rfl
  | case2 m h ih => rw [ih, dimension_sweep]

end Marking

end Coverability
