import Coverability.Proofs.EndingSearches
import Coverability.Proofs.PathGrowth

/-!
# Acceleration as a least closure

A closure of a marking over a path has omega wherever it is larger than a marking of the path that it strictly
covers, and elsewhere the counts that the marking had. Acceleration gives the least one. Raising over one marking
never leaves a closure that lies above, so the order of the path and the markings that are passed on the way do
not matter.
-/

namespace Coverability.Marking

variable {m n s : Marking} {path path' : List Marking}

/-- The marking `s` holds the counts of `m`, or omega in their place, and it holds omega wherever it is larger
than a marking of the path that it strictly covers. -/
structure IsClosure (path : List Marking) (m s : Marking) : Prop where
  dimension : s.dimension = m.dimension
  raised : RaisedTo m.exact s.exact
  omega : ∀ a ∈ path, s.StrictlyCovers a → ∀ p, a.exact p < s.exact p → s.exact p = ⊤

lemma isClosure_accelerate (hd : ∀ a ∈ path, a.dimension = m.dimension) :
    IsClosure path m (m.accelerate path) := by
  refine ⟨dimension_accelerate path m, raisedTo_accelerate hd, ?_⟩
  intro a ha hcovers p hlt
  rcases accelerated_accelerate hd a ha hcovers.1 p with he | htop
  · exact absurd he hlt.ne'
  · exact htop

/-- A marking below a closure stays below it when it is raised, since the closure strictly covers whatever the
marking strictly covers. -/
lemma exact_raise_le {a : Marking} (hn : n.dimension = a.dimension) (hs : s.dimension = a.dimension)
    (homega : s.StrictlyCovers a → ∀ p, a.exact p < s.exact p → s.exact p = ⊤) (hle : n.exact ≤ s.exact) :
    (n.raise a).exact ≤ s.exact := by
  unfold raise
  split
  · next hcovers =>
    rw [exact_raiseCounts hn]
    intro p
    unfold raisedOver
    split
    · next hlt =>
      have hlt' : a.exact p < s.exact p := hlt.trans_le (hle p)
      have hstrict : s.StrictlyCovers a := by
        constructor
        · exact (covers_iff hs).mpr (((covers_iff hn).mp hcovers.1).trans hle)
        · rintro rfl
          exact lt_irrefl _ hlt'
      rw [homega hstrict p hlt']
    · exact hle p
  · exact hle

/-- Acceleration stays below every closure of a larger marking over a longer path. -/
theorem exact_accelerate_le (hd : ∀ a ∈ path, a.dimension = m.dimension) (hsub : path ⊆ path')
    (hle : m.exact ≤ n.exact) (hn : n.dimension = m.dimension) (hs : IsClosure path' n s) :
    (m.accelerate path).exact ≤ s.exact := by
  have h : (m.accelerate path).dimension = m.dimension ∧ (m.accelerate path).exact ≤ s.exact := by
    refine accelerate_induction (P := fun x => x.dimension = m.dimension ∧ x.exact ≤ s.exact) ?_
      ⟨rfl, hle.trans hs.raised.le⟩
    rintro a ha x ⟨hx, hxs⟩
    refine ⟨by rw [dimension_raise, hx], ?_⟩
    apply exact_raise_le
    · rw [hx, hd a ha]
    · rw [hs.dimension, hn, hd a ha]
    · exact hs.omega a (hsub ha)
    · exact hxs
  exact h.2

lemma exact_accelerate_mono (hd : ∀ a ∈ path', a.dimension = m.dimension) (hsub : path ⊆ path')
    (hle : m.exact ≤ n.exact) (hn : n.dimension = m.dimension) :
    (m.accelerate path).exact ≤ (n.accelerate path').exact := by
  have hclosure : IsClosure path' n (n.accelerate path') :=
    isClosure_accelerate fun a ha => (hd a ha).trans hn.symm
  exact exact_accelerate_le (fun a ha => hd a (hsub ha)) hsub hle hn hclosure

/-- The loop of acceleration ends with the least closure of the marking over the path. It depends only on which
markings are on the path, a second run changes nothing, and more tokens or more markings never give less. -/
theorem accelerate_least (hd : ∀ a ∈ path, a.dimension = m.dimension) :
    (∃ sweeps ≤ m.finiteCount + 1, accelerateWithin path sweeps m = some (m.accelerate path)) ∧
    IsClosure path m (m.accelerate path) ∧
    (∀ s, IsClosure path m s → ∀ p, (m.accelerate path).exact p ≤ s.exact p) ∧
    (∀ path' : List Marking, (∀ a, a ∈ path' ↔ a ∈ path) → m.accelerate path' = m.accelerate path) ∧
    (m.accelerate path).accelerate path = m.accelerate path ∧
    ∀ (n : Marking) (path' : List Marking), n.dimension = m.dimension → (∀ a ∈ path', a.dimension = m.dimension) →
      n.Covers m → path ⊆ path' → (n.accelerate path').Covers (m.accelerate path) := by
  refine ⟨?_, isClosure_accelerate hd, ?_, ?_, ?_, ?_⟩
  · exact ⟨m.finiteCount + 1, le_refl _, accelerateWithin_eq_accelerate path (Nat.lt_succ_self _)⟩
  · exact fun s hs => exact_accelerate_le hd (List.Subset.refl path) le_rfl rfl hs
  · intro path' hsame
    have hd' : ∀ a ∈ path', a.dimension = m.dimension := fun a ha => hd a ((hsame a).mp ha)
    apply exact_inj
    · rw [dimension_accelerate, dimension_accelerate]
    · apply le_antisymm
      · exact exact_accelerate_mono hd (fun a ha => (hsame a).mp ha) le_rfl rfl
      · exact exact_accelerate_mono hd' (fun a ha => (hsame a).mpr ha) le_rfl rfl
  · rw [accelerate, if_pos (sweep_accelerate path m)]
  · intro n path' hn hd' hcovers hsub
    rw [covers_iff (by rw [dimension_accelerate, dimension_accelerate, hn])]
    exact exact_accelerate_mono hd' hsub ((covers_iff hn).mp hcovers) hn

/-- The marking covers `(0 2 0)` only after `(0 0 1)` has put omega on the second place. -/
theorem accelerate_twice : (∀ a ∈ [Marking.ofFinite [0, 2, 0], .ofFinite [0, 0, 1]], a.dimension = 3) ∧
    (∃ sweeps ≤ 4, accelerateWithin [.ofFinite [0, 2, 0], .ofFinite [0, 0, 1]] sweeps (.ofFinite [1, 1, 1]) =
      some ⟨[.infinite, .infinite, .infinite]⟩) ∧
    accelerate [.ofFinite [0, 0, 1], .ofFinite [0, 2, 0], .ofFinite [0, 0, 1]] (.ofFinite [1, 1, 1]) =
      ⟨[.infinite, .infinite, .infinite]⟩ := by
  have hd : ∀ a ∈ [Marking.ofFinite [0, 2, 0], .ofFinite [0, 0, 1]], a.dimension = 3 := by decide
  have hresult : accelerate [.ofFinite [0, 2, 0], .ofFinite [0, 0, 1]] (.ofFinite [1, 1, 1]) =
      ⟨[.infinite, .infinite, .infinite]⟩ := by
    cbv
  obtain ⟨hends, -, -, horder, -⟩ := accelerate_least (m := .ofFinite [1, 1, 1]) hd
  rw [hresult] at hends horder
  refine ⟨hd, hends, horder _ fun a => ?_⟩
  simp only [List.mem_cons, List.not_mem_nil, or_false]
  tauto

end Coverability.Marking
