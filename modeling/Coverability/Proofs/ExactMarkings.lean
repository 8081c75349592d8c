import Coverability.Acceleration
import Mathlib.Tactic

/-!
# Markings without a bound

`Marking.exact` reads a marking as a function into the extended naturals, with `⊤` for omega and no
tokens outside the net. The operations on counts and markings are restated through this reading:
covering becomes the pointwise order, and acceleration raises counts to `⊤`.
-/

namespace Coverability

/-- A marking whose counts have no upper limit. Omega is `⊤`. -/
abbrev ExactMarking := ℕ → ℕ∞

/-- The marking `x` with omega at the places where it is larger than `a`. -/
def raisedOver (a x : ExactMarking) : ExactMarking :=
  fun p => if a p < x p then ⊤ else x p

/-- The marking `y` is `x` with some places raised to omega. -/
def RaisedTo (x y : ExactMarking) : Prop :=
  ∀ p, y p = x p ∨ y p = ⊤

namespace RaisedTo

variable {x y z : ExactMarking}

lemma refl (x : ExactMarking) : RaisedTo x x := fun _ => .inl rfl

lemma trans (h : RaisedTo x y) (h' : RaisedTo y z) : RaisedTo x z := by
  intro p
  rcases h' p with he | htop
  · rw [he]
    exact h p
  · exact .inr htop

lemma le (h : RaisedTo x y) : x ≤ y := by
  intro p
  rcases h p with he | htop
  · exact he.ge
  · exact htop ▸ le_top

/-- If a raised marking holds no new omega, then it was not raised. -/
lemma eq (h : RaisedTo x y) (hy : ∀ p, y p = ⊤ → x p = ⊤) : y = x := by
  funext p
  rcases h p with he | htop
  · exact he
  · rw [htop, hy p htop]

end RaisedTo

lemma raisedTo_raisedOver (a x : ExactMarking) : RaisedTo x (raisedOver a x) := by
  intro p
  unfold raisedOver
  split
  · exact .inr rfl
  · exact .inl rfl

namespace TokenCount

def exact : TokenCount → ℕ∞
  | finite n => (n.toNat : ℕ∞)
  | infinite => ⊤

@[simp] lemma exact_finite (n : UInt32) : (finite n).exact = (n.toNat : ℕ∞) := rfl

@[simp] lemma exact_infinite : infinite.exact = ⊤ := rfl

@[simp] lemma exact_le_exact {a b : TokenCount} : a.exact ≤ b.exact ↔ a ≤ b := by
  cases a <;> cases b <;> simp [UInt32.le_iff_toNat_le]

@[simp] lemma exact_lt_exact {a b : TokenCount} : a.exact < b.exact ↔ a < b := by
  rw [lt_iff_le_not_ge, exact_le_exact, exact_le_exact]
  rfl

lemma exact_injective : Function.Injective exact := by
  intro a b h
  cases a <;> cases b <;> simp [← UInt32.toNat_inj] at h ⊢
  exact h

@[simp] lemma exact_eq_top {count : TokenCount} : count.exact = ⊤ ↔ count = infinite := by
  cases count <;> simp

lemma exact_lt_size {count : TokenCount} (h : count.exact ≠ ⊤) : count.exact < UInt32.size := by
  cases count with
  | finite n => exact Nat.cast_lt.mpr n.toNat_lt_size
  | infinite => exact absurd rfl h

lemma canConsume_iff {count : TokenCount} {weight : UInt32} :
    count.canConsume weight = true ↔ (weight.toNat : ℕ∞) ≤ count.exact := by
  rw [canConsume, decide_eq_true_eq, ← exact_le_exact, exact_finite]

lemma exact_of_sub?_eq_some {count left : TokenCount} {weight : UInt32}
    (h : count.sub? weight = some left) :
    (weight.toNat : ℕ∞) ≤ count.exact ∧ left.exact = count.exact - weight.toNat := by
  cases count with
  | finite n =>
    simp only [sub?] at h
    split at h
    · next hle =>
      cases h
      rw [UInt32.le_iff_toNat_le] at hle
      simp only [exact_finite, UInt32.toNat_sub_of_le n weight hle]
      exact ⟨by exact_mod_cast hle, by norm_cast⟩
    · contradiction
  | infinite =>
    cases h
    simp

lemma exact_of_sub?_eq_none {count : TokenCount} {weight : UInt32} (h : count.sub? weight = none) :
    count.exact < weight.toNat := by
  cases count with
  | finite n =>
    simp only [sub?, ite_eq_right_iff, reduceCtorEq, imp_false, UInt32.le_iff_toNat_le] at h
    simpa using h
  | infinite => contradiction

lemma exact_of_add?_eq_some {count sum : TokenCount} {weight : UInt32}
    (h : count.add? weight = some sum) : sum.exact = count.exact + weight.toNat := by
  cases count with
  | finite n =>
    simp only [add?, addWithin?] at h
    split at h
    · next hlt =>
      cases h
      rw [exact_finite, exact_finite, UInt32.toNat_add, Nat.mod_eq_of_lt hlt]
      norm_cast
    · contradiction
  | infinite =>
    cases h
    simp

lemma exact_of_add?_eq_none {count : TokenCount} {weight : UInt32} (h : count.add? weight = none) :
    count.exact ≠ ⊤ ∧ (UInt32.size : ℕ∞) ≤ count.exact + weight.toNat := by
  cases count with
  | finite n =>
    simp only [add?, addWithin?, Option.map_eq_none_iff, ite_eq_right_iff, reduceCtorEq, imp_false,
      not_lt] at h
    rw [exact_finite, ← Nat.cast_add]
    exact ⟨ENat.natCast_ne_top _, Nat.cast_le.mpr h⟩
  | infinite => contradiction

end TokenCount

namespace Marking

/-- The marking as a function of the place; a place out of range holds nothing. -/
def exact (m : Marking) : ExactMarking :=
  fun place => ((m.get? place).map TokenCount.exact).getD 0

lemma exact_of_get? {m : Marking} {place : ℕ} {count : TokenCount} (h : m.get? place = some count) :
    m.exact place = count.exact := by
  simp [exact, h]

lemma exact_of_le {m : Marking} {place : ℕ} (h : m.dimension ≤ place) : m.exact place = 0 := by
  simp [exact, get?, List.getElem?_eq_none h]

lemma exists_get? {m : Marking} {place : ℕ} (h : place < m.dimension) :
    ∃ count, m.get? place = some count := ⟨m.counts[place], List.getElem?_eq_getElem h⟩

lemma lt_dimension_of_get? {m : Marking} {place : ℕ} {count : TokenCount}
    (h : m.get? place = some count) : place < m.dimension :=
  (List.getElem?_eq_some_iff.mp h).1

lemma exact_lt_size {m : Marking} {place : ℕ} (h : m.exact place ≠ ⊤) :
    m.exact place < UInt32.size := by
  by_cases hp : place < m.dimension
  · obtain ⟨count, hc⟩ := exists_get? hp
    rw [exact_of_get? hc] at h ⊢
    exact TokenCount.exact_lt_size h
  · rw [exact_of_le (not_lt.mp hp)]
    exact Nat.cast_lt.mpr (by decide : 0 < UInt32.size)

lemma exact_set {m : Marking} {place : ℕ} (h : place < m.dimension) (count : TokenCount) :
    (m.set place count).exact = Function.update m.exact place count.exact := by
  funext other
  by_cases he : other = place
  · subst he
    simp [exact, get?_set, h]
  · simp [exact, get?_set, Ne.symm he, he]

lemma exact_inj {m n : Marking} (hd : m.dimension = n.dimension) (h : m.exact = n.exact) : m = n := by
  apply ext_get?
  intro place
  by_cases hp : place < m.dimension
  · obtain ⟨a, ha⟩ := exists_get? hp
    obtain ⟨b, hb⟩ := exists_get? (hd ▸ hp : place < n.dimension)
    have hab := congrFun h place
    rw [exact_of_get? ha, exact_of_get? hb] at hab
    rw [ha, hb, TokenCount.exact_injective hab]
  · rw [get?, get?, List.getElem?_eq_none (not_lt.mp hp),
      List.getElem?_eq_none (not_lt.mp (hd ▸ hp : ¬place < n.dimension))]

lemma covers_iff {m n : Marking} (hd : m.dimension = n.dimension) :
    m.Covers n ↔ n.exact ≤ m.exact := by
  constructor
  · intro h place
    by_cases hp : place < m.dimension
    · obtain ⟨a, ha⟩ := exists_get? hp
      obtain ⟨b, hb⟩ := exists_get? (hd ▸ hp : place < n.dimension)
      rw [exact_of_get? ha, exact_of_get? hb, TokenCount.exact_le_exact]
      exact h (a, b) (List.mem_of_getElem? (List.getElem?_zip_eq_some.mpr ⟨ha, hb⟩))
    · rw [exact_of_le (not_lt.mp hp), exact_of_le (not_lt.mp (hd ▸ hp : ¬place < n.dimension))]
  · rintro h ⟨a, b⟩ hab
    obtain ⟨place, hplace⟩ := List.mem_iff_getElem?.mp hab
    obtain ⟨ha, hb⟩ := List.getElem?_zip_eq_some.mp hplace
    have hle := h place
    rwa [exact_of_get? (m := m) ha, exact_of_get? (m := n) hb, TokenCount.exact_le_exact] at hle

lemma exact_eq_top_iff {m : Marking} {place : ℕ} : m.exact place = ⊤ ↔ m.get? place = some .infinite := by
  cases h : m.get? place with
  | none => simp [exact, h]
  | some count => rw [exact_of_get? h, TokenCount.exact_eq_top, Option.some_inj]

lemma hasInfinite_iff {m : Marking} : m.hasInfinite = true ↔ ∃ p, m.exact p = ⊤ := by
  simp only [exact_eq_top_iff]
  rw [hasInfinite, List.any_eq_true]
  constructor
  · rintro ⟨count, hc, hinf⟩
    obtain ⟨p, hp⟩ := List.mem_iff_getElem?.mp hc
    cases count with
    | finite n => contradiction
    | infinite => exact ⟨p, hp⟩
  · rintro ⟨p, hp⟩
    exact ⟨.infinite, List.mem_of_getElem? hp, rfl⟩

lemma exact_raiseCounts {m ancestor : Marking} (hd : m.dimension = ancestor.dimension) :
    (Marking.mk (raiseCounts m.counts ancestor.counts)).exact =
      raisedOver ancestor.exact m.exact := by
  funext place
  obtain ⟨counts⟩ := m
  obtain ⟨ancestors⟩ := ancestor
  simp only [dimension] at hd
  induction counts generalizing ancestors place with
  | nil => simp [raiseCounts, raisedOver, exact, get?]
  | cons count counts ih =>
    cases ancestors with
    | nil => simp at hd
    | cons low ancestors =>
      cases place with
      | zero =>
        simp only [raiseCounts, raisedOver, exact, get?, List.getElem?_cons_zero, Option.map_some,
          Option.getD_some, TokenCount.exact_lt_exact]
        split <;> rfl
      | succ place => exact ih place ancestors (by simpa using hd)

/-- What is kept by raising over every marking of the path is kept by accelerating. -/
theorem accelerate_induction {P : Marking → Prop} {path : List Marking}
    (hraise : ∀ ancestor ∈ path, ∀ m, P m → P (m.raise ancestor)) {m : Marking} (hm : P m) :
    P (m.accelerate path) := by
  have hsweep : ∀ l : List Marking, l ⊆ path → ∀ m, P m → P (m.sweep l) := by
    intro l
    induction l with
    | nil => exact fun _ m hm => hm
    | cons ancestor l ih =>
      intro hl m hm
      obtain ⟨ha, hl⟩ := List.cons_subset.mp hl
      exact ih hl _ (hraise ancestor ha m hm)
  fun_induction accelerate path m with
  | case1 m h => exact hm
  | case2 m h ih => exact ih (hsweep path (List.Subset.refl _) m hm)

lemma raisedTo_accelerate {path : List Marking} {m : Marking}
    (hd : ∀ ancestor ∈ path, ancestor.dimension = m.dimension) :
    RaisedTo m.exact (m.accelerate path).exact := by
  have h : (m.accelerate path).dimension = m.dimension ∧ RaisedTo m.exact (m.accelerate path).exact := by
    refine accelerate_induction (P := fun n => n.dimension = m.dimension ∧ RaisedTo m.exact n.exact) ?_
      ⟨rfl, .refl _⟩
    rintro ancestor ha n ⟨hn, hraised⟩
    refine ⟨by rw [dimension_raise, hn], ?_⟩
    unfold raise
    split
    · rw [exact_raiseCounts (hn.trans (hd ancestor ha).symm)]
      exact hraised.trans (raisedTo_raisedOver _ _)
    · exact hraised
  exact h.2

lemma accelerate_eq {path : List Marking} {m : Marking}
    (hd : ∀ ancestor ∈ path, ancestor.dimension = m.dimension)
    (h : ∀ p, (m.accelerate path).exact p = ⊤ → m.exact p = ⊤) : m.accelerate path = m :=
  exact_inj (dimension_accelerate path m) ((raisedTo_accelerate hd).eq h)

end Marking

end Coverability
