import Coverability.Proofs.ExactFiring

/-!
# Sums of arcs

A list of arcs into which others were inserted sums them up: it holds one arc for each place that was mentioned, in
the order of the first mention, with the exact sum of the weights. An insertion fails just if that sum does not fit
into 32 bits.
-/

namespace Coverability

lemma eraseDups_append_singleton {l : List ℕ} {a : ℕ} :
    (l ++ [a]).eraseDups = if a ∈ l then l.eraseDups else l.eraseDups ++ [a] := by
  by_cases h : a ∈ l <;> simp [List.eraseDups_append, List.eraseDups_cons, List.removeAll, h]

namespace Arc

/-- The sum of the weights that the arcs have at `place`. -/
def total (arcs : List Arc) (place : ℕ) : ℕ :=
  ((arcs.filter (·.place = place)).map (·.weight.toNat)).sum

/-- The list `sum` has one arc for each place of `arcs`, in the order in which they first occur, and its weight is the
sum of the weights at that place. -/
structure Sums (arcs sum : List Arc) : Prop where
  nodup : (sum.map Arc.place).Nodup
  places : sum.map Arc.place = (arcs.map Arc.place).eraseDups
  weights : ∀ arc ∈ sum, arc.weight.toNat = total arcs arc.place

variable {arcs more sum next : List Arc} {arc : Arc} {place other : ℕ} {weight : UInt32}

lemma total_append : total (arcs ++ more) place = total arcs place + total more place := by
  simp [total]

lemma total_singleton : total [arc] place = if arc.place = place then arc.weight.toNat else 0 := by
  by_cases h : arc.place = place <;> simp [total, h]

lemma total_eq_zero (h : place ∉ arcs.map Arc.place) : total arcs place = 0 := by
  have hnone : arcs.filter (·.place = place) = [] := by
    rw [List.filter_eq_nil_iff]
    intro arc ha he
    exact h (List.mem_map.mpr ⟨arc, ha, of_decide_eq_true he⟩)
  rw [total, hnone]
  rfl

lemma toNat_of_addWithin? {a b c : UInt32} (h : addWithin? a b = some c) : c.toNat = a.toNat + b.toNat := by
  simp only [addWithin?, Option.ite_none_right_eq_some, Option.some.injEq] at h
  obtain ⟨hlt, rfl⟩ := h
  rw [UInt32.toNat_add, Nat.mod_eq_of_lt hlt]

lemma addWithin?_eq_none_iff {a b : UInt32} : addWithin? a b = none ↔ UInt32.size ≤ a.toNat + b.toNat := by
  simp [addWithin?]

/-- The weight is added to what the arcs have at its place, and to nothing else. -/
lemma toNat_weightAt_insert? (h : insert? arcs place weight = some sum) :
    (weightAt sum other).toNat = (weightAt arcs other).toNat + if place = other then weight.toNat else 0 := by
  induction arcs generalizing sum with
  | nil =>
    cases h
    by_cases hp : place = other <;> simp [weightAt, hp]
  | cons arc arcs ih =>
    rw [insert?] at h
    split at h
    · next hplace =>
      obtain ⟨total, htotal, rfl⟩ := Option.map_eq_some_iff.mp h
      rw [weightAt_cons, weightAt_cons, hplace]
      by_cases hp : place = other
      · simp only [if_pos hp, toNat_of_addWithin? htotal]
      · simp only [if_neg hp, Nat.add_zero]
    · next hplace =>
      obtain ⟨tail, htail, rfl⟩ := Option.map_eq_some_iff.mp h
      rw [weightAt_cons, weightAt_cons]
      by_cases hp : arc.place = other
      · have hne : place ≠ other := fun he => hplace (hp.trans he.symm)
        simp only [if_pos hp, if_neg hne, Nat.add_zero]
      · simp only [if_neg hp, ih htail]

lemma insert?_eq_none_iff :
    insert? arcs place weight = none ↔ UInt32.size ≤ (weightAt arcs place).toNat + weight.toNat := by
  induction arcs with
  | nil => simpa [insert?, weightAt] using UInt32.toNat_lt_size weight
  | cons arc arcs ih =>
    rw [insert?, weightAt_cons]
    by_cases hp : arc.place = place
    · rw [if_pos hp, if_pos hp, Option.map_eq_none_iff, addWithin?_eq_none_iff]
    · rw [if_neg hp, if_neg hp, Option.map_eq_none_iff, ih]

/-- Places that stand in the order of their first mention still do so after an insertion. -/
lemma places_insert? (hsum : sum.map Arc.place = (arcs.map Arc.place).eraseDups)
    (h : insert? sum place weight = some next) :
    next.map Arc.place = ((arcs ++ [(⟨weight, place⟩ : Arc)]).map Arc.place).eraseDups := by
  rw [map_place_insert? h, hsum, List.map_append, List.map_singleton, eraseDups_append_singleton]
  simp only [List.mem_eraseDups]

lemma sums_nil : Sums [] [] :=
  ⟨List.nodup_nil, rfl, nofun⟩

namespace Sums

lemma toNat_weightAt (h : Sums arcs sum) (place : ℕ) : (weightAt sum place).toNat = total arcs place := by
  by_cases hmem : place ∈ sum.map Arc.place
  · obtain ⟨arc, harc, rfl⟩ := List.mem_map.mp hmem
    rw [weightAt_of_mem h.nodup harc, h.weights arc harc]
  · rw [weightAt_eq_zero hmem]
    rw [h.places, List.mem_eraseDups] at hmem
    rw [total_eq_zero hmem]
    rfl

lemma total_lt (h : Sums arcs sum) (place : ℕ) : total arcs place < UInt32.size := by
  rw [← h.toNat_weightAt]
  exact UInt32.toNat_lt_size _

lemma insert? (h : Sums arcs sum) (hnext : insert? sum place weight = some next) :
    Sums (arcs ++ [⟨weight, place⟩]) next := by
  have hnodup : (next.map Arc.place).Nodup := nodup_insert? h.nodup hnext
  refine ⟨hnodup, places_insert? h.places hnext, fun arc harc => ?_⟩
  rw [← weightAt_of_mem hnodup harc, toNat_weightAt_insert? hnext, h.toNat_weightAt, total_append,
    total_singleton]

/-- An insertion succeeds just if the sum of all that is mentioned at the place fits into 32 bits. -/
lemma exists_insert?_iff (h : Sums arcs sum) : (∃ next, Arc.insert? sum place weight = some next) ↔
    total (arcs ++ [⟨weight, place⟩]) place < UInt32.size := by
  rw [← Option.isSome_iff_exists, Option.isSome_iff_ne_none, Ne, insert?_eq_none_iff, not_le, h.toNat_weightAt,
    total_append, total_singleton, if_pos rfl]

end Sums

end Arc

end Coverability
