import Coverability.Proofs.ExactMarkings
import Coverability.Proofs.WellFormedNets

/-!
# Exact firing

The firing rule on markings without a bound, and what can be reached by it. Firing within 32 bits
follows the exact rule whenever it succeeds, and it reports missing tokens only where the exact rule
finds the transition disabled.
-/

namespace Coverability

namespace Net

/-- There is a transition `t`, and every place holds at least the tokens that it consumes. -/
def Enables (net : Net) (M : ExactMarking) (t : ℕ) : Prop :=
  ∃ arcs, net.arcs[t]? = some arcs ∧ ∀ p, ((arcs.consumedWeight p).toNat : ℕ∞) ≤ M p

/-- Transition `t` is enabled in `M`, and leads to `N` by taking what it consumes from every place and
then putting down what it produces. -/
def Fires (net : Net) (t : ℕ) (M N : ExactMarking) : Prop :=
  ∃ arcs, net.arcs[t]? = some arcs ∧ (∀ p, ((arcs.consumedWeight p).toNat : ℕ∞) ≤ M p) ∧
    ∀ p, N p = M p - (arcs.consumedWeight p).toNat + (arcs.producedWeight p).toNat

/-- `N` is reached from `M` by firing some sequence of transitions. -/
def Reachable (net : Net) : ExactMarking → ExactMarking → Prop :=
  Relation.ReflTransGen fun M N => ∃ t, net.Fires t M N

variable {net : Net} {t : ℕ} {M M' N : ExactMarking} {m n : Marking}

lemma Fires.enables (h : net.Fires t M N) : net.Enables M t := by
  obtain ⟨arcs, ht, hle, -⟩ := h
  exact ⟨arcs, ht, hle⟩

lemma Enables.mono (h : net.Enables M t) (hM : M ≤ M') : net.Enables M' t := by
  obtain ⟨arcs, ht, hle⟩ := h
  exact ⟨arcs, ht, fun p => (hle p).trans (hM p)⟩

lemma Fires.mono {N' : ExactMarking} (h : net.Fires t M N) (h' : net.Fires t M' N') (hM : M ≤ M') :
    N ≤ N' := by
  obtain ⟨arcs, ht, -, hN⟩ := h
  obtain ⟨arcs', ht', -, hN'⟩ := h'
  cases ht.symm.trans ht'
  intro p
  rw [hN, hN']
  gcongr
  exact hM p

lemma Enables.exists_fires (h : net.Enables M t) : ∃ N, net.Fires t M N := by
  obtain ⟨arcs, ht, hle⟩ := h
  exact ⟨_, arcs, ht, hle, fun p => rfl⟩

/-- What a transition leaves on a place depends only on what was there. -/
lemma Fires.apply_eq {N' : ExactMarking} {p : ℕ} (h : net.Fires t M N) (h' : net.Fires t M' N')
    (hp : M p = M' p) : N p = N' p := by
  obtain ⟨arcs, ht, -, hN⟩ := h
  obtain ⟨arcs', ht', -, hN'⟩ := h'
  cases ht.symm.trans ht'
  rw [hN, hN', hp]

/-- The tokens that a transition takes and puts down, as they apply to every marking. -/
lemma Fires.exists_weights (h : net.Fires t M N) :
    ∃ taken put : ℕ → ℕ, (∀ p, taken p < UInt32.size) ∧ (∀ p, (taken p : ℕ∞) ≤ M p) ∧
      (∀ p, N p = M p - taken p + put p) ∧
      ∀ K : ExactMarking, (∀ p, (taken p : ℕ∞) ≤ K p) → net.Fires t K fun p => K p - taken p + put p := by
  obtain ⟨arcs, ht, hle, hN⟩ := h
  exact ⟨fun p => (arcs.consumedWeight p).toNat, fun p => (arcs.producedWeight p).toNat,
    fun p => UInt32.toNat_lt_size _, hle, hN, fun K hK => ⟨arcs, ht, hK, fun p => rfl⟩⟩

end Net

namespace Arc

variable {arc : Arc} {arcs : List Arc} {place : ℕ}

lemma weightAt_cons : weightAt (arc :: arcs) place =
    if arc.place = place then arc.weight else weightAt arcs place := by
  unfold weightAt
  by_cases h : arc.place = place <;> simp [h]

lemma weightAt_eq_zero (h : place ∉ arcs.map Arc.place) : weightAt arcs place = 0 := by
  have hnone : arcs.find? (·.place = place) = none := by
    rw [List.find?_eq_none]
    intro arc ha
    simpa using fun he => h (List.mem_map.mpr ⟨arc, ha, he⟩)
  rw [weightAt, hnone]

lemma Fit.weightAt_eq_zero {places : ℕ} (hf : Fit places arcs) (hp : places ≤ place) :
    weightAt arcs place = 0 := by
  refine Arc.weightAt_eq_zero fun hmem => ?_
  obtain ⟨arc, harc, rfl⟩ := List.mem_map.mp hmem
  exact (hf.lt arc harc).not_ge hp

lemma weightAt_of_mem (hn : (arcs.map Arc.place).Nodup) (h : arc ∈ arcs) :
    weightAt arcs arc.place = arc.weight := by
  induction arcs with
  | nil => contradiction
  | cons first arcs ih =>
    rw [List.map_cons, List.nodup_cons] at hn
    rw [weightAt_cons]
    rcases List.mem_cons.mp h with rfl | h
    · simp
    · have hne : first.place ≠ arc.place := fun he => hn.1 (he ▸ List.mem_map_of_mem h)
      rw [if_neg hne, ih hn.2 h]

end Arc

lemma Marking.canConsume_eq_ok {m : Marking} {arc : Arc} (hp : arc.place < m.dimension) :
    m.canConsume arc = .ok (decide ((arc.weight.toNat : ℕ∞) ≤ m.exact arc.place)) := by
  obtain ⟨count, hcount⟩ := Marking.exists_get? hp
  simp only [Marking.canConsume, hcount, Marking.exact_of_get? hcount, ← TokenCount.canConsume_iff,
    Bool.decide_eq_true]

namespace Net

variable {net : Net} {t : ℕ} {m n : Marking} {arc : Arc} {arcs : List Arc} {e : NetError}

lemma exact_of_consume (h : net.consume t m arc = .ok n) :
    (arc.weight.toNat : ℕ∞) ≤ m.exact arc.place ∧
      n.exact = Function.update m.exact arc.place (m.exact arc.place - arc.weight.toNat) := by
  unfold consume at h
  split at h
  · contradiction
  · next count hcount =>
    split at h
    · next left hleft =>
      cases h
      obtain ⟨hle, hl⟩ := TokenCount.exact_of_sub?_eq_some hleft
      rw [Marking.exact_of_get? hcount, Marking.exact_set (Marking.lt_dimension_of_get? hcount), hl]
      exact ⟨hle, rfl⟩
    · contradiction

lemma lt_of_consume_eq_error (h : net.consume t m arc = .error e) (he : e.isNotEnabled = true) :
    m.exact arc.place < arc.weight.toNat := by
  unfold consume at h
  split at h
  · cases h
    contradiction
  · next count hcount =>
    split at h
    · contradiction
    · next hnone =>
      rw [Marking.exact_of_get? hcount]
      exact TokenCount.exact_of_sub?_eq_none hnone

lemma exact_of_produce (h : net.produce t m arc = .ok n) :
    n.exact = Function.update m.exact arc.place (m.exact arc.place + arc.weight.toNat) := by
  unfold produce at h
  split at h
  · contradiction
  · next count hcount =>
    split at h
    · next sum hsum =>
      cases h
      rw [Marking.exact_of_get? hcount, Marking.exact_set (Marking.lt_dimension_of_get? hcount),
        TokenCount.exact_of_add?_eq_some hsum]
    · contradiction

lemma isNotEnabled_of_produce (h : net.produce t m arc = .error e) : e.isNotEnabled = false := by
  unfold produce at h
  split at h
  · cases h
    rfl
  · split at h
    · contradiction
    · cases h
      rfl

/-- Every place is visited by at most one arc, so taking the tokens arc by arc takes the weights. -/
lemma exact_of_consumeAll (hn : (arcs.map Arc.place).Nodup)
    (h : arcs.foldlM (net.consume t) m = .ok n) (p : ℕ) :
    ((Arc.weightAt arcs p).toNat : ℕ∞) ≤ m.exact p ∧
      n.exact p = m.exact p - (Arc.weightAt arcs p).toNat := by
  induction arcs generalizing m with
  | nil =>
    cases h
    simp [Arc.weightAt]
  | cons arc arcs ih =>
    rw [List.map_cons, List.nodup_cons] at hn
    rw [List.foldlM_cons, bind_eq_ok] at h
    obtain ⟨next, hnext, h⟩ := h
    obtain ⟨hle, heq⟩ := exact_of_consume hnext
    have hrest := ih hn.2 h
    rw [Arc.weightAt_cons]
    by_cases hp : arc.place = p
    · subst hp
      rw [heq, Function.update_self, Arc.weightAt_eq_zero hn.1] at hrest
      rw [if_pos rfl]
      exact ⟨hle, by simpa using hrest.2⟩
    · rw [heq, Function.update_of_ne (Ne.symm hp)] at hrest
      rwa [if_neg hp]

lemma exists_lt_of_consumeAll (hn : (arcs.map Arc.place).Nodup)
    (h : arcs.foldlM (net.consume t) m = .error e) (he : e.isNotEnabled = true) :
    ∃ p, m.exact p < (Arc.weightAt arcs p).toNat := by
  induction arcs generalizing m with
  | nil => contradiction
  | cons arc arcs ih =>
    rw [List.map_cons, List.nodup_cons] at hn
    rw [List.foldlM_cons] at h
    cases hnext : net.consume t m arc with
    | error e' =>
      rw [hnext] at h
      cases h
      exact ⟨arc.place, by simpa [Arc.weightAt_cons] using lt_of_consume_eq_error hnext he⟩
    | ok next =>
      rw [hnext] at h
      obtain ⟨p, hp⟩ := ih hn.2 h
      have hne : arc.place ≠ p := by
        rintro rfl
        simp [Arc.weightAt_eq_zero hn.1] at hp
      rw [(exact_of_consume hnext).2, Function.update_of_ne (Ne.symm hne)] at hp
      exact ⟨p, by rwa [Arc.weightAt_cons, if_neg hne]⟩

lemma exact_of_produceAll (hn : (arcs.map Arc.place).Nodup)
    (h : arcs.foldlM (net.produce t) m = .ok n) (p : ℕ) :
    n.exact p = m.exact p + (Arc.weightAt arcs p).toNat := by
  induction arcs generalizing m with
  | nil =>
    cases h
    simp [Arc.weightAt]
  | cons arc arcs ih =>
    rw [List.map_cons, List.nodup_cons] at hn
    rw [List.foldlM_cons, bind_eq_ok] at h
    obtain ⟨next, hnext, h⟩ := h
    have hrest := ih hn.2 h
    rw [exact_of_produce hnext] at hrest
    rw [Arc.weightAt_cons]
    by_cases hp : arc.place = p
    · subst hp
      simpa [Arc.weightAt_eq_zero hn.1] using hrest
    · rwa [if_neg hp, ← Function.update_of_ne (Ne.symm hp) (m.exact arc.place + arc.weight.toNat) m.exact]

lemma isNotEnabled_of_produceAll (h : arcs.foldlM (net.produce t) m = .error e) :
    e.isNotEnabled = false := by
  obtain ⟨arc, -, n, -, he⟩ := exists_of_foldlM_eq_error (P := fun _ => True)
    (fun _ _ _ _ _ _ => trivial) trivial h
  exact isNotEnabled_of_produce he

lemma WellFormed.arc_fit (hw : net.WellFormed) {arcs : Arcs} (ht : net.arcs[t]? = some arcs) :
    arcs.Fit net.placeCount :=
  hw.arcs_fit.2 arcs (List.mem_of_getElem? ht)

lemma WellFormed.exists_arcs (hw : net.WellFormed) (ht : t < net.transitionCount) :
    ∃ arcs, net.arcs[t]? = some arcs := by
  have hlt : t < net.arcs.length := by rwa [hw.arcs_fit.1]
  exact ⟨net.arcs[t], List.getElem?_eq_getElem hlt⟩

lemma Enables.lt_transitionCount {M : ExactMarking} (h : net.Enables M t) (hw : net.WellFormed) :
    t < net.transitionCount := by
  obtain ⟨arcs, ht, -⟩ := h
  rw [← hw.arcs_fit.1]
  exact (List.getElem?_eq_some_iff.mp ht).1

/-- A transition that fires within 32 bits fires by the exact rule, with the same result. -/
theorem fires_of_fire (hw : net.WellFormed) (h : net.fire m t = .ok n) :
    net.Fires t m.exact n.exact := by
  obtain ⟨-, -, h⟩ := bind_eq_ok.mp h
  split at h
  · contradiction
  · next arcs ht =>
    obtain ⟨taken, htaken, h⟩ := bind_eq_ok.mp h
    have hfit := hw.arc_fit ht
    refine ⟨arcs, ht, fun p => (exact_of_consumeAll hfit.consumes.nodup htaken p).1, fun p => ?_⟩
    rw [exact_of_produceAll hfit.produces.nodup h p, (exact_of_consumeAll hfit.consumes.nodup htaken p).2]
    rfl

theorem not_enables_of_fire (hw : net.WellFormed) (h : net.fire m t = .error e)
    (he : e.isNotEnabled = true) : ¬net.Enables m.exact t := by
  rintro ⟨arcs, ht, hle⟩
  have hfit := hw.arc_fit ht
  unfold fire checkDimension at h
  split at h
  · simp only [ht, bind, Except.bind] at h
    split at h
    · next error herror =>
      cases h
      obtain ⟨p, hp⟩ := exists_lt_of_consumeAll hfit.consumes.nodup herror he
      exact absurd (hle p) (not_le.mpr hp)
    · rw [isNotEnabled_of_produceAll h] at he
      contradiction
  · cases h
    contradiction

/-- In a marking with one count for each place, every arc of the net leads to a place that has one. -/
lemma WellFormed.isEnabled_eq_ok (hw : net.WellFormed) (hd : m.dimension = net.placeCount) {arcs : Arcs}
    (ht : net.arcs[t]? = some arcs) : net.isEnabled m t =
      .ok (arcs.consumes.all fun arc => (arc.weight.toNat : ℕ∞) ≤ m.exact arc.place) := by
  rw [isEnabled, if_pos hd, ht]
  exact allM_eq_ok fun arc harc => Marking.canConsume_eq_ok (hd ▸ (hw.arc_fit ht).consumes.lt arc harc)

theorem isEnabled_iff (hw : net.WellFormed) (hd : m.dimension = net.placeCount) :
    net.isEnabled m t = .ok true ↔ net.Enables m.exact t := by
  cases ht : net.arcs[t]? with
  | none => simp [isEnabled, Enables, ht]
  | some arcs =>
    have hfit := (hw.arc_fit ht).consumes
    simp only [hw.isEnabled_eq_ok hd ht, Except.ok.injEq, List.all_eq_true, decide_eq_true_eq]
    constructor
    · refine fun h => ⟨arcs, ht, fun p => ?_⟩
      by_cases hp : p ∈ arcs.consumes.map Arc.place
      · obtain ⟨arc, ha, rfl⟩ := List.mem_map.mp hp
        rw [Arcs.consumedWeight, Arc.weightAt_of_mem hfit.nodup ha]
        exact h arc ha
      · simp [Arcs.consumedWeight, Arc.weightAt_eq_zero hp]
    · rintro ⟨arcs', ht', h⟩ arc ha
      cases ht.symm.trans ht'
      rw [← Arc.weightAt_of_mem hfit.nodup ha]
      exact h arc.place

end Net

end Coverability
