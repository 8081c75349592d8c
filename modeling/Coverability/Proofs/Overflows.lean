import Coverability.Proofs.ExactFiring

/-!
# Overflows

A transition that fails within 32 bits without being disabled puts too many tokens on some place. By the exact
rule it fires all the same, and leaves there a finite count that does not fit into 32 bits.
-/

namespace Coverability.Net

/-- Transition `t` fires in `M`, and leaves on place `p` a finite count that does not fit into 32 bits. -/
def Overflows (net : Net) (t p : ℕ) (M : ExactMarking) : Prop :=
  ∃ N, net.Fires t M N ∧ N p ≠ ⊤ ∧ (UInt32.size : ℕ∞) ≤ N p

variable {net : Net} {m : Marking} {t : ℕ} {arc : Arc} {arcs : List Arc} {e : NetError}

lemma isNotEnabled_of_consume (hp : arc.place < m.dimension) (h : net.consume t m arc = .error e) :
    e.isNotEnabled = true := by
  obtain ⟨count, hcount⟩ := Marking.exists_get? hp
  unfold consume at h
  rw [hcount] at h
  dsimp only at h
  split at h
  · contradiction
  · cases h
    rfl

lemma overflow_of_produce (hp : arc.place < m.dimension) (h : net.produce t m arc = .error e) :
    e = .tokenOverflow (net.transitionName t) (net.placeName arc.place) ∧ m.exact arc.place ≠ ⊤ ∧
      (UInt32.size : ℕ∞) ≤ m.exact arc.place + arc.weight.toNat := by
  obtain ⟨count, hcount⟩ := Marking.exists_get? hp
  unfold produce at h
  rw [hcount] at h
  dsimp only at h
  split at h
  · contradiction
  · next hnone =>
    cases h
    rw [Marking.exact_of_get? hcount]
    exact ⟨rfl, TokenCount.exact_of_add?_eq_none hnone⟩

/-- Every place is visited by at most one arc, so the arc that fails finds the tokens of before. -/
lemma exists_overflow_of_produceAll (hn : (arcs.map Arc.place).Nodup)
    (hlt : ∀ arc ∈ arcs, arc.place < m.dimension) (h : arcs.foldlM (net.produce t) m = .error e) :
    ∃ arc ∈ arcs, e = .tokenOverflow (net.transitionName t) (net.placeName arc.place) ∧
      m.exact arc.place ≠ ⊤ ∧ (UInt32.size : ℕ∞) ≤ m.exact arc.place + arc.weight.toNat := by
  induction arcs generalizing m with
  | nil => contradiction
  | cons first arcs ih =>
    rw [List.map_cons, List.nodup_cons] at hn
    obtain ⟨hfirst, hlt⟩ := List.forall_mem_cons.mp hlt
    rw [List.foldlM_cons] at h
    cases hnext : net.produce t m first with
    | error e' =>
      rw [hnext] at h
      cases h
      exact ⟨first, List.mem_cons_self, overflow_of_produce hfirst hnext⟩
    | ok next =>
      rw [hnext] at h
      rw [← dimension_produce hnext] at hlt
      obtain ⟨arc, harc, hover⟩ := ih hn.2 hlt h
      have hne : arc.place ≠ first.place := fun he => hn.1 (he ▸ List.mem_map_of_mem harc)
      rw [exact_of_produce hnext, Function.update_of_ne hne] at hover
      exact ⟨arc, List.mem_cons_of_mem first harc, hover⟩

/-- A transition that fails, but is not merely disabled, takes its tokens and fails when it puts down others. -/
lemma exists_taken_of_fire (hw : net.WellFormed) (hd : m.dimension = net.placeCount)
    (ht : t < net.transitionCount) (h : net.fire m t = .error e) (he : e.isNotEnabled = false) :
    ∃ arcs taken, net.arcs[t]? = some arcs ∧ arcs.consumes.foldlM (net.consume t) m = .ok taken ∧
      arcs.produces.foldlM (net.produce t) taken = .error e := by
  obtain ⟨arcs, harcs⟩ := hw.exists_arcs ht
  have hfit := hw.arc_fit harcs
  unfold fire checkDimension at h
  rw [if_pos hd, harcs] at h
  refine ⟨arcs, ?_⟩
  cases htaken : arcs.consumes.foldlM (net.consume t) m with
  | error e' =>
    simp only [htaken, bind, Except.bind, Except.error.injEq] at h
    obtain ⟨arc, harc, n, hn, hconsume⟩ := exists_of_foldlM_eq_error
      (P := fun n => n.dimension = net.placeCount)
      (fun _ _ _ _ hb hc => (dimension_consume hc).trans hb) hd htaken
    have hp : arc.place < n.dimension := hn ▸ hfit.consumes.lt arc harc
    have henabled := isNotEnabled_of_consume hp hconsume
    rw [h, he] at henabled
    contradiction
  | ok taken =>
    simp only [htaken, bind, Except.bind] at h
    exact ⟨taken, harcs, rfl, h⟩

/-- A transition that does not fire is disabled, or puts too many tokens on some place. -/
theorem overflows_of_fire (hw : net.WellFormed) (hd : m.dimension = net.placeCount)
    (ht : t < net.transitionCount) (h : net.fire m t = .error e) (he : e.isNotEnabled = false) :
    ∃ p < net.placeCount, e = .tokenOverflow (net.transitionName t) (net.placeName p) ∧
      net.Overflows t p m.exact := by
  obtain ⟨arcs, taken, harcs, htaken, hfail⟩ := exists_taken_of_fire hw hd ht h he
  have hfit := hw.arc_fit harcs
  have hdim : taken.dimension = net.placeCount := (dimension_foldlM dimension_consume htaken).trans hd
  have hexact := exact_of_consumeAll hfit.consumes.nodup htaken
  obtain ⟨arc, harc, he, hfinite, hsize⟩ :=
    exists_overflow_of_produceAll hfit.produces.nodup (hdim ▸ hfit.produces.lt) hfail
  have hweight : arcs.producedWeight arc.place = arc.weight := Arc.weightAt_of_mem hfit.produces.nodup harc
  rw [(hexact arc.place).2] at hfinite hsize
  rw [← hweight] at hsize
  refine ⟨arc.place, hfit.produces.lt arc harc, he, _, ⟨arcs, harcs, fun q => (hexact q).1, fun q => rfl⟩, ?_, ?_⟩
  · exact WithTop.add_ne_top.mpr ⟨hfinite, ENat.natCast_ne_top _⟩
  · exact hsize

lemma Overflows.enables {p : ℕ} {M : ExactMarking} (h : net.Overflows t p M) : net.Enables M t := by
  obtain ⟨N, hfires, -⟩ := h
  exact hfires.enables

end Coverability.Net
