import Coverability.Proofs.EarnedOmegas
import Coverability.Proofs.Overflows

/-!
# Results of a firing

What the engine answers when a transition is to fire. Its answer agrees with the check of whether the transition
is enabled: if it is not, a place is reported that holds too little. Otherwise the counts after the firing are those
of exact arithmetic, and an overflow is reported just if one of them does not fit into 32 bits.
-/

namespace Coverability

namespace Arcs

/-- The place holds the finite count `available`, and the transition consumes `required` tokens from it, which are
more. -/
def Lacks (arcs : Arcs) (m : Marking) (p : ℕ) (required available : UInt32) : Prop :=
  m.get? p = some (.finite available) ∧ required = arcs.consumedWeight p ∧ available < required

/-- The place holds a finite count, and by exact arithmetic the transition leaves more than 32 bits can count. -/
def Overfills (arcs : Arcs) (m : Marking) (p : ℕ) : Prop :=
  ∃ count : UInt32, m.get? p = some (.finite count) ∧ (4294967295 : ℤ) <
    count.toNat - (arcs.consumedWeight p).toNat + (arcs.producedWeight p).toNat

/-- Every finite count of `n` is that of `m` with the effect of the transition added, and omega stays. -/
def Leads (arcs : Arcs) (m n : Marking) : Prop :=
  n.dimension = m.dimension ∧ ∀ p,
    (m.get? p = some .infinite → n.get? p = some .infinite) ∧
    ∀ count : UInt32, m.get? p = some (.finite count) →
      ∃ after : UInt32, n.get? p = some (.finite after) ∧ (after.toNat : ℤ) = count.toNat + arcs.effect p

end Arcs

lemma Marking.exists_finite {m : Marking} {p : ℕ} (hp : p < m.dimension) (h : m.exact p ≠ ⊤) :
    ∃ count, m.get? p = some (.finite count) := by
  obtain ⟨count, hget⟩ := exists_get? hp
  cases count with
  | finite count => exact ⟨count, hget⟩
  | infinite => exact absurd (exact_eq_top_iff.mpr hget) h

namespace Net

variable {net : Net} {m n : Marking} {N : ExactMarking} {t p : ℕ} {arcs : Arcs} {arc : Arc} {e : NetError}

lemma get?_of_consume (h : net.consume t m arc = .ok n) (hp : p ≠ arc.place) : n.get? p = m.get? p := by
  unfold consume at h
  split at h
  · contradiction
  · split at h
    · cases h
      rw [Marking.get?_set, if_neg (Ne.symm hp)]
    · contradiction

lemma lacks_of_consume (hp : arc.place < m.dimension) (h : net.consume t m arc = .error e) :
    ∃ available, m.get? arc.place = some (.finite available) ∧ available < arc.weight ∧
      e = .insufficientTokens (net.transitionName t) (net.placeName arc.place) arc.weight available := by
  obtain ⟨count, hcount⟩ := Marking.exists_get? hp
  unfold consume at h
  rw [hcount] at h
  dsimp only at h
  split at h
  · contradiction
  · next hnone =>
    cases h
    cases count with
    | infinite => contradiction
    | finite available =>
      have hlt := TokenCount.exact_of_sub?_eq_none hnone
      rw [TokenCount.exact_finite, Nat.cast_lt] at hlt
      exact ⟨available, hcount, UInt32.lt_iff_toNat_lt.mpr hlt, rfl⟩

/-- Every place is visited by at most one arc, so what is missing was missing before the first arc was followed. -/
lemma exists_lacks_of_consumeAll {arcs : List Arc} (hn : (arcs.map Arc.place).Nodup)
    (hlt : ∀ arc ∈ arcs, arc.place < m.dimension) (h : arcs.foldlM (net.consume t) m = .error e) :
    ∃ arc ∈ arcs, ∃ available, m.get? arc.place = some (.finite available) ∧ available < arc.weight ∧
      e = .insufficientTokens (net.transitionName t) (net.placeName arc.place) arc.weight available := by
  induction arcs generalizing m with
  | nil => contradiction
  | cons first arcs ih =>
    rw [List.map_cons, List.nodup_cons] at hn
    obtain ⟨hfirst, hlt⟩ := List.forall_mem_cons.mp hlt
    rw [List.foldlM_cons] at h
    cases hnext : net.consume t m first with
    | error e' =>
      rw [hnext] at h
      cases h
      exact ⟨first, List.mem_cons_self, lacks_of_consume hfirst hnext⟩
    | ok next =>
      rw [hnext] at h
      rw [← dimension_consume hnext] at hlt
      obtain ⟨arc, harc, hlacks⟩ := ih hn.2 hlt h
      -- The first arc has changed the marking, but not at this place.
      have hne : arc.place ≠ first.place := fun he => hn.1 (he ▸ List.mem_map_of_mem harc)
      rw [get?_of_consume hnext hne] at hlacks
      exact ⟨arc, List.mem_cons_of_mem first harc, hlacks⟩

/-- The transition fails over the arcs that it consumes over if it is not enabled. -/
lemma exists_lacks_of_fire (hw : net.WellFormed) (hd : m.dimension = net.placeCount)
    (ht : net.arcs[t]? = some arcs) (h : net.fire m t = .error e) (he : e.isNotEnabled = true) :
    ∃ p < net.placeCount, ∃ required available, arcs.Lacks m p required available ∧
      e = .insufficientTokens (net.transitionName t) (net.placeName p) required available := by
  have hfit : arcs.Fit net.placeCount := hw.arc_fit ht
  unfold fire checkDimension at h
  rw [if_pos hd, ht] at h
  cases htaken : arcs.consumes.foldlM (net.consume t) m with
  | error e' =>
    simp only [htaken, bind, Except.bind, Except.error.injEq] at h
    subst h
    obtain ⟨arc, harc, available, hget, hlt, he⟩ :=
      exists_lacks_of_consumeAll hfit.consumes.nodup (hd ▸ hfit.consumes.lt) htaken
    have hweight : arcs.consumedWeight arc.place = arc.weight := Arc.weightAt_of_mem hfit.consumes.nodup harc
    exact ⟨arc.place, hfit.consumes.lt arc harc, arc.weight, available, ⟨hget, hweight.symm, hlt⟩, he⟩
  | ok taken =>
    simp only [htaken, bind, Except.bind] at h
    rw [isNotEnabled_of_produceAll h] at he
    contradiction

lemma not_enables_of_lacks {required available : UInt32} (ht : net.arcs[t]? = some arcs)
    (h : arcs.Lacks m p required available) : ¬net.Enables m.exact t := by
  rintro ⟨arcs', ht', hle⟩
  cases ht.symm.trans ht'
  obtain ⟨hget, rfl, hlt⟩ := h
  have hp := hle p
  rw [Marking.exact_of_get? hget, TokenCount.exact_finite, Nat.cast_le] at hp
  rw [UInt32.lt_iff_toNat_lt] at hlt
  exact absurd hp (not_le.mpr hlt)

/-- The exact firing rule as integers: where the count was finite, the effect is added. -/
lemma Fires.exists_cast {count : UInt32} (h : net.Fires t m.exact N) (ht : net.arcs[t]? = some arcs)
    (hget : m.get? p = some (.finite count)) :
    ∃ k : ℕ, N p = k ∧ (k : ℤ) = count.toNat + arcs.effect p := by
  obtain ⟨arcs', ht', hle, hN⟩ := h
  cases ht.symm.trans ht'
  have hp := hle p
  have hNp := hN p
  rw [Marking.exact_of_get? hget, TokenCount.exact_finite] at hp hNp
  rw [Nat.cast_le] at hp
  refine ⟨count.toNat - (arcs.consumedWeight p).toNat + (arcs.producedWeight p).toNat, ?_, ?_⟩
  · rw [hNp]
    norm_cast
  · rw [Arcs.effect]
    omega

/-- A place is overfilled just if the exact rule leaves a finite count on it that does not fit. -/
lemma Fires.overfills_iff (h : net.Fires t m.exact N) (ht : net.arcs[t]? = some arcs) (hp : p < m.dimension) :
    arcs.Overfills m p ↔ N p ≠ ⊤ ∧ (UInt32.size : ℕ∞) ≤ N p := by
  constructor
  · rintro ⟨count, hget, hlt⟩
    obtain ⟨k, hk, hcast⟩ := h.exists_cast ht hget
    rw [hk, Nat.cast_le]
    refine ⟨ENat.natCast_ne_top k, ?_⟩
    simp only [Arcs.effect, UInt32.size] at hcast ⊢
    omega
  · rintro ⟨hfinite, hsize⟩
    rw [Ne, h.eq_top_iff] at hfinite
    obtain ⟨count, hget⟩ := Marking.exists_finite hp hfinite
    obtain ⟨k, hk, hcast⟩ := h.exists_cast ht hget
    rw [hk, Nat.cast_le] at hsize
    refine ⟨count, hget, ?_⟩
    simp only [Arcs.effect, UInt32.size] at hcast hsize
    omega

/-- Within 32 bits no place is overfilled, and the effect is added to the counts as they are. -/
lemma leads_of_fire (hw : net.WellFormed) (ht : net.arcs[t]? = some arcs) (h : net.fire m t = .ok n) :
    arcs.Leads m n ∧ ∀ p, ¬arcs.Overfills m p := by
  have hfires : net.Fires t m.exact n.exact := fires_of_fire hw h
  have hd : n.dimension = m.dimension := dimension_fire h
  refine ⟨⟨hd, fun p => ⟨fun hget => ?_, fun count hget => ?_⟩⟩, fun p hover => ?_⟩
  · rw [← Marking.exact_eq_top_iff, hfires.eq_top_iff, Marking.exact_eq_top_iff]
    exact hget
  · obtain ⟨k, hk, hcast⟩ := hfires.exists_cast ht hget
    have hp : p < n.dimension := hd ▸ Marking.lt_dimension_of_get? hget
    obtain ⟨after, hafter⟩ := Marking.exists_finite hp (hk ▸ ENat.natCast_ne_top k)
    rw [Marking.exact_of_get? hafter, TokenCount.exact_finite, Nat.cast_inj] at hk
    exact ⟨after, hafter, hk ▸ hcast⟩
  · obtain ⟨count, hget, -⟩ := id hover
    obtain ⟨hfinite, hsize⟩ := (hfires.overfills_iff ht (Marking.lt_dimension_of_get? hget)).mp hover
    exact absurd (Marking.exact_lt_size hfinite) (not_lt.mpr hsize)

/-- How the firing of a transition with these arcs can end. -/
inductive FiringEnds (net : Net) (m : Marking) (t : ℕ) (arcs : Arcs) : Except NetError Marking → Prop
  | fired {n : Marking} (henabled : net.Enables m.exact t) (hfits : ∀ p, ¬arcs.Overfills m p)
      (hn : arcs.Leads m n) : FiringEnds net m t arcs (.ok n)
  | lacking {p : ℕ} {required available : UInt32} (hp : p < net.placeCount)
      (h : arcs.Lacks m p required available) : FiringEnds net m t arcs
        (.error (.insufficientTokens (net.transitionName t) (net.placeName p) required available))
  | overfilling {p : ℕ} (henabled : net.Enables m.exact t) (hp : p < net.placeCount)
      (h : arcs.Overfills m p) :
      FiringEnds net m t arcs (.error (.tokenOverflow (net.transitionName t) (net.placeName p)))

theorem WellFormed.firingEnds_fire (hw : net.WellFormed) (hd : m.dimension = net.placeCount)
    (ht : net.arcs[t]? = some arcs) : net.FiringEnds m t arcs (net.fire m t) := by
  cases hfire : net.fire m t with
  | ok n =>
    obtain ⟨hleads, hfits⟩ := leads_of_fire hw ht hfire
    exact .fired (fires_of_fire hw hfire).enables hfits hleads
  | error e =>
    cases he : e.isNotEnabled with
    | true =>
      obtain ⟨p, hp, required, available, hlacks, rfl⟩ := exists_lacks_of_fire hw hd ht hfire he
      exact .lacking hp hlacks
    | false =>
      have hlt : t < net.transitionCount := hw.arcs_fit.1 ▸ (List.getElem?_eq_some_iff.mp ht).1
      obtain ⟨p, hp, rfl, hover⟩ := overflows_of_fire hw hd hlt hfire he
      obtain ⟨N, hfires, hN⟩ := id hover
      exact .overfilling hover.enables hp ((hfires.overfills_iff ht (hd ▸ hp)).mpr hN)

/-- A firing reports missing tokens just if the transition is not enabled, and then a place that has too few. An
enabled transition reports an overflow just if, by exact arithmetic, a finite count leaves 32 bits, and then such
a place; else it fires, omega stays, and every finite count changes by the effect of the transition. -/
theorem Constructed.fire_exactly (hnet : net.Constructed) (hd : m.dimension = net.placeCount)
    (ht : t < net.transitionCount) : ∃ arcs, net.arcs[t]? = some arcs ∧
      (net.isEnabled m t = .ok true ∨ net.isEnabled m t = .ok false) ∧
      ((∃ transition place required available,
          net.fire m t = .error (.insufficientTokens transition place required available)) ↔
        net.isEnabled m t = .ok false) ∧
      (∀ transition place required available,
        net.fire m t = .error (.insufficientTokens transition place required available) →
          transition = net.transitionName t ∧
          ∃ p < net.placeCount, place = net.placeName p ∧ arcs.Lacks m p required available) ∧
      (net.isEnabled m t = .ok true →
        ((∃ transition place, net.fire m t = .error (.tokenOverflow transition place)) ↔
          ∃ p, arcs.Overfills m p) ∧
        (∀ transition place, net.fire m t = .error (.tokenOverflow transition place) →
          transition = net.transitionName t ∧
          ∃ p < net.placeCount, place = net.placeName p ∧ arcs.Overfills m p) ∧
        ((¬∃ p, arcs.Overfills m p) → ∃ n, net.fire m t = .ok n ∧ arcs.Leads m n)) := by
  have hw : net.WellFormed := hnet.wellFormed
  obtain ⟨arcs, harcs⟩ := hw.exists_arcs ht
  have hends := hw.firingEnds_fire hd harcs
  have htrue : net.isEnabled m t = .ok true ↔ net.Enables m.exact t := isEnabled_iff hw hd
  obtain ⟨enabled, hcheck⟩ : ∃ enabled, net.isEnabled m t = .ok enabled := ⟨_, hw.isEnabled_eq_ok hd harcs⟩
  have hfalse : net.isEnabled m t = .ok false ↔ ¬net.Enables m.exact t := by
    rw [← htrue, hcheck]
    cases enabled <;> simp
  refine ⟨arcs, harcs, ?_⟩
  rw [htrue, hfalse]
  refine ⟨Classical.em _, ?_⟩
  generalize net.fire m t = result at hends
  cases hends with
  | fired henabled hfits hn =>
    refine ⟨?_, nofun, fun _ => ⟨?_, nofun, fun _ => ⟨_, rfl, hn⟩⟩⟩
    · simpa using henabled
    · simpa using hfits
  | lacking hp h =>
    have hdisabled : ¬net.Enables m.exact t := not_enables_of_lacks harcs h
    refine ⟨?_, ?_, fun henabled => absurd henabled hdisabled⟩
    · simpa using hdisabled
    · rintro _ _ _ _ ⟨⟩
      exact ⟨rfl, _, hp, rfl, h⟩
  | overfilling henabled hp h =>
    refine ⟨?_, nofun, fun _ => ⟨?_, ?_, fun hfits => absurd ⟨_, h⟩ hfits⟩⟩
    · simpa using henabled
    · simpa using ⟨_, h⟩
    · rintro _ _ ⟨⟩
      exact ⟨rfl, _, hp, rfl, h⟩

end Net

/-- The mill with as many parts as 32 bits can count. -/
def fullMill : Marking :=
  ⟨[.finite 4294967295, .finite 4294967295, .infinite]⟩

/-- In the full mill one more part does not fit, although the place of the self-loop is just as full, and two parts
can be shipped. With a single part, shipping lacks one. -/
theorem fire_fullMill : millSearch.net.Constructed ∧ fullMill.dimension = mill.placeCount ∧
    mill.fire fullMill 0 = .error (.tokenOverflow "work" "parts") ∧
    (∃ p < 3, "parts" = mill.placeName p ∧
      Arcs.Overfills ⟨[⟨1, 0⟩], [⟨1, 0⟩, ⟨1, 1⟩]⟩ fullMill p) ∧
    (∃ n, mill.fire fullMill 1 = .ok n ∧ Arcs.Leads ⟨[⟨2, 1⟩], [⟨1, 2⟩]⟩ fullMill n) ∧
    mill.isEnabled ⟨[.finite 0, .finite 1, .infinite]⟩ 1 = .ok false ∧
    ∃ transition place required available, mill.fire ⟨[.finite 0, .finite 1, .infinite]⟩ 1 =
      .error (.insufficientTokens transition place required available) := by
  have hfull : mill.fire fullMill 0 = .error (.tokenOverflow "work" "parts") := by decide +kernel
  have hempty : mill.isEnabled ⟨[.finite 0, .finite 1, .infinite]⟩ 1 = .ok false := by decide +kernel
  have hfits : ¬∃ p, Arcs.Overfills ⟨[⟨2, 1⟩], [⟨1, 2⟩]⟩ fullMill p := by
    rintro ⟨_ | _ | _ | p, count, hget, hlt⟩
    all_goals cases hget
    all_goals exact absurd hlt (by decide)
  obtain ⟨arcs, harcs, -, -, -, hwork⟩ :=
    Net.Constructed.fire_exactly (m := fullMill) (t := 0) constructed_mill rfl (by decide)
  obtain ⟨arcs', harcs', -, -, -, hship⟩ :=
    Net.Constructed.fire_exactly (m := fullMill) (t := 1) constructed_mill rfl (by decide)
  obtain ⟨-, -, -, hlacking, -⟩ := Net.Constructed.fire_exactly
    (m := ⟨[.finite 0, .finite 1, .infinite]⟩) (t := 1) constructed_mill rfl (by decide)
  cases harcs
  cases harcs'
  exact ⟨constructed_mill, rfl, hfull, ((hwork (by decide +kernel)).2.1 _ _ hfull).2,
    (hship (by decide +kernel)).2.2 hfits, hempty, hlacking.mpr hempty⟩

end Coverability
