import Coverability.Proofs.StateEquation

/-!
# Monotone sequences

What fires as a sequence also fires from every larger marking, unless the larger counts overflow: no transition of
it is disabled there. Both runs add the same to the counts, so what the larger marking has more it keeps.
-/

namespace Coverability

/-- Where `m'` holds a finite count so do the others, and `n'` holds as many tokens more than `n` as `m'` holds more
than `m`. -/
def Marking.KeepsExcess (m m' n n' : Marking) : Prop :=
  ∀ p (count' : UInt32), m'.get? p = some (.finite count') → ∃ count after after' : UInt32,
    m.get? p = some (.finite count) ∧ n.get? p = some (.finite after) ∧ n'.get? p = some (.finite after') ∧
    (after'.toNat : ℤ) - after.toNat = count'.toNat - count.toNat

/-- Two markings to which the same is added keep what one of them has more. -/
lemma Marking.ShiftsTo.keepsExcess {change : ℕ → ℤ} {m m' n n' : Marking} (h : ShiftsTo change m n)
    (h' : ShiftsTo change m' n') (hd : m'.dimension = m.dimension) (hle : m.exact ≤ m'.exact) :
    KeepsExcess m m' n n' := by
  intro p count' hget'
  have hfinite : m.exact p ≠ ⊤ := by
    apply ne_top_of_le_ne_top _ (hle p)
    rw [exact_of_get? hget', TokenCount.exact_finite]
    exact ENat.natCast_ne_top _
  obtain ⟨count, hget⟩ := exists_finite (hd ▸ lt_dimension_of_get? hget') hfinite
  obtain ⟨after, hafter, heq⟩ := (h.2 p).2 count hget
  obtain ⟨after', hafter', heq'⟩ := (h'.2 p).2 count' hget'
  exact ⟨count, after, after', hget, hafter, hafter', by rw [heq, heq', add_sub_add_right_eq_sub]⟩

namespace Net

variable {net : Net} {m m' n n' : Marking} {t : ℕ} {ts us : List ℕ} {names : List String} {outcome : Outcome}

/-- The larger of two runs over the same transitions stays the larger one. -/
lemma FiresAll.exact_mono (hw : net.WellFormed) (h : net.FiresAll m ts n) (h' : net.FiresAll m' ts n')
    (hle : m.exact ≤ m'.exact) : n.exact ≤ n'.exact := by
  induction h generalizing m' with
  | nil m =>
    cases h' with
    | nil => exact hle
  | cons hfire _ ih =>
    cases h' with
    | cons hfire' h' => exact ih h' ((fires_of_fire hw hfire).mono (fires_of_fire hw hfire') hle)

/-- A transition that comes next in the smaller run is enabled in the larger one. -/
lemma FiresAll.enables_next (hw : net.WellFormed) (h : net.FiresAll m (ts ++ t :: us) n)
    (h' : net.FiresAll m' ts n') (hle : m.exact ≤ m'.exact) : net.Enables n'.exact t := by
  obtain ⟨k, hk, hnext⟩ := h.exists_of_append
  cases hnext with
  | cons hfire _ => exact (fires_of_fire hw hfire).enables.mono (hk.exact_mono hw h' hle)

/-- A sequence that fires from a marking fires from every larger one too, and leads to a larger marking, with the
same excess at each finite place, or else a count overflows. It never stops at a transition that is not enabled. -/
theorem Constructed.fireSequence_mono (hnet : net.Constructed) (hd' : m'.dimension = net.placeCount)
    (hcovers : m'.Covers m) (h : net.fireSequence m names = .ok outcome) (hsuccess : outcome.success = true) :
    (∃ outcome', net.fireSequence m' names = .ok outcome' ∧ outcome'.success = true ∧
      outcome'.marking.dimension = net.placeCount ∧ outcome'.marking.Covers outcome.marking ∧
      Marking.KeepsExcess m m' outcome.marking outcome'.marking) ∨
    ∃ done t later p n', names = (done ++ t :: later).map net.transitionName ∧ p < net.placeCount ∧
      net.FiresAll m' done n' ∧ net.Overflows t p n'.exact ∧
      net.fireSequence m' names = .error (.tokenOverflow (net.transitionName t) (net.placeName p)) := by
  have hw : net.WellFormed := hnet.wellFormed
  obtain ⟨ts, left, hcut⟩ := hw.exists_cutsInto h
  obtain rfl : left = [] := hcut.success_iff.mp hsuccess
  have hlt : ∀ t ∈ ts, t < net.transitionCount := by simpa using hcut.lt
  have hd : m'.dimension = m.dimension := hd'.trans hcut.dimension_eq.symm
  have hle : m.exact ≤ m'.exact := (Marking.covers_iff hd).mp hcovers
  obtain rfl : names = ts.map net.transitionName := by rw [hcut.names_eq, List.append_nil]
  rw [hw.fireSequence_map_transitionName hd' hlt]
  have hends := hw.sequenceEnds_fireAll hd' hlt
  generalize net.fireAll m' ts = result at hends
  cases hends with
  | @fired n' hfires' =>
    have hn' : n'.dimension = net.placeCount := hfires'.dimension_eq.trans hd'
    refine .inl ⟨_, rfl, rfl, hn', ?_, ?_⟩
    · rw [Marking.covers_iff (hn'.trans hcut.dimension_marking.symm)]
      exact hcut.firesAll.exact_mono hw hfires' hle
    · exact (hcut.firesAll.shiftsTo hw).keepsExcess (hfires'.shiftsTo hw) hd hle
  | stopped hts hfires' hdisabled =>
    -- the smaller run has fired the transition at which the larger one is said to stop
    have hfires := hcut.firesAll
    rw [hts] at hfires
    exact absurd (hfires.enables_next hw hfires' hle) hdisabled
  | @overflowed done later t p n' hts hfires' hp hover =>
    exact .inr ⟨done, t, later, p, n', by rw [hts], hp, hfires', hover, rfl⟩

end Net

/-- The mill with two parts, of which none has been shipped. -/
def smallMill : Marking :=
  ⟨[.finite 1, .finite 2, .finite 0]⟩

/-- The full mill can ship and work just as the small one, and one part is missing afterwards in both. Where the small
one works first, the full one has no room for the part. -/
theorem fireSequence_fullMill : millSearch.net.Constructed ∧ fullMill.dimension = mill.placeCount ∧
    fullMill.Covers smallMill ∧
    mill.fireSequence smallMill ["ship", "work"] = .ok {
      success := true, marking := ⟨[.finite 1, .finite 1, .finite 1]⟩, applied := ["ship", "work"] } ∧
    (∃ outcome, mill.fireSequence fullMill ["ship", "work"] = .ok outcome ∧ outcome.success = true ∧
      outcome.marking.Covers ⟨[.finite 1, .finite 1, .finite 1]⟩ ∧
      Marking.KeepsExcess smallMill fullMill ⟨[.finite 1, .finite 1, .finite 1]⟩ outcome.marking) ∧
    mill.fireSequence smallMill ["work", "ship"] = .ok {
      success := true, marking := ⟨[.finite 1, .finite 1, .finite 1]⟩, applied := ["work", "ship"] } ∧
    ∃ done t later p n, ["work", "ship"] = (done ++ t :: later).map mill.transitionName ∧
      mill.FiresAll fullMill done n ∧ mill.Overflows t p n.exact := by
  have hd : fullMill.dimension = millSearch.net.placeCount := rfl
  have hcovers : fullMill.Covers smallMill := by decide +kernel
  have hship : mill.fireSequence smallMill ["ship", "work"] = .ok {
      success := true, marking := ⟨[.finite 1, .finite 1, .finite 1]⟩, applied := ["ship", "work"] } := by
    decide +kernel
  have hwork : mill.fireSequence smallMill ["work", "ship"] = .ok {
      success := true, marking := ⟨[.finite 1, .finite 1, .finite 1]⟩, applied := ["work", "ship"] } := by
    decide +kernel
  have hfits : mill.fireSequence fullMill ["ship", "work"] = .ok {
      success := true, marking := ⟨[.finite 4294967295, .finite 4294967294, .infinite]⟩,
      applied := ["ship", "work"] } := by
    decide +kernel
  have hspoils : mill.fireSequence fullMill ["work", "ship"] = .error (.tokenOverflow "work" "parts") := by
    decide +kernel
  refine ⟨constructed_mill, hd, hcovers, hship, ?_, hwork, ?_⟩
  · rcases Net.Constructed.fireSequence_mono constructed_mill hd hcovers hship rfl with
      ⟨outcome, hok, hsuccess, -, hlarger, hexcess⟩ | ⟨_, _, _, _, _, _, _, _, _, he⟩
    · exact ⟨outcome, hok, hsuccess, hlarger, hexcess⟩
    · exact absurd (hfits.symm.trans he) nofun
  · rcases Net.Constructed.fireSequence_mono constructed_mill hd hcovers hwork rfl with
      ⟨outcome, hok, -⟩ | ⟨done, t, later, p, n, hnames, -, hfires, hover, -⟩
    · exact absurd (hspoils.symm.trans hok) nofun
    · exact ⟨done, t, later, p, n, hnames, hfires, hover⟩

end Coverability
