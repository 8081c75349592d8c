import Coverability.Proofs.CallsInRange
import Coverability.Proofs.EndingSearches
import Coverability.Proofs.FiringSequences

/-!
# Composed sequences

A sequence of transitions fires up to the first that is not enabled. What is fired that far is a sequence of its
own, and one that fires as a whole can be gone on with: the second part starts where the first has led.
-/

namespace Coverability

namespace Net

variable {net : Net} {m : Marking} {names more : List String} {outcome : Outcome}

/-- The transitions `us` are tried after `ts` only if all of `ts` have fired, and from where these have led. -/
lemma fireAll_append (ts us : List ℕ) : net.fireAll m (ts ++ us) = net.fireAll m ts >>= fun outcome =>
    if outcome.success then
      (net.fireAll outcome.marking us).map fun rest => { rest with applied := outcome.applied ++ rest.applied }
    else .ok outcome := by
  induction ts generalizing m with
  | nil => cases h : net.fireAll m us <;> simp [fireAll, h, bind, Except.bind, Except.map]
  | cons t ts ih =>
    rw [List.cons_append, fireAll, fireAll]
    cases net.fire m t with
    | error e => by_cases he : e.isNotEnabled <;> simp [he, bind, Except.bind]
    | ok next =>
      simp only [ih]
      cases net.fireAll next ts with
      | error e => rfl
      | ok outcome =>
        -- `t` comes in front of the names that are applied, the flag and the marking are those of `ts`
        simp only [bind, Except.bind, pure, Except.pure]
        by_cases hs : outcome.success
        · cases net.fireAll outcome.marking us <;> simp [hs, Except.map]
        · simp [hs]

lemma WellFormed.isEnabled_eq_false (hw : net.WellFormed) (hd : m.dimension = net.placeCount) {t : ℕ}
    (ht : t < net.transitionCount) (h : ¬net.Enables m.exact t) : net.isEnabled m t = .ok false := by
  obtain ⟨enabled, hcheck⟩ := hw.exists_isEnabled_eq_ok hd ht
  cases enabled with
  | false => exact hcheck
  | true => exact absurd ((isEnabled_iff hw hd).mp hcheck) h

namespace CutsInto

variable {done left : List ℕ} (hcut : net.CutsInto m names outcome done left)

include hcut

lemma names_eq_append : names = outcome.applied ++ left.map net.transitionName := by
  rw [hcut.names_eq, hcut.applied_eq, List.map_append]

lemma success_iff_applied_eq : outcome.success = true ↔ outcome.applied = names := by
  rw [hcut.success_iff, hcut.names_eq_append, List.self_eq_append_right, List.map_eq_nil_iff]

lemma fireSequence_applied (hw : net.WellFormed) :
    net.fireSequence m outcome.applied = .ok { outcome with success := true } := by
  have hlt : ∀ t ∈ done, t < net.transitionCount := fun t ht => hcut.lt t (List.mem_append_left left ht)
  rw [hcut.applied_eq, hw.fireSequence_map_transitionName hcut.dimension_eq hlt, hcut.firesAll.fireAll_eq_ok]

lemma exists_disabled (hw : net.WellFormed) (h : outcome.success = false) :
    ∃ name t later, names = outcome.applied ++ name :: later ∧ net.transitionIndex name = .ok t ∧
      net.isEnabled outcome.marking t = .ok false := by
  cases left with
  | nil =>
    rw [hcut.success_iff.mpr rfl] at h
    contradiction
  | cons t later =>
    have ht : t < net.transitionCount := hcut.lt t (by simp)
    exact ⟨net.transitionName t, t, later.map net.transitionName, hcut.names_eq_append,
      hw.transitionIndex_transitionName ht,
      hw.isEnabled_eq_false hcut.dimension_marking ht (hcut.disabled rfl)⟩

end CutsInto

/-- What is made of one sequence after another one that came to an outcome. -/
lemma WellFormed.fireSequence_append (hw : net.WellFormed) (h : net.fireSequence m names = .ok outcome)
    (hmore : ∀ name ∈ more, name ∈ net.transitionNames) : net.fireSequence m (names ++ more) =
      if outcome.success then (net.fireSequence outcome.marking more).map fun rest =>
        { rest with applied := outcome.applied ++ rest.applied }
      else .ok outcome := by
  obtain ⟨hd, ts, hts, rfl, hall⟩ := hw.exists_indices h
  obtain ⟨us, hus, rfl⟩ := exists_map_transitionName hmore
  have hlt : ∀ t ∈ ts ++ us, t < net.transitionCount := List.forall_mem_append.mpr ⟨hts, hus⟩
  have hd' : outcome.marking.dimension = net.placeCount := (dimension_fireAll hall).trans hd
  rw [← List.map_append, hw.fireSequence_map_transitionName hd hlt, fireAll_append, hall,
    hw.fireSequence_map_transitionName hd' hus]
  rfl

/-- A sequence fails as a whole for its first name that is no transition. If it comes to an outcome, then what is
applied is the part before the first transition that is not enabled, and a sequence of its own. Going on with more
transitions adds nothing to a sequence that stopped, and else leads on from its marking. -/
theorem Constructed.fireSequence_composes (hnet : net.Constructed) (hd : m.dimension = net.placeCount)
    (names : List String) :
    (∀ name, names.find? (· ∉ net.transitionNames) = some name →
      net.fireSequence m names = .error (.unknownEntity name)) ∧
    ∀ outcome, net.fireSequence m names = .ok outcome →
      outcome.applied <+: names ∧ (outcome.success = true ↔ outcome.applied = names) ∧
      net.fireSequence m outcome.applied = .ok { outcome with success := true } ∧
      (outcome.success = false → ∃ name t later, names = outcome.applied ++ name :: later ∧
        net.transitionIndex name = .ok t ∧ net.isEnabled outcome.marking t = .ok false) ∧
      ∀ more : List String, (∀ name ∈ more, name ∈ net.transitionNames) → net.fireSequence m (names ++ more) =
        if outcome.success then (net.fireSequence outcome.marking more).map fun rest =>
          { rest with applied := names ++ rest.applied }
        else .ok outcome := by
  have hw : net.WellFormed := hnet.wellFormed
  refine ⟨fun name hfind => hw.fireSequence_unknown hd hfind, fun outcome h => ?_⟩
  obtain ⟨done, left, hcut⟩ := hw.exists_cutsInto h
  refine ⟨⟨_, hcut.names_eq_append.symm⟩, hcut.success_iff_applied_eq, hcut.fireSequence_applied hw,
    hcut.exists_disabled hw, fun more hmore => ?_⟩
  rw [hw.fireSequence_append h hmore]
  split
  · next hs => rw [hcut.success_iff_applied_eq.mp hs]
  · rfl

end Net

/-- Where the tank has room for one more spill. -/
def lowTank : Marking :=
  ⟨[.finite 0, .finite 4294967292]⟩

/-- The basin spills once after it was poured once, and not again, whatever comes then. Pouring and spilling a second
time goes on from there, into an overflow. With a leak among them nothing is poured at all. -/
theorem fireSequence_flood : floodSearch.net.Constructed ∧ lowTank.dimension = flood.placeCount ∧
    flood.fireSequence lowTank ["pour", "leak", "spill"] = .error (.unknownEntity "leak") ∧
    flood.fireSequence lowTank ["pour", "spill", "spill"] =
      .ok { success := false, marking := ⟨[.finite 0, .finite 4294967294]⟩, applied := ["pour", "spill"] } ∧
    flood.fireSequence lowTank ["pour", "spill"] =
      .ok { success := true, marking := ⟨[.finite 0, .finite 4294967294]⟩, applied := ["pour", "spill"] } ∧
    (∃ name t later, ["pour", "spill", "spill"] = ["pour", "spill"] ++ name :: later ∧
      flood.transitionIndex name = .ok t ∧
      flood.isEnabled ⟨[.finite 0, .finite 4294967294]⟩ t = .ok false) ∧
    flood.fireSequence lowTank (["pour", "spill", "spill"] ++ ["pour"]) =
      .ok { success := false, marking := ⟨[.finite 0, .finite 4294967294]⟩, applied := ["pour", "spill"] } ∧
    flood.fireSequence lowTank (["pour", "spill"] ++ ["pour", "spill"]) =
      .error (.tokenOverflow "spill" "tank") := by
  have hstop : flood.fireSequence lowTank ["pour", "spill", "spill"] =
      .ok { success := false, marking := ⟨[.finite 0, .finite 4294967294]⟩, applied := ["pour", "spill"] } := by
    decide +kernel
  obtain ⟨hunknown, -⟩ := Net.Constructed.fireSequence_composes (m := lowTank) constructed_flood rfl
    ["pour", "leak", "spill"]
  obtain ⟨-, hends⟩ := Net.Constructed.fireSequence_composes (m := lowTank) constructed_flood rfl
    ["pour", "spill", "spill"]
  obtain ⟨-, -, happlied, hdisabled, hafter⟩ := hends _ hstop
  obtain ⟨-, hgoes⟩ := Net.Constructed.fireSequence_composes (m := lowTank) constructed_flood rfl ["pour", "spill"]
  obtain ⟨-, -, -, -, hmore⟩ := hgoes _ happlied
  refine ⟨constructed_flood, rfl, hunknown "leak" (by decide), hstop, happlied, hdisabled rfl,
    hafter ["pour"] (by decide), ?_⟩
  exact (hmore ["pour", "spill"] (by decide)).trans (by decide +kernel)

end Coverability
