import Coverability.Proofs.FiringResults
import Coverability.Proofs.FiringSequences

/-!
# State equation

A sequence of transitions changes every finite count by the sum of the effects of those that fire, in whatever
order they do, and leaves omega where it is.
-/

namespace Coverability

/-- Every finite count of `n` is that of `m` with `change` added, and omega stays. -/
def Marking.ShiftsTo (change : ℕ → ℤ) (m n : Marking) : Prop :=
  n.dimension = m.dimension ∧ ∀ p,
    (m.get? p = some .infinite → n.get? p = some .infinite) ∧
    ∀ count : UInt32, m.get? p = some (.finite count) →
      ∃ after : UInt32, n.get? p = some (.finite after) ∧ (after.toNat : ℤ) = count.toNat + change p

namespace Marking.ShiftsTo

variable {change change' : ℕ → ℤ} {l m n n' : Marking}

lemma refl (m : Marking) : ShiftsTo (fun _ => 0) m m :=
  ⟨rfl, fun _ => ⟨id, fun count hget => ⟨count, hget, (add_zero _).symm⟩⟩⟩

lemma trans (h : ShiftsTo change l m) (h' : ShiftsTo change' m n) :
    ShiftsTo (fun p => change p + change' p) l n := by
  obtain ⟨hd, h⟩ := h
  obtain ⟨hd', h'⟩ := h'
  refine ⟨hd'.trans hd, fun p => ⟨fun hget => (h' p).1 ((h p).1 hget), fun count hget => ?_⟩⟩
  obtain ⟨next, hnext, heq⟩ := (h p).2 count hget
  obtain ⟨after, hafter, heq'⟩ := (h' p).2 next hnext
  exact ⟨after, hafter, by rw [heq', heq, add_assoc]⟩

/-- What is added determines the marking. -/
lemma unique (h : ShiftsTo change m n) (h' : ShiftsTo change m n') : n = n' := by
  obtain ⟨hd, h⟩ := h
  obtain ⟨hd', h'⟩ := h'
  apply ext_get?
  intro p
  cases hget : m.get? p with
  | none =>
    rw [get?, List.getElem?_eq_none_iff] at hget
    rw [get?, get?, List.getElem?_eq_none (hd.trans_le hget), List.getElem?_eq_none (hd'.trans_le hget)]
  | some count =>
    cases count with
    | infinite => rw [(h p).1 hget, (h' p).1 hget]
    | finite count =>
      obtain ⟨after, hafter, heq⟩ := (h p).2 count hget
      obtain ⟨after', hafter', heq'⟩ := (h' p).2 count hget
      have hsame : after = after' := UInt32.toNat_inj.mp (by exact_mod_cast heq.trans heq'.symm)
      rw [hafter, hafter', hsame]

end Marking.ShiftsTo

namespace Net

variable {net : Net} {m n : Marking} {t : ℕ} {ts : List ℕ} {names : List String} {outcome : Outcome}

/-- The change that one firing of the named transition makes to place `p`; a name that is no transition changes
nothing. -/
def effectOf (net : Net) (name : String) (p : ℕ) : ℤ :=
  match net.transitionIndex name with
  | .ok t => (net.arcs.getD t {}).effect p
  | .error _ => 0

/-- The change that these transitions make together. -/
def totalEffect (net : Net) (names : List String) (p : ℕ) : ℤ :=
  (names.map fun name => net.effectOf name p).sum

lemma WellFormed.effectOf_transitionName (hw : net.WellFormed) {arcs : Arcs} (ht : net.arcs[t]? = some arcs)
    (p : ℕ) : net.effectOf (net.transitionName t) p = arcs.effect p := by
  have hlt : t < net.transitionCount := hw.arcs_fit.1 ▸ (List.getElem?_eq_some_iff.mp ht).1
  have harcs : net.arcs.getD t {} = arcs := by rw [List.getD_eq_getElem?_getD, ht, Option.getD_some]
  rw [effectOf, hw.transitionIndex_transitionName hlt, ← harcs]

lemma WellFormed.shiftsTo_of_fire (hw : net.WellFormed) (h : net.fire m t = .ok n) :
    Marking.ShiftsTo (net.effectOf (net.transitionName t)) m n := by
  obtain ⟨arcs, ht, -⟩ := fires_of_fire hw h
  have heffect : net.effectOf (net.transitionName t) = arcs.effect := funext (hw.effectOf_transitionName ht)
  rw [heffect]
  -- for the effect of these arcs, to shift is what is said by `Arcs.Leads`
  exact (leads_of_fire hw ht h).1

/-- The effects add up along a sequence. -/
theorem FiresAll.shiftsTo (hw : net.WellFormed) (h : net.FiresAll m ts n) :
    Marking.ShiftsTo (net.totalEffect (ts.map net.transitionName)) m n := by
  induction h with
  | nil m => exact .refl m
  | cons hfire _ ih => exact (hw.shiftsTo_of_fire hfire).trans ih

lemma WellFormed.shiftsTo_of_fireSequence (hw : net.WellFormed) (h : net.fireSequence m names = .ok outcome) :
    Marking.ShiftsTo (net.totalEffect outcome.applied) m outcome.marking := by
  obtain ⟨done, left, hcut⟩ := hw.exists_cutsInto h
  rw [hcut.applied_eq]
  exact hcut.firesAll.shiftsTo hw

lemma totalEffect_perm {more : List String} (h : names.Perm more) :
    net.totalEffect names = net.totalEffect more := by
  funext p
  exact (h.map fun name => net.effectOf name p).sum_eq

/-- A sequence that comes to an outcome adds to every finite count what the transitions that are applied add
together, and leaves omega where it is. So the order in which they are applied does not matter. -/
theorem Constructed.state_equation (hnet : net.Constructed) (h : net.fireSequence m names = .ok outcome) :
    Marking.ShiftsTo (net.totalEffect outcome.applied) m outcome.marking ∧
    ∀ others outcome', net.fireSequence m others = .ok outcome' → outcome'.applied.Perm outcome.applied →
      outcome'.marking = outcome.marking := by
  have hshift := hnet.wellFormed.shiftsTo_of_fireSequence h
  refine ⟨hshift, fun others outcome' h' hperm => ?_⟩
  have hother := hnet.wellFormed.shiftsTo_of_fireSequence h'
  rw [totalEffect_perm hperm] at hother
  exact hother.unique hshift

end Net

/-- The mill with two parts, when so many have been shipped that nobody counts them. -/
def stockedMill : Marking :=
  ⟨[.finite 1, .finite 2, .infinite]⟩

/-- One part is made and two are shipped before the second shipping stops, which is one part less altogether. With the
shipping first it is the same. -/
theorem state_equation_mill : millSearch.net.Constructed ∧
    mill.fireSequence stockedMill ["work", "ship", "ship"] = .ok {
      success := false, marking := ⟨[.finite 1, .finite 1, .infinite]⟩, applied := ["work", "ship"] } ∧
    Marking.ShiftsTo (mill.totalEffect ["work", "ship"]) stockedMill ⟨[.finite 1, .finite 1, .infinite]⟩ ∧
    (List.range 3).map (mill.totalEffect ["work", "ship"]) = [0, -1, 1] ∧
    ∃ outcome, mill.fireSequence stockedMill ["ship", "work"] = .ok outcome ∧
      outcome.marking = ⟨[.finite 1, .finite 1, .infinite]⟩ := by
  have hstop : mill.fireSequence stockedMill ["work", "ship", "ship"] = .ok {
      success := false, marking := ⟨[.finite 1, .finite 1, .infinite]⟩, applied := ["work", "ship"] } := by
    decide +kernel
  have hship : mill.fireSequence stockedMill ["ship", "work"] = .ok {
      success := true, marking := ⟨[.finite 1, .finite 1, .infinite]⟩, applied := ["ship", "work"] } := by
    decide +kernel
  obtain ⟨hshift, horder⟩ := Net.Constructed.state_equation constructed_mill hstop
  exact ⟨constructed_mill, hstop, hshift, by decide +kernel, _, hship, horder _ _ hship (.swap ..)⟩

end Coverability
