import Coverability.Proofs.DeclaredNames
import Coverability.Proofs.Overflows
import Coverability.Proofs.Pumping

/-!
# Firing sequences

A sequence of transitions that can all fire one after the other, and what the engine makes of it, be it given
indices or names.
-/

namespace Coverability.Net

/-- The transitions fire one after the other, and lead from `m` to `n`. -/
inductive FiresAll (net : Net) : Marking → List ℕ → Marking → Prop
  | nil (m : Marking) : FiresAll net m [] m
  | cons {m next n : Marking} {t : ℕ} {ts : List ℕ} (hfire : net.fire m t = .ok next)
      (h : FiresAll net next ts n) : FiresAll net m (t :: ts) n

variable {net : Net} {m n next : Marking} {t : ℕ} {ts : List ℕ}

lemma FiresAll.snoc (h : net.FiresAll m ts n) (hfire : net.fire n t = .ok next) :
    net.FiresAll m (ts ++ [t]) next := by
  induction h with
  | nil m => exact .cons hfire (.nil next)
  | cons hfirst _ ih => exact .cons hfirst (ih hfire)

lemma FiresAll.dimension_eq (h : net.FiresAll m ts n) : n.dimension = m.dimension := by
  induction h with
  | nil m => rfl
  | cons hfire _ ih => exact ih.trans (dimension_fire hfire)

/-- Omega stays where it is, and comes up nowhere else. -/
lemma FiresAll.eq_top_iff (hw : net.WellFormed) (h : net.FiresAll m ts n) (p : ℕ) :
    n.exact p = ⊤ ↔ m.exact p = ⊤ := by
  induction h with
  | nil m => rfl
  | cons hfire _ ih => rw [ih, (fires_of_fire hw hfire).eq_top_iff p]

lemma FiresAll.exists_of_append {us : List ℕ} (h : net.FiresAll m (ts ++ us) n) :
    ∃ k, net.FiresAll m ts k ∧ net.FiresAll k us n := by
  induction ts generalizing m with
  | nil => exact ⟨m, .nil m, h⟩
  | cons t ts ih =>
    cases h with
    | cons hfire h =>
      obtain ⟨k, hk, hrest⟩ := ih h
      exact ⟨k, .cons hfire hk, hrest⟩

lemma FiresAll.fireAll_eq_ok (h : net.FiresAll m ts n) :
    net.fireAll m ts = .ok { success := true, marking := n, applied := ts.map net.transitionName } := by
  induction h with
  | nil m => rfl
  | cons hfire _ ih =>
    rw [fireAll, hfire]
    simp only [ih, bind, Except.bind]
    rfl

lemma WellFormed.fireSequence_map_transitionName (hw : net.WellFormed) (hd : m.dimension = net.placeCount)
    (ht : ∀ t ∈ ts, t < net.transitionCount) :
    net.fireSequence m (ts.map net.transitionName) = net.fireAll m ts := by
  have hindices : (ts.map net.transitionName).mapM net.transitionIndex = .ok ts :=
    hw.mapM_transitionIndex_eq_ok_iff.mpr ⟨ht, rfl⟩
  rw [fireSequence, checkDimension, if_pos hd, hindices]
  rfl

/-- Nothing fires if one of the names is no transition. -/
lemma WellFormed.fireSequence_unknown {names : List String} {name : String} (hw : net.WellFormed)
    (hd : m.dimension = net.placeCount) (h : names.find? (· ∉ net.transitionNames) = some name) :
    net.fireSequence m names = .error (.unknownEntity name) := by
  rw [fireSequence, checkDimension, if_pos hd, hw.mapM_transitionIndex_of_find? h]
  rfl

/-- How a sequence of transitions can end: all of them fire, or one of them is not enabled after those before it
have fired, or it leaves more tokens on a place than 32 bits can count. -/
inductive SequenceEnds (net : Net) (m : Marking) (ts : List ℕ) : Except NetError Outcome → Prop
  | fired {n : Marking} (h : net.FiresAll m ts n) :
      SequenceEnds net m ts (.ok { success := true, marking := n, applied := ts.map net.transitionName })
  | stopped {done rest : List ℕ} {t : ℕ} {n : Marking} (hts : ts = done ++ t :: rest)
      (h : net.FiresAll m done n) (hdisabled : ¬net.Enables n.exact t) :
      SequenceEnds net m ts (.ok { success := false, marking := n, applied := done.map net.transitionName })
  | overflowed {done rest : List ℕ} {t p : ℕ} {n : Marking} (hts : ts = done ++ t :: rest)
      (h : net.FiresAll m done n) (hp : p < net.placeCount) (hover : net.Overflows t p n.exact) :
      SequenceEnds net m ts (.error (.tokenOverflow (net.transitionName t) (net.placeName p)))

/-- A transition that fires in front of a sequence only adds its name to those that are applied. -/
lemma SequenceEnds.cons {result : Except NetError Outcome} (hfire : net.fire m t = .ok next)
    (h : net.SequenceEnds next ts result) : net.SequenceEnds m (t :: ts) (result.map fun outcome =>
      { outcome with applied := net.transitionName t :: outcome.applied }) := by
  cases h with
  | fired h => exact .fired (.cons hfire h)
  | @stopped done rest u n hts h hdisabled =>
    have hcons : t :: ts = t :: done ++ u :: rest := by rw [hts, List.cons_append]
    exact .stopped hcons (.cons hfire h) hdisabled
  | overflowed hts h hp hover =>
    exact .overflowed (by rw [hts, List.cons_append]) (.cons hfire h) hp hover

/-- What the engine makes of a sequence is one of its ends. -/
theorem WellFormed.sequenceEnds_fireAll (hw : net.WellFormed) (hd : m.dimension = net.placeCount)
    (ht : ∀ t ∈ ts, t < net.transitionCount) : net.SequenceEnds m ts (net.fireAll m ts) := by
  induction ts generalizing m with
  | nil => exact .fired (.nil m)
  | cons t ts ih =>
    obtain ⟨hlt, ht⟩ := List.forall_mem_cons.mp ht
    rw [fireAll]
    cases hfire : net.fire m t with
    | ok next => exact (ih ((dimension_fire hfire).trans hd) ht).cons hfire
    | error e =>
      cases he : e.isNotEnabled with
      | true =>
        have hdisabled : ¬net.Enables m.exact t := not_enables_of_fire hw hfire he
        simpa [he] using SequenceEnds.stopped (List.nil_append _).symm (.nil m) hdisabled
      | false =>
        obtain ⟨p, hp, rfl, hover⟩ := overflows_of_fire hw hd hlt hfire he
        exact .overflowed (List.nil_append _).symm (.nil m) hp hover

variable {names : List String} {outcome : Outcome}

lemma WellFormed.exists_indices (hw : net.WellFormed) (h : net.fireSequence m names = .ok outcome) :
    m.dimension = net.placeCount ∧ ∃ ts, (∀ t ∈ ts, t < net.transitionCount) ∧
      names = ts.map net.transitionName ∧ net.fireAll m ts = .ok outcome := by
  obtain ⟨_, hd, h⟩ := bind_eq_ok.mp h
  obtain ⟨ts, hts, h⟩ := bind_eq_ok.mp h
  obtain ⟨hlt, hnames⟩ := hw.mapM_transitionIndex_eq_ok_iff.mp hts
  exact ⟨dimension_of_checkDimension hd, ts, hlt, hnames, h⟩

/-- The outcome cuts the sequence in two: what is `done` has fired, and nothing is left, or the first transition
that is left is not enabled. -/
structure CutsInto (net : Net) (m : Marking) (names : List String) (outcome : Outcome)
    (done left : List ℕ) : Prop where
  names_eq : names = (done ++ left).map net.transitionName
  applied_eq : outcome.applied = done.map net.transitionName
  dimension_eq : m.dimension = net.placeCount
  lt : ∀ t ∈ done ++ left, t < net.transitionCount
  firesAll : net.FiresAll m done outcome.marking
  success_iff : outcome.success = true ↔ left = []
  disabled : ∀ {t : ℕ} {later : List ℕ}, left = t :: later → ¬net.Enables outcome.marking.exact t

theorem WellFormed.exists_cutsInto (hw : net.WellFormed) (h : net.fireSequence m names = .ok outcome) :
    ∃ done left, net.CutsInto m names outcome done left := by
  obtain ⟨hd, ts, hlt, rfl, hall⟩ := hw.exists_indices h
  have hends := hw.sequenceEnds_fireAll hd hlt
  rw [hall] at hends
  cases hends with
  | fired hfires =>
    rw [← List.append_nil ts] at hlt
    exact ⟨ts, [], by rw [List.append_nil], rfl, hd, hlt, hfires, by simp, nofun⟩
  | @stopped done later t n hts hfires hdisabled =>
    subst hts
    refine ⟨done, t :: later, rfl, rfl, hd, hlt, hfires, by simp, ?_⟩
    rintro _ _ ⟨⟩
    exact hdisabled

lemma CutsInto.dimension_marking {done left : List ℕ} (hcut : net.CutsInto m names outcome done left) :
    outcome.marking.dimension = net.placeCount :=
  hcut.firesAll.dimension_eq.trans hcut.dimension_eq

end Coverability.Net
