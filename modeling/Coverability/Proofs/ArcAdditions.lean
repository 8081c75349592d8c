import Coverability.Proofs.IncidenceSums

/-!
# Additions of arcs

Arcs can be added to those of a transition one by one and in either direction. An addition that leaves 32 bits is
rejected and changes nothing. So after any calls the arcs are the exact sums of those that were given first and of
the additions that were accepted.
-/

namespace Coverability

/-- The arcs that are to be added in one direction. -/
def Addition.arcsOf (calls : List Addition) (d : Direction) : List Arc :=
  (calls.filter (·.direction = d)).map Addition.arc

namespace Arcs

/-- The arcs after one call after the other. -/
def afterCalls (arcs : Arcs) (calls : List Addition) : Arcs :=
  calls.foldl (fun arcs a => (arcs.call a).2) arcs

/-- The calls that are not rejected. -/
def accepted (arcs : Arcs) : List Addition → List Addition
  | [] => []
  | a :: calls => (if (arcs.call a).1 = none then [] else [a]) ++ (arcs.call a).2.accepted calls

/-- What a call does: it adds the weight to the one at its place and changes nothing else, or changes nothing at all
if the sum leaves 32 bits. -/
structure CallAdds (arcs : Arcs) (a : Addition) : Prop where
  add?_eq : arcs.add? a = if (arcs.call a).1 = none then none else some (arcs.call a).2
  rejects_iff : (arcs.call a).1 = none ↔
    4294967295 < (arcs.weight a.direction a.arc.place).toNat + a.arc.weight.toNat
  unchanged : (arcs.call a).1 = none → (arcs.call a).2 = arcs
  sum : ∀ sum, (arcs.call a).1 = some sum → (arcs.call a).2.weight a.direction a.arc.place = sum ∧
    sum.toNat = (arcs.weight a.direction a.arc.place).toNat + a.arc.weight.toNat
  other_places : ((arcs.call a).2.side a.direction).filter (·.place ≠ a.arc.place) =
    (arcs.side a.direction).filter (·.place ≠ a.arc.place)
  other_side : ∀ d, d ≠ a.direction → (arcs.call a).2.side d = arcs.side d

end Arcs

/-! ### One call -/

namespace Arc

variable {arcs sum : List Arc} {place : ℕ} {weight : UInt32}

/-- An insertion keeps the arcs at all other places. -/
lemma filter_insert? (h : insert? arcs place weight = some sum) :
    sum.filter (·.place ≠ place) = arcs.filter (·.place ≠ place) := by
  induction arcs generalizing sum with
  | nil =>
    cases h
    simp
  | cons arc arcs ih =>
    rw [insert?] at h
    split at h
    · next hplace =>
      obtain ⟨total, -, rfl⟩ := Option.map_eq_some_iff.mp h
      simp [hplace]
    · obtain ⟨tail, htail, rfl⟩ := Option.map_eq_some_iff.mp h
      rw [List.filter_cons, List.filter_cons, ih htail]

/-- The addition in place agrees with the insertion, and a rejected one leaves the arcs as they are. -/
lemma addInPlace_eq : addInPlace arcs place weight =
    match insert? arcs place weight with
    | some sum => (some (weightAt sum place), sum)
    | none => (none, arcs) := by
  induction arcs with
  | nil => simp [addInPlace, insert?, weightAt]
  | cons arc arcs ih =>
    rw [addInPlace, insert?]
    by_cases hp : arc.place = place
    · rw [if_pos hp, if_pos hp]
      cases addWithin? arc.weight weight with
      | none => rfl
      | some sum => simp [weightAt_cons]
    · rw [if_neg hp, if_neg hp, ih]
      cases insert? arcs place weight with
      | none => rfl
      | some sum => simp [weightAt_cons, hp]

end Arc

namespace Arcs

variable {arcs : Arcs} {a : Addition} {d : Direction} {side : List Arc} {place : ℕ}

lemma weight_eq : arcs.weight d place = Arc.weightAt (arcs.side d) place := by
  cases d <;> rfl

lemma side_withSide : (arcs.withSide d side).side d = side := by
  cases d <;> rfl

lemma side_withSide_of_ne {d' : Direction} (h : d' ≠ d) : (arcs.withSide d side).side d' = arcs.side d' := by
  cases d <;> cases d' <;> first | rfl | contradiction

lemma withSide_side : arcs.withSide d (arcs.side d) = arcs := by
  cases d <;> rfl

lemma add?_eq_map : arcs.add? a = (Arc.insert? (arcs.side a.direction) a.arc.place a.arc.weight).map
    (arcs.withSide a.direction) := by
  unfold add?
  cases a.direction <;> rfl

lemma call_of_insert? (h : Arc.insert? (arcs.side a.direction) a.arc.place a.arc.weight = some side) :
    arcs.call a = (some (Arc.weightAt side a.arc.place), arcs.withSide a.direction side) := by
  rw [call, Arc.addInPlace_eq, h]

lemma call_of_insert?_eq_none (h : Arc.insert? (arcs.side a.direction) a.arc.place a.arc.weight = none) :
    arcs.call a = (none, arcs) := by
  rw [call, Arc.addInPlace_eq, h]
  exact congrArg _ withSide_side

lemma call_eq_none_iff : (arcs.call a).1 = none ↔
    4294967295 < (arcs.weight a.direction a.arc.place).toNat + a.arc.weight.toNat := by
  change _ ↔ UInt32.size ≤ _
  rw [weight_eq, ← Arc.insert?_eq_none_iff]
  cases h : Arc.insert? (arcs.side a.direction) a.arc.place a.arc.weight with
  | none => simp [call_of_insert?_eq_none h]
  | some side => simp [call_of_insert? h]

/-- A call either adds the weight at its place and keeps all other arcs, or keeps all arcs. -/
theorem callAdds (arcs : Arcs) (a : Addition) : arcs.CallAdds a := by
  cases h : Arc.insert? (arcs.side a.direction) a.arc.place a.arc.weight with
  | none =>
    have hcall : arcs.call a = (none, arcs) := call_of_insert?_eq_none h
    constructor
    · simp [add?_eq_map, h, hcall]
    · exact call_eq_none_iff
    · simp [hcall]
    · simp [hcall]
    · rw [hcall]
    · simp [hcall]
  | some side =>
    have hcall := call_of_insert? h
    constructor
    · simp [add?_eq_map, h, hcall]
    · exact call_eq_none_iff
    · simp [hcall]
    · intro sum hsum
      rw [hcall] at hsum ⊢
      obtain rfl := Option.some.inj hsum
      rw [weight_eq, weight_eq, side_withSide, Arc.toNat_weightAt_insert? h, if_pos rfl]
      exact ⟨rfl, rfl⟩
    · rw [hcall, side_withSide]
      exact Arc.filter_insert? h
    · intro d hd
      rw [hcall, side_withSide_of_ne hd]

end Arcs

/-! ### Many calls -/

namespace Arc

variable {arcs added sum next : List Arc} {place : ℕ} {weight : UInt32}

/-- A place at which a sum leaves 32 bits was mentioned before, since a single weight does not leave them. -/
lemma mem_of_insert?_eq_none (h : insert? arcs place weight = none) : place ∈ arcs.map Arc.place := by
  by_contra hnot
  rw [insert?_eq_none_iff, weightAt_eq_zero hnot, UInt32.toNat_zero, Nat.zero_add] at h
  exact absurd weight.toNat_lt_size (Nat.not_lt.mpr h)

lemma Sums.insertAll? (h : Sums arcs sum) (hnext : Arc.insertAll? sum added = some next) :
    Sums (arcs ++ added) next := by
  induction added generalizing arcs sum with
  | nil =>
    cases hnext
    rwa [List.append_nil]
  | cons arc added ih =>
    rw [Arc.insertAll?, List.foldlM_cons] at hnext
    obtain ⟨step, hstep, hrest⟩ := Option.bind_eq_some_iff.mp hnext
    rw [List.append_cons]
    exact ih (h.insert? hstep) hrest

/-- Arcs can be inserted if the sums with all of them fit into 32 bits, since on the way the sums are smaller. -/
lemma Sums.exists_insertAll? (h : Sums arcs sum)
    (hfit : ∀ p, total (arcs ++ added) p < UInt32.size) : ∃ next, Arc.insertAll? sum added = some next := by
  induction added generalizing arcs sum with
  | nil => exact ⟨sum, rfl⟩
  | cons arc added ih =>
    rw [List.append_cons] at hfit
    have hle : total (arcs ++ [arc]) arc.place ≤ total (arcs ++ [arc] ++ added) arc.place :=
      (Nat.le_add_right _ _).trans_eq total_append.symm
    obtain ⟨step, hstep⟩ := h.exists_insert?_iff.mpr (hle.trans_lt (hfit arc.place))
    obtain ⟨next, hnext⟩ := ih (h.insert? hstep) hfit
    refine ⟨next, ?_⟩
    rw [Arc.insertAll?, List.foldlM_cons, hstep]
    exact hnext

/-- The list `sum` sums up the arcs that were accepted, and its places stand in the order in which all arcs first
mention them. -/
structure SumsUp (mentioned accepted sum : List Arc) : Prop where
  sums : Sums accepted sum
  places : sum.map Arc.place = (mentioned.map Arc.place).eraseDups

namespace SumsUp

variable {mentioned accepted : List Arc} {arc : Arc}

lemma accept (h : SumsUp mentioned accepted sum) (hnext : insert? sum arc.place arc.weight = some next) :
    SumsUp (mentioned ++ [arc]) (accepted ++ [arc]) next :=
  ⟨h.sums.insert? hnext, places_insert? h.places hnext⟩

lemma reject (h : SumsUp mentioned accepted sum) (hnone : insert? sum arc.place arc.weight = none) :
    SumsUp (mentioned ++ [arc]) accepted sum := by
  refine ⟨h.sums, ?_⟩
  have hmem : arc.place ∈ sum.map Arc.place := mem_of_insert?_eq_none hnone
  rw [h.places, List.mem_eraseDups] at hmem
  rw [List.map_append, List.map_singleton, eraseDups_append_singleton, if_pos hmem]
  exact h.places

end SumsUp

end Arc

namespace Addition

variable {a : Addition} {calls more : List Addition} {d : Direction}

lemma arcsOf_append : arcsOf (calls ++ more) d = arcsOf calls d ++ arcsOf more d := by
  simp [arcsOf]

lemma arcsOf_singleton : arcsOf [a] d = if a.direction = d then [a.arc] else [] := by
  by_cases h : a.direction = d <;> simp [arcsOf, h]

end Addition

namespace Arcs

/-- The arcs sum up in both directions what was given first and what was accepted since. -/
def SumUp (given : Direction → List Arc) (mentioned added : List Addition) (arcs : Arcs) : Prop :=
  ∀ d, Arc.SumsUp (given d ++ Addition.arcsOf mentioned d) (given d ++ Addition.arcsOf added d) (arcs.side d)

variable {given : Direction → List Arc} {arcs start : Arcs} {calls added mentioned : List Addition}

lemma ofLists?_eq_some_iff {consumes produces : List Arc} : ofLists? consumes produces = some start ↔
    Arc.insertAll? [] consumes = some start.consumes ∧ Arc.insertAll? [] produces = some start.produces := by
  obtain ⟨c, p⟩ := start
  simp [ofLists?, Option.bind_eq_some_iff]

lemma sumUp_of_ofLists? (h : ofLists? (given .consumes) (given .produces) = some start) :
    SumUp given [] [] start := by
  obtain ⟨hconsumes, hproduces⟩ := ofLists?_eq_some_iff.mp h
  intro d
  have hsums : Arc.Sums (given d) (start.side d) := by
    cases d with
    | consumes => exact Arc.sums_nil.insertAll? hconsumes
    | produces => exact Arc.sums_nil.insertAll? hproduces
  rw [Addition.arcsOf, List.filter_nil, List.map_nil, List.append_nil]
  exact ⟨hsums, hsums.places⟩

/-- The sums stay exact if what a call adds is counted unless it is rejected. -/
lemma SumUp.call (h : SumUp given mentioned added arcs) (a : Addition) :
    SumUp given (mentioned ++ [a]) (added ++ if (arcs.call a).1 = none then [] else [a]) (arcs.call a).2 := by
  intro d
  cases hside : Arc.insert? (arcs.side a.direction) a.arc.place a.arc.weight with
  | none =>
    rw [call_of_insert?_eq_none hside, if_pos rfl, List.append_nil, Addition.arcsOf_append,
      Addition.arcsOf_singleton, ← List.append_assoc]
    by_cases hd : a.direction = d
    · subst hd
      rw [if_pos rfl]
      exact (h a.direction).reject hside
    · rw [if_neg hd, List.append_nil]
      exact h d
  | some side =>
    rw [call_of_insert? hside, if_neg (Option.some_ne_none _), Addition.arcsOf_append, Addition.arcsOf_append,
      Addition.arcsOf_singleton, ← List.append_assoc, ← List.append_assoc]
    by_cases hd : a.direction = d
    · subst hd
      rw [if_pos rfl, side_withSide]
      exact (h a.direction).accept hside
    · rw [if_neg hd, List.append_nil, List.append_nil, side_withSide_of_ne (Ne.symm hd)]
      exact h d

lemma SumUp.afterCalls (h : SumUp given mentioned added arcs) (calls : List Addition) :
    SumUp given (mentioned ++ calls) (added ++ arcs.accepted calls) (arcs.afterCalls calls) := by
  induction calls generalizing arcs mentioned added with
  | nil => simpa [accepted, Arcs.afterCalls] using h
  | cons a calls ih =>
    rw [List.append_cons, accepted, ← List.append_assoc]
    exact ih (h.call a)

lemma SumUp.toNat_weight (h : SumUp given mentioned added arcs) (d : Direction) (p : ℕ) :
    (arcs.weight d p).toNat = Arc.total (given d) p + Arc.total (Addition.arcsOf added d) p := by
  rw [weight_eq, (h d).sums.toNat_weightAt, Arc.total_append]

/-- Arcs can be given just if their sums fit into 32 bits. After any calls each list has every place once, in the
order in which the places were mentioned, with the exact sum of the weights that were given and accepted, and the
next call adds to these or is rejected. -/
theorem weight_afterCalls (given : Direction → List Arc) :
    ((∃ start, ofLists? (given .consumes) (given .produces) = some start) ↔
      ∀ d p, Arc.total (given d) p ≤ 4294967295) ∧
    ∀ start, ofLists? (given .consumes) (given .produces) = some start → ∀ calls : List Addition,
      (∀ d, (((start.afterCalls calls).side d).map Arc.place).Nodup ∧
        ((start.afterCalls calls).side d).map Arc.place =
          ((given d ++ Addition.arcsOf calls d).map Arc.place).eraseDups ∧
        ∀ p, ((start.afterCalls calls).weight d p).toNat =
          Arc.total (given d) p + Arc.total (Addition.arcsOf (start.accepted calls) d) p) ∧
      ∀ a, (start.afterCalls calls).CallAdds a := by
  refine ⟨⟨?_, ?_⟩, fun start hstart calls => ⟨fun d => ?_, fun a => callAdds _ a⟩⟩
  · rintro ⟨start, hstart⟩ d p
    have hlt := (sumUp_of_ofLists? hstart d).sums.total_lt p
    rw [Arc.total_append] at hlt
    exact Nat.le_of_lt_succ ((Nat.le_add_right _ _).trans_lt hlt)
  · intro hfit
    have hexists : ∀ d, ∃ side, Arc.insertAll? [] (given d) = some side :=
      fun d => Arc.sums_nil.exists_insertAll? fun p => Nat.lt_succ_of_le (hfit d p)
    obtain ⟨consumes, hconsumes⟩ := hexists .consumes
    obtain ⟨produces, hproduces⟩ := hexists .produces
    exact ⟨⟨consumes, produces⟩, ofLists?_eq_some_iff.mpr ⟨hconsumes, hproduces⟩⟩
  · have hsum : SumUp given calls (start.accepted calls) (start.afterCalls calls) :=
      (sumUp_of_ofLists? hstart).afterCalls calls
    exact ⟨(hsum d).sums.nodup, (hsum d).places, hsum.toNat_weight d⟩

end Arcs

section Turnstile

/-- A turnstile takes a coin and gives back two, besides a pass. -/
def turnstile : Direction → List Arc
  | .consumes => [⟨1, 0⟩]
  | .produces => [⟨1, 0⟩, ⟨1, 1⟩, ⟨1, 0⟩]

/-- More passes than fit are to be given out, then a ticket is to be taken and coins are to be given. -/
def turnstileCalls : List Addition :=
  [⟨.produces, ⟨4294967295, 1⟩⟩, ⟨.consumes, ⟨5, 2⟩⟩, ⟨.produces, ⟨4294967293, 0⟩⟩]

def turnstileArcs : Arcs where
  consumes := [⟨1, 0⟩]
  produces := [⟨2, 0⟩, ⟨1, 1⟩]

/-- The first call is rejected. After the others there is no room for another coin. -/
theorem weight_turnstileCalls :
    Arcs.ofLists? (turnstile .consumes) (turnstile .produces) = some turnstileArcs ∧
    turnstileArcs.accepted turnstileCalls = turnstileCalls.tail ∧
    ((turnstileArcs.afterCalls turnstileCalls).weight .produces 0).toNat = 2 + 4294967293 ∧
    ((turnstileArcs.afterCalls turnstileCalls).weight .produces 1).toNat = 1 ∧
    ((turnstileArcs.afterCalls turnstileCalls).side .consumes).map Arc.place = [0, 2] ∧
    ((turnstileArcs.afterCalls turnstileCalls).call ⟨.produces, ⟨1, 0⟩⟩).1 = none := by
  have hstart : Arcs.ofLists? (turnstile .consumes) (turnstile .produces) = some turnstileArcs := by
    decide +kernel
  have haccepted : turnstileArcs.accepted turnstileCalls = turnstileCalls.tail := by decide +kernel
  obtain ⟨-, hcalls⟩ := Arcs.weight_afterCalls turnstile
  obtain ⟨hsides, hnext⟩ := hcalls turnstileArcs hstart turnstileCalls
  rw [haccepted] at hsides
  have hcoins := (hsides .produces).2.2 0
  have hrejects := (hnext ⟨.produces, ⟨1, 0⟩⟩).rejects_iff
  refine ⟨hstart, haccepted, hcoins, (hsides .produces).2.2 1, (hsides .consumes).2.1, hrejects.mpr ?_⟩
  dsimp only
  rw [hcoins]
  decide +kernel

end Turnstile

end Coverability
