import Coverability.Proofs.Deadlocks
import Coverability.Proofs.FiringSequences

/-!
# Calls in range

In a net that was built, and moved by commands, names and indices agree, arcs lead to places of the net, and
markings have one count for each place. So a call that fails says why in terms of the net's own names, and no call
by name and no firing breaks off at an index that is out of range.
-/

namespace Coverability

namespace Net

/-- What a call on the net may report: no broken contract, and only entities of the net where one was found. -/
def Reports (net : Net) : NetError → Prop
  | .contractViolation => False
  | .insufficientTokens transition place _ _ => transition ∈ net.transitionNames ∧ place ∈ net.placeNames
  | .tokenOverflow transition place => transition ∈ net.transitionNames ∧ place ∈ net.placeNames
  | _ => True

/-- The call has a result, or fails with something that the net may report. -/
def InRange {α : Type} (net : Net) (call : Except NetError α) : Prop :=
  ∀ e, call = .error e → net.Reports e

variable {net : Net} {t : ℕ} {ts : List ℕ} {m : Marking} {arc : Arc} {name : String} {names : List String}

section Calls

variable {α β : Type}

lemma inRange_ok (a : α) : net.InRange (.ok a) := nofun

lemma inRange_error {e : NetError} (h : net.Reports e) : net.InRange (.error e : Except NetError α) := by
  rintro _ ⟨⟩
  exact h

lemma InRange.bind {call : Except NetError α} {f : α → Except NetError β} (h : net.InRange call)
    (hf : ∀ a, call = .ok a → net.InRange (f a)) : net.InRange (call >>= f) := by
  cases call with
  | error e => exact inRange_error (h e rfl)
  | ok a => exact hf a rfl

lemma inRange_mapM {f : α → Except NetError β} {l : List α} (h : ∀ a ∈ l, net.InRange (f a)) :
    net.InRange (l.mapM f) := by
  induction l with
  | nil => exact inRange_ok []
  | cons a l ih =>
    obtain ⟨ha, hl⟩ := List.forall_mem_cons.mp h
    rw [List.mapM_cons]
    exact ha.bind fun b _ => (ih hl).bind fun rest _ => inRange_ok (b :: rest)

end Calls

lemma transitionName_mem (ht : t < net.transitionCount) : net.transitionName t ∈ net.transitionNames :=
  List.mem_of_getElem? (getElem?_eq_getD ht)

lemma placeName_mem {p : ℕ} (hp : p < net.placeCount) : net.placeName p ∈ net.placeNames :=
  List.mem_of_getElem? (getElem?_eq_getD hp)

lemma inRange_placeIndex (name : String) : net.InRange (net.placeIndex name) := by
  unfold placeIndex
  split
  · exact inRange_ok _
  · exact inRange_error trivial

lemma inRange_transitionIndex (name : String) : net.InRange (net.transitionIndex name) := by
  unfold transitionIndex
  split
  · exact inRange_ok _
  · exact inRange_error trivial

lemma inRange_checkDimension (m : Marking) : net.InRange (net.checkDimension m) := by
  unfold checkDimension
  split
  · exact inRange_ok _
  · exact inRange_error trivial

lemma inRange_consume (ht : t < net.transitionCount) (hp : arc.place < net.placeCount)
    (hd : m.dimension = net.placeCount) : net.InRange (net.consume t m arc) := by
  obtain ⟨count, hcount⟩ := Marking.exists_get? (hd ▸ hp : arc.place < m.dimension)
  unfold consume
  rw [hcount]
  dsimp only
  split
  · exact inRange_ok _
  · exact inRange_error ⟨transitionName_mem ht, placeName_mem hp⟩

lemma inRange_produce (ht : t < net.transitionCount) (hp : arc.place < net.placeCount)
    (hd : m.dimension = net.placeCount) : net.InRange (net.produce t m arc) := by
  obtain ⟨count, hcount⟩ := Marking.exists_get? (hd ▸ hp : arc.place < m.dimension)
  unfold produce
  rw [hcount]
  dsimp only
  split
  · exact inRange_ok _
  · exact inRange_error ⟨transitionName_mem ht, placeName_mem hp⟩

/-- If every arc can be followed from a marking with one count for each place, so can all of them. -/
lemma inRange_foldlM {f : Marking → Arc → Except NetError Marking} {arcs : List Arc}
    (hf : ∀ arc ∈ arcs, ∀ n : Marking, n.dimension = net.placeCount → net.InRange (f n arc))
    (hdim : ∀ {n next : Marking} {arc : Arc}, f n arc = .ok next → next.dimension = n.dimension)
    (hd : m.dimension = net.placeCount) : net.InRange (arcs.foldlM f m) := by
  intro e he
  obtain ⟨arc, harc, n, hn, he⟩ := exists_of_foldlM_eq_error (P := fun n => n.dimension = net.placeCount)
    (fun _ _ _ _ hb hc => (hdim hc).trans hb) hd he
  exact hf arc harc n hn e he

namespace WellFormed

variable (hw : net.WellFormed)

include hw

lemma inRange_fire (m : Marking) (ht : t < net.transitionCount) : net.InRange (net.fire m t) := by
  obtain ⟨arcs, harcs⟩ := hw.exists_arcs ht
  have hfit : arcs.Fit net.placeCount := hw.arc_fit harcs
  refine (inRange_checkDimension m).bind fun _ hd => ?_
  have hd : m.dimension = net.placeCount := dimension_of_checkDimension hd
  rw [harcs]
  refine InRange.bind ?_ fun taken htaken => ?_
  · exact inRange_foldlM (fun arc harc n hn => inRange_consume ht (hfit.consumes.lt arc harc) hn)
      dimension_consume hd
  · have htaken : taken.dimension = net.placeCount := (dimension_foldlM dimension_consume htaken).trans hd
    exact inRange_foldlM (fun arc harc n hn => inRange_produce ht (hfit.produces.lt arc harc) hn)
      dimension_produce htaken

lemma lt_of_transitionIndex (h : net.transitionIndex name = .ok t) : t < net.transitionCount :=
  (List.getElem?_eq_some_iff.mp (hw.transitionIndex_eq_ok_iff.mp h)).1

lemma inRange_fireNamed (m : Marking) (name : String) : net.InRange (net.fireNamed m name) :=
  (inRange_transitionIndex name).bind fun _ ht => hw.inRange_fire m (hw.lt_of_transitionIndex ht)

lemma inRange_fireAll (m : Marking) (ht : ∀ t ∈ ts, t < net.transitionCount) :
    net.InRange (net.fireAll m ts) := by
  induction ts generalizing m with
  | nil => exact inRange_ok _
  | cons t ts ih =>
    obtain ⟨hlt, ht⟩ := List.forall_mem_cons.mp ht
    unfold fireAll
    split
    · next next _ => exact (ih next ht).bind fun _ _ => inRange_ok _
    · next e he =>
      split
      · exact inRange_ok _
      · exact inRange_error (hw.inRange_fire m hlt e he)

lemma inRange_fireSequence (m : Marking) (names : List String) : net.InRange (net.fireSequence m names) := by
  refine (inRange_checkDimension m).bind fun _ _ => ?_
  refine (inRange_mapM fun name _ => inRange_transitionIndex name).bind fun ts hts => ?_
  exact hw.inRange_fireAll m (hw.mapM_transitionIndex_eq_ok_iff.mp hts).1

lemma exists_isEnabled_eq_ok (hd : m.dimension = net.placeCount) (ht : t < net.transitionCount) :
    ∃ enabled, net.isEnabled m t = .ok enabled := by
  obtain ⟨arcs, harcs⟩ := hw.exists_arcs ht
  exact ⟨_, hw.isEnabled_eq_ok hd harcs⟩

lemma enabledTransitions_eq_ok (hd : m.dimension = net.placeCount) :
    net.enabledTransitions m =
      .ok ((List.range net.transitionCount).filter (net.isEnabled m · = .ok true)) := by
  apply filterM_eq_ok
  intro t ht
  obtain ⟨enabled, henabled⟩ := hw.exists_isEnabled_eq_ok hd (List.mem_range.mp ht)
  rw [henabled]
  cases enabled <;> rfl

lemma lt_dimension_of_placeIndex {p : ℕ} (h : net.placeIndex name = .ok p) : p < net.marking.dimension := by
  rw [hw.dimension_marking]
  exact (List.getElem?_eq_some_iff.mp (hw.placeIndex_eq_ok_iff.mp h)).1

lemma inRange_call (command : Command) : net.InRange (net.call command).1 := by
  cases command with
  | fire transition =>
    rw [call_fire]
    cases h : net.fireNamed net.marking transition with
    | error e => exact inRange_error (hw.inRange_fireNamed net.marking transition e h)
    | ok m => exact inRange_ok none
  | fireSequence transitions =>
    rw [call_fireSequence]
    cases h : net.fireSequence net.marking transitions with
    | error e => exact inRange_error (hw.inRange_fireSequence net.marking transitions e h)
    | ok outcome => exact inRange_ok (some outcome)
  | setMarking m =>
    rw [call_setMarking]
    cases h : net.checkDimension m with
    | error e => exact inRange_error (inRange_checkDimension m e h)
    | ok u => exact inRange_ok none
  | setTokens place count =>
    rw [call_setTokens]
    cases h : net.placeIndex place with
    | error e => exact inRange_error (inRange_placeIndex place e h)
    | ok index =>
      dsimp only
      rw [Marking.set?, if_pos (hw.lt_dimension_of_placeIndex h)]
      exact inRange_ok none
  | reset => exact inRange_ok none

lemma inRange_tokens (place : String) : net.InRange (net.tokens place) := by
  refine (inRange_placeIndex place).bind fun p hp => ?_
  obtain ⟨count, hcount⟩ := Marking.exists_get? (hw.lt_dimension_of_placeIndex hp)
  rw [hcount]
  exact inRange_ok count

lemma inRange_isEnabledNamed (transition : String) : net.InRange (net.isEnabledNamed transition) := by
  refine (inRange_transitionIndex transition).bind fun t ht => ?_
  obtain ⟨enabled, henabled⟩ := hw.exists_isEnabled_eq_ok hw.dimension_marking (hw.lt_of_transitionIndex ht)
  rw [henabled]
  exact inRange_ok enabled

end WellFormed

/-- The net was built from what is entered in the register, and may have been moved by commands since. -/
inductive RegisteredIn : Net → Register → Prop
  | build {entities : List Entity} {register : Register} {name : String} {texts : List String} {net : Net}
      (hregister : Register.ofEntities entities = .ok register) (hnet : register.build name texts = .ok net) :
      RegisteredIn net register
  | after {net : Net} {register : Register} (command : Command) (h : RegisteredIn net register) :
      RegisteredIn (net.after command) register

lemma Constructed.exists_registeredIn (h : net.Constructed) : ∃ register, net.RegisteredIn register := by
  induction h with
  | ofEntities h =>
    rw [ofEntities_eq_register, bind_eq_ok] at h
    obtain ⟨register, hregister, hnet⟩ := h
    exact ⟨register, .build hregister hnet⟩
  | after command _ ih =>
    obtain ⟨register, hregister⟩ := ih
    exact ⟨register, .after command hregister⟩

lemma RegisteredIn.constructed {register : Register} (h : net.RegisteredIn register) : net.Constructed := by
  induction h with
  | @build entities register name texts net hregister hnet =>
    have h : ofEntities name entities texts = .ok net := by
      rw [ofEntities_eq_register, bind_eq_ok]
      exact ⟨register, hregister, hnet⟩
    exact .ofEntities h
  | after command _ ih => exact ih.after command

/-- The register keeps telling what the names of the net stand for. -/
lemma RegisteredIn.refs {register : Register} (h : net.RegisteredIn register) (name : String) :
    register.refs[name]? = net.resolve name := by
  induction h with
  | build hregister hnet =>
    obtain ⟨parsed, -, hnet⟩ := bind_eq_ok.mp hnet
    obtain ⟨arcs, -, hnet⟩ := bind_eq_ok.mp hnet
    cases hnet
    exact (Register.holds_of_ofEntities hregister).refs name
  | after command h ih =>
    obtain ⟨m, -, hafter⟩ := h.constructed.wellFormed.exists_after_eq command
    rw [hafter]
    exact ih

/-- A net that was built and moved by commands is well formed: a name stands for the entity that has it, and no
other name for any. This is what was entered for the names when the net was built. So its calls by name, and firings
on markings that fit, stay in range. -/
theorem Constructed.inRange (h : net.Constructed) :
    net.WellFormed ∧
    (∀ name p, net.resolve name = some (.place p) ↔ net.placeNames[p]? = some name) ∧
    (∀ name t, net.resolve name = some (.transition t) ↔ net.transitionNames[t]? = some name) ∧
    (∀ name, net.resolve name = none ↔ name ∉ net.placeNames ++ net.transitionNames) ∧
    ((∃ register, net.RegisteredIn register) ∧
      ∀ register, net.RegisteredIn register → ∀ name : String, register.refs[name]? = net.resolve name) ∧
    (∀ command, net.InRange (net.call command).1) ∧
    (∀ place, net.InRange (net.tokens place)) ∧
    (∀ transition, net.InRange (net.isEnabledNamed transition)) ∧
    (∀ m transition, net.InRange (net.fireNamed m transition)) ∧
    (∀ m transitions, net.InRange (net.fireSequence m transitions)) ∧
    ∀ m : Marking, m.dimension = net.placeCount →
      (∃ enabled, net.enabledTransitions m = .ok enabled ∧ ∀ t ∈ enabled, t < net.transitionCount) ∧
      ∀ t < net.transitionCount, (∃ enabled, net.isEnabled m t = .ok enabled) ∧ net.InRange (net.fire m t) := by
  have hw : net.WellFormed := h.wellFormed
  refine ⟨hw, fun _ _ => hw.resolve_eq_place_iff, fun _ _ => hw.resolve_eq_transition_iff,
    fun _ => resolve_eq_none_iff, ⟨h.exists_registeredIn, fun _ hregister => hregister.refs⟩, hw.inRange_call,
    hw.inRange_tokens, hw.inRange_isEnabledNamed, hw.inRange_fireNamed, hw.inRange_fireSequence,
    fun m hd => ⟨?_, fun t ht => ⟨?_, hw.inRange_fire m ht⟩⟩⟩
  · refine ⟨_, hw.enabledTransitions_eq_ok hd, fun t ht => ?_⟩
    exact List.mem_range.mp (List.mem_of_mem_filter ht)
  · exact hw.exists_isEnabled_eq_ok hd ht

end Net

/-- The shop after it was filled and closed. -/
def closedShop : Net :=
  shop.after (.fireSequence ["fill", "close", "close"])

/-- The closed shop still finds its stock as it was entered. When it is to be closed again, it says by its own names
what is missing where. -/
theorem inRange_closedShop : closedShop.Constructed ∧ closedShop.WellFormed ∧
    closedShop.resolve "stock" = some (.place 1) ∧ closedShop.resolve "door" = none ∧
    (∃ register, closedShop.RegisteredIn register ∧ register.refs["stock"]? = some (.place 1)) ∧
    (closedShop.call (.fire "close")).1 = .error (.insufficientTokens "close" "open" 1 0) ∧
    "close" ∈ closedShop.transitionNames ∧ "open" ∈ closedShop.placeNames := by
  have hclosed : closedShop.Constructed := .after _ constructed_shop
  have hfail : (closedShop.call (.fire "close")).1 = .error (.insufficientTokens "close" "open" 1 0) := by
    decide +kernel
  obtain ⟨hw, hplace, -, hnone, ⟨⟨register, hregister⟩, hrefs⟩, hcall, -⟩ := hclosed.inRange
  have hstock : closedShop.resolve "stock" = some (.place 1) := (hplace "stock" 1).mpr (by decide +kernel)
  have hdoor : closedShop.resolve "door" = none := (hnone "door").mpr (by decide +kernel)
  exact ⟨hclosed, hw, hstock, hdoor, ⟨register, hregister, (hrefs register hregister "stock").trans hstock⟩, hfail,
    hcall _ _ hfail⟩

end Coverability
