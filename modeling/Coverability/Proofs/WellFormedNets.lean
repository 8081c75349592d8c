import Coverability.Net.Command
import Coverability.Net.Register
import Coverability.Search.Termination
import Mathlib.Data.List.Perm.Basic

/-!
# Well-formed nets

A net that was built from entities and rules has distinct names, one entry of arcs for each transition,
and in each list of arcs distinct places of the net with positive weights. Its markings have one count
for each place. Commands keep all of this, since they only exchange the current marking.
-/

namespace Coverability

lemma bind_eq_ok {ε α β : Type} {x : Except ε α} {f : α → Except ε β} {b : β} :
    x >>= f = .ok b ↔ ∃ a, x = .ok a ∧ f a = .ok b := by
  cases x with
  | error e => exact ⟨nofun, nofun⟩
  | ok a => exact ⟨fun h => ⟨a, rfl, h⟩, fun ⟨_, ha, h⟩ => by cases ha; exact h⟩

lemma allM_eq_ok {ε α : Type} {f : α → Except ε Bool} {g : α → Bool} {l : List α}
    (h : ∀ a ∈ l, f a = .ok (g a)) : l.allM f = .ok (l.all g) := by
  induction l with
  | nil => rfl
  | cons a l ih =>
    obtain ⟨ha, hl⟩ := List.forall_mem_cons.mp h
    rw [List.allM_cons, ha, List.all_cons]
    cases hg : g a with
    | true => exact ih hl
    | false => rfl

/-- A property that every step keeps holds after a fold that succeeds. -/
lemma foldlM_keeps {ε α β : Type} {P : β → Prop} {f : β → α → Except ε β} {l : List α}
    (hf : ∀ a ∈ l, ∀ {b c}, P b → f b a = .ok c → P c) {b c : β} (hb : P b)
    (h : l.foldlM f b = .ok c) : P c := by
  induction l generalizing b with
  | nil =>
    cases h
    exact hb
  | cons a l ih =>
    rw [List.foldlM_cons, bind_eq_ok] at h
    obtain ⟨next, hn, h⟩ := h
    exact ih (fun a ha => hf a (List.mem_cons_of_mem _ ha)) (hf a List.mem_cons_self hb hn) h

/-- A fold that fails does so at one of its steps, from a value with every property that steps keep. -/
lemma exists_of_foldlM_eq_error {ε α β : Type} {P : β → Prop} {f : β → α → Except ε β} {l : List α}
    (hf : ∀ a ∈ l, ∀ {b c}, P b → f b a = .ok c → P c) {b : β} {e : ε} (hb : P b)
    (h : l.foldlM f b = .error e) : ∃ a ∈ l, ∃ c, P c ∧ f c a = .error e := by
  induction l generalizing b with
  | nil => cases h
  | cons a l ih =>
    rw [List.foldlM_cons] at h
    cases hn : f b a with
    | error e' =>
      rw [hn] at h
      cases h
      exact ⟨a, List.mem_cons_self, b, hb, hn⟩
    | ok next =>
      rw [hn] at h
      have hnext : P next := hf a List.mem_cons_self hb hn
      obtain ⟨a', ha, c, hc, he⟩ := ih (fun a ha => hf a (List.mem_cons_of_mem _ ha)) hnext h
      exact ⟨a', List.mem_cons_of_mem _ ha, c, hc, he⟩

/-- Arcs between a transition and distinct places below `places`, each with a positive weight. -/
structure Arc.Fit (places : ℕ) (arcs : List Arc) : Prop where
  lt : ∀ arc ∈ arcs, arc.place < places
  pos : ∀ arc ∈ arcs, 0 < arc.weight
  nodup : (arcs.map Arc.place).Nodup

structure Arcs.Fit (places : ℕ) (arcs : Arcs) : Prop where
  consumes : Arc.Fit places arcs.consumes
  produces : Arc.Fit places arcs.produces

namespace Arc

variable {arcs sum : List Arc} {places place : ℕ} {weight : UInt32}

lemma pos_of_addWithin? {a b c : UInt32} (ha : 0 < a) (h : addWithin? a b = some c) : 0 < c := by
  simp only [addWithin?, Option.ite_none_right_eq_some, Option.some.injEq] at h
  obtain ⟨hlt, rfl⟩ := h
  rw [UInt32.lt_iff_toNat_lt] at ha ⊢
  rw [UInt32.toNat_add, Nat.mod_eq_of_lt hlt]
  exact Nat.add_pos_left ha _

/-- A place that is met again keeps its position, and a new one goes to the end. -/
lemma map_place_insert? (h : insert? arcs place weight = some sum) :
    sum.map Arc.place =
      if place ∈ arcs.map Arc.place then arcs.map Arc.place else arcs.map Arc.place ++ [place] := by
  induction arcs generalizing sum with
  | nil =>
    cases h
    simp
  | cons arc arcs ih =>
    simp only [insert?] at h
    split at h
    · next he =>
      obtain ⟨total, -, rfl⟩ := Option.map_eq_some_iff.mp h
      simp [he]
    · next hne =>
      obtain ⟨tail, ht, rfl⟩ := Option.map_eq_some_iff.mp h
      rw [List.map_cons, ih ht, List.map_cons]
      have hne' : place ≠ arc.place := Ne.symm hne
      by_cases hm : place ∈ arcs.map Arc.place <;> simp [hm, hne']

lemma nodup_insert? (hn : (arcs.map Arc.place).Nodup) (h : insert? arcs place weight = some sum) :
    (sum.map Arc.place).Nodup := by
  rw [map_place_insert? h]
  split
  · exact hn
  · next hnew => exact List.nodup_append.mpr ⟨hn, by simp, by simpa using hnew⟩

lemma pos_of_insert? (hpos : ∀ arc ∈ arcs, 0 < arc.weight) (hw : 0 < weight)
    (h : insert? arcs place weight = some sum) : ∀ arc ∈ sum, 0 < arc.weight := by
  induction arcs generalizing sum with
  | nil =>
    cases h
    simpa using hw
  | cons arc arcs ih =>
    obtain ⟨harc, harcs⟩ := List.forall_mem_cons.mp hpos
    simp only [insert?] at h
    split at h
    · obtain ⟨total, ht, rfl⟩ := Option.map_eq_some_iff.mp h
      exact List.forall_mem_cons.mpr ⟨pos_of_addWithin? harc ht, harcs⟩
    · obtain ⟨tail, ht, rfl⟩ := Option.map_eq_some_iff.mp h
      exact List.forall_mem_cons.mpr ⟨harc, ih harcs ht⟩

lemma Fit.insert? (hf : Fit places arcs) (hp : place < places) (hw : 0 < weight)
    (h : insert? arcs place weight = some sum) : Fit places sum := by
  have hmap := map_place_insert? h
  refine ⟨?_, pos_of_insert? hf.pos hw h, ?_⟩
  · intro arc harc
    have hmem : arc.place ∈ sum.map Arc.place := List.mem_map_of_mem harc
    rw [hmap] at hmem
    have hold : ∀ q ∈ arcs.map Arc.place, q < places := by
      simpa using hf.lt
    split at hmem
    · exact hold _ hmem
    · rcases List.mem_append.mp hmem with hmem | hmem
      · exact hold _ hmem
      · rwa [List.mem_singleton.mp hmem]
  · exact nodup_insert? hf.nodup h

end Arc

section Incidence

variable {places transitions : ℕ} {resolve : String → Option EntityRef}

/-- One entry for each of `transitions` transitions, with arcs to places below `places`. -/
def ArcsFit (places transitions : ℕ) (arcs : List Arcs) : Prop :=
  arcs.length = transitions ∧ ∀ entry ∈ arcs, entry.Fit places

lemma resolved_eq_ok {name : String} {entity : EntityRef} :
    resolved resolve name = .ok entity ↔ resolve name = some entity := by
  unfold resolved
  split <;> simp_all

lemma ArcsFit.updateArcs {arcs sum : List Arcs} {rule : Rule} {target : Target} {t : ℕ}
    {add? : Arcs → Option Arcs} (hadd : ∀ old new, old.Fit places → add? old = some new → new.Fit places)
    (hf : ArcsFit places transitions arcs) (h : updateArcs rule target arcs t add? = .ok sum) :
    ArcsFit places transitions sum := by
  unfold Coverability.updateArcs at h
  split at h
  · contradiction
  · next old hold =>
    split at h
    · contradiction
    · next new hnew =>
      cases h
      refine ⟨by rw [List.length_set, hf.1], fun entry he => ?_⟩
      rcases List.mem_or_eq_of_mem_set he with he | rfl
      · exact hf.2 entry he
      · exact hadd old entry (hf.2 old (List.mem_of_getElem? hold)) hnew

lemma ArcsFit.addTarget (hr : ∀ name p, resolve name = some (.place p) → p < places) {rule : Rule}
    {source : EntityRef} (hsource : ∀ p, source = .place p → p < places) {target : Target}
    {arcs sum : List Arcs} (hf : ArcsFit places transitions arcs)
    (h : addTarget resolve rule source arcs target = .ok sum) : ArcsFit places transitions sum := by
  unfold Coverability.addTarget at h
  split at h
  · contradiction
  · next hw =>
    have hpos : 0 < target.weight := by
      rw [UInt32.lt_iff_toNat_lt]
      exact Nat.pos_of_ne_zero fun h0 => hw (UInt32.toNat_inj.mp h0)
    obtain ⟨other, hother, h⟩ := bind_eq_ok.mp h
    cases source with
    | place p =>
      cases other with
      | place q => contradiction
      | transition t =>
        refine ArcsFit.updateArcs ?_ hf h
        intro old new ho hn
        obtain ⟨consumes, hi, rfl⟩ := Option.map_eq_some_iff.mp hn
        exact ⟨ho.consumes.insert? (hsource p rfl) hpos hi, ho.produces⟩
    | transition t =>
      cases other with
      | place p =>
        refine ArcsFit.updateArcs ?_ hf h
        intro old new ho hn
        obtain ⟨produces, hi, rfl⟩ := Option.map_eq_some_iff.mp hn
        exact ⟨ho.consumes, ho.produces.insert? (hr _ p (resolved_eq_ok.mp hother)) hpos hi⟩
      | transition u => contradiction

/-- The arcs read from rules fit the net, whatever the rules are. -/
theorem incidence_fit (hr : ∀ name p, resolve name = some (.place p) → p < places) {rules : List Rule}
    {arcs : List Arcs} (h : incidence rules transitions resolve = .ok arcs) :
    ArcsFit places transitions arcs := by
  refine foldlM_keeps (P := ArcsFit places transitions) ?_ ?_ h
  · intro rule _ old new hf h
    obtain ⟨source, hs, h⟩ := bind_eq_ok.mp h
    refine foldlM_keeps (P := ArcsFit places transitions) ?_ hf h
    intro target _ old new hf h
    refine hf.addTarget hr ?_ h
    rintro p rfl
    exact hr _ p (resolved_eq_ok.mp hs)
  · refine ⟨List.length_replicate, fun entry he => ?_⟩
    rw [List.eq_of_mem_replicate he]
    constructor <;> exact ⟨by simp, by simp, by simp⟩

end Incidence

lemma nodup_of_firstRepeated?_eq_none {seen names : List String}
    (h : firstRepeated? seen names = none) : names.Nodup ∧ ∀ name ∈ names, name ∉ seen := by
  induction names generalizing seen with
  | nil => simp
  | cons name names ih =>
    simp only [firstRepeated?] at h
    split at h
    · contradiction
    · next hname =>
      obtain ⟨hnodup, hseen⟩ := ih h
      simp only [List.mem_cons, not_or] at hseen
      refine ⟨List.nodup_cons.mpr ⟨fun hm => (hseen name hm).1 rfl, hnodup⟩, ?_⟩
      simp only [List.mem_cons, forall_eq_or_imp]
      exact ⟨hname, fun other ho => (hseen other ho).2⟩

lemma lt_of_resolveName {placeNames transitionNames : List String} {name : String} {p : ℕ}
    (h : resolveName placeNames transitionNames name = some (.place p)) : p < placeNames.length := by
  unfold resolveName at h
  split at h
  · next place hi =>
    cases h
    exact (List.idxOf?_eq_some_iff.mp hi).1
  · simp at h

namespace Net

/-- What is true of every net that can be had: names are distinct, arcs fit, and so do markings. -/
structure WellFormed (net : Net) : Prop where
  names_nodup : (net.placeNames ++ net.transitionNames).Nodup
  arcs_fit : ArcsFit net.placeCount net.transitionCount net.arcs
  dimension_initial : net.initial.dimension = net.placeCount
  dimension_marking : net.marking.dimension = net.placeCount

/-- The nets that can be had: those built from entities and rules, also after any commands. -/
inductive Constructed : Net → Prop
  | ofEntities {name : String} {entities : List Entity} {rules : List String} {net : Net}
      (h : Net.ofEntities name entities rules = .ok net) : Constructed net
  | after {net : Net} (command : Command) (h : Constructed net) : Constructed (net.after command)

theorem wellFormed_ofEntities {name : String} {entities : List Entity} {rules : List String} {net : Net}
    (h : ofEntities name entities rules = .ok net) : net.WellFormed := by
  unfold ofEntities at h
  split at h
  · contradiction
  · next hnone =>
    obtain ⟨parsed, -, h⟩ := bind_eq_ok.mp h
    obtain ⟨arcs, harcs, h⟩ := bind_eq_ok.mp h
    cases h
    refine ⟨?_, ?_, ?_, ?_⟩
    · exact (perm_entityNames entities).nodup_iff.mpr (nodup_of_firstRepeated?_eq_none hnone).1
    · exact incidence_fit (fun _ _ => lt_of_resolveName) harcs
    · simp [Marking.dimension, placeCount]
    · simp [Marking.dimension, placeCount]

lemma dimension_fireAll {net : Net} {ts : List ℕ} {m : Marking} {outcome : Outcome}
    (h : net.fireAll m ts = .ok outcome) : outcome.marking.dimension = m.dimension := by
  induction ts generalizing m outcome with
  | nil =>
    cases h
    rfl
  | cons t ts ih =>
    simp only [fireAll] at h
    split at h
    · next next hfire =>
      obtain ⟨rest, hrest, h⟩ := bind_eq_ok.mp h
      cases h
      exact (ih hrest).trans (dimension_fire hfire)
    · split at h
      · cases h
        rfl
      · contradiction

lemma dimension_of_checkDimension {net : Net} {m : Marking} {u : Unit} (h : net.checkDimension m = .ok u) :
    m.dimension = net.placeCount := by
  unfold checkDimension at h
  split at h
  · assumption
  · contradiction

/-- How a command can end: it fails and leaves the net as it is, or it exchanges the marking for one that fits. -/
inductive CallEnds (net : Net) : Except NetError (Option Outcome) × Net → Prop
  | failed (e : NetError) : CallEnds net (.error e, net)
  | moved (outcome : Option Outcome) {m : Marking} (hd : m.dimension = net.placeCount) :
      CallEnds net (.ok outcome, net.withMarking m)

/-- No command writes the marking before everything that can fail is done. -/
theorem WellFormed.callEnds_call {net : Net} (hw : net.WellFormed) (command : Command) :
    net.CallEnds (net.call command) := by
  cases command with
  | fire transition =>
    rw [call_fire]
    cases h : net.fireNamed net.marking transition with
    | error e => exact .failed e
    | ok m =>
      obtain ⟨t, -, hm⟩ := bind_eq_ok.mp h
      exact .moved none ((dimension_fire hm).trans hw.dimension_marking)
  | fireSequence transitions =>
    rw [call_fireSequence]
    cases h : net.fireSequence net.marking transitions with
    | error e => exact .failed e
    | ok outcome =>
      obtain ⟨-, -, h⟩ := bind_eq_ok.mp h
      obtain ⟨ts, -, h⟩ := bind_eq_ok.mp h
      exact .moved (some outcome) ((dimension_fireAll h).trans hw.dimension_marking)
  | setMarking m =>
    rw [call_setMarking]
    cases h : net.checkDimension m with
    | error e => exact .failed e
    | ok u => exact .moved none (dimension_of_checkDimension h)
  | setTokens place count =>
    rw [call_setTokens]
    cases net.placeIndex place with
    | error e => exact .failed e
    | ok index =>
      dsimp only
      cases h : net.marking.set? index count with
      | none => exact .failed .contractViolation
      | some m =>
        simp only [Marking.set?, Option.ite_none_right_eq_some, Option.some.injEq] at h
        obtain ⟨-, rfl⟩ := h
        exact .moved none ((Marking.dimension_set _ _ _).trans hw.dimension_marking)
  | reset =>
    rw [call_reset]
    exact .moved none hw.dimension_initial

/-- A command exchanges at most the marking. -/
lemma WellFormed.exists_after_eq {net : Net} (hw : net.WellFormed) (command : Command) :
    ∃ m, m.dimension = net.placeCount ∧ net.after command = net.withMarking m := by
  have hends := hw.callEnds_call command
  rw [Net.after]
  generalize net.call command = result at hends
  cases hends with
  | failed e => exact ⟨net.marking, hw.dimension_marking, rfl⟩
  | moved outcome hd => exact ⟨_, hd, rfl⟩

lemma WellFormed.after {net : Net} (hw : net.WellFormed) (command : Command) :
    (net.after command).WellFormed := by
  obtain ⟨m, hd, hafter⟩ := hw.exists_after_eq command
  rw [hafter]
  exact ⟨hw.names_nodup, hw.arcs_fit, hw.dimension_initial, hd⟩

theorem Constructed.wellFormed {net : Net} (h : net.Constructed) : net.WellFormed := by
  induction h with
  | ofEntities h => exact wellFormed_ofEntities h
  | after command _ ih => exact ih.after command

end Net

end Coverability
