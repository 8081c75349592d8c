import Coverability.Proofs.EndingSearches
import Coverability.Proofs.FiringSequences

/-!
# Atomic commands

A command writes the marking only once nothing can fail any more. So one that fails leaves the net as it is, also a
sequence of which some transitions have fired when another one overflows. One that succeeds exchanges the current
marking and nothing else, so after any commands a reset leads back to the net as it was built.
-/

namespace Coverability

namespace Net

variable {net : Net}

/-- The net after a list of commands, those that fail included. -/
def afterAll (net : Net) (commands : List Command) : Net :=
  commands.foldl after net

lemma Constructed.afterAll (h : net.Constructed) (commands : List Command) :
    (net.afterAll commands).Constructed := by
  induction commands generalizing net with
  | nil => exact h
  | cons command commands ih => exact ih (h.after command)

lemma WellFormed.exists_afterAll_eq (hw : net.WellFormed) (commands : List Command) :
    ∃ m, net.afterAll commands = net.withMarking m := by
  induction commands generalizing net with
  | nil => exact ⟨net.marking, rfl⟩
  | cons command commands ih =>
    obtain ⟨m, -, hafter⟩ := hw.exists_after_eq command
    obtain ⟨n, hn⟩ := ih (hw.after command)
    refine ⟨n, ?_⟩
    calc net.afterAll (command :: commands)
        = (net.after command).withMarking n := hn
      _ = net.withMarking n := by rw [hafter]; rfl

lemma marking_ofEntities {name : String} {entities : List Entity} {rules : List String}
    (h : ofEntities name entities rules = .ok net) : net.marking = net.initial := by
  unfold ofEntities at h
  split at h
  · contradiction
  · obtain ⟨parsed, -, h⟩ := bind_eq_ok.mp h
    obtain ⟨arcs, -, h⟩ := bind_eq_ok.mp h
    cases h
    rfl

section Sequences

variable {names : List String} {name : String}

lemma WellFormed.call_unknown (hw : net.WellFormed)
    (h : names.find? (· ∉ net.transitionNames) = some name) :
    net.call (.fireSequence names) = (.error (.unknownEntity name), net) := by
  rw [call_fireSequence, hw.fireSequence_unknown hw.dimension_marking h]

/-- A sequence of transitions moves the net to where it ends, unless it ends in an overflow. -/
lemma WellFormed.exists_sequenceEnds (hw : net.WellFormed) (h : ∀ name ∈ names, name ∈ net.transitionNames) :
    ∃ ts result, names = ts.map net.transitionName ∧ net.SequenceEnds net.marking ts result ∧
      net.call (.fireSequence names) =
        match result with
        | .ok outcome => (.ok (some outcome), net.withMarking outcome.marking)
        | .error e => (.error e, net) := by
  obtain ⟨ts, hlt, rfl⟩ := exists_map_transitionName h
  have hcall := net.call_fireSequence (ts.map net.transitionName)
  rw [hw.fireSequence_map_transitionName hw.dimension_marking hlt] at hcall
  exact ⟨ts, _, rfl, hw.sequenceEnds_fireAll hw.dimension_marking hlt, hcall⟩

end Sequences

/-- After any commands, a further one that fails leaves the net as it found it, and one that succeeds exchanges
nothing but the marking. A sequence fails as a whole for its first name that is no transition; else it moves the net
to where it ends, unless it ends in an overflow. A reset leaves the net as it was built. -/
theorem afterAll_atomic {name : String} {entities : List Entity} {rules : List String}
    (h : ofEntities name entities rules = .ok net) (commands : List Command) :
    let reached := net.afterAll commands
    (∀ command e next, reached.call command = (.error e, next) → next = reached) ∧
    (∀ command outcome next, reached.call command = (.ok outcome, next) →
      next = { reached with marking := next.marking } ∧ next.marking.dimension = net.placeCount) ∧
    (∀ (names : List String) unknown, names.find? (· ∉ net.transitionNames) = some unknown →
      reached.call (.fireSequence names) = (.error (.unknownEntity unknown), reached)) ∧
    (∀ names : List String, (∀ t ∈ names, t ∈ net.transitionNames) → ∃ ts result,
      names = ts.map net.transitionName ∧ reached.SequenceEnds reached.marking ts result ∧
      reached.call (.fireSequence names) =
        match result with
        | .ok outcome => (.ok (some outcome), reached.withMarking outcome.marking)
        | .error e => (.error e, reached)) ∧
    reached.call .reset = (.ok none, net) := by
  intro reached
  have hnet : net.WellFormed := wellFormed_ofEntities h
  have hw : reached.WellFormed := ((Constructed.ofEntities h).afterAll commands).wellFormed
  obtain ⟨m, hsame⟩ : ∃ m, reached = net.withMarking m := hnet.exists_afterAll_eq commands
  have hnames : reached.transitionNames = net.transitionNames := by rw [hsame]; rfl
  refine ⟨fun command e next hcall => ?_, fun command outcome next hcall => ?_, ?_, ?_, ?_⟩
  · have hends := hw.callEnds_call command
    rw [hcall] at hends
    cases hends
    rfl
  · have hends := hw.callEnds_call command
    rw [hcall] at hends
    cases hends with
    | moved _ hd =>
      rw [hsame] at hd
      exact ⟨rfl, hd⟩
  · intro names unknown hfind
    rw [← hnames] at hfind
    exact hw.call_unknown hfind
  · intro names hdeclared
    rw [← hnames] at hdeclared
    obtain ⟨ts, result, hts, hends, hcall⟩ := hw.exists_sequenceEnds hdeclared
    refine ⟨ts, result, ?_, hends, hcall⟩
    rw [hts, hsame]
    rfl
  · calc reached.call .reset
        = (.ok none, reached.withMarking reached.initial) := call_reset reached
      _ = (.ok none, net.withMarking net.initial) := by rw [hsame]; rfl
      _ = (.ok none, net.withMarking net.marking) := by rw [marking_ofEntities h]
      _ = (.ok none, net) := rfl

end Net

/-- When the flood is poured once more, the basin spills and the tank gets too full, so not even the pouring is
kept. -/
theorem afterAll_flood : Net.ofEntities "flood"
      [.place "basin" (.finite 0), .place "tank" (.finite 4294967294), .transition "pour", .transition "spill"]
      ["pour -> basin\nbasin -> spill", "spill -> 2*tank"] = .ok flood ∧
    (flood.afterAll [.fire "pour"]).marking = ⟨[.finite 1, .finite 4294967294]⟩ ∧
    ((flood.afterAll [.fire "pour"]).call (.fireSequence ["pour", "spill"])).1 =
      .error (.tokenOverflow "spill" "tank") ∧
    ((flood.afterAll [.fire "pour"]).call (.fireSequence ["pour", "spill"])).2 = flood.afterAll [.fire "pour"] ∧
    (flood.afterAll [.fire "pour"]).call .reset = (.ok none, flood) := by
  obtain ⟨hfail, -, -, -, hreset⟩ := Net.afterAll_atomic ofEntities_flood [.fire "pour"]
  have hspill : ((flood.afterAll [.fire "pour"]).call (.fireSequence ["pour", "spill"])).1 =
      .error (.tokenOverflow "spill" "tank") := by
    decide +kernel
  exact ⟨ofEntities_flood, by decide +kernel, hspill, hfail _ _ _ (Prod.ext hspill rfl), hreset⟩

end Coverability
