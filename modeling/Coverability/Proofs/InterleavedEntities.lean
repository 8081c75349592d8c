import Coverability.Proofs.DeclaredNames
import Coverability.Proofs.RebuiltNets
import Coverability.Settings

/-!
# Interleaved entities

Places and transitions are numbered apart. So however their declarations are interleaved, a name is entered with the
same number, and the net that is built stays the same.
-/

namespace Coverability

/-- The two lists only differ in how places and transitions are interleaved. -/
structure Interleaves (entities others : List Entity) : Prop where
  places : entities.filterMap Entity.place? = others.filterMap Entity.place?
  transitions : entities.filterMap Entity.transition? = others.filterMap Entity.transition?

lemma Interleaves.perm_names {entities others : List Entity} (h : Interleaves entities others) :
    (entities.map Entity.name).Perm (others.map Entity.name) := by
  have hentities := perm_entityNames entities
  rw [h.places, h.transitions] at hentities
  exact hentities.symm.trans (perm_entityNames others)

namespace Register

variable {register register' : Register} {entities others : List Entity}

lemma exists_holds_of_nodup (h : (entities.map Entity.name).Nodup) :
    ∃ register, ofEntities entities = .ok register ∧ register.Holds entities := by
  have hspec := ofEntities_spec entities
  rwa [firstRepeated?_eq_none h fun _ _ => List.not_mem_nil] at hspec

lemma exists_repeated_of_not_nodup (h : ¬(entities.map Entity.name).Nodup) :
    ∃ repeated, ofEntities entities = .error (.duplicateName repeated) := by
  have hspec := ofEntities_spec entities
  cases hfirst : firstRepeated? [] (entities.map Entity.name) with
  | none => exact absurd (nodup_of_firstRepeated?_eq_none hfirst).1 h
  | some repeated =>
    rw [hfirst] at hspec
    exact ⟨repeated, hspec⟩

/-- What is built from a register depends only on the places and on the transitions that it holds. -/
lemma Holds.build_eq (h : register.Holds entities) (h' : register'.Holds others) (hi : Interleaves entities others)
    (name : String) (texts : List String) : register.build name texts = register'.build name texts := by
  have hplaces : register.placeNames = register'.placeNames := by
    rw [h.placeNames, h'.placeNames, hi.places]
  have htransitions : register.transitionNames = register'.transitionNames := by
    rw [h.transitionNames, h'.transitionNames, hi.transitions]
  have hcounts : register.counts = register'.counts := by
    rw [h.counts, h'.counts, hi.places]
  have hrefs : ∀ other : String, register.refs[other]? = register'.refs[other]? := by
    intro other
    rw [h.refs, h'.refs, hplaces, htransitions]
  simp only [build, hplaces, htransitions, hcounts, hrefs]

end Register

namespace Net

variable {entities others : List Entity}

/-- The two lists give the same net or the same error, or both repeat a name. -/
lemma ofEntities_of_interleaves (h : Interleaves entities others) (name : String) (texts : List String) :
    ofEntities name entities texts = ofEntities name others texts ∨
      ∃ repeated repeated', ofEntities name entities texts = .error (.duplicateName repeated) ∧
        ofEntities name others texts = .error (.duplicateName repeated') := by
  rw [ofEntities_eq_register, ofEntities_eq_register]
  by_cases hnodup : (entities.map Entity.name).Nodup
  · left
    obtain ⟨register, hregister, hholds⟩ := Register.exists_holds_of_nodup hnodup
    obtain ⟨register', hregister', hholds'⟩ :=
      Register.exists_holds_of_nodup (h.perm_names.nodup_iff.mp hnodup)
    rw [hregister, hregister']
    exact hholds.build_eq hholds' h name texts
  · right
    obtain ⟨repeated, hrepeated⟩ := Register.exists_repeated_of_not_nodup hnodup
    obtain ⟨repeated', hrepeated'⟩ :=
      Register.exists_repeated_of_not_nodup (mt h.perm_names.nodup_iff.mpr hnodup)
    rw [hrepeated, hrepeated']
    exact ⟨repeated, repeated', rfl, rfl⟩

/-- Two lists with the same places and the same transitions, each in the same order, either both give a net or both
give none, and the nets are equal, so they fire alike and have the same trees. The reason of a failure is the same, too,
unless names are repeated: then the two lists may differ in which of them is met first. -/
theorem ofEntities_interleaved (h : Interleaves entities others) (name : String) (texts : List String) :
    (∀ net, ofEntities name entities texts = .ok net ↔ ofEntities name others texts = .ok net) ∧
    (∀ e, ofEntities name entities texts = .error e → ofEntities name others texts = .error e ∨
      ∃ repeated repeated', e = .duplicateName repeated ∧
        ofEntities name others texts = .error (.duplicateName repeated')) ∧
    ∀ net net', ofEntities name entities texts = .ok net → ofEntities name others texts = .ok net' →
      net = net' ∧ (∀ other, net.resolve other = net'.resolve other) ∧
      (∀ m t, net.fire m t = net'.fire m t) ∧
      (∀ m names, net.fireSequence m names = net'.fireSequence m names) ∧
      ∀ (settings : Settings) (initial : Marking),
        (settings.search net).build initial = (settings.search net').build initial := by
  rcases ofEntities_of_interleaves h name texts with heq | ⟨repeated, repeated', hfail, hfail'⟩
  · refine ⟨fun net => by rw [heq], fun e he => .inl (heq ▸ he), fun net net' hnet hnet' => ?_⟩
    rw [heq, hnet'] at hnet
    cases hnet
    exact ⟨rfl, fun _ => rfl, fun _ _ => rfl, fun _ _ => rfl, fun _ _ => rfl⟩
  · rw [hfail, hfail']
    refine ⟨fun net => iff_of_false nofun nofun, fun e he => .inr ⟨repeated, repeated', ?_, rfl⟩, nofun⟩
    exact (Except.error.inj he).symm

end Net

/-- The entities of the shop, a transition and a place by turns. -/
def shopByTurns : List Entity :=
  [.transition "fill", .place "open" (.finite 1), .transition "close", .place "stock" (.finite 0)]

theorem ofEntities_shopByTurns : Interleaves shop.entities shopByTurns ∧
    Net.ofEntities "shop" shop.entities shop.rules = .ok shop ∧
    Net.ofEntities "shop" shopByTurns shop.rules = .ok shop := by
  have h : Interleaves shop.entities shopByTurns := ⟨rfl, rfl⟩
  have hshop : Net.ofEntities "shop" shop.entities shop.rules = .ok shop := by decide +kernel
  exact ⟨h, hshop, ((Net.ofEntities_interleaved h "shop" shop.rules).1 shop).mp hshop⟩

end Coverability
