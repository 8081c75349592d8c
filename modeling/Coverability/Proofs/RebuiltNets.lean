import Coverability.Net.Definition
import Coverability.Proofs.Deadlocks
import Coverability.Proofs.RuleBlocks

/-!
# Rebuilt nets

A net reports its name, its entities with their current counts, and the lines of its rules. The lines are read
as the rules that they were taken from, so building a net from the report gives the same net again, with the
current marking as the start. Without omega the report is a definition of the net.
-/

namespace Coverability

lemma firstRepeated?_eq_none {seen names : List String} (hn : names.Nodup)
    (hseen : ∀ name ∈ names, name ∉ seen) : firstRepeated? seen names = none := by
  induction names generalizing seen with
  | nil => rfl
  | cons name names ih =>
    obtain ⟨hname, hn⟩ := List.nodup_cons.mp hn
    obtain ⟨hfresh, hseen⟩ := List.forall_mem_cons.mp hseen
    rw [firstRepeated?, if_neg hfresh]
    apply ih hn
    intro other hother
    rw [List.mem_cons, not_or]
    exact ⟨fun he => hname (he ▸ hother), hseen other hother⟩

section Lists

variable {α β γ : Type} {f : α → Option β} {l : List α}

lemma mapM_eq_none_iff : l.mapM f = none ↔ ∃ a ∈ l, f a = none := by
  induction l with
  | nil => simp
  | cons a l ih =>
    rw [List.mapM_cons, List.exists_mem_cons_iff, ← ih]
    cases f a <;> cases l.mapM f <;> simp

lemma map_eq_of_mapM_eq_some {g : β → γ} {k : α → γ} {results : List β}
    (hf : ∀ a b, f a = some b → g b = k a) (h : l.mapM f = some results) : results.map g = l.map k := by
  induction l generalizing results with
  | nil =>
    cases h
    rfl
  | cons a l ih =>
    rw [List.mapM_cons] at h
    obtain ⟨b, hb, h⟩ := Option.bind_eq_some_iff.mp h
    obtain ⟨rest, hrest, h⟩ := Option.bind_eq_some_iff.mp h
    cases h
    rw [List.map_cons, List.map_cons, hf a b hb, ih hrest]

end Lists

namespace Net

/-- The net when it is built with its current marking. -/
def restarted (net : Net) : Net :=
  { net with initial := net.marking }

/-- The net has the lines and the arcs of these rules, each of which can be read from its line. -/
structure HasRules (net : Net) (rules : List Rule) : Prop where
  lines : net.rules = rules.map Rule.line
  parseBlock : ∀ rule ∈ rules, Rule.parseBlock rule.line = .ok [rule]
  arcs : incidence rules net.transitionCount net.resolve = .ok net.arcs

variable {net : Net} {rules : List Rule}

lemma hasRules_ofEntities {name : String} {entities : List Entity} {ruleTexts : List String}
    (h : ofEntities name entities ruleTexts = .ok net) : ∃ rules, net.HasRules rules := by
  unfold ofEntities at h
  split at h
  · contradiction
  · obtain ⟨blocks, hblocks, h⟩ := bind_eq_ok.mp h
    obtain ⟨arcs, harcs, h⟩ := bind_eq_ok.mp h
    cases h
    refine ⟨blocks.flatten, rfl, fun rule hrule => ?_, harcs⟩
    obtain ⟨block, hblock, hrule⟩ := List.mem_flatten.mp hrule
    obtain ⟨text, -, htext⟩ := exists_of_mem_mapM hblocks hblock
    exact Rule.parseBlock_line htext hrule

lemma Constructed.exists_hasRules (h : net.Constructed) : ∃ rules, net.HasRules rules := by
  induction h with
  | ofEntities h => exact hasRules_ofEntities h
  | @after net command h ih =>
    obtain ⟨m, -, hafter⟩ := h.wellFormed.exists_after_eq command
    obtain ⟨rules, hrules⟩ := ih
    rw [hafter]
    exact ⟨rules, hrules.lines, hrules.parseBlock, hrules.arcs⟩

lemma HasRules.mapM_parseBlock (h : net.HasRules rules) :
    net.rules.mapM Rule.parseBlock = .ok (rules.map fun rule => [rule]) := by
  rw [h.lines, List.mapM_map]
  exact mapM_eq_ok h.parseBlock

section Entities

variable (hd : net.marking.dimension = net.placeCount)

include hd

lemma map_fst_zip_counts : (net.placeNames.zip net.marking.counts).map Prod.fst = net.placeNames :=
  List.map_fst_zip hd.ge

lemma map_snd_zip_counts : (net.placeNames.zip net.marking.counts).map Prod.snd = net.marking.counts :=
  List.map_snd_zip hd.le

lemma map_name_entities : net.entities.map Entity.name = net.placeNames ++ net.transitionNames := by
  simp [entities, Function.comp_def, Entity.name, map_fst_zip_counts hd]

omit hd

lemma filterMap_place?_entities : net.entities.filterMap Entity.place? =
    net.placeNames.zip net.marking.counts := by
  simp [entities, List.filterMap_map, Function.comp_def, Entity.place?]

lemma filterMap_transition?_entities : net.entities.filterMap Entity.transition? = net.transitionNames := by
  simp [entities, List.filterMap_map, Function.comp_def, Entity.transition?]

end Entities

/-- The report of a net describes this net. -/
lemma WellFormed.ofEntities_entities (hw : net.WellFormed) (h : net.HasRules rules) :
    ofEntities net.name net.entities net.rules = .ok net.restarted := by
  have hd : net.marking.dimension = net.placeCount := hw.dimension_marking
  have hnone : firstRepeated? [] (net.entities.map Entity.name) = none := by
    rw [map_name_entities hd]
    exact firstRepeated?_eq_none hw.names_nodup fun name _ => List.not_mem_nil
  have hrules : (rules.map fun rule => [rule]).flatten = rules := by
    rw [← List.flatMap_def, List.flatMap_singleton']
  have harcs : incidence rules net.transitionNames.length
      (resolveName net.placeNames net.transitionNames) = .ok net.arcs := h.arcs
  rw [ofEntities, hnone]
  simp only [filterMap_place?_entities, filterMap_transition?_entities, map_fst_zip_counts hd,
    map_snd_zip_counts hd, h.mapM_parseBlock, hrules, harcs, bind, Except.bind, ← h.lines]
  rfl

section Definition

/-- The place as it is described, unless it holds omega. -/
def placeDefinition? (place : String × TokenCount) : Option PlaceDefinition :=
  place.2.finite?.map fun tokens => { name := place.1, tokens }

lemma toDefinition?_eq (net : Net) : net.toDefinition? =
    ((net.placeNames.zip net.marking.counts).mapM placeDefinition?).map fun places =>
      { name := net.name, places, transitions := net.transitionNames, rules := net.rules } := by
  rw [toDefinition?, Option.map_eq_bind]
  rfl

lemma entity_of_placeDefinition? {x : String × TokenCount} {place : PlaceDefinition}
    (h : placeDefinition? x = some place) :
    Entity.place place.name (.finite place.tokens) = .place x.1 x.2 := by
  obtain ⟨name, count⟩ := x
  obtain ⟨tokens, htokens, rfl⟩ := Option.map_eq_some_iff.mp h
  cases count with
  | finite n =>
    cases htokens
    rfl
  | infinite => contradiction

/-- A net has a definition unless a place holds omega. -/
lemma toDefinition?_eq_none_iff (hd : net.marking.dimension = net.placeCount) :
    net.toDefinition? = none ↔ net.marking.hasInfinite = true := by
  have hnone : ∀ x, placeDefinition? x = none ↔ x.2.isInfinite = true := by
    rintro ⟨name, count⟩
    cases count <;> simp [placeDefinition?, TokenCount.finite?, TokenCount.isInfinite]
  have hsome : net.marking.hasInfinite =
      (net.placeNames.zip net.marking.counts).any (TokenCount.isInfinite ∘ Prod.snd) := by
    rw [← List.any_map, map_snd_zip_counts hd, Marking.hasInfinite]
  rw [toDefinition?_eq, Option.map_eq_none_iff, mapM_eq_none_iff, hsome, List.any_eq_true]
  simp only [hnone, Function.comp_apply]

/-- The definition of a net declares the entities of the net. -/
lemma build_of_toDefinition? {d : NetDefinition} (h : net.toDefinition? = some d) :
    d.build = ofEntities net.name net.entities net.rules := by
  rw [toDefinition?_eq, Option.map_eq_some_iff] at h
  obtain ⟨places, hplaces, rfl⟩ := h
  rw [NetDefinition.build, NetDefinition.entities, entities,
    map_eq_of_mapM_eq_some (fun _ _ => entity_of_placeDefinition?) hplaces]

end Definition

/-- From what it reports, a net is built again, with the current marking as the start. It has a definition
unless a place holds omega, and then the definition gives the same net, which has this definition too. -/
theorem Constructed.rebuilt (hnet : net.Constructed) :
    Net.ofEntities net.name net.entities net.rules = .ok net.restarted ∧
    (net.toDefinition? = none ↔ net.marking.hasInfinite = true) ∧
    ∀ d, net.toDefinition? = some d →
      d.build = .ok net.restarted ∧ net.restarted.toDefinition? = some d := by
  have hw : net.WellFormed := hnet.wellFormed
  obtain ⟨rules, hrules⟩ := hnet.exists_hasRules
  have hrebuilt : Net.ofEntities net.name net.entities net.rules = .ok net.restarted :=
    hw.ofEntities_entities hrules
  refine ⟨hrebuilt, toDefinition?_eq_none_iff hw.dimension_marking, fun d hdef => ⟨?_, hdef⟩⟩
  rw [build_of_toDefinition? hdef, hrebuilt]

end Net

/-- The shop after it was filled once. -/
def filledShop : NetDefinition where
  name := "shop"
  places := [⟨"open", 1⟩, ⟨"stock", 1⟩]
  transitions := ["fill", "close"]
  rules := ["fill -> open stock", "open -> fill close", "stock -> close"]

theorem build_filledShop : (shop.after (.fire "fill")).Constructed ∧
    (shop.after (.fire "fill")).toDefinition? = some filledShop ∧ filledShop.build =
      .ok { shop with initial := ⟨[.finite 1, .finite 1]⟩, marking := ⟨[.finite 1, .finite 1]⟩ } := by
  have hshop : (shop.after (.fire "fill")).Constructed := .after _ constructed_shop
  obtain ⟨-, -, hdefinition⟩ := hshop.rebuilt
  exact ⟨hshop, rfl, (hdefinition filledShop rfl).1⟩

end Coverability
