import Coverability.Net.Basic
import Std.Data.HashMap

/-!
# Registers

Entities are declared one after the other: each gets the next number of its kind, and its name is entered
with this number unless the name is taken. `ofEntities_eq_register` says that a net is built just so.
-/

namespace Coverability

/-- The entities that have been declared so far. -/
structure Register where
  placeNames : List String := []
  transitionNames : List String := []
  /-- The counts of the places. -/
  counts : List TokenCount := []
  /-- What the names stand for. -/
  refs : Std.HashMap String EntityRef := ∅

namespace Register

/-- Enters an entity with the next number of its kind. -/
def enter (register : Register) : Entity → Register
  | .place name tokens =>
    { register with
      placeNames := register.placeNames ++ [name]
      counts := register.counts ++ [tokens]
      refs := register.refs.insert name (.place register.placeNames.length) }
  | .transition name =>
    { register with
      transitionNames := register.transitionNames ++ [name]
      refs := register.refs.insert name (.transition register.transitionNames.length) }

/-- Declares one more entity, which fails if its name is taken. -/
def declare (register : Register) (entity : Entity) : Except NetError Register :=
  if entity.name ∈ register.refs then .error (.duplicateName entity.name)
  else .ok (register.enter entity)

def ofEntities (entities : List Entity) : Except NetError Register :=
  entities.foldlM declare {}

/-- Builds the net of the declared entities from its rules. -/
def build (register : Register) (name : String) (ruleTexts : List String) : Except NetError Net := do
  let rules := (← ruleTexts.mapM Rule.parseBlock).flatten
  let arcs ← incidence rules register.transitionNames.length (fun name => register.refs[name]?)
  return {
    name
    placeNames := register.placeNames
    transitionNames := register.transitionNames
    rules := rules.map Rule.line
    arcs
    initial := ⟨register.counts⟩
    marking := ⟨register.counts⟩ }

end Register

theorem perm_entityNames (entities : List Entity) :
    ((entities.filterMap Entity.place?).map Prod.fst ++ entities.filterMap Entity.transition?).Perm
      (entities.map Entity.name) := by
  induction entities with
  | nil => exact List.Perm.refl _
  | cons entity entities ih =>
    cases entity with
    | place name tokens => exact ih.cons name
    | transition name => exact List.perm_middle.trans (ih.cons name)

section Names

variable {placeNames transitionNames : List String} {name other : String}

theorem resolveName_eq_none_iff :
    resolveName placeNames transitionNames name = none ↔ name ∉ placeNames ++ transitionNames := by
  rw [resolveName, List.mem_append, not_or, ← List.idxOf?_eq_none_iff, ← List.idxOf?_eq_none_iff]
  cases placeNames.idxOf? name <;> simp

theorem idxOf?_append_singleton : (placeNames ++ [name]).idxOf? other =
    (placeNames.idxOf? other).or (if name = other then some placeNames.length else none) := by
  rw [List.idxOf?, List.findIdx?_append]
  by_cases h : name = other <;> simp [h]

/-- A new place gets the next number, and all other names stand for what they stood for. -/
theorem resolveName_append_place (h : name ∉ placeNames ++ transitionNames) :
    resolveName (placeNames ++ [name]) transitionNames other =
      if name = other then some (.place placeNames.length)
      else resolveName placeNames transitionNames other := by
  rw [resolveName, idxOf?_append_singleton]
  by_cases he : name = other
  · subst he
    rw [List.mem_append, not_or, ← List.idxOf?_eq_none_iff] at h
    simp [h.1]
  · simp [he, resolveName]

theorem resolveName_append_transition (h : name ∉ placeNames ++ transitionNames) :
    resolveName placeNames (transitionNames ++ [name]) other =
      if name = other then some (.transition transitionNames.length)
      else resolveName placeNames transitionNames other := by
  rw [resolveName, idxOf?_append_singleton]
  by_cases he : name = other
  · subst he
    rw [List.mem_append, not_or, ← List.idxOf?_eq_none_iff, ← List.idxOf?_eq_none_iff] at h
    simp [h]
  · simp [he, resolveName]

end Names

namespace Register

variable {register : Register} {entities before : List Entity} {entity : Entity} {name : String}

/-- The register has entered just these entities. -/
structure Holds (register : Register) (entities : List Entity) : Prop where
  placeNames : register.placeNames = (entities.filterMap Entity.place?).map Prod.fst
  counts : register.counts = (entities.filterMap Entity.place?).map Prod.snd
  transitionNames : register.transitionNames = entities.filterMap Entity.transition?
  refs : ∀ name, register.refs[name]? = resolveName register.placeNames register.transitionNames name

theorem holds_empty : Holds {} [] :=
  ⟨rfl, rfl, rfl, fun name => by simp [resolveName]⟩

theorem Holds.not_mem_refs_iff (h : register.Holds entities) :
    name ∉ register.refs ↔ name ∉ register.placeNames ++ register.transitionNames := by
  rw [← resolveName_eq_none_iff, ← h.refs, Std.HashMap.mem_iff_isSome_getElem?,
    Option.not_isSome_iff_eq_none]

theorem Holds.mem_refs_iff (h : register.Holds entities) :
    name ∈ register.refs ↔ name ∈ entities.map Entity.name := by
  rw [← (perm_entityNames entities).mem_iff, ← h.placeNames, ← h.transitionNames]
  exact Decidable.not_iff_not.mp h.not_mem_refs_iff

/-- An entity with a new name is entered behind those of its kind. -/
theorem Holds.enter (h : register.Holds before) (hnew : entity.name ∉ register.refs) :
    (register.enter entity).Holds (before ++ [entity]) := by
  have hfree : entity.name ∉ register.placeNames ++ register.transitionNames :=
    h.not_mem_refs_iff.mp hnew
  cases entity with
  | place name tokens =>
    refine ⟨?_, ?_, ?_, fun other => ?_⟩
    · simp [Register.enter, h.placeNames, Entity.place?]
    · simp [Register.enter, h.counts, Entity.place?]
    · simp [Register.enter, h.transitionNames, Entity.transition?]
    · simp only [Register.enter, Std.HashMap.getElem?_insert, beq_iff_eq, h.refs]
      exact (resolveName_append_place hfree).symm
  | transition name =>
    refine ⟨?_, ?_, ?_, fun other => ?_⟩
    · simp [Register.enter, h.placeNames, Entity.place?]
    · simp [Register.enter, h.counts, Entity.place?]
    · simp [Register.enter, h.transitionNames, Entity.transition?]
    · simp only [Register.enter, Std.HashMap.getElem?_insert, beq_iff_eq, h.refs]
      exact (resolveName_append_transition hfree).symm

/-- Declaring entities fails at the first name that is taken by then. -/
theorem Holds.foldlM_declare (h : register.Holds before) {seen : List String}
    (hseen : ∀ name, name ∈ seen ↔ name ∈ register.refs) :
    match firstRepeated? seen (entities.map Entity.name) with
    | some repeated => entities.foldlM declare register = .error (.duplicateName repeated)
    | none =>
      ∃ next, entities.foldlM declare register = .ok next ∧ next.Holds (before ++ entities) := by
  induction entities generalizing register before seen with
  | nil => exact ⟨register, rfl, by rwa [List.append_nil]⟩
  | cons entity entities ih =>
    rw [List.map_cons, firstRepeated?, List.foldlM_cons, declare]
    simp only [hseen]
    by_cases hnew : entity.name ∈ register.refs
    · simp only [if_pos hnew]
      rfl
    · simp only [if_neg hnew]
      have hnext : (register.enter entity).Holds (before ++ [entity]) := h.enter hnew
      rw [List.append_cons]
      refine ih hnext fun name => ?_
      rw [List.mem_cons, hseen, hnext.mem_refs_iff, h.mem_refs_iff]
      simp [or_comm]

theorem ofEntities_spec (entities : List Entity) :
    match firstRepeated? [] (entities.map Entity.name) with
    | some repeated => ofEntities entities = .error (.duplicateName repeated)
    | none => ∃ register, ofEntities entities = .ok register ∧ register.Holds entities :=
  holds_empty.foldlM_declare (by simp)

theorem holds_of_ofEntities (h : ofEntities entities = .ok register) : register.Holds entities := by
  have hspec := ofEntities_spec entities
  cases hfirst : firstRepeated? [] (entities.map Entity.name) with
  | some repeated =>
    rw [hfirst, h] at hspec
    contradiction
  | none =>
    rw [hfirst, h] at hspec
    obtain ⟨_, ⟨⟩, hholds⟩ := hspec
    exact hholds

end Register

/-- The net is the one that is built when its entities are declared one after the other. -/
theorem Net.ofEntities_eq_register (name : String) (entities : List Entity) (texts : List String) :
    Net.ofEntities name entities texts = Register.ofEntities entities >>= (·.build name texts) := by
  have hspec := Register.ofEntities_spec entities
  rw [ofEntities]
  cases hfirst : firstRepeated? [] (entities.map Entity.name) with
  | some repeated =>
    rw [hfirst] at hspec
    rw [hspec]
    rfl
  | none =>
    rw [hfirst] at hspec
    obtain ⟨register, hregister, hholds⟩ := hspec
    have hrefs : (fun name => register.refs[name]?) =
        resolveName register.placeNames register.transitionNames :=
      funext hholds.refs
    rw [hregister]
    simp only [bind, Except.bind, Register.build, hrefs, hholds.placeNames, hholds.transitionNames,
      hholds.counts]

end Coverability
