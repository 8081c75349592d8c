import Coverability.Proofs.TreeQueries
import Coverability.Proofs.WellFormedNets

/-!
# Declared names

In a well-formed net a name is declared at most once, so it stands for an entity exactly if it is the name with
the index of that entity. Indices and names are two spellings of the same thing.
-/

namespace Coverability

lemma getElem?_eq_getD {names : List String} {i : ℕ} (h : i < names.length) :
    names[i]? = some (names.getD i "") := by
  simp [h]

lemma getElem?_eq_some_of_idxOf? {α : Type} [BEq α] [LawfulBEq α] {l : List α} {a : α} {i : ℕ}
    (h : l.idxOf? a = some i) : l[i]? = some a := by
  obtain ⟨hlt, ha, -⟩ := List.idxOf?_eq_some_iff.mp h
  exact List.getElem?_eq_some_iff.mpr ⟨hlt, ha⟩

namespace Net

variable {net : Net} {name : String} {names : List String} {i : ℕ} {is : List ℕ}

namespace WellFormed

variable (hw : net.WellFormed)

include hw

lemma placeNames_nodup : net.placeNames.Nodup :=
  (List.nodup_append.mp hw.names_nodup).1

lemma transitionNames_nodup : net.transitionNames.Nodup :=
  (List.nodup_append.mp hw.names_nodup).2.1

lemma not_mem_transitionNames (h : name ∈ net.placeNames) : name ∉ net.transitionNames :=
  fun h' => (List.nodup_append.mp hw.names_nodup).2.2 name h name h' rfl

lemma resolve_eq_place_iff : net.resolve name = some (.place i) ↔ net.placeNames[i]? = some name := by
  rw [resolve, resolveName]
  constructor
  · intro h
    split at h
    · next place hplace =>
      cases h
      exact getElem?_eq_some_of_idxOf? hplace
    · simp at h
  · intro h
    rw [idxOf?_eq_some hw.placeNames_nodup h]

lemma resolve_eq_transition_iff :
    net.resolve name = some (.transition i) ↔ net.transitionNames[i]? = some name := by
  rw [resolve, resolveName]
  constructor
  · intro h
    split at h
    · simp at h
    · obtain ⟨t, ht, he⟩ := Option.map_eq_some_iff.mp h
      cases he
      exact getElem?_eq_some_of_idxOf? ht
  · intro h
    have hplace : net.placeNames.idxOf? name = none := by
      rw [List.idxOf?_eq_none_iff]
      exact fun hmem => hw.not_mem_transitionNames hmem (List.mem_of_getElem? h)
    rw [hplace, idxOf?_eq_some hw.transitionNames_nodup h]
    rfl

lemma placeIndex_eq_ok_iff : net.placeIndex name = .ok i ↔ net.placeNames[i]? = some name := by
  rw [← hw.resolve_eq_place_iff, placeIndex]
  split <;> simp_all

lemma transitionIndex_eq_ok_iff :
    net.transitionIndex name = .ok i ↔ net.transitionNames[i]? = some name := by
  rw [← hw.resolve_eq_transition_iff, transitionIndex]
  split <;> simp_all

lemma transitionIndex_eq_error (h : name ∉ net.transitionNames) :
    net.transitionIndex name = .error (.unknownEntity name) := by
  rw [transitionIndex]
  split
  · next t ht => exact absurd (List.mem_of_getElem? (hw.resolve_eq_transition_iff.mp ht)) h
  · rfl

end WellFormed

lemma resolve_eq_none_iff : net.resolve name = none ↔ name ∉ net.placeNames ++ net.transitionNames :=
  resolveName_eq_none_iff

lemma transitionName_of_getElem? (h : net.transitionNames[i]? = some name) : net.transitionName i = name := by
  rw [transitionName, List.getD_eq_getElem?_getD, h, Option.getD_some]

lemma WellFormed.transitionIndex_transitionName (hw : net.WellFormed) (h : i < net.transitionCount) :
    net.transitionIndex (net.transitionName i) = .ok i :=
  hw.transitionIndex_eq_ok_iff.mpr (getElem?_eq_getD h)

/-- The names that are looked up without a failure are those of the indices that are found. -/
lemma WellFormed.mapM_transitionIndex_eq_ok_iff (hw : net.WellFormed) :
    names.mapM net.transitionIndex = .ok is ↔
      (∀ i ∈ is, i < net.transitionCount) ∧ names = is.map net.transitionName := by
  constructor
  · intro h
    induction names generalizing is with
    | nil =>
      cases h
      simp
    | cons name names ih =>
      rw [List.mapM_cons, bind_eq_ok] at h
      obtain ⟨i, hi, h⟩ := h
      obtain ⟨rest, hrest, h⟩ := bind_eq_ok.mp h
      cases h
      obtain ⟨hlt, rfl⟩ := ih hrest
      rw [hw.transitionIndex_eq_ok_iff] at hi
      refine ⟨List.forall_mem_cons.mpr ⟨(List.getElem?_eq_some_iff.mp hi).1, hlt⟩, ?_⟩
      rw [List.map_cons, transitionName_of_getElem? hi]
  · rintro ⟨hlt, rfl⟩
    have hindex : ∀ i ∈ is, (net.transitionIndex ∘ net.transitionName) i = .ok (id i) :=
      fun i hi => hw.transitionIndex_transitionName (hlt i hi)
    rw [List.mapM_map, mapM_eq_ok hindex, List.map_id]

/-- Names are looked up in order, so the first that is no transition is the one that is reported. -/
lemma WellFormed.mapM_transitionIndex_of_find? (hw : net.WellFormed)
    (h : names.find? (· ∉ net.transitionNames) = some name) :
    names.mapM net.transitionIndex = .error (.unknownEntity name) := by
  induction names with
  | nil => contradiction
  | cons first names ih =>
    rw [List.mapM_cons]
    by_cases hfirst : first ∈ net.transitionNames
    · obtain ⟨t, ht⟩ := List.mem_iff_getElem?.mp hfirst
      rw [List.find?_cons_of_neg (by simpa using hfirst)] at h
      rw [hw.transitionIndex_eq_ok_iff.mpr ht, ih h]
      rfl
    · rw [List.find?_cons_of_pos (by simpa using hfirst)] at h
      cases h
      rw [hw.transitionIndex_eq_error hfirst]
      rfl

lemma exists_map_transitionName (h : ∀ name ∈ names, name ∈ net.transitionNames) :
    ∃ is : List ℕ, (∀ i ∈ is, i < net.transitionCount) ∧ names = is.map net.transitionName := by
  induction names with
  | nil => exact ⟨[], by simp⟩
  | cons name names ih =>
    obtain ⟨hname, h⟩ := List.forall_mem_cons.mp h
    obtain ⟨i, hi⟩ := List.mem_iff_getElem?.mp hname
    obtain ⟨is, hlt, rfl⟩ := ih h
    refine ⟨i :: is, List.forall_mem_cons.mpr ⟨(List.getElem?_eq_some_iff.mp hi).1, hlt⟩, ?_⟩
    rw [List.map_cons, transitionName_of_getElem? hi]

end Net

end Coverability
