import Coverability.Proofs.SearchInvariant

/-!
# Seen markings

When duplicates are looked for in the whole tree, every marking is expanded at most once, and the map of
the seen markings leads from the marking of each expanded node back to that node.
-/

namespace Coverability

namespace SearchState

/-- Every node that is no duplicate is the one that its marking was seen at. -/
def SeesAll (state : SearchState) : Prop :=
  ∀ (i : ℕ) (node : Node), state.nodes[i]? = some node → node.kind.isDuplicate = false →
    state.seen[node.marking]? = some i

variable {initial m : Marking} {state next : SearchState} {frame : Frame} {below : List Frame}

lemma seesAll_start : (start initial).SeesAll := by
  intro i node hn _
  obtain ⟨rfl, rfl⟩ := eq_root_of_getElem?_start hn
  simp [start]

/-- Nothing changes as long as only duplicates are added. -/
lemma SeesAll.keeps (h : state.SeesAll) (hk : Keeps state.nodes next.nodes) (hseen : next.seen = state.seen)
    (hnew : ∀ (i : ℕ) (node : Node), state.nodes.size ≤ i → next.nodes[i]? = some node →
      node.kind.isDuplicate = true) : next.SeesAll := by
  intro i node hn hdup
  by_cases hi : i < state.nodes.size
  · obtain ⟨before, hb, hs⟩ := hk.exists_old hi hn
    rw [hseen, hs.marking]
    exact h i before hb (hs.isDuplicate ▸ hdup)
  · rw [hnew i node (Nat.not_lt.mp hi) hn] at hdup
    contradiction

lemma SeesAll.create (h : state.SeesAll) (hm : state.seen[m]? = none) :
    (state.create frame below m none).SeesAll := by
  have hk : Keeps state.nodes (state.create frame below m none).nodes := keeps_create m none
  intro i node hn hdup
  change (state.seen.insert m state.nodes.size)[node.marking]? = some i
  rw [Std.HashMap.getElem?_insert]
  rcases lt_or_eq_created hn with hi | ⟨rfl, rfl⟩
  · obtain ⟨before, hb, hs⟩ := hk.exists_old hi hn
    have hold : state.seen[node.marking]? = some i := by
      rw [hs.marking]
      exact h i before hb (hs.isDuplicate ▸ hdup)
    have hne : ¬(m == node.marking) = true := by
      intro he
      rw [← eq_of_beq he, hm] at hold
      contradiction
    rw [if_neg hne, hold]
  · exact if_pos (beq_self_eq_true m)

end SearchState

namespace Search

variable {search : Search} {initial : Marking} {state : SearchState}

theorem Through.seesAll (h : search.Through initial state) (hw : search.net.WellFormed)
    (hd : initial.dimension = search.net.placeCount) (hp : search.pruning = .globalSeen) :
    state.SeesAll := by
  refine h.preserves hw hd (P := SearchState.SeesAll) SearchState.seesAll_start ?_
  intro state frame below next _ hinv hs hadv hsees
  cases hadv with
  | leave hle =>
    refine hsees.keeps (hinv.leave_keeps hs) rfl fun i new hi hnew => ?_
    simp [SearchState.leave, hi] at hnew
  | skip hlt hfire he => exact hsees
  | @create successor hlt hfire hsize =>
    cases htwin : search.duplicateOf? state (successor.accelerate state.path) with
    | none =>
      rw [duplicateOf?, hp] at htwin
      exact hsees.create htwin
    | some other =>
      refine hsees.keeps (SearchState.keeps_create _ _) rfl fun i new hi hnew => ?_
      obtain ⟨-, rfl⟩ := (SearchState.lt_or_eq_created hnew).resolve_left (Nat.not_lt.mpr hi)
      rfl

end Search

end Coverability
