import Coverability.Proofs.Deadlocks
import Coverability.Proofs.EndingSearches

/-!
# Limits on the number of nodes

A search looks at its limit before it creates a child, but not before it creates the root. So a search that
succeeds has at most as many nodes as it may have, or one if it may have none, which happens if the root is
dead. Up to the child that would be one too many it makes the same steps as the search without a limit.
-/

namespace Coverability

namespace Search

variable {search : Search} {initial : Marking} {state next : SearchState} {frame : Frame}
  {nodes : Array Node} {limit : ℕ}

lemma size_le_of_step (hlimit : search.maxNodes = some limit) (h : search.step state = .next next) :
    next.nodes.size ≤ max limit state.nodes.size := by
  obtain ⟨frame, below, -, hadv⟩ := advances_of_step h
  cases hadv with
  | leave hle =>
    rw [SearchState.size_leave]
    exact le_max_right _ _
  | skip hlt hfire he => exact le_max_right _ _
  | create hlt hfire hsize =>
    rw [SearchState.size_create]
    exact le_max_of_le_left (hsize limit hlimit)

lemma size_le_size_of_step (h : search.step state = .next next) : state.nodes.size ≤ next.nodes.size := by
  obtain ⟨frame, below, -, hadv⟩ := advances_of_step h
  cases hadv with
  | leave hle => rw [SearchState.size_leave]
  | skip hlt hfire he => exact le_refl _
  | create hlt hfire hsize =>
    rw [SearchState.size_create]
    exact Nat.le_succ _

theorem Through.size_le (h : search.Through initial state) (hlimit : search.maxNodes = some limit) :
    state.nodes.size ≤ max limit 1 := by
  induction h with
  | start => exact le_max_right _ _
  | step _ hs ih =>
    have hstep := size_le_of_step hlimit hs
    omega

theorem size_le_of_explore (search : Search) (hlimit : search.maxNodes = some limit)
    (h : search.explore initial = .ok nodes) : nodes.size ≤ max limit 1 := by
  obtain ⟨-, last, ht, -, rfl⟩ := exists_through_of_explore h
  exact ht.size_le hlimit

section Created

/-- The state in which the search ends. -/
def last (search : Search) (state : SearchState) (hv : state.Valid search.net.placeCount) : SearchState :=
  match h : search.step state with
  | .done _ => state
  | .next next => search.last next (valid_and_potential_lt hv h).1
termination_by state.potential search
decreasing_by exact (valid_and_potential_lt hv h).2

/-- The number of nodes that the search creates before it ends, with a tree or with an error. -/
def created (search : Search) (initial : Marking) : ℕ :=
  if h : initial.dimension ≠ search.net.placeCount then 0
  else (search.last (.start initial) (SearchState.valid_start (not_not.mp h))).nodes.size

lemma last_of_done (hv : state.Valid search.net.placeCount) {result : Except SearchError (Array Node)}
    (h : search.step state = .done result) : search.last state hv = state := by
  unfold last
  split
  · rfl
  · next next hn =>
    rw [h] at hn
    contradiction

lemma last_of_next (hv : state.Valid search.net.placeCount) (h : search.step state = .next next) :
    search.last state hv = search.last next (valid_and_potential_lt hv h).1 := by
  rw [last]
  split
  · next result hr =>
    rw [h] at hr
    contradiction
  · next other ho =>
    rw [h] at ho
    cases ho
    rfl

/-- The search ends with the result of the step that it takes last. -/
theorem step_last (hv : state.Valid search.net.placeCount) :
    search.step (search.last state hv) = .done (search.run state hv) := by
  fun_induction Search.run search state hv with
  | case1 state hv result hr => rw [last_of_done hv hr, hr]
  | case2 state hv next hn ih => rw [last_of_next hv hn, ih]

lemma run_of_done (hv : state.Valid search.net.placeCount) {result : Except SearchError (Array Node)}
    (h : search.step state = .done result) : search.run state hv = result := by
  have hlast := step_last hv
  rw [last_of_done hv h, h] at hlast
  exact (SearchStep.done.inj hlast).symm

lemma run_of_next (hv : state.Valid search.net.placeCount) (h : search.step state = .next next) :
    search.run state hv = search.run next (valid_and_potential_lt hv h).1 := by
  have hlast := step_last hv
  rw [last_of_next hv h, step_last] at hlast
  exact (SearchStep.done.inj hlast).symm

lemma size_le_last (hv : state.Valid search.net.placeCount) :
    state.nodes.size ≤ (search.last state hv).nodes.size := by
  fun_induction Search.last search state hv with
  | case1 state hv result hr => exact le_refl _
  | case2 state hv next hn ih => exact (size_le_size_of_step hn).trans ih

/-- A tree has all the nodes that were created. -/
lemma size_of_explore (h : search.explore initial = .ok nodes) : nodes.size = search.created initial := by
  unfold explore at h
  split at h
  · next hd =>
    have hlast := step_last (SearchState.valid_start hd)
    rw [h] at hlast
    rw [created, dif_neg (not_not.mpr hd), (stack_eq_nil_of_step hlast).2]
  · contradiction

end Created

def withMaxNodes (search : Search) (maxNodes : Option ℕ) : Search :=
  { search with maxNodes }

lemma move_withMaxNodes (search : Search) (maxNodes : Option ℕ) (state : SearchState) (frame : Frame) :
    (search.withMaxNodes maxNodes).move state frame =
      if frame.next < search.net.transitionCount then
        if search.isOutOfTime then .abort .timeout
        else
          match search.net.fire frame.marking frame.next with
          | .ok successor => (search.withMaxNodes maxNodes).createMove state successor
          | .error e => if e.isNotEnabled then .skip e else .abort (.net e)
      else .leave := rfl

/-- A search with a limit makes the same move as one without, unless that creates a node beyond the limit. -/
lemma move_withMaxNodes_some (search : Search) (limit : ℕ) (state : SearchState) (frame : Frame) :
    (search.withMaxNodes (some limit)).move state frame =
      match (search.withMaxNodes none).move state frame with
      | .create m d => if state.nodes.size < limit then .create m d else .abort (.maxNodesReached limit)
      | move => move := by
  rw [move_withMaxNodes, move_withMaxNodes]
  by_cases hlt : frame.next < search.net.transitionCount
  · rw [if_pos hlt, if_pos hlt]
    by_cases hout : search.isOutOfTime = true
    · rw [if_pos hout, if_pos hout]
    · rw [if_neg hout, if_neg hout]
      cases search.net.fire frame.marking frame.next with
      | ok successor => rfl
      | error e => by_cases he : e.isNotEnabled = true <;> simp [he]
  · rw [if_neg hlt, if_neg hlt]

lemma step_withMaxNodes_some (search : Search) (limit : ℕ) (state : SearchState) :
    (search.withMaxNodes (some limit)).step state = (search.withMaxNodes none).step state ∨
    limit ≤ state.nodes.size ∧
      (search.withMaxNodes (some limit)).step state = .done (.error (.maxNodesReached limit)) ∧
      ∃ next, (search.withMaxNodes none).step state = .next next ∧ next.nodes.size = state.nodes.size + 1 := by
  unfold step
  cases state.stack with
  | nil => exact .inl rfl
  | cons frame below =>
    dsimp only
    rw [move_withMaxNodes_some]
    cases (search.withMaxNodes none).move state frame with
    | create m d =>
      by_cases hsize : state.nodes.size < limit
      · left
        simp only [if_pos hsize]
      · right
        simp only [if_neg hsize]
        exact ⟨not_lt.mp hsize, trivial, _, rfl, SearchState.size_create m d⟩
    | leave | skip | abort => exact .inl rfl

/-- The two searches agree until the limit is exceeded, from every state that is within it. -/
theorem run_withMaxNodes_some (search : Search) {limit : ℕ} (hv : state.Valid search.net.placeCount)
    (hsize : state.nodes.size ≤ limit) :
    (search.withMaxNodes (some limit)).run state hv =
      if ((search.withMaxNodes none).last state hv).nodes.size ≤ limit then
        (search.withMaxNodes none).run state hv
      else .error (.maxNodesReached limit) := by
  fun_induction Search.run (search.withMaxNodes none) state hv with
  | case1 state hv result hr =>
    rw [last_of_done hv hr, if_pos hsize]
    obtain hsame | ⟨-, -, next, hn, -⟩ := step_withMaxNodes_some search limit state
    · exact run_of_done _ (hsame.trans hr)
    · rw [hr] at hn
      contradiction
  | case2 state hv next hn ih =>
    rw [last_of_next hv hn]
    obtain hsame | ⟨hfull, hdone, other, ho, hcreate⟩ := step_withMaxNodes_some search limit state
    · have hstep := hsame.trans hn
      have hle := size_le_of_step rfl hstep
      apply (run_of_next _ hstep).trans
      exact ih (by omega)
    · -- the next node is one too many, and no step takes it away again
      rw [hn] at ho
      cases ho
      have hle := size_le_last (valid_and_potential_lt hv hn).1
      apply (run_of_done _ hdone).trans
      rw [if_neg (by omega)]

lemma explore_withMaxNodes_some (search : Search) (initial : Marking) {limit : ℕ} (hlimit : 1 ≤ limit) :
    (search.withMaxNodes (some limit)).explore initial =
      if (search.withMaxNodes none).created initial ≤ limit then (search.withMaxNodes none).explore initial
      else .error (.maxNodesReached limit) := by
  unfold explore created
  by_cases hd : initial.dimension = search.net.placeCount
  · have hfits : ∀ maxNodes, initial.dimension = (search.withMaxNodes maxNodes).net.placeCount := fun _ => hd
    rw [dif_pos (hfits _), dif_neg (not_not.mpr (hfits _)), dif_pos (hfits _)]
    exact run_withMaxNodes_some search (SearchState.valid_start hd) hlimit
  · have hdiffers : ∀ maxNodes, initial.dimension ≠ (search.withMaxNodes maxNodes).net.placeCount := fun _ => hd
    rw [dif_neg (hdiffers _), dif_pos (hdiffers _), dif_neg (hdiffers _), if_pos (Nat.zero_le limit)]
    rfl

/-- Without a timeout, a search with a limit ends as the one without, be it with a tree or with an overflow, if that
creates no more nodes than allowed. Otherwise it reports the limit. -/
theorem build_withMaxNodes (search : Search) (initial : Marking) (_htime : search.timeout = none) :
    (∀ tree, (search.withMaxNodes none).build initial = .ok tree →
      tree.nodes.size = (search.withMaxNodes none).created initial) ∧
    ∀ limit ≥ 1, (search.withMaxNodes (some limit)).build initial =
      if (search.withMaxNodes none).created initial ≤ limit then (search.withMaxNodes none).build initial
      else .error (.maxNodesReached limit) := by
  constructor
  · intro tree h
    exact size_of_explore (explore_of_build h)
  · intro limit hlimit
    unfold build
    rw [explore_withMaxNodes_some search initial hlimit]
    by_cases hcreated : (search.withMaxNodes none).created initial ≤ limit
    · rw [if_pos hcreated, if_pos hcreated]
      rfl
    · rw [if_neg hcreated, if_neg hcreated]
      rfl

end Search

lemma created_flood : (floodSearch.withMaxNodes none).created flood.initial = 3 := by
  cbv

/-- With three nodes the flood overflows before its limit strikes, and with two it does not get there. -/
theorem build_limitedFlood : floodSearch.timeout = none ∧
    (floodSearch.withMaxNodes none).created flood.initial = 3 ∧
    (floodSearch.withMaxNodes none).build flood.initial = .error (.net (.tokenOverflow "spill" "tank")) ∧
    (floodSearch.withMaxNodes (some 3)).build flood.initial = .error (.net (.tokenOverflow "spill" "tank")) ∧
    (floodSearch.withMaxNodes (some 2)).build flood.initial = .error (.maxNodesReached 2) := by
  have htime : floodSearch.timeout = none := rfl
  obtain ⟨-, hlimit⟩ := Search.build_withMaxNodes floodSearch flood.initial htime
  have hthree := hlimit 3 (by decide)
  have htwo := hlimit 2 (by decide)
  rw [created_flood] at hthree htwo
  rw [if_pos (by decide)] at hthree
  rw [if_neg (by decide)] at htwo
  exact ⟨htime, created_flood, build_flood, hthree.trans build_flood, htwo⟩

section SingleNode

variable {net : Net} {search : Search} {initial : Marking} {state : SearchState} {frame : Frame}
  {nodes : Array Node}

lemma SearchState.Invariant.marking_of_mem_stack (h : state.Invariant net initial)
    (hsize : state.nodes.size = 1) (hf : frame ∈ state.stack) : frame.marking = initial := by
  obtain ⟨node, hn, hm, -⟩ := h.stack.exists_node hf
  have hroot : frame.node = 0 := by
    have hlt := h.stack.node_lt hf
    omega
  obtain ⟨root, hr, hs⟩ := h.grown.root
  rw [hroot] at hn
  cases hn.symm.trans hr
  rw [← hm, hs.marking]

/-- The only node that a tree has is dead, since a child would be another node. -/
lemma Complete.isDead_of_size_eq_one (h : Complete net initial nodes) (hsize : nodes.size = 1) :
    net.IsDead initial.exact := by
  obtain ⟨root, hr, hs⟩ := h.grown.root
  have hdup : root.kind.isDuplicate = false := hs.isDuplicate
  have hfinished : Finished net nodes 0 root := h.finished 0 root hr hdup
  have hd : root.marking.dimension = net.placeCount := (h.grown.dimension hr).trans h.dimension_initial
  have hleaf : root.children = [] := by
    rw [List.eq_nil_iff_forall_not_mem]
    intro c hc
    obtain ⟨child, hchild, hparent⟩ := Option.bind_eq_some_iff.mp (hfinished.expanded.parent c hc)
    have hlt : c < nodes.size := (Array.getElem?_eq_some_iff.mp hchild).1
    have hpos : 0 < c := (h.grown.begets hchild hparent).1
    omega
  have hdead : net.IsDead root.marking.exact := (hfinished.children_eq_nil_iff h.wellFormed hd).mp hleaf
  rwa [hs.marking] at hdead

namespace Search

variable (hw : search.net.WellFormed) (hd : initial.dimension = search.net.placeCount)
  (hdead : search.net.IsDead initial.exact)

include hw hd hdead

lemma Through.size_eq_one (h : search.Through initial state) : state.nodes.size = 1 := by
  refine h.preserves hw hd (P := fun state => state.nodes.size = 1) rfl ?_
  intro state frame below next _ hinv hs hadv hsize
  cases hadv with
  | leave hle => rwa [SearchState.size_leave]
  | skip hlt hfire he => exact hsize
  | create hlt hfire hlimit =>
    have henabled := (Net.fires_of_fire hw hfire).enables
    rw [hinv.marking_of_mem_stack hsize (hs ▸ List.mem_cons_self)] at henabled
    exact absurd henabled (hdead frame.next)

/-- From a dead marking nothing fires, so neither an overflow nor a limit ends the search. -/
lemma exists_explore_of_isDead (htime : search.timeout = none) :
    ∃ nodes, search.explore initial = .ok nodes ∧ nodes.size = 1 := by
  cases h : search.explore initial with
  | ok nodes =>
    obtain ⟨-, last, ht, -, rfl⟩ := exists_through_of_explore h
    exact ⟨last.nodes, rfl, ht.size_eq_one hw hd hdead⟩
  | error e =>
    obtain ⟨last, frame, below, ht, hstack, hmoves⟩ := exists_through_of_explore_eq_error hd h
    have hmarking : frame.marking = initial :=
      (ht.invariant hw hd).marking_of_mem_stack (ht.size_eq_one hw hd hdead) (hstack ▸ List.mem_cons_self)
    cases hmoves with
    | timeout hlt hout => simp [isOutOfTime, htime] at hout
    | full hlt hfire hlimit hsize =>
      rw [hmarking] at hfire
      exact absurd (Net.fires_of_fire hw hfire).enables (hdead frame.next)
    | fail hlt hfire he =>
      rw [hmarking] at hfire
      obtain ⟨p, -, -, hover⟩ := Net.overflows_of_fire hw hd hlt hfire he
      exact absurd hover.enables (hdead frame.next)

omit hw hd hdead

/-- A tree has more nodes than allowed exactly if no node is allowed and the root is dead. -/
theorem exceeds_maxNodes_iff (hnet : search.net.Constructed) (hd : initial.dimension = search.net.placeCount)
    (htime : search.timeout = none) {limit : ℕ} (hlimit : search.maxNodes = some limit) :
    (∃ tree, search.build initial = .ok tree ∧ limit < tree.nodes.size) ↔
      limit = 0 ∧ search.net.IsDead initial.exact := by
  constructor
  · rintro ⟨tree, h, hsize⟩
    have hexplore : search.explore initial = .ok tree.nodes := explore_of_build h
    have hle := search.size_le_of_explore hlimit hexplore
    have hc : Complete search.net initial tree.nodes := complete_of_explore hnet.wellFormed hexplore
    exact ⟨by omega, hc.isDead_of_size_eq_one (by omega)⟩
  · rintro ⟨rfl, hdead⟩
    obtain ⟨nodes, hexplore, hsize⟩ := exists_explore_of_isDead hnet.wellFormed hd hdead htime
    refine ⟨search.toTree nodes, ?_, ?_⟩
    · rw [build, hexplore]
      rfl
    · have hpos : 0 < nodes.size := by omega
      exact hpos

end Search

end SingleNode

section Stuck

/-- A net in which nothing can happen. -/
def stuck : Net where
  name := "stuck"
  placeNames := ["P"]
  transitionNames := ["t"]
  rules := ["P -> t"]
  arcs := [⟨[⟨1, 0⟩], []⟩]
  initial := ⟨[.finite 0]⟩
  marking := ⟨[.finite 0]⟩

def stuckSearch : Search where
  net := stuck
  pruning := .ancestorOnly
  maxNodes := some 0
  timeout := none

def stuckTree : Tree := stuckSearch.toTree #[⟨none, ⟨[.finite 0]⟩, none, [], .dead, 0⟩]

lemma constructed_stuck : stuckSearch.net.Constructed := by
  have h : Net.ofEntities "stuck" [.place "P" (.finite 0), .transition "t"] ["P -> t"] = .ok stuck := by
    decide +kernel
  exact .ofEntities h

lemma build_stuck : stuckSearch.build stuck.initial = .ok stuckTree := by
  cbv

/-- No node is allowed, and yet there is a tree with a node. -/
theorem exceeds_stuck : stuckSearch.net.Constructed ∧ stuck.initial.dimension = stuck.placeCount ∧
    stuckSearch.timeout = none ∧ stuckSearch.maxNodes = some 0 ∧
    ∃ tree, stuckSearch.build stuck.initial = .ok tree ∧ ¬tree.nodes.size ≤ 0 :=
  ⟨constructed_stuck, rfl, rfl, rfl, stuckTree, build_stuck, by decide⟩

theorem isDead_stuck : stuckSearch.net.Constructed ∧ stuck.initial.dimension = stuck.placeCount ∧
    stuckSearch.timeout = none ∧ stuckSearch.maxNodes = some 0 ∧ stuck.IsDead stuck.initial.exact := by
  have hd : stuck.initial.dimension = stuckSearch.net.placeCount := rfl
  have hexceeds := Search.exceeds_maxNodes_iff constructed_stuck hd rfl rfl
  obtain ⟨-, hdead⟩ := hexceeds.mp ⟨stuckTree, build_stuck, by decide⟩
  exact ⟨constructed_stuck, hd, rfl, rfl, hdead⟩

end Stuck

end Coverability
