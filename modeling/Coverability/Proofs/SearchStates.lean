import Coverability.Search.Run
import Mathlib.Data.Nat.Notation

/-!
# The states of a search

`Search.moves_move` lists what can come next in a state, and `Search.advances_of_step` what a step makes
of it. `Search.Through` collects the states that a search goes through; its result is that of the last one.
-/

namespace Coverability

namespace Search

/-- What can come next for `frame`, and under which conditions. -/
inductive Moves (search : Search) (state : SearchState) (frame : Frame) : Move → Prop
  | leave (h : search.net.transitionCount ≤ frame.next) : Moves search state frame .leave
  | timeout (h : frame.next < search.net.transitionCount) (ht : search.isOutOfTime = true) :
      Moves search state frame (.abort .timeout)
  | skip {e : NetError} (h : frame.next < search.net.transitionCount)
      (hfire : search.net.fire frame.marking frame.next = .error e) (he : e.isNotEnabled = true) :
      Moves search state frame (.skip e)
  | fail {e : NetError} (h : frame.next < search.net.transitionCount)
      (hfire : search.net.fire frame.marking frame.next = .error e) (he : e.isNotEnabled = false) :
      Moves search state frame (.abort (.net e))
  | full {successor : Marking} {limit : ℕ} (h : frame.next < search.net.transitionCount)
      (hfire : search.net.fire frame.marking frame.next = .ok successor)
      (hlimit : search.maxNodes = some limit) (hsize : limit ≤ state.nodes.size) :
      Moves search state frame (.abort (.maxNodesReached limit))
  | create {successor : Marking} (h : frame.next < search.net.transitionCount)
      (hfire : search.net.fire frame.marking frame.next = .ok successor)
      (hsize : ∀ limit, search.maxNodes = some limit → state.nodes.size < limit) :
      Moves search state frame (.create (successor.accelerate state.path)
        (search.duplicateOf? state (successor.accelerate state.path)))

/-- What a step that does not end the search makes of a state with `frame` on top of `below`. -/
inductive Advances (search : Search) (state : SearchState) (frame : Frame) (below : List Frame) :
    SearchState → Prop
  | leave (h : search.net.transitionCount ≤ frame.next) :
      Advances search state frame below (state.leave frame below)
  | skip {e : NetError} (h : frame.next < search.net.transitionCount)
      (hfire : search.net.fire frame.marking frame.next = .error e) (he : e.isNotEnabled = true) :
      Advances search state frame below (state.skip frame below)
  | create {successor : Marking} (h : frame.next < search.net.transitionCount)
      (hfire : search.net.fire frame.marking frame.next = .ok successor)
      (hsize : ∀ limit, search.maxNodes = some limit → state.nodes.size < limit) :
      Advances search state frame below (state.create frame below (successor.accelerate state.path)
        (search.duplicateOf? state (successor.accelerate state.path)))

/-- The states that a search from `initial` goes through. -/
inductive Through (search : Search) (initial : Marking) : SearchState → Prop
  | start : Through search initial (.start initial)
  | step {state next : SearchState} (h : Through search initial state)
      (hs : search.step state = .next next) : Through search initial next

variable {search : Search} {initial : Marking} {state next : SearchState} {frame : Frame}
  {below : List Frame}

theorem moves_move (search : Search) (state : SearchState) (frame : Frame) :
    search.Moves state frame (search.move state frame) := by
  unfold move
  split
  · next hlt =>
    split
    · next ht => exact .timeout hlt ht
    · split
      · next successor hfire =>
        unfold createMove
        split
        · next hnone => exact .create hlt hfire (by simp [hnone])
        · next limit hlimit =>
          split
          · next hsize => exact .create hlt hfire (by simpa [hlimit] using hsize)
          · next hsize => exact .full hlt hfire hlimit (Nat.not_lt.mp hsize)
      · next e hfire =>
        split
        · next he => exact .skip hlt hfire he
        · next he => exact .fail hlt hfire (by simpa using he)
  · next hlt => exact .leave (Nat.not_lt.mp hlt)

theorem advances_of_step (h : search.step state = .next next) :
    ∃ frame below, state.stack = frame :: below ∧ search.Advances state frame below next := by
  unfold step at h
  split at h
  · contradiction
  · next frame below hs =>
    refine ⟨frame, below, hs, ?_⟩
    have hmoves := moves_move search state frame
    generalize search.move state frame = move at h hmoves
    cases hmoves with
    | leave hle =>
      cases h
      exact .leave hle
    | skip hlt hfire he =>
      cases h
      exact .skip hlt hfire he
    | create hlt hfire hsize =>
      cases h
      exact .create hlt hfire hsize
    | timeout | fail | full => cases h

theorem stack_eq_nil_of_step {nodes : Array Node} (h : search.step state = .done (.ok nodes)) :
    state.stack = [] ∧ state.nodes = nodes := by
  unfold step at h
  split at h
  · next hstack =>
    cases h
    exact ⟨hstack, rfl⟩
  · split at h <;> cases h

theorem moves_of_step_eq_error {e : SearchError} (h : search.step state = .done (.error e)) :
    ∃ frame below, state.stack = frame :: below ∧ search.Moves state frame (.abort e) := by
  unfold step at h
  split at h
  · cases h
  · next frame below hs =>
    refine ⟨frame, below, hs, ?_⟩
    have hmoves := moves_move search state frame
    generalize search.move state frame = move at h hmoves
    cases move with
    | abort error =>
      cases h
      exact hmoves
    | leave | skip | create => cases h

theorem exists_through_of_run {hv : state.Valid search.net.placeCount}
    {result : Except SearchError (Array Node)} (ht : search.Through initial state)
    (h : search.run state hv = result) :
    ∃ last, search.Through initial last ∧ search.step last = .done result := by
  fun_induction Search.run search state hv with
  | case1 state hv r hr => exact ⟨state, ht, h ▸ hr⟩
  | case2 state hv next hn ih => exact ih (ht.step hn) h

/-- The nodes of a search that succeeds are those of a state in which the stack is empty. -/
theorem exists_through_of_explore {nodes : Array Node} (h : search.explore initial = .ok nodes) :
    initial.dimension = search.net.placeCount ∧
      ∃ last, search.Through initial last ∧ last.stack = [] ∧ last.nodes = nodes := by
  unfold explore at h
  split at h
  · next hd =>
    obtain ⟨last, ht, hs⟩ := exists_through_of_run .start h
    exact ⟨hd, last, ht, stack_eq_nil_of_step hs⟩
  · contradiction

lemma explore_of_build {tree : Tree} (h : search.build initial = .ok tree) :
    search.explore initial = .ok tree.nodes := by
  unfold build at h
  cases he : search.explore initial with
  | error e =>
    rw [he] at h
    contradiction
  | ok nodes =>
    rw [he] at h
    cases h
    rfl

lemma explore_of_build_eq_error {e : SearchError} (h : search.build initial = .error e) :
    search.explore initial = .error e := by
  unfold build at h
  cases he : search.explore initial with
  | error e' =>
    rw [he] at h
    cases h
    rfl
  | ok nodes =>
    rw [he] at h
    contradiction

/-- A search that fails on a marking of the right dimension was aborted in one of its states. -/
theorem exists_through_of_explore_eq_error {e : SearchError}
    (hd : initial.dimension = search.net.placeCount) (h : search.explore initial = .error e) :
    ∃ last frame below, search.Through initial last ∧ last.stack = frame :: below ∧
      search.Moves last frame (.abort e) := by
  unfold explore at h
  rw [dif_pos hd] at h
  obtain ⟨last, ht, hs⟩ := exists_through_of_run .start h
  obtain ⟨frame, below, hstack, hmoves⟩ := moves_of_step_eq_error hs
  exact ⟨last, frame, below, ht, hstack, hmoves⟩

end Search

end Coverability
