import Coverability.Marking.Finite
import Coverability.Search.Basic

/-!
# Every search ends

The markings on the stack have the dimension of the net and are pairwise different, so the stack cannot
be higher than there are markings. `SearchState.potential` weighs the untried transitions of a frame the
more the lower it lies in the stack, and every move makes it smaller.
-/

namespace Coverability

theorem Net.dimension_consume {net : Net} {t : Nat} {m n : Marking} {arc : Arc}
    (h : net.consume t m arc = .ok n) : n.dimension = m.dimension := by
  unfold consume at h
  split at h
  · contradiction
  · split at h
    · cases h
      exact m.dimension_set _ _
    · contradiction

theorem Net.dimension_produce {net : Net} {t : Nat} {m n : Marking} {arc : Arc}
    (h : net.produce t m arc = .ok n) : n.dimension = m.dimension := by
  unfold produce at h
  split at h
  · contradiction
  · split at h
    · cases h
      exact m.dimension_set _ _
    · contradiction

theorem dimension_foldlM {f : Marking → Arc → Except NetError Marking}
    (hf : ∀ {m n arc}, f m arc = .ok n → n.dimension = m.dimension) {arcs : List Arc}
    {m n : Marking} (h : arcs.foldlM f m = .ok n) : n.dimension = m.dimension := by
  induction arcs generalizing m with
  | nil =>
    cases h
    rfl
  | cons arc arcs ih =>
    rw [List.foldlM_cons] at h
    cases hm : f m arc with
    | error e =>
      rw [hm] at h
      contradiction
    | ok next =>
      rw [hm] at h
      exact (ih h).trans (hf hm)

/-- Firing keeps the number of places. -/
theorem Net.dimension_fire {net : Net} {m n : Marking} {t : Nat} (h : net.fire m t = .ok n) :
    n.dimension = m.dimension := by
  unfold fire at h
  cases hd : net.checkDimension m with
  | error e =>
    rw [hd] at h
    contradiction
  | ok _ =>
    rw [hd] at h
    simp only [bind, Except.bind] at h
    split at h
    · contradiction
    · next arcs _ =>
      cases hc : arcs.consumes.foldlM (net.consume t) m with
      | error e => simp [hc] at h
      | ok taken =>
        simp only [hc] at h
        exact (dimension_foldlM Net.dimension_produce h).trans
          (dimension_foldlM Net.dimension_consume hc)

namespace SearchState

/-- What holds in every state of a search on a net with `d` places: the markings on the stack have
`d` places, are pairwise different and have all been seen. -/
structure Valid (d : Nat) (state : SearchState) : Prop where
  dimension_eq : ∀ frame ∈ state.stack, frame.marking.dimension = d
  nodup : (state.stack.map Frame.marking).Nodup
  mem_seen : ∀ frame ∈ state.stack, frame.marking ∈ state.seen

theorem Valid.length_le {d : Nat} {state : SearchState} (h : state.Valid d) :
    state.stack.length ≤ markingCount d := by
  have hl : ∀ m ∈ state.stack.map Frame.marking, m.dimension = d := by
    intro m hm
    obtain ⟨frame, hf, rfl⟩ := List.mem_map.1 hm
    exact h.dimension_eq frame hf
  simpa using length_le_markingCount h.nodup hl

/-- The work that is left at most for a stack, when `transitions` can be tried on each frame and the
stack never gets higher than `height`. -/
def stackPotential (transitions height : Nat) : List Frame → Nat
  | [] => 0
  | frame :: below =>
    (transitions - frame.next) * Nat.pow (transitions + 2) (height - below.length) + 1 +
      stackPotential transitions height below

def potential (search : Search) (state : SearchState) : Nat :=
  stackPotential search.net.transitionCount (markingCount search.net.placeCount) state.stack

theorem valid_start {d : Nat} {initial : Marking} (h : initial.dimension = d) :
    (start initial).Valid d where
  dimension_eq := by simp [start, h]
  nodup := by simp [start]
  mem_seen := by simp [start]

theorem Valid.of_stack_sublist {d : Nat} {state : SearchState} (h : state.Valid d)
    (state' : SearchState) (hs : (state'.stack.map Frame.marking).Sublist (state.stack.map Frame.marking))
    (hseen : state'.seen = state.seen) : state'.Valid d := by
  have hmem : ∀ frame ∈ state'.stack, ∃ old ∈ state.stack, old.marking = frame.marking := by
    intro frame hf
    exact List.mem_map.1 (hs.subset (List.mem_map.2 ⟨frame, hf, rfl⟩))
  constructor
  · intro frame hf
    obtain ⟨old, ho, he⟩ := hmem frame hf
    rw [← he]
    exact h.dimension_eq old ho
  · exact h.nodup.sublist hs
  · intro frame hf
    obtain ⟨old, ho, he⟩ := hmem frame hf
    rw [hseen, ← he]
    exact h.mem_seen old ho

theorem Valid.create {d : Nat} {state : SearchState} {frame : Frame} {below : List Frame}
    (h : state.Valid d) (hs : state.stack = frame :: below) {marking : Marking}
    (hd : marking.dimension = d) (hnew : ∀ f ∈ state.stack, f.marking ≠ marking) :
    (state.create frame below marking none).Valid d := by
  have hdim := h.dimension_eq
  have hnodup := h.nodup
  have hseen := h.mem_seen
  rw [hs] at hdim hnodup hseen hnew
  simp only [List.mem_cons, forall_eq_or_imp, List.map_cons, List.nodup_cons, List.mem_map,
    not_exists, not_and] at hdim hnodup hseen hnew
  constructor
  · simp only [SearchState.create, Frame.advance, List.mem_cons, forall_eq_or_imp]
    exact ⟨hd, hdim.1, hdim.2⟩
  · simp only [SearchState.create, Frame.advance, List.map_cons, List.nodup_cons, List.mem_cons,
      List.mem_map, not_or, not_exists, not_and]
    exact ⟨⟨fun e => hnew.1 e.symm, fun f hf e => hnew.2 f hf e⟩, hnodup.1, hnodup.2⟩
  · simp only [SearchState.create, Frame.advance, List.mem_cons, forall_eq_or_imp,
      Std.HashMap.mem_insert]
    exact ⟨Or.inl (by simp), Or.inr hseen.1, fun f hf => Or.inr (hseen.2 f hf)⟩

/-- A marking that repeats no node is not on the stack. -/
theorem Valid.ne_of_duplicateOf?_eq_none {search : Search} {state : SearchState} {d : Nat}
    (h : state.Valid d) {marking : Marking} (hn : search.duplicateOf? state marking = none) :
    ∀ f ∈ state.stack, f.marking ≠ marking := by
  intro f hf he
  unfold Search.duplicateOf? at hn
  split at hn
  · simp only [Option.map_eq_none_iff, List.find?_eq_none] at hn
    exact hn f hf (by simpa using he)
  · have hmem := h.mem_seen f hf
    rw [he] at hmem
    rw [Std.HashMap.mem_iff_isSome_getElem?, hn] at hmem
    contradiction

theorem stackPotential_advance_lt {transitions height : Nat} {frame : Frame} (below : List Frame)
    (h : frame.next < transitions) :
    stackPotential transitions height (frame.advance :: below) <
      stackPotential transitions height (frame :: below) := by
  simp only [stackPotential, Frame.advance]
  have hp : 0 < Nat.pow (transitions + 2) (height - below.length) := Nat.pow_pos (by omega)
  have : transitions - (frame.next + 1) + 1 = transitions - frame.next := by omega
  rw [← this, Nat.add_mul]
  omega

theorem stackPotential_push_lt {transitions height : Nat} {frame child : Frame} {below : List Frame}
    (h : frame.next < transitions) (hb : below.length < height) :
    stackPotential transitions height (child :: frame.advance :: below) <
      stackPotential transitions height (frame :: below) := by
  simp only [stackPotential, Frame.advance, List.length_cons]
  have hpow : Nat.pow (transitions + 2) (height - below.length) =
      (transitions + 2) * Nat.pow (transitions + 2) (height - (below.length + 1)) := by
    have hsub : height - below.length = height - (below.length + 1) + 1 := by omega
    rw [hsub]
    exact Nat.pow_succ'
  have hp : 0 < Nat.pow (transitions + 2) (height - (below.length + 1)) := Nat.pow_pos (by omega)
  have hchild : (transitions - child.next) * Nat.pow (transitions + 2) (height - (below.length + 1)) ≤
      transitions * Nat.pow (transitions + 2) (height - (below.length + 1)) :=
    Nat.mul_le_mul_right _ (Nat.sub_le _ _)
  have hnext : transitions - (frame.next + 1) + 1 = transitions - frame.next := by omega
  rw [← hnext, Nat.add_mul, Nat.one_mul]
  generalize (transitions - (frame.next + 1)) * Nat.pow (transitions + 2) (height - below.length) = rest
  rw [hpow, Nat.add_mul]
  omega

end SearchState

namespace Search

variable {search : Search} {state next : SearchState} {frame : Frame}

theorem next_lt_of_move_ne_leave (h : search.move state frame ≠ .leave) :
    frame.next < search.net.transitionCount := by
  unfold move at h
  split at h
  · assumption
  · contradiction

theorem createMove_eq_create {successor marking : Marking} {duplicateOf : Option Nat}
    (h : search.createMove state successor = .create marking duplicateOf) :
    marking = successor.accelerate state.path ∧
      duplicateOf = search.duplicateOf? state marking := by
  unfold createMove at h
  split at h
  · cases h
    exact ⟨rfl, rfl⟩
  · split at h
    · cases h
      exact ⟨rfl, rfl⟩
    · contradiction

/-- A new node carries the accelerated marking that its transition leads to. -/
theorem move_eq_create {marking : Marking} {duplicateOf : Option Nat}
    (h : search.move state frame = .create marking duplicateOf) :
    frame.next < search.net.transitionCount ∧
      (∃ successor, search.net.fire frame.marking frame.next = .ok successor ∧
        marking = successor.accelerate state.path) ∧
      duplicateOf = search.duplicateOf? state marking := by
  have hne : search.move state frame ≠ .leave := by
    rw [h]
    exact Move.noConfusion
  have hlt := next_lt_of_move_ne_leave hne
  unfold move at h
  rw [if_pos hlt] at h
  split at h
  · contradiction
  · split at h
    · next successor hs =>
      obtain ⟨hm, hdup⟩ := createMove_eq_create h
      exact ⟨hlt, ⟨successor, hs, hm⟩, hdup⟩
    · split at h <;> contradiction

/-- Every move keeps the state valid and leaves less to do. -/
theorem valid_and_potential_lt (hv : state.Valid search.net.placeCount)
    (h : search.step state = .next next) :
    next.Valid search.net.placeCount ∧ next.potential search < state.potential search := by
  unfold step at h
  split at h
  · contradiction
  · next frame below hs =>
    split at h
    · cases h
      constructor
      · refine hv.of_stack_sublist (state.leave frame below) ?_ rfl
        rw [hs]
        exact List.sublist_cons_self _ _
      · simp only [SearchState.potential, hs, SearchState.leave, SearchState.stackPotential]
        omega
    · next cause hm =>
      cases h
      have hne : search.move state frame ≠ .leave := by
        rw [hm]
        exact Move.noConfusion
      have hlt := next_lt_of_move_ne_leave hne
      constructor
      · refine hv.of_stack_sublist (state.skip frame below) ?_ rfl
        rw [hs]
        exact List.Sublist.refl _
      · simp only [SearchState.potential, hs, SearchState.skip]
        exact SearchState.stackPotential_advance_lt below hlt
    · next marking duplicateOf hm =>
      cases h
      obtain ⟨hlt, ⟨successor, hfire, hacc⟩, hdup⟩ := move_eq_create hm
      cases duplicateOf with
      | some other =>
        constructor
        · refine hv.of_stack_sublist (state.create frame below marking (some other)) ?_ rfl
          rw [hs]
          exact List.Sublist.refl _
        · simp only [SearchState.potential, hs, SearchState.create]
          exact SearchState.stackPotential_advance_lt below hlt
      | none =>
        have hdim : marking.dimension = search.net.placeCount := by
          rw [hacc, Marking.dimension_accelerate, Net.dimension_fire hfire]
          exact hv.dimension_eq frame (by rw [hs]; exact List.mem_cons_self)
        constructor
        · exact hv.create hs hdim (hv.ne_of_duplicateOf?_eq_none hdup.symm)
        · simp only [SearchState.potential, hs, SearchState.create]
          apply SearchState.stackPotential_push_lt hlt
          have := hv.length_le
          rw [hs, List.length_cons] at this
          omega
    · contradiction

end Search

end Coverability
