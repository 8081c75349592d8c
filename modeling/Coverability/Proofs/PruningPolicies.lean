import Coverability.Proofs.Deadlocks
import Coverability.Proofs.EndingSearches
import Coverability.Proofs.NodeLimits
import Coverability.Proofs.PrunedCopies

/-!
# Pruning policies

Whenever a search that compares new markings with those of the ancestors gives a tree, the search that
compares them with all seen markings does so as well: its nodes are a pruned copy at all times, so what fires
in the one fires in the other, and it needs no more nodes.
-/

namespace Coverability

def Search.withPruning (search : Search) (pruning : Pruning) : Search :=
  { search with pruning }

namespace SearchState.Unrepeated

variable {net : Net} {initial : Marking} {state : SearchState} {large : Array Node} {frame : Frame}
  {below : List Frame}

/-- What is enabled in the node on top of the stack has a child in the larger tree. -/
lemma exists_next (h : state.Unrepeated net initial) (hu : Unpruned net initial large)
    (hs : state.stack = frame :: below) (henabled : net.Enables frame.marking.exact frame.next) :
    ∃ (j : ℕ) (above : List ℕ) (image : Node) (l : ℕ) (child : Node),
      SamePath state.nodes large frame.node j (below.map Frame.node) above ∧ large[j]? = some image ∧
      image.marking = frame.marking ∧ large[l]? = some child ∧ Begets net large j frame.next child := by
  have hfits := (h.invariant.stackFits hs).1
  obtain ⟨node, hn, hm, hkind, -⟩ := hfits.node
  obtain ⟨j, above, hpath⟩ := h.exists_samePath hu hfits.lineage
  obtain ⟨image, hi⟩ := hpath.right.exists_node
  have hmarking : image.marking = frame.marking := (hpath.marking_eq hn hi).trans hm
  have hdup : image.kind.isDuplicate = false := by
    refine h.isDuplicate_image hu hpath hn hi ?_
    rw [hkind]
    rfl
  obtain ⟨l, child, hchild, hbegets⟩ := hu.complete.exists_begets hi hdup (hmarking ▸ henabled)
  exact ⟨j, above, image, l, child, hpath, hi, hmarking, hchild, hbegets⟩

/-- What does not fire in the smaller tree is disabled. -/
lemma isNotEnabled_of_fire (h : state.Unrepeated net initial) (hu : Unpruned net initial large)
    (hs : state.stack = frame :: below) (hlt : frame.next < net.transitionCount) {e : NetError}
    (hfire : net.fire frame.marking frame.next = .error e) : e.isNotEnabled = true := by
  by_contra he
  obtain ⟨node, hn, hm, -⟩ := (h.invariant.stackFits hs).1.node
  have hd : frame.marking.dimension = net.placeCount :=
    hm ▸ (h.invariant.grown.dimension hn).trans hu.complete.dimension_initial
  obtain ⟨p, -, -, hover⟩ := Net.overflows_of_fire hu.complete.wellFormed hd hlt hfire (by simpa using he)
  have henabled : net.Enables frame.marking.exact frame.next := hover.enables
  obtain ⟨j, above, image, l, child, -, hi, hmarking, -, hbegets⟩ := h.exists_next hu hs henabled
  obtain ⟨-, successor, -, hfire', -⟩ := hbegets.marking
  rw [markingAt_of_getElem? hi, hmarking, hfire] at hfire'
  contradiction

/-- As long as something fires, the larger tree has a node beyond those of the copy. -/
lemma size_lt (h : state.Unrepeated net initial) (hu : Unpruned net initial large)
    (hs : state.stack = frame :: below) (henabled : net.Enables frame.marking.exact frame.next) :
    state.nodes.size < large.size := by
  obtain ⟨f, hf⟩ := h.exists_keepsPaths hu
  have hcopy : PrunedCopy state.nodes large f := h.prunedCopy hu hf
  obtain ⟨j, above, image, l, child, hpath, -, -, hchild, hbegets⟩ := h.exists_next hu hs henabled
  have hl : Lineage large l (j :: above) := .child hchild hbegets.parent_eq hpath.right
  have hlast : state.nodes.size - 1 < state.nodes.size :=
    Nat.sub_lt h.invariant.grown.size_pos Nat.one_pos
  -- the new node comes after the copies of all nodes so far
  have hlt : f (state.nodes.size - 1) < l := by
    obtain ⟨above', hl'⟩ := h.invariant.grown.exists_lineage (Array.getElem?_eq_getElem hlast)
    have hpath' := hf _ above' hl'
    apply hu.ordered.lt_of_pathLabels_lt hpath'.right hl
    rw [← hpath'.labels, pathLabels_cons (hbegets.transitionAt hchild), ← hpath.labels, ← List.map_cons]
    exact h.invariant.pathLabels_lt hs h.adopted h.preordered h.ordered hl'
  have hle : state.nodes.size - 1 ≤ f (state.nodes.size - 1) := hcopy.le hlast
  have hsize : l < large.size := (Array.getElem?_eq_some_iff.mp hchild).1
  omega

end SearchState.Unrepeated

namespace Search

variable {search : Search} {initial : Marking} {state : SearchState} {nodes : Array Node} {whole : Tree}

lemma Through.unrepeated (h : search.Through initial state) (hw : search.net.WellFormed)
    (hd : initial.dimension = search.net.placeCount) (hp : search.pruning = .globalSeen) :
    state.Unrepeated search.net initial where
  invariant := h.invariant hw hd
  adopted := h.adopted hw hd
  once := (h.seesAll hw hd hp).expandedOnce
  preordered := h.ordered hw hd
  ordered := h.labelsOrdered hw hd

lemma unpruned_of_explore (search : Search) (hw : search.net.WellFormed) (hp : search.pruning = .ancestorOnly)
    (h : search.explore initial = .ok nodes) : Unpruned search.net initial nodes where
  complete := complete_of_explore hw h
  differ := pathsDiffer_of_explore hw hp h
  ordered := labelsOrdered_of_explore hw h

/-- A search that prunes more gets to its end within limits that the larger tree keeps. -/
theorem exists_explore_prunedCopy (search : Search) (hw : search.net.WellFormed) (hp : search.pruning = .globalSeen)
    (htime : search.timeout = none) (hu : Unpruned search.net initial nodes)
    (hlimit : ∀ limit, search.maxNodes = some limit → nodes.size ≤ max limit 1) :
    ∃ kept f, search.explore initial = .ok kept ∧ PrunedCopy kept nodes f := by
  have hd : initial.dimension = search.net.placeCount := hu.complete.dimension_initial
  cases he : search.explore initial with
  | ok kept =>
    obtain ⟨-, last, ht, -, rfl⟩ := exists_through_of_explore he
    have hstate : last.Unrepeated search.net initial := ht.unrepeated hw hd hp
    obtain ⟨f, hf⟩ := hstate.exists_keepsPaths hu
    exact ⟨last.nodes, f, rfl, hstate.prunedCopy hu hf⟩
  | error e =>
    exfalso
    obtain ⟨last, frame, below, ht, hs, hmoves⟩ := exists_through_of_explore_eq_error hd he
    have hstate : last.Unrepeated search.net initial := ht.unrepeated hw hd hp
    cases hmoves with
    | timeout hlt hout => simp [isOutOfTime, htime] at hout
    | fail hlt hfire hnot =>
      rw [hstate.isNotEnabled_of_fire hu hs hlt hfire] at hnot
      contradiction
    | @full successor limit hlt hfire hmax hsize =>
      have hroom : last.nodes.size < nodes.size :=
        hstate.size_lt hu hs (Net.fires_of_fire hw hfire).enables
      have hle : nodes.size ≤ max limit 1 := hlimit limit hmax
      have hpos : 0 < last.nodes.size := hstate.invariant.grown.size_pos
      omega

/-- Whenever the search that compares new markings with those of the ancestors gives a tree, the search that
compares them with all seen markings gives a pruned copy of it. -/
theorem exists_prunedCopy_of_build (hnet : search.net.Constructed) (htime : search.timeout = none)
    (h : (search.withPruning .ancestorOnly).build initial = .ok whole) :
    ∃ pruned, (search.withPruning .globalSeen).build initial = .ok pruned ∧
      (∃ f, PrunedCopy pruned.nodes whole.nodes f) ∧ pruned.nodes.size ≤ whole.nodes.size ∧
      (pruned.hasDeadlock = true → whole.hasDeadlock = true) := by
  have hw : search.net.WellFormed := hnet.wellFormed
  have hexplore := explore_of_build h
  have hu : Unpruned search.net initial whole.nodes :=
    (search.withPruning .ancestorOnly).unpruned_of_explore hw rfl hexplore
  have hlimit : ∀ limit, search.maxNodes = some limit → whole.nodes.size ≤ max limit 1 :=
    fun limit hmax => (search.withPruning .ancestorOnly).size_le_of_explore hmax hexplore
  obtain ⟨kept, f, hkept, hcopy⟩ :=
    (search.withPruning .globalSeen).exists_explore_prunedCopy hw rfl htime hu hlimit
  refine ⟨(search.withPruning .globalSeen).toTree kept, ?_, ⟨f, hcopy⟩, hcopy.size_le, ?_⟩
  · rw [build, hkept]
    rfl
  · rw [Tree.hasDeadlock_iff, Tree.hasDeadlock_iff]
    rintro ⟨node, hn, hdead⟩
    obtain ⟨i, hi⟩ := Array.mem_iff_getElem?.mp hn
    obtain ⟨image, himage, -, -, -, -, hkind, -⟩ := hcopy.image i node hi
    exact ⟨image, Array.mem_of_getElem? himage, hkind hdead⟩

end Search

section Breakfast

/-- Coffee and toast are made in either order and then served, or the whole breakfast is ordered. -/
def breakfast : Net where
  name := "breakfast"
  placeNames := ["water", "bread", "coffee", "toast", "table"]
  transitionNames := ["brew", "roast", "serve", "order"]
  rules := ["water -> brew order", "brew -> coffee", "bread -> roast order", "roast -> toast",
    "coffee -> serve", "toast -> serve", "serve -> table", "order -> table"]
  arcs := [⟨[⟨1, 0⟩], [⟨1, 2⟩]⟩, ⟨[⟨1, 1⟩], [⟨1, 3⟩]⟩, ⟨[⟨1, 2⟩, ⟨1, 3⟩], [⟨1, 4⟩]⟩,
    ⟨[⟨1, 0⟩, ⟨1, 1⟩], [⟨1, 4⟩]⟩]
  initial := .ofFinite [1, 1, 0, 0, 0]
  marking := .ofFinite [1, 1, 0, 0, 0]

def breakfastSearch : Search where
  net := breakfast
  pruning := .ancestorOnly
  maxNodes := some 8
  timeout := none

/-- Roasting before brewing leads to the same nodes again. -/
def breakfastTree : Tree := (breakfastSearch.withPruning .ancestorOnly).toTree #[
  ⟨none, .ofFinite [1, 1, 0, 0, 0], none, [1, 4, 7], .interior, 0⟩,
  ⟨some 0, .ofFinite [0, 1, 1, 0, 0], some 0, [2], .interior, 1⟩,
  ⟨some 1, .ofFinite [0, 0, 1, 1, 0], some 1, [3], .interior, 2⟩,
  ⟨some 2, .ofFinite [0, 0, 0, 0, 1], some 2, [], .dead, 3⟩,
  ⟨some 1, .ofFinite [1, 0, 0, 1, 0], some 0, [5], .interior, 1⟩,
  ⟨some 0, .ofFinite [0, 0, 1, 1, 0], some 4, [6], .interior, 2⟩,
  ⟨some 2, .ofFinite [0, 0, 0, 0, 1], some 5, [], .dead, 3⟩,
  ⟨some 3, .ofFinite [0, 0, 0, 0, 1], some 0, [], .dead, 1⟩]

def prunedBreakfastTree : Tree := (breakfastSearch.withPruning .globalSeen).toTree #[
  ⟨none, .ofFinite [1, 1, 0, 0, 0], none, [1, 4, 6], .interior, 0⟩,
  ⟨some 0, .ofFinite [0, 1, 1, 0, 0], some 0, [2], .interior, 1⟩,
  ⟨some 1, .ofFinite [0, 0, 1, 1, 0], some 1, [3], .interior, 2⟩,
  ⟨some 2, .ofFinite [0, 0, 0, 0, 1], some 2, [], .dead, 3⟩,
  ⟨some 1, .ofFinite [1, 0, 0, 1, 0], some 0, [5], .interior, 1⟩,
  ⟨some 0, .ofFinite [0, 0, 1, 1, 0], some 4, [], .duplicate 2, 2⟩,
  ⟨some 3, .ofFinite [0, 0, 0, 0, 1], some 0, [], .duplicate 3, 1⟩]

lemma constructed_breakfast : breakfastSearch.net.Constructed := by
  have h : Net.ofEntities "breakfast"
      [.place "water" (.finite 1), .place "bread" (.finite 1), .place "coffee" (.finite 0),
        .place "toast" (.finite 0), .place "table" (.finite 0), .transition "brew", .transition "roast",
        .transition "serve", .transition "order"]
      breakfast.rules = .ok breakfast := by
    decide +kernel
  exact .ofEntities h

lemma build_breakfast :
    (breakfastSearch.withPruning .ancestorOnly).build breakfast.initial = .ok breakfastTree := by
  cbv

lemma build_prunedBreakfast :
    (breakfastSearch.withPruning .globalSeen).build breakfast.initial = .ok prunedBreakfastTree := by
  cbv

/-- The pruned tree of the breakfast has its seven nodes among the eight of the other tree. -/
theorem exists_prunedCopy_breakfast : breakfastSearch.net.Constructed ∧ breakfastSearch.timeout = none ∧
    (breakfastSearch.withPruning .ancestorOnly).build breakfast.initial = .ok breakfastTree ∧
    (breakfastSearch.withPruning .globalSeen).build breakfast.initial = .ok prunedBreakfastTree ∧
    (∃ f, PrunedCopy prunedBreakfastTree.nodes breakfastTree.nodes f) ∧
    breakfastTree.hasDeadlock = true := by
  obtain ⟨pruned, hbuild, hcopy, -, hdeadlock⟩ :=
    Search.exists_prunedCopy_of_build constructed_breakfast rfl build_breakfast
  cases hbuild.symm.trans build_prunedBreakfast
  exact ⟨constructed_breakfast, rfl, build_breakfast, build_prunedBreakfast, hcopy, hdeadlock rfl⟩

end Breakfast

end Coverability
