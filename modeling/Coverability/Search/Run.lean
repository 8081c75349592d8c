import Coverability.Search.Termination

/-!
# Running a search

`Search.run` makes moves until the search ends, and `Search.build` puts the nodes that it finds
together with the names of the net.
-/

namespace Coverability.Search

/-- Makes moves until the search ends. -/
def run (search : Search) (state : SearchState) (hv : state.Valid search.net.placeCount) :
    Except SearchError (Array Node) :=
  match h : search.step state with
  | .done result => result
  | .next next => search.run next (valid_and_potential_lt hv h).1
termination_by state.potential search
decreasing_by exact (valid_and_potential_lt hv h).2

/-- The nodes of the tree whose root has the marking `initial`. -/
def explore (search : Search) (initial : Marking) : Except SearchError (Array Node) :=
  if h : initial.dimension = search.net.placeCount then
    search.run (.start initial) (SearchState.valid_start h)
  else .error (.net (.dimensionMismatch search.net.placeCount initial.dimension))

/-- The tree with these nodes. Searching is taken to need no measurable time. -/
def toTree (search : Search) (nodes : Array Node) : Tree where
  placeNames := search.net.placeNames
  transitionNames := search.net.transitionNames
  pruning := search.pruning
  nodes := nodes
  statistics := Statistics.ofNodes nodes .zero

/-- Builds the coverability tree whose root has the marking `initial`. -/
def build (search : Search) (initial : Marking) : Except SearchError Tree :=
  (search.explore initial).map search.toTree

end Coverability.Search
