import Coverability.Proofs.EarnedOmegas
import Coverability.Proofs.TreeQueries

/-!
# Deadlocks

A finished tree marks a node as dead exactly if its marking enables no transition. Omega never keeps a
transition from firing, so a place with a finite count does, and it still does in every marking that
approximates the node. Hence every deadlock that a tree reports can be reached.
-/

namespace Coverability

/-- No transition can fire in the marking. -/
def Net.IsDead (net : Net) (M : ExactMarking) : Prop :=
  ∀ t, ¬net.Enables M t

variable {net : Net} {initial : Marking} {nodes : Array Node} {node : Node} {x M : ExactMarking} {i k t : ℕ}
  {search : Search} {tree : Tree}

lemma Finished.children_eq_nil_iff (h : Finished net nodes i node) (hw : net.WellFormed)
    (hd : node.marking.dimension = net.placeCount) :
    node.children = [] ↔ net.IsDead node.marking.exact := by
  have hnone : node.children = [] ↔
      ∀ t < net.transitionCount, ¬net.isEnabled node.marking t = .ok true := by
    rw [← List.map_eq_nil_iff (f := transitionAt nodes), h.expanded.transitions, List.map_eq_nil_iff,
      List.filter_eq_nil_iff]
    simp
  rw [hnone]
  constructor
  · intro hdisabled t henabled
    have hlt : t < net.transitionCount := henabled.lt_transitionCount hw
    exact hdisabled t hlt ((Net.isEnabled_iff hw hd).mpr henabled)
  · intro hdead t _ henabled
    exact hdead t ((Net.isEnabled_iff hw hd).mp henabled)

lemma Finished.kind_iff (h : Finished net nodes i node) :
    (node.kind = .dead ↔ node.children = []) ∧ (node.kind = .interior ↔ node.children ≠ []) := by
  rw [h.kind_eq]
  split <;> simp_all

/-- The dead nodes are those whose markings are dead, apart from duplicates. -/
theorem Complete.kind_eq_dead_iff (h : Complete net initial nodes) (hn : nodes[i]? = some node)
    (hdup : node.kind.isDuplicate = false) : node.kind = .dead ↔ net.IsDead node.marking.exact := by
  have hfinished := h.finished i node hn hdup
  have hd : node.marking.dimension = net.placeCount := (h.grown.dimension hn).trans h.dimension_initial
  rw [hfinished.kind_iff.1, hfinished.children_eq_nil_iff h.wellFormed hd]

lemma Complete.isDead_of_kind_eq_dead (h : Complete net initial nodes) (hn : node ∈ nodes)
    (hkind : node.kind = .dead) : net.IsDead node.marking.exact := by
  obtain ⟨i, hi⟩ := Array.mem_iff_getElem?.mp hn
  have hdup : node.kind.isDuplicate = false := by
    rw [hkind]
    rfl
  exact (h.kind_eq_dead_iff hi hdup).mp hkind

/-- A marking with tokens in place of omega enables no more transitions. -/
lemma Approximates.isDead (h : Approximates k x M) (hx : net.IsDead x) : net.IsDead M := by
  rintro t ⟨arcs, ht, hle⟩
  apply hx t
  refine ⟨arcs, ht, fun p => ?_⟩
  by_cases hp : x p = ⊤
  · rw [hp]
    exact le_top
  · rw [← (h p).1 hp]
    exact hle p

/-- If a tree reports a deadlock, then a marking in which no transition can fire is reachable. -/
theorem Search.exists_isDead_of_hasDeadlock (hnet : search.net.Constructed)
    (h : search.build initial = .ok tree) (hdead : tree.hasDeadlock = true) :
    ∃ M, search.net.Reachable initial.exact M ∧ search.net.IsDead M := by
  obtain ⟨nodes, hc, rfl⟩ := search.exists_nodes_of_build hnet.wellFormed h
  obtain ⟨node, hn, hkind⟩ := Tree.hasDeadlock_iff.mp hdead
  have hmarking : search.net.IsDead node.marking.exact := hc.isDead_of_kind_eq_dead hn hkind
  -- The node's marking may hold omega, so the reachable marking is another one, which agrees with it
  -- on the finite counts.
  obtain ⟨M, hM, happrox⟩ := hc.exists_approximates hn 0
  exact ⟨M, hM, happrox.isDead hmarking⟩

section Shop

/-- A shop that can only close when there is something in stock. -/
def shop : Net where
  name := "shop"
  placeNames := ["open", "stock"]
  transitionNames := ["fill", "close"]
  rules := ["fill -> open stock", "open -> fill close", "stock -> close"]
  arcs := [⟨[⟨1, 0⟩], [⟨1, 0⟩, ⟨1, 1⟩]⟩, ⟨[⟨1, 0⟩, ⟨1, 1⟩], []⟩]
  initial := ⟨[.finite 1, .finite 0]⟩
  marking := ⟨[.finite 1, .finite 0]⟩

def shopSearch : Search where
  net := shop
  pruning := .ancestorOnly
  maxNodes := none
  timeout := none

def shopTree : Tree := shopSearch.toTree #[
  ⟨none, ⟨[.finite 1, .finite 0]⟩, none, [1], .interior, 0⟩,
  ⟨some 0, ⟨[.finite 1, .infinite]⟩, some 0, [2, 3], .interior, 1⟩,
  ⟨some 0, ⟨[.finite 1, .infinite]⟩, some 1, [], .duplicate 1, 2⟩,
  ⟨some 1, ⟨[.finite 0, .infinite]⟩, some 1, [], .dead, 2⟩]

lemma constructed_shop : shopSearch.net.Constructed := by
  have h : Net.ofEntities "shop"
      [.place "open" (.finite 1), .place "stock" (.finite 0), .transition "fill", .transition "close"]
      ["fill -> open stock", "open -> fill close\n# nothing closes an empty shop\nstock -> close"] =
        .ok shop := by
    decide +kernel
  exact .ofEntities h

lemma build_shop : shopSearch.build shop.initial = .ok shopTree := by
  cbv

/-- The only dead node holds omega, and yet a closed shop can be reached. -/
theorem exists_isDead_shop : shopSearch.net.Constructed ∧ shopSearch.build shop.initial = .ok shopTree ∧
    shopTree.hasDeadlock = true ∧ ∃ M, shop.Reachable shop.initial.exact M ∧ shop.IsDead M := by
  have hdead : shopTree.hasDeadlock = true := rfl
  obtain ⟨M, hM, hstuck⟩ := Search.exists_isDead_of_hasDeadlock constructed_shop build_shop hdead
  exact ⟨constructed_shop, build_shop, hdead, M, hM, hstuck⟩

end Shop

end Coverability
