import Coverability.Proofs.DeadTransitions
import Coverability.Proofs.PlaceBounds

/-!
# Larger initial markings

What fires from a marking also fires from every larger one, and leads to a larger marking again. So tokens
that are added to the initial marking never make a marking impossible to cover, lower the bound of a place
or make a transition dead.
-/

namespace Coverability

variable {t p : ℕ} {M M' N : ExactMarking} {initial larger x : Marking}

namespace Net

variable {net : Net}

lemma Fires.exists_ge (h : net.Fires t M N) (hle : M ≤ M') : ∃ N', net.Fires t M' N' ∧ N ≤ N' := by
  obtain ⟨N', h'⟩ := (h.enables.mono hle).exists_fires
  exact ⟨N', h', h.mono h' hle⟩

/-- A larger marking reaches a larger one for every marking that is reached. -/
theorem Reachable.exists_ge (h : net.Reachable M N) (hle : M ≤ M') :
    ∃ N', net.Reachable M' N' ∧ N ≤ N' := by
  induction h with
  | refl => exact ⟨M', Relation.ReflTransGen.refl, hle⟩
  | tail _ hstep ih =>
    obtain ⟨K, hK, hge⟩ := ih
    obtain ⟨t, hfires⟩ := hstep
    obtain ⟨N', hN', hle'⟩ := hfires.exists_ge hge
    exact ⟨N', hK.tail ⟨t, hN'⟩, hle'⟩

section Covers

variable (hle : initial.exact ≤ larger.exact)

include hle

lemma Coverable.of_le (h : net.Coverable initial x) : net.Coverable larger x := by
  intro k
  obtain ⟨M, hM, hcounts⟩ := h k
  obtain ⟨M', hM', hge⟩ := Reachable.exists_ge hM hle
  refine ⟨M', hM', fun p count hcount => ?_⟩
  obtain ⟨hfinite, homega⟩ := hcounts p count hcount
  exact ⟨fun n hn => (hfinite n hn).trans (hge p), fun hinf => (homega hinf).trans (hge p)⟩

lemma exists_ge_of_mem_reachedCounts {count : ℕ∞} (h : count ∈ net.reachedCounts initial p) :
    ∃ count' ∈ net.reachedCounts larger p, count ≤ count' := by
  obtain ⟨M, hM, rfl⟩ := h
  obtain ⟨M', hM', hge⟩ := Reachable.exists_ge hM hle
  exact ⟨M' p, ⟨M', hM', rfl⟩, hge p⟩

lemma Unbounded.of_le (h : net.Unbounded initial p) : net.Unbounded larger p := by
  intro k
  obtain ⟨count, hc, hlt⟩ := h k
  obtain ⟨count', hc', hge⟩ := exists_ge_of_mem_reachedCounts hle hc
  exact ⟨count', hc', hlt.trans_le hge⟩

lemma exists_enables_of_le (h : ∃ M, net.Reachable initial.exact M ∧ net.Enables M t) :
    ∃ M, net.Reachable larger.exact M ∧ net.Enables M t := by
  obtain ⟨M, hM, henabled⟩ := h
  obtain ⟨M', hM', hge⟩ := Reachable.exists_ge hM hle
  exact ⟨M', hM', henabled.mono hge⟩

/-- The bound of a place is no smaller for the larger marking. -/
lemma bound_le_of_le {bound bound' : TokenCount}
    (hb : ∀ b : UInt32, bound = .finite b ↔ IsGreatest (net.reachedCounts initial p) (b.toNat : ℕ∞))
    (hu : bound = .infinite ↔ net.Unbounded initial p)
    (hb' : ∀ b : UInt32, bound' = .finite b ↔ IsGreatest (net.reachedCounts larger p) (b.toNat : ℕ∞))
    (hu' : bound' = .infinite ↔ net.Unbounded larger p) : bound ≤ bound' := by
  cases bound' with
  | infinite => exact TokenCount.le_infinite bound
  | finite b' =>
    cases bound with
    | infinite =>
      have hunbounded : net.Unbounded larger p := (hu.mp rfl).of_le hle
      exact absurd (hu'.mpr hunbounded) (by simp)
    | finite b =>
      obtain ⟨count, hc, hge⟩ := exists_ge_of_mem_reachedCounts hle ((hb b).mp rfl).1
      have hmax : count ≤ b'.toNat := ((hb' b').mp rfl).2 hc
      rw [← TokenCount.exact_le_exact]
      exact hge.trans hmax

end Covers

end Net

lemma Marking.Covers.trans {l m n : Marking} (hd : l.dimension = m.dimension) (h : l.Covers m)
    (h' : m.Covers n) : l.Covers n := by
  rintro ⟨a, c⟩ hac
  obtain ⟨p, hp⟩ := List.mem_iff_getElem?.mp hac
  obtain ⟨ha, hc⟩ := List.getElem?_zip_eq_some.mp hp
  have hlt : p < m.dimension := hd ▸ Marking.lt_dimension_of_get? ha
  obtain ⟨b, hb⟩ := Marking.exists_get? hlt
  have hba : b ≤ a := h (a, b) (List.mem_of_getElem? (List.getElem?_zip_eq_some.mpr ⟨ha, hb⟩))
  have hcb : c ≤ b := h' (b, c) (List.mem_of_getElem? (List.getElem?_zip_eq_some.mpr ⟨hb, hc⟩))
  rw [← TokenCount.exact_le_exact] at hba hcb ⊢
  exact hcb.trans hba

/-- Every node of a tree is covered by one of the tree of the larger marking. -/
theorem Complete.exists_covers_of_le {net : Net} {nodes nodes' : Array Node} (h : Complete net initial nodes)
    (h' : Complete net larger nodes') (hle : initial.exact ≤ larger.exact) {node : Node} (hn : node ∈ nodes) :
    ∃ node' ∈ nodes', node'.marking.dimension = node.marking.dimension ∧
      node'.marking.Covers node.marking := by
  have hd := h.dimension_of_mem hn
  have hcoverable : net.Coverable initial node.marking :=
    (h.exists_covers_iff hd).mp ⟨node, hn, (Marking.covers_iff rfl).mpr le_rfl⟩
  obtain ⟨node', hn', hcovers⟩ := (h'.exists_covers_iff hd).mpr (hcoverable.of_le hle)
  exact ⟨node', hn', (h'.dimension_of_mem hn').trans hd.symm, hcovers⟩

/-- A tree with a larger marking at its root covers no fewer markings, gives no smaller bound for a place
and has no more dead transitions, whatever the two trees were pruned by. -/
theorem Search.answers_le_of_covers {search other : Search} {tree tree' : Tree}
    (hnet : search.net.Constructed) (hsame : other.net = search.net) (hcovers : larger.Covers initial)
    (h : search.build initial = .ok tree) (h' : other.build larger = .ok tree') :
    (∀ x : Marking, tree.covers x = true → tree'.covers x = true) ∧
    (∀ name ∈ search.net.placeNames, ∃ bound bound', tree.placeBound name = .ok bound ∧
      tree'.placeBound name = .ok bound' ∧ bound ≤ bound') ∧
    ∃ dead dead', tree.deadTransitions = .ok dead ∧ tree'.deadTransitions = .ok dead' ∧ dead' ⊆ dead := by
  have hnet' : other.net.Constructed := hsame ▸ hnet
  obtain ⟨nodes, hc, rfl⟩ := search.exists_nodes_of_build hnet.wellFormed h
  obtain ⟨nodes', hc', rfl⟩ := other.exists_nodes_of_build hnet'.wellFormed h'
  have hd : larger.dimension = initial.dimension := by
    rw [hc.dimension_initial, hc'.dimension_initial, hsame]
  have hle : initial.exact ≤ larger.exact := (Marking.covers_iff hd).mp hcovers
  refine ⟨fun x hx => ?_, fun name hname => ?_, ?_⟩
  · obtain ⟨node, hn, hx⟩ := Tree.covers_iff.mp hx
    obtain ⟨node', hn', hdim, hge⟩ := hc.exists_covers_of_le (hsame ▸ hc') hle hn
    exact Tree.covers_iff.mpr ⟨node', hn', hge.trans hdim hx⟩
  · obtain ⟨p, hp⟩ := List.mem_iff_getElem?.mp hname
    obtain ⟨bound, hbound, hfinite, homega⟩ := hc.placeBound_iff hp
    obtain ⟨bound', hbound', hfinite', homega'⟩ := hc'.placeBound_iff (hsame ▸ hp)
    rw [hsame] at hfinite' homega'
    exact ⟨bound, bound', hbound, hbound', Net.bound_le_of_le hle hfinite homega hfinite' homega'⟩
  · obtain ⟨dead, hdead, -, hiff⟩ := hc.transitionsByUsage_iff false
    obtain ⟨dead', hdead', hsub', hiff'⟩ := hc'.transitionsByUsage_iff false
    refine ⟨dead, dead', hdead, hdead', fun name hname => ?_⟩
    obtain ⟨t, ht'⟩ := List.mem_iff_getElem?.mp (hsub'.subset hname)
    have ht : search.net.transitionNames[t]? = some name := hsame ▸ ht'
    rw [hiff' t name ht', hsame] at hname
    rw [hiff t name ht]
    simp only [Bool.false_eq_true, iff_false] at hname ⊢
    exact mt (Net.exists_enables_of_le hle) hname

section Stock

/-- The mill when nobody works there and three parts are left. -/
def stockSearch : Search where
  net := mill
  pruning := .ancestorOnly
  maxNodes := none
  timeout := none

def stockTree : Tree := stockSearch.toTree #[
  ⟨none, ⟨[.finite 0, .finite 3, .finite 0]⟩, none, [1], .interior, 0⟩,
  ⟨some 1, ⟨[.finite 0, .finite 1, .finite 1]⟩, some 0, [], .dead, 1⟩]

def fullStockTree : Tree := millSearch.toTree #[
  ⟨none, ⟨[.finite 0, .infinite, .finite 5]⟩, none, [1], .interior, 0⟩,
  ⟨some 1, ⟨[.finite 0, .infinite, .infinite]⟩, some 0, [2], .interior, 1⟩,
  ⟨some 1, ⟨[.finite 0, .infinite, .infinite]⟩, some 1, [], .duplicate 1, 2⟩]

lemma build_stock : stockSearch.build ⟨[.finite 0, .finite 3, .finite 0]⟩ = .ok stockTree := by
  cbv

lemma build_fullStock : millSearch.build ⟨[.finite 0, .infinite, .finite 5]⟩ = .ok fullStockTree := by
  cbv

/-- With a full stock, working is as impossible as it is with three parts, but no less can be shipped. -/
theorem answers_le_stock : stockSearch.net.Constructed ∧ millSearch.net = stockSearch.net ∧
    Marking.Covers ⟨[.finite 0, .infinite, .finite 5]⟩ ⟨[.finite 0, .finite 3, .finite 0]⟩ ∧
    stockSearch.build ⟨[.finite 0, .finite 3, .finite 0]⟩ = .ok stockTree ∧
    millSearch.build ⟨[.finite 0, .infinite, .finite 5]⟩ = .ok fullStockTree ∧
    fullStockTree.covers ⟨[.finite 0, .finite 1, .finite 1]⟩ = true ∧
    (∃ bound, fullStockTree.placeBound "shipped" = .ok bound ∧ .finite 1 ≤ bound) ∧
    ∃ dead, stockTree.deadTransitions = .ok dead ∧ "work" ∈ dead := by
  have hcovers : Marking.Covers ⟨[.finite 0, .infinite, .finite 5]⟩ ⟨[.finite 0, .finite 3, .finite 0]⟩ := by
    decide
  have hnet : stockSearch.net.Constructed := constructed_mill
  have hsame : millSearch.net = stockSearch.net := rfl
  obtain ⟨hcover, hbounds, dead, dead', hdead, hdead', hsub⟩ :=
    Search.answers_le_of_covers hnet hsame hcovers build_stock build_fullStock
  obtain ⟨bound, bound', hbound, hbound', hle⟩ := hbounds "shipped" (by decide)
  have hone : bound = .finite 1 := Except.ok.inj (hbound.symm.trans rfl)
  have hwork : dead' = ["work"] := Except.ok.inj (hdead'.symm.trans rfl)
  exact ⟨hnet, hsame, hcovers, build_stock, build_fullStock, hcover _ (by decide +kernel),
    ⟨bound', hbound', hone ▸ hle⟩, dead, hdead, hsub (by simp [hwork])⟩

end Stock

end Coverability
