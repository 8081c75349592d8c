import Coverability.Proofs.ExactMarkings
import Coverability.Tree.Query

/-!
# The queries of a tree

A query fails if a node lacks a place that is asked for, or is reached by a transition without a name.
On a tree whose markings and transitions fit its names, every query has a result, which is stated here
without the checks.
-/

namespace Coverability

section Lists

variable {ε α β : Type} {l : List α}

lemma mapM_eq_ok {f : α → Except ε β} {g : α → β} (h : ∀ a ∈ l, f a = .ok (g a)) :
    l.mapM f = .ok (l.map g) := by
  induction l with
  | nil => rfl
  | cons a l ih =>
    obtain ⟨ha, hl⟩ := List.forall_mem_cons.mp h
    rw [List.mapM_cons, ha, ih hl]
    rfl

lemma anyM_eq_ok {f : α → Except ε Bool} {g : α → Bool} (h : ∀ a ∈ l, f a = .ok (g a)) :
    l.anyM f = .ok (l.any g) := by
  induction l with
  | nil => rfl
  | cons a l ih =>
    obtain ⟨ha, hl⟩ := List.forall_mem_cons.mp h
    rw [List.anyM_cons, ha, List.any_cons]
    cases hg : g a with
    | true => rfl
    | false => exact ih hl

lemma filterM_eq_ok {f : α → Except ε Bool} {g : α → Bool} (h : ∀ a ∈ l, f a = .ok (g a)) :
    l.filterM f = .ok (l.filter g) := by
  have haux : ∀ acc, l.filterAuxM f acc = .ok ((l.filter g).reverse ++ acc) := by
    induction l with
    | nil => exact fun acc => rfl
    | cons a l ih =>
      obtain ⟨ha, hl⟩ := List.forall_mem_cons.mp h
      intro acc
      rw [List.filterAuxM, ha, List.filter_cons]
      cases hg : g a with
      | true => simpa using (ih hl (a :: acc) : (Except.ok true >>= _) = _)
      | false => exact ih hl acc
  rw [List.filterM, haux]
  simp

lemma idxOf?_eq_some [BEq α] [LawfulBEq α] {a : α} {i : ℕ} (hn : l.Nodup) (ha : l[i]? = some a) :
    l.idxOf? a = some i := by
  obtain ⟨hlt, ha⟩ := List.getElem?_eq_some_iff.mp ha
  rw [List.idxOf?_eq_some_iff]
  refine ⟨hlt, ha, fun j hj he => hj.ne ?_⟩
  exact (List.getElem_inj hn).mp (he.trans ha.symm)

lemma filter_zipIdx_sublist (l : List α) (q : α × ℕ → Bool) :
    ((l.zipIdx.filter q).map Prod.fst).Sublist l := by
  have h := (List.filter_sublist (p := q) (l := l.zipIdx)).map Prod.fst
  rwa [List.zipIdx_map_fst] at h

/-- An entry of a list without repetitions is selected by its index. -/
lemma mem_filter_zipIdx_iff {a : α} {i : ℕ} (hn : l.Nodup) (ha : l[i]? = some a) (q : ℕ → Bool) :
    a ∈ (l.zipIdx.filter fun x => q x.2).map Prod.fst ↔ q i = true := by
  simp only [List.mem_map, List.mem_filter, Prod.exists, List.mem_zipIdx_iff_getElem?]
  constructor
  · rintro ⟨a, j, ⟨hj, hq⟩, rfl⟩
    have hi := (List.getElem?_eq_some_iff.mp ha).1
    rwa [(List.getElem?_inj hi hn).mp (ha.trans hj.symm)]
  · exact fun hq => ⟨a, i, ⟨ha, hq⟩, rfl⟩

end Lists

/-- The count at `place`, or none at all. -/
def Node.count (place : ℕ) (node : Node) : TokenCount :=
  (node.marking.get? place).getD (.finite 0)

lemma Node.exact_count (place : ℕ) (node : Node) :
    (node.count place).exact = node.marking.exact place := by
  unfold count Marking.exact
  cases node.marking.get? place <;> simp

namespace TokenCount

lemma exact_le_max (a b : TokenCount) :
    a.exact ≤ (max a b).exact ∧ b.exact ≤ (max a b).exact := by
  change a.exact ≤ (if a ≤ b then b else a).exact ∧ b.exact ≤ (if a ≤ b then b else a).exact
  split
  · next h => exact ⟨exact_le_exact.mpr h, le_rfl⟩
  · next h => exact ⟨le_rfl, (not_le.mp (mt exact_le_exact.mp h)).le⟩

lemma exact_le_foldl_max {counts : List TokenCount} (low : TokenCount) :
    ∀ count ∈ low :: counts, count.exact ≤ (counts.foldl max low).exact := by
  induction counts generalizing low with
  | nil => simp [exact_le_exact.mp le_rfl]
  | cons first counts ih =>
    obtain ⟨hlow, hfirst⟩ := exact_le_max low first
    have hmax := ih (max low first) (max low first) List.mem_cons_self
    refine List.forall_mem_cons.mpr ⟨hlow.trans hmax, List.forall_mem_cons.mpr ⟨hfirst.trans hmax, ?_⟩⟩
    exact fun count hc => ih (max low first) count (List.mem_cons_of_mem _ hc)

lemma foldl_max_mem (counts : List TokenCount) (low : TokenCount) :
    counts.foldl max low ∈ low :: counts := by
  induction counts generalizing low with
  | nil => simp
  | cons first counts ih =>
    have hmax : max low first = first ∨ max low first = low := by
      change (if low ≤ first then first else low) = first ∨ (if low ≤ first then first else low) = low
      split <;> simp
    rcases List.mem_cons.mp (ih (max low first)) with h | h
    · rw [List.foldl_cons, h]
      rcases hmax with h | h <;> simp [h]
    · exact List.mem_cons_of_mem _ (List.mem_cons_of_mem _ h)

end TokenCount

namespace Tree

variable {tree : Tree} {p : ℕ}

/-- The largest count at place `p` in any node. -/
def largestCount (tree : Tree) (p : ℕ) : TokenCount :=
  (tree.nodes.toList.map (Node.count p)).foldl max (.finite 0)

def hasOmega (tree : Tree) (p : ℕ) : Bool :=
  tree.nodes.toList.any fun node => (node.count p).isInfinite

def labels (tree : Tree) : List ℕ :=
  tree.nodes.toList.filterMap Node.transition

lemma isBounded_iff : tree.isBounded = true ↔ ∀ node ∈ tree.nodes, ∀ p, node.marking.exact p ≠ ⊤ := by
  simp only [isBounded, Array.all_eq_true', Bool.not_eq_true', ← Bool.not_eq_true,
    Marking.hasInfinite_iff, not_exists]

lemma mem_indicesOf {q : Node → Bool} {i : ℕ} :
    i ∈ tree.indicesOf q ↔ ∃ node : Node, tree.nodes[i]? = some node ∧ q node = true := by
  simp only [indicesOf, List.mem_filterMap, Prod.exists, List.mem_zipIdx_iff_getElem?,
    Array.getElem?_toList]
  constructor
  · rintro ⟨node, j, hj, hq⟩
    split at hq
    · next hnode =>
      cases hq
      exact ⟨node, hj, hnode⟩
    · contradiction
  · rintro ⟨node, hn, hq⟩
    exact ⟨node, i, hn, if_pos hq⟩

lemma pairwise_indicesOf (tree : Tree) (q : Node → Bool) : (tree.indicesOf q).Pairwise (· < ·) := by
  have hindices : (tree.nodes.toList.zipIdx.map Prod.snd).Pairwise (· < ·) := by
    rw [List.zipIdx_map_snd]
    exact List.pairwise_lt_range'
  rw [indicesOf, List.pairwise_filterMap]
  refine (List.pairwise_map.mp hindices).imp fun hlt i hi j hj => ?_
  simp only [Option.ite_none_right_eq_some, Option.some.injEq] at hi hj
  rwa [← hi.2, ← hj.2]

lemma length_indicesOf (tree : Tree) (q : Node → Bool) : (tree.indicesOf q).length = tree.nodes.countP q := by
  have hnodes : tree.nodes.toList = tree.nodes.toList.zipIdx.map Prod.fst := (List.zipIdx_map_fst 0 _).symm
  rw [indicesOf, List.length_filterMap_eq_countP, ← Array.countP_toList]
  conv_rhs => rw [hnodes, List.countP_map]
  refine List.countP_congr fun x _ => ?_
  by_cases hq : q x.1 <;> simp [hq]

lemma hasDeadlock_iff : tree.hasDeadlock = true ↔ ∃ node ∈ tree.nodes, node.kind = .dead := by
  rw [hasDeadlock, Bool.not_eq_true', List.isEmpty_eq_false_iff_exists_mem]
  simp only [deadNodes, mem_indicesOf, decide_eq_true_eq]
  constructor
  · rintro ⟨i, node, hn, hkind⟩
    exact ⟨node, Array.mem_of_getElem? hn, hkind⟩
  · rintro ⟨node, hn, hkind⟩
    obtain ⟨i, hi⟩ := Array.mem_iff_getElem?.mp hn
    exact ⟨i, node, hi, hkind⟩

section Places

variable (hd : ∀ node ∈ tree.nodes, node.marking.dimension = tree.placeNames.length)

include hd

lemma countAt_eq_ok (hp : p < tree.placeNames.length) :
    ∀ node ∈ tree.nodes.toList, countAt p node = .ok (node.count p) := by
  intro node hn
  obtain ⟨count, hc⟩ := Marking.exists_get? (hd node (Array.mem_toList_iff.mp hn) ▸ hp)
  simp [countAt, Node.count, hc]

lemma holdsInfinite_eq_ok (hp : p < tree.placeNames.length) :
    tree.holdsInfinite p = .ok (tree.hasOmega p) := by
  refine anyM_eq_ok fun node hn => ?_
  rw [countAt_eq_ok hd hp node hn]
  rfl

lemma placeBound_eq_ok (hn : tree.placeNames.Nodup) {name : String} (hp : tree.placeNames[p]? = some name) :
    tree.placeBound name = .ok (tree.largestCount p) := by
  have hlt : p < tree.placeNames.length := (List.getElem?_eq_some_iff.mp hp).1
  simp only [placeBound, idxOf?_eq_some hn hp, mapM_eq_ok (countAt_eq_ok hd hlt)]
  rfl

lemma unboundedPlaces_eq_ok : tree.unboundedPlaces =
    .ok ((tree.placeNames.zipIdx.filter fun x => tree.hasOmega x.2).map Prod.fst) := by
  rw [unboundedPlaces, filterM_eq_ok (g := fun x => tree.hasOmega x.2)]
  · rfl
  · rintro ⟨name, p⟩ hx
    exact holdsInfinite_eq_ok hd (List.getElem?_eq_some_iff.mp (List.mem_zipIdx_iff_getElem?.mp hx)).1

end Places

lemma transitionsByUsage_eq_ok (ht : ∀ t ∈ tree.labels, t < tree.transitionNames.length) (used : Bool) :
    tree.transitionsByUsage used = .ok ((tree.transitionNames.zipIdx.filter fun x =>
      tree.labels.contains x.2 == used).map Prod.fst) :=
  if_pos ht

end Tree

end Coverability
