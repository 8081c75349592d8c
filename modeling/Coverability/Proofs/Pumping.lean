import Coverability.Proofs.ExactFiring

/-!
# Pumping

A way that leads from a marking to one that covers it can be gone again and again, and each round puts
more tokens on the places where the second marking is larger. Places that hold omega may lose tokens
on the way, so they need enough of them beforehand. `Net.LeadsTo` says what one round needs and does,
and `Net.Approaches.raise` that the places that grow can be raised to omega.
-/

namespace Coverability

section Arithmetic

variable {a x m n : ℕ∞} {need taken put size j k : ℕ}

private lemma le_of_round (h : n + a = m + x) (ha : a ≠ ⊤) (ham : a ≤ m) : x ≤ n := by
  rw [← ENat.add_le_add_iff_left ha]
  calc
    a + x ≤ m + x := by gcongr
    _ = a + n := by rw [← h, add_comm]

private lemma round_fire (h : n + a = m + x) (hx : (taken : ℕ∞) ≤ x) (hn : (taken : ℕ∞) ≤ n) :
    n - taken + put + a = m + (x - taken + put) := by
  have hc := ENat.addLECancellable_natCast taken
  calc
    n - taken + put + a = n - taken + a + put := add_right_comm _ _ _
    _ = m + x - taken + put := by rw [hc.tsub_add_eq_add_tsub hn, h]
    _ = m + (x - taken + put) := by rw [hc.add_tsub_assoc_of_le hx, add_assoc]

private lemma le_of_spare (h : ((k + size : ℕ) : ℕ∞) ≤ n) (ht : taken < size) : (taken : ℕ∞) ≤ n := by
  enat_to_nat; omega

private lemma le_fire_of_spare (h : ((k + size : ℕ) : ℕ∞) ≤ n) (ht : taken < size) :
    (k : ℕ∞) ≤ n - taken + put := by
  enat_to_nat; omega

private lemma spare_of_round (h : m ≤ n + need) (hm : ((k + need : ℕ) : ℕ∞) ≤ m) : (k : ℕ∞) ≤ n := by
  enat_to_nat; omega

private lemma loss_fire (h : m ≤ n + need) (hn : (taken : ℕ∞) ≤ n) (ht : taken < size) :
    m ≤ n - taken + put + (need + size : ℕ) := by
  enat_to_nat; omega

private lemma loss_of_round (h : n + a = m + x) (ha : a < size) : m ≤ n + (need + size : ℕ) :=
  calc
    m ≤ m + x := le_self_add
    _ = n + a := h.symm
    _ ≤ n + (need + size : ℕ) := by
      gcongr
      exact ha.le.trans (Nat.cast_le.mpr (Nat.le_add_left size need))

private lemma grow_of_round (h : n + a = m + x) (hax : a < x) (hm : (j : ℕ∞) ≤ m) :
    ((j + 1 : ℕ) : ℕ∞) ≤ n := by
  have ha : a ≠ ⊤ := ne_top_of_lt hax
  rw [← ENat.add_le_add_iff_right ha, h, Nat.cast_add, Nat.cast_one, add_assoc, add_comm 1 a]
  exact add_le_add hm (Order.add_one_le_of_lt hax)

end Arithmetic

/-- The marking `N` agrees with `x` at its finite places, and holds at least `k` tokens at the others. -/
def Approximates (k : ℕ) (x N : ExactMarking) : Prop :=
  ∀ p, (x p ≠ ⊤ → N p = x p) ∧ (x p = ⊤ → (k : ℕ∞) ≤ N p)

/-- The marking `M` has the tokens of `a` at the finite places of `x`, and `need` at the others. -/
def Suffices (need : ℕ) (a x M : ExactMarking) : Prop :=
  ∀ p, (x p ≠ ⊤ → a p ≤ M p) ∧ (x p = ⊤ → (need : ℕ∞) ≤ M p)

/-- Between `M` and `N` the finite places of `x` change as they do between `a` and `x`, and the others
lose at most `need` tokens. -/
def Round (need : ℕ) (a x M N : ExactMarking) : Prop :=
  ∀ p, (x p ≠ ⊤ → N p + a p = M p + x p) ∧ (x p = ⊤ → M p ≤ N p + need)

namespace Net

variable {net : Net} {t : ℕ} {a M x y : ExactMarking}

/-- From `M`, markings are reached that approximate `x` as well as wanted. -/
def Approaches (net : Net) (M x : ExactMarking) : Prop :=
  ∀ k : ℕ, ∃ N, net.Reachable M N ∧ Approximates k x N

/-- A way leads from `a` to `x` that can be gone from every marking that suffices for it. -/
structure LeadsTo (net : Net) (a x : ExactMarking) : Prop where
  omega : ∀ p, a p = ⊤ → x p = ⊤
  way : ∃ need, ∀ M, Suffices need a x M → ∃ N, net.Reachable M N ∧ Round need a x M N

lemma approaches_refl (M : ExactMarking) : net.Approaches M M :=
  fun _ => ⟨M, Relation.ReflTransGen.refl, fun _ => ⟨fun _ => rfl, fun hp => hp ▸ le_top⟩⟩

lemma leadsTo_refl (x : ExactMarking) : net.LeadsTo x x := by
  refine ⟨fun _ h => h, 0, fun M _ => ⟨M, Relation.ReflTransGen.refl, fun p => ⟨fun _ => rfl, ?_⟩⟩⟩
  intro _
  simp

lemma Fires.eq_top_iff (h : net.Fires t x y) (p : ℕ) : y p = ⊤ ↔ x p = ⊤ := by
  obtain ⟨taken, put, -, -, hy, -⟩ := h.exists_weights
  rw [hy]
  simp

lemma Approaches.fire (h : net.Approaches M x) (hf : net.Fires t x y) : net.Approaches M y := by
  intro k
  obtain ⟨taken, put, hsize, hle, hy, hfire⟩ := hf.exists_weights
  obtain ⟨N, hN, hx⟩ := h (k + UInt32.size)
  have htaken : ∀ p, (taken p : ℕ∞) ≤ N p := by
    intro p
    by_cases hp : x p = ⊤
    · exact le_of_spare ((hx p).2 hp) (hsize p)
    · rw [(hx p).1 hp]
      exact hle p
  refine ⟨_, hN.tail ⟨t, hfire N htaken⟩, fun p => ?_⟩
  rw [ne_eq, hf.eq_top_iff p]
  refine ⟨fun hp => ?_, fun hp => ?_⟩
  · rw [(hx p).1 hp, hy]
  · exact le_fire_of_spare ((hx p).2 hp) (hsize p)

lemma LeadsTo.fire (h : net.LeadsTo a x) (hf : net.Fires t x y) : net.LeadsTo a y := by
  obtain ⟨taken, put, hsize, hle, hy, hfire⟩ := hf.exists_weights
  obtain ⟨need, hway⟩ := h.way
  -- one more transition takes fewer than `UInt32.size` tokens from a place that holds omega
  refine ⟨fun p hp => (hf.eq_top_iff p).mpr (h.omega p hp), need + UInt32.size, fun M hM => ?_⟩
  have hM' : ∀ p, (x p ≠ ⊤ → a p ≤ M p) ∧ (x p = ⊤ → ((UInt32.size + need : ℕ) : ℕ∞) ≤ M p) := by
    intro p
    rw [add_comm, ne_eq, ← hf.eq_top_iff p]
    exact hM p
  obtain ⟨N, hN, hround⟩ := hway M fun p => ⟨(hM' p).1, fun hp =>
    (Nat.cast_le.mpr (Nat.le_add_left need UInt32.size)).trans ((hM' p).2 hp)⟩
  have htaken : ∀ p, (taken p : ℕ∞) ≤ N p := by
    intro p
    by_cases hp : x p = ⊤
    · exact (Nat.cast_le.mpr (hsize p).le).trans (spare_of_round ((hround p).2 hp) ((hM' p).2 hp))
    · exact (hle p).trans (le_of_round ((hround p).1 hp) (mt (h.omega p) hp) ((hM' p).1 hp))
  refine ⟨_, hN.tail ⟨t, hfire N htaken⟩, fun p => ?_⟩
  rw [ne_eq, hf.eq_top_iff p]
  refine ⟨fun hp => ?_, fun hp => ?_⟩
  · rw [hy]
    exact round_fire ((hround p).1 hp) (hle p) (htaken p)
  · exact loss_fire ((hround p).2 hp) (htaken p) (hsize p)

/-- A way stays one if places at its end are raised to omega. -/
lemma LeadsTo.raisedTo {a : Marking} (h : net.LeadsTo a.exact x) (hy : RaisedTo x y) :
    net.LeadsTo a.exact y := by
  have htop : ∀ p, x p = ⊤ → y p = ⊤ := fun p hp => (hy p).elim (fun he => he.trans hp) id
  have hsize : ∀ p, x p ≠ ⊤ → a.exact p < UInt32.size := fun p hp =>
    Marking.exact_lt_size (mt (h.omega p) hp)
  obtain ⟨need, hway⟩ := h.way
  refine ⟨fun p hp => htop p (h.omega p hp), need + UInt32.size, fun M hM => ?_⟩
  have hM' : Suffices need a.exact x M := by
    refine fun p => ⟨fun hp => ?_, fun hp => ?_⟩
    · by_cases hyp : y p = ⊤
      · refine (hsize p hp).le.trans (le_trans ?_ ((hM p).2 hyp))
        exact Nat.cast_le.mpr (Nat.le_add_left UInt32.size need)
      · exact (hM p).1 hyp
    · exact (Nat.cast_le.mpr (Nat.le_add_right need UInt32.size)).trans ((hM p).2 (htop p hp))
  obtain ⟨N, hN, hround⟩ := hway M hM'
  refine ⟨N, hN, fun p => ⟨fun hp => ?_, fun hp => ?_⟩⟩
  · have he : y p = x p := (hy p).resolve_right hp
    rw [he]
    exact (hround p).1 (he ▸ hp)
  · by_cases hx : x p = ⊤
    · refine ((hround p).2 hx).trans ?_
      gcongr
      exact Nat.le_add_right need UInt32.size
    · exact loss_of_round ((hround p).1 hx) (hsize p hx)

/-- Going a way `j` times leaves at least `j` tokens at the places that grow, and the other finite places
as they are. How many tokens the places with omega keep depends on how many they have at the start. -/
lemma LeadsTo.repeat (h : net.LeadsTo a x) (hle : a ≤ x) (j k : ℕ) :
    ∃ spare, ∀ M, Approximates spare x M → ∃ N, net.Reachable M N ∧
      ∀ p, (x p ≠ ⊤ → x p ≤ N p ∧ (a p = x p → N p = x p) ∧ (a p < x p → (j : ℕ∞) ≤ N p)) ∧
        (x p = ⊤ → (k : ℕ∞) ≤ N p) := by
  obtain ⟨need, hway⟩ := h.way
  -- each round takes `need` tokens from the omega places, so the rounds before it have to leave more
  induction j generalizing k with
  | zero =>
    refine ⟨k, fun M hM => ⟨M, Relation.ReflTransGen.refl, fun p => ⟨fun hp => ?_, (hM p).2⟩⟩⟩
    have he := (hM p).1 hp
    exact ⟨he.ge, fun _ => he, fun _ => by simp⟩
  | succ j ih =>
    obtain ⟨spare, hspare⟩ := ih (k + need)
    refine ⟨spare, fun M hM => ?_⟩
    obtain ⟨N, hN, hrounds⟩ := hspare M hM
    obtain ⟨K, hK, hround⟩ := hway N fun p => ⟨fun hp => (hle p).trans ((hrounds p).1 hp).1, fun hp =>
      (Nat.cast_le.mpr (Nat.le_add_left need k)).trans ((hrounds p).2 hp)⟩
    refine ⟨K, hN.trans hK, fun p => ⟨fun hp => ?_, fun hp => ?_⟩⟩
    · obtain ⟨hxN, heq, hgrow⟩ := (hrounds p).1 hp
      have hstep := (hround p).1 hp
      have ha : a p ≠ ⊤ := mt (h.omega p) hp
      refine ⟨le_of_round hstep ha ((hle p).trans hxN), fun he => ?_, fun hlt => ?_⟩
      · rw [heq he, he] at hstep
        exact ENat.add_left_injective_of_ne_top hp hstep
      · exact grow_of_round hstep hlt (hgrow hlt)
    · exact spare_of_round ((hround p).2 hp) ((hrounds p).2 hp)

/-- If a way leads to `x` from a marking that `x` covers, the places that grow on it can be raised to
omega. -/
theorem Approaches.raise (h : net.Approaches M x) (hw : net.LeadsTo a x) (hle : a ≤ x) :
    net.Approaches M (raisedOver a x) := by
  intro k
  obtain ⟨spare, hspare⟩ := hw.repeat hle k k
  obtain ⟨N, hN, hx⟩ := h spare
  obtain ⟨K, hK, hrounds⟩ := hspare N hx
  refine ⟨K, hN.trans hK, fun p => ?_⟩
  unfold raisedOver
  split
  · next hlt =>
    refine ⟨fun hne => absurd rfl hne, fun _ => ?_⟩
    by_cases hp : x p = ⊤
    · exact (hrounds p).2 hp
    · exact ((hrounds p).1 hp).2.2 hlt
  · next hlt =>
    refine ⟨fun hp => ?_, (hrounds p).2⟩
    exact ((hrounds p).1 hp).2.1 (le_antisymm (hle p) (not_lt.mp hlt))

end Net

end Coverability
