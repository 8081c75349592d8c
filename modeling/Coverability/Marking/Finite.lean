import Coverability.Marking

/-!
# There are finitely many markings

A marking of `d` places is a numeral of `d` digits in base `2 ^ 32 + 1`, so a list of distinct markings
of `d` places has at most `(2 ^ 32 + 1) ^ d` members.
-/

namespace Coverability

theorem length_le_of_nodup_of_lt {l : List Nat} {n : Nat} (hd : l.Nodup) (hl : ∀ a ∈ l, a < n) :
    l.length ≤ n := by
  induction n generalizing l with
  | zero =>
    cases l with
    | nil => simp
    | cons a l => exact absurd (hl a List.mem_cons_self) (Nat.not_lt_zero a)
  | succ n ih =>
    have h : (l.erase n).length ≤ n := by
      apply ih (hd.erase n)
      intro a ha
      obtain ⟨hne, hmem⟩ := hd.mem_erase_iff.1 ha
      have := hl a hmem
      omega
    rw [List.length_erase] at h
    split at h <;> omega

/-- The digit of a count in base `2 ^ 32 + 1`. -/
def TokenCount.digit : TokenCount → Nat
  | finite n => n.toNat
  | infinite => UInt32.size

theorem TokenCount.digit_lt (count : TokenCount) : count.digit < UInt32.size + 1 := by
  cases count with
  | finite n =>
    have := n.toNat_lt_size
    simp only [digit]
    omega
  | infinite => simp [digit]

theorem TokenCount.digit_inj {a b : TokenCount} (h : a.digit = b.digit) : a = b := by
  cases a with
  | finite m =>
    have hm := m.toNat_lt_size
    cases b with
    | finite n => rw [UInt32.toNat_inj.1 h]
    | infinite =>
      simp only [digit] at h
      omega
  | infinite =>
    cases b with
    | finite n =>
      have hn := n.toNat_lt_size
      simp only [digit] at h
      omega
    | infinite => rfl

/-- The number whose digits in base `2 ^ 32 + 1` are the counts, the first one lowest. -/
def countsCode : List TokenCount → Nat
  | [] => 0
  | count :: counts => count.digit + (UInt32.size + 1) * countsCode counts

theorem countsCode_lt (counts : List TokenCount) :
    countsCode counts < Nat.pow (UInt32.size + 1) counts.length := by
  induction counts with
  | nil => simp [countsCode]
  | cons count counts ih =>
    have hd := count.digit_lt
    have hm : (UInt32.size + 1) * (countsCode counts + 1) ≤
        (UInt32.size + 1) * Nat.pow (UInt32.size + 1) counts.length := Nat.mul_le_mul_left _ ih
    have hpow : Nat.pow (UInt32.size + 1) (counts.length + 1) =
        (UInt32.size + 1) * Nat.pow (UInt32.size + 1) counts.length := Nat.pow_succ'
    rw [countsCode, List.length_cons, hpow]
    rw [Nat.mul_add] at hm
    omega

theorem countsCode_inj {a b : List TokenCount} (hl : a.length = b.length)
    (h : countsCode a = countsCode b) : a = b := by
  induction a generalizing b with
  | nil =>
    cases b with
    | nil => rfl
    | cons y ys => simp at hl
  | cons x xs ih =>
    cases b with
    | nil => simp at hl
    | cons y ys =>
      have hx := x.digit_lt
      have hy := y.digit_lt
      simp only [countsCode] at h
      have hmod := congrArg (· % (UInt32.size + 1)) h
      have hdiv := congrArg (· / (UInt32.size + 1)) h
      simp only [Nat.add_mul_mod_self_left, Nat.mod_eq_of_lt hx, Nat.mod_eq_of_lt hy] at hmod
      simp only [Nat.add_mul_div_left _ _ (Nat.succ_pos UInt32.size), Nat.div_eq_of_lt hx,
        Nat.div_eq_of_lt hy, Nat.zero_add] at hdiv
      rw [TokenCount.digit_inj hmod, ih (by simpa using hl) hdiv]

def markingCount (dimension : Nat) : Nat :=
  Nat.pow (UInt32.size + 1) dimension

/-- Distinct markings of one dimension are at most as many as there are such markings. -/
theorem length_le_markingCount {ms : List Marking} {d : Nat} (hd : ms.Nodup)
    (hl : ∀ m ∈ ms, m.dimension = d) : ms.length ≤ markingCount d := by
  have hc : (ms.map fun m => countsCode m.counts).Nodup := by
    rw [List.nodup_iff_pairwise_ne, List.pairwise_map]
    rw [List.nodup_iff_pairwise_ne] at hd
    apply hd.imp_of_mem
    intro a b ha hb hne h
    apply hne
    have hlen : a.counts.length = b.counts.length := (hl a ha).trans (hl b hb).symm
    cases a
    cases b
    exact congrArg Marking.mk (countsCode_inj hlen h)
  have hlt : ∀ c ∈ ms.map (fun m => countsCode m.counts), c < markingCount d := by
    intro c hc
    obtain ⟨m, hm, rfl⟩ := List.mem_map.1 hc
    have h := countsCode_lt m.counts
    rw [show m.counts.length = d from hl m hm] at h
    exact h
  simpa using length_le_of_nodup_of_lt hc hlt

end Coverability
