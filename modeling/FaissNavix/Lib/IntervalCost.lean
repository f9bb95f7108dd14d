import FaissNavix.Lib.TotallyMonotone
import Mathlib.Tactic.Linarith

/-!
# Cutting a row of points into intervals

Each interval of points has a cost.  `minCost w k p` is the least cost of the first `p` points when they
are cut into `k + 1` intervals, some of which may be empty.

If the costs satisfy the quadrangle inequality, then the matrix of the costs with the last cut at `i` is
totally monotone (`IntervalCost.totallyMonotone`), also when it is continued to the cuts that are beyond
the last point.
-/

namespace Lib

variable {R : Type*} [CommRing R] [LinearOrder R] [IsStrictOrderedRing R] {w : ℕ → ℕ → R} {n : ℕ}

/-- `w i p` is the cost of the points from `i` on and before `p`, where there are `n` points. -/
structure IntervalCost (w : ℕ → ℕ → R) (n : ℕ) : Prop where
  nonneg : ∀ i p, 0 ≤ w i p
  empty : ∀ i p, p ≤ i → w i p = 0
  single : ∀ i, w i (i + 1) = 0
  add_le : ∀ i j p, i ≤ j → j ≤ p → w i j + w j p ≤ w i p
  quadrangle : ∀ i j p q, i ≤ j → j ≤ p → p ≤ q → q ≤ n → w i p + w j q ≤ w i q + w j p

/-- The least cost of the first `p` points in `k + 1` intervals. -/
def minCost (w : ℕ → ℕ → R) : ℕ → ℕ → R
  | 0, p => w 0 p
  | k + 1, p => (Finset.range (p + 1)).inf' ⟨0, Finset.mem_range.mpr p.succ_pos⟩ fun i ↦
      minCost w k i + w i p

/-- The cost of the first `p` points in `k + 2` intervals, the last of which begins at `i`. -/
def cutCost (w : ℕ → ℕ → R) (k p i : ℕ) : R := minCost w k (min p i) + w i p

omit [IsStrictOrderedRing R] in
theorem minCost_succ_le (w : ℕ → ℕ → R) (k : ℕ) {i p : ℕ} (hi : i ≤ p) :
    minCost w (k + 1) p ≤ minCost w k i + w i p :=
  Finset.inf'_le _ (Finset.mem_range.mpr (Nat.lt_succ_of_le hi))

omit [IsStrictOrderedRing R] in
theorem exists_minCost_succ (w : ℕ → ℕ → R) (k p : ℕ) :
    ∃ i ≤ p, minCost w (k + 1) p = minCost w k i + w i p := by
  obtain ⟨i, hi, heq⟩ := Finset.exists_mem_eq_inf' (s := Finset.range (p + 1))
    ⟨0, Finset.mem_range.mpr p.succ_pos⟩ fun i ↦ minCost w k i + w i p
  exact ⟨i, Nat.le_of_lt_succ (Finset.mem_range.mp hi), heq⟩

namespace IntervalCost

theorem mono_right (h : IntervalCost w n) (i : ℕ) {p q : ℕ} (hpq : p ≤ q) : w i p ≤ w i q := by
  rcases Nat.lt_or_ge p i with hi | hi
  · rw [h.empty i p hi.le]
    exact h.nonneg i q
  · have hadd := h.add_le i p q hi hpq
    have hpos := h.nonneg p q
    linarith

omit [IsStrictOrderedRing R] in
theorem minCost_zero_right (h : IntervalCost w n) (k : ℕ) : minCost w k 0 = 0 := by
  induction k with
  | zero => exact h.empty 0 0 le_rfl
  | succ k ih =>
      obtain ⟨i, hi, heq⟩ := exists_minCost_succ w k 0
      obtain rfl := Nat.le_zero.mp hi
      rw [heq, ih, h.empty 0 0 le_rfl, add_zero]

theorem minCost_nonneg (h : IntervalCost w n) (k p : ℕ) : 0 ≤ minCost w k p := by
  induction k generalizing p with
  | zero => exact h.nonneg 0 p
  | succ k ih =>
      obtain ⟨i, -, heq⟩ := exists_minCost_succ w k p
      rw [heq]
      exact add_nonneg (ih i) (h.nonneg i p)

omit [IsStrictOrderedRing R] in
theorem minCost_succ_le_self (h : IntervalCost w n) (k p : ℕ) : minCost w (k + 1) p ≤ minCost w k p :=
  (minCost_succ_le w k le_rfl).trans_eq (by rw [h.empty p p le_rfl, add_zero])

/-- More points cost more. -/
theorem minCost_mono (h : IntervalCost w n) (k : ℕ) {p q : ℕ} (hpq : p ≤ q) :
    minCost w k p ≤ minCost w k q := by
  induction k generalizing p q with
  | zero => exact h.mono_right 0 hpq
  | succ k ih =>
      obtain ⟨i, hi, heq⟩ := exists_minCost_succ w k q
      rw [heq]
      rcases Nat.lt_or_ge p i with hip | hip
      · have hself := h.minCost_succ_le_self k p
        have hle := ih hip.le
        have hpos := h.nonneg i q
        linarith
      · have hcut := minCost_succ_le w k hip
        have hle := h.mono_right i hpq
        linarith

/-- If another cut than the one at `i` is better for the first `p` points, then so it is for more
points. -/
theorem minCost_lt_of_le (h : IntervalCost w n) {k i p q : ℕ} (hip : i ≤ p) (hpq : p ≤ q) (hq : q ≤ n)
    (hlt : minCost w k p < minCost w k i + w i p) : minCost w k q < minCost w k i + w i q := by
  cases k with
  | zero =>
      have hadd := h.add_le 0 i p (Nat.zero_le i) hip
      exact absurd hadd (not_le.mpr hlt)
  | succ k =>
      obtain ⟨j, hj, heq⟩ := exists_minCost_succ w k p
      rw [heq] at hlt
      rcases Nat.lt_or_ge j i with hji | hij
      · have hcut := minCost_succ_le w k hji.le
        have hadd := h.add_le j i p hji.le hip
        linarith
      · have hcut := minCost_succ_le w k (hj.trans hpq)
        have hquad := h.quadrangle i j p q hij hj hpq hq
        linarith

/-- The matrix of the last cuts is totally monotone. -/
theorem totallyMonotone (h : IntervalCost w n) (k : ℕ) (cols : ℕ → Prop) :
    TotallyMonotone (fun r ↦ cutCost w k (r + 1)) (· < n) cols := by
  intro r r' i j _ hr' _ _ hrr' hij hlt
  have hpq : r + 1 ≤ r' + 1 := by omega
  have hq : r' + 1 ≤ n := hr'
  change minCost w k (min (r + 1) j) + w j (r + 1) < minCost w k (min (r + 1) i) + w i (r + 1) at hlt
  change minCost w k (min (r' + 1) j) + w j (r' + 1) < minCost w k (min (r' + 1) i) + w i (r' + 1)
  generalize r + 1 = p at hlt hpq
  generalize r' + 1 = q at hpq hq ⊢
  rcases Nat.lt_or_ge p i with hpi | hip
  · -- both cuts are beyond the point of the first row
    rw [min_eq_left hpi.le, min_eq_left (hpi.trans hij).le, h.empty i p hpi.le,
      h.empty j p (hpi.trans hij).le] at hlt
    exact absurd hlt (lt_irrefl _)
  rw [min_eq_right hip] at hlt
  rw [min_eq_right (hip.trans hpq)]
  rcases Nat.lt_or_ge p j with hpj | hjp
  · rw [min_eq_left hpj.le, h.empty j p hpj.le, add_zero] at hlt
    rcases Nat.lt_or_ge q j with hqj | hjq
    · rw [min_eq_left hqj.le, h.empty j q hqj.le, add_zero]
      exact h.minCost_lt_of_le hip hpq hq hlt
    · rw [min_eq_right hjq]
      have hj := h.minCost_lt_of_le hip hpj.le (hjq.trans hq) hlt
      have hadd := h.add_le i j q hij.le hjq
      linarith
  · rw [min_eq_right hjp] at hlt
    rw [min_eq_right (hjp.trans hpq)]
    have hquad := h.quadrangle i j p q hij.le hjp hpq hq
    linarith

/-- The first best last cut is before the last point, and its cost is the least one. -/
theorem firstMin_cutCost (h : IntervalCost w n) {k p m : ℕ} (hp : 0 < p) (hpn : p ≤ n)
    (hm : FirstMin (cutCost w k p) (List.range n) m) :
    m < p ∧ cutCost w k p m = minCost w k m + w m p ∧ cutCost w k p m = minCost w (k + 1) p := by
  have hpred : cutCost w k p (p - 1) ≤ minCost w k p := by
    have hsingle := h.single (p - 1)
    rw [Nat.sub_add_cancel hp] at hsingle
    rw [cutCost, min_eq_right (Nat.sub_le p 1), hsingle, add_zero]
    exact h.minCost_mono k (Nat.sub_le p 1)
  have hpredmem : p - 1 ∈ List.range n := List.mem_range.mpr (by omega)
  have hbeyond : ∀ i, p ≤ i → cutCost w k p i = minCost w k p := by
    intro i hi
    rw [cutCost, min_eq_left hi, h.empty i p hi, add_zero]
  have hlt : m < p := by
    by_contra hle
    have hle := Nat.le_of_not_lt hle
    have hfirst := hm.lt (p - 1) hpredmem (by omega)
    rw [hbeyond m hle] at hfirst
    exact absurd hpred (not_le.mpr hfirst)
  have hself : cutCost w k p m = minCost w k m + w m p := by rw [cutCost, min_eq_right hlt.le]
  refine ⟨hlt, hself, le_antisymm ?_ ?_⟩
  · obtain ⟨i, hi, heq⟩ := exists_minCost_succ w k p
    rcases hi.lt_or_eq with hip | rfl
    · have hle := hm.le i (List.mem_range.mpr (by omega))
      rwa [cutCost.eq_1 w k p i, min_eq_right hi, ← heq] at hle
    · rw [heq, h.empty i i le_rfl, add_zero]
      exact (hm.le _ hpredmem).trans hpred
  · rw [hself]
    exact minCost_succ_le w k hlt.le

end IntervalCost

end Lib
