import Mathlib.Algebra.BigOperators.Ring.Finset
import Mathlib.Algebra.Order.BigOperators.Group.Finset
import Mathlib.Algebra.Order.Round

/-!
# Sums of roundings

Numbers that are rounded to integers before they are added, in a register that wraps around.
-/

namespace Lib

variable {K : Type*} [Field K] [LinearOrder K] [IsStrictOrderedRing K] [FloorRing K] {x c : K}

theorem round_nonneg (h : 0 ≤ x) : 0 ≤ round x := by
  rw [round_eq]
  exact Int.floor_nonneg.mpr (add_nonneg h one_half_pos.le)

theorem round_le_of_le {n : ℤ} (h : x ≤ n) : round x ≤ n := by
  rw [round_eq, ← Int.lt_add_one_iff, Int.floor_lt]
  push_cast
  linarith [(one_half_lt_one : (1 / 2 : K) < 1)]

theorem abs_sum_round_sub_le {ι : Type*} (s : Finset ι) (f : ι → K) :
    |((∑ i ∈ s, round (f i) : ℤ) : K) - ∑ i ∈ s, f i| ≤ s.card / 2 := by
  rw [Int.cast_sum, ← Finset.sum_sub_distrib]
  refine (Finset.abs_sum_le_sum_abs _ _).trans ((Finset.sum_le_card_nsmul s _ (1 / 2) fun i _ ↦ ?_).trans_eq ?_)
  · rw [abs_sub_comm]
    exact abs_sub_round (f i)
  · rw [nsmul_eq_mul, mul_one_div]

/-- What a register of `q` values loses is a multiple of `q`, which only a large tolerance hides. -/
theorem abs_emod_sub_le_iff {q R : ℤ} (hq : 0 < q) (hR : 0 ≤ R) (h : |(R : K) - x| ≤ c) :
    |((R % q : ℤ) : K) - x| ≤ c ↔
      R < q ∨ (q : K) ≤ 2 * c ∧ ((q * (R / q) : ℤ) : K) ≤ R - x + c := by
  by_cases hlt : R < q
  · rw [Int.emod_eq_of_lt hR hlt]
    exact ⟨fun _ ↦ Or.inl hlt, fun _ ↦ h⟩
  have hturns : (q : K) ≤ ((q * (R / q) : ℤ) : K) := by
    have hpos := (Int.le_ediv_iff_mul_le hq).mpr ((one_mul q).trans_le (not_lt.mp hlt))
    exact_mod_cast le_mul_of_one_le_right hq.le hpos
  obtain ⟨hlow, hhigh⟩ := abs_le.mp h
  rw [Int.emod_def, Int.cast_sub, abs_le, or_iff_right hlt]
  have hqpos : (0 : K) < q := Int.cast_pos.mpr hq
  constructor
  · rintro ⟨hkept, -⟩
    constructor <;> linarith
  · rintro ⟨-, hkept⟩
    constructor <;> linarith

end Lib
