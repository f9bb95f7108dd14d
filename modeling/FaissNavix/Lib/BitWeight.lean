import Mathlib.Data.Nat.Factorization.Basic
import Mathlib.Tactic.Ring

/-!
# Weights of numbers in binary

`weight w x` is the number of ones among the first `w` bits of `x`.  Among the numbers of one weight,
the smallest has its ones at the bottom, the largest at the top, and the one before a number is found
by moving down the last one that can be moved, with all ones below it close behind.
-/

namespace Lib

variable {a b n m w x y h r : ℕ}

/-- The number of ones among the first `w` bits. -/
def weight (w x : ℕ) : ℕ :=
  (List.range w).countP x.testBit

@[simp] theorem weight_zero_right (w : ℕ) : weight w 0 = 0 := by
  refine List.countP_eq_zero.mpr fun i _ ↦ ?_
  simp

theorem weight_succ (w x : ℕ) : weight (w + 1) x = x % 2 + weight w (x / 2) := by
  unfold weight
  rw [List.range_succ_eq_map, List.countP_cons, List.countP_map, Nat.add_comm]
  congr 1
  · rw [Nat.testBit_zero]
    rcases Nat.mod_two_eq_zero_or_one x with hx | hx
    · simp [hx]
    · simp [hx]
  · refine List.countP_congr fun i _ ↦ ?_
    simp only [Function.comp_apply, Nat.succ_eq_add_one, Nat.testBit_succ]

theorem weight_le (w x : ℕ) : weight w x ≤ w := by
  unfold weight
  exact List.countP_le_length.trans (List.length_range (n := w)).le

theorem weight_mul_add (hr : r < 2 ^ a) (b h : ℕ) :
    weight (a + b) (2 ^ a * h + r) = weight a r + weight b h := by
  unfold weight
  rw [List.range_add, List.countP_append, List.countP_map]
  congr 1
  · refine List.countP_congr fun i hi ↦ ?_
    rw [Nat.testBit_two_pow_mul_add _ hr, if_pos (List.mem_range.mp hi)]
  · refine List.countP_congr fun i _ ↦ ?_
    rw [Function.comp_apply, Nat.testBit_two_pow_mul_add _ hr, if_neg (Nat.not_lt.mpr (Nat.le_add_right a i)),
      Nat.add_sub_cancel_left]

theorem weight_of_lt (hr : r < 2 ^ a) (b : ℕ) : weight (a + b) r = weight a r := by
  have hsplit := weight_mul_add hr b 0
  rwa [Nat.mul_zero, Nat.zero_add, weight_zero_right, Nat.add_zero] at hsplit

theorem weight_ones (w : ℕ) : weight w (2 ^ w - 1) = w := by
  have hall : (List.range w).countP (2 ^ w - 1).testBit = (List.range w).length := by
    refine List.countP_eq_length.mpr fun i hi ↦ ?_
    rw [Nat.testBit_two_pow_sub_one]
    exact decide_eq_true (List.mem_range.mp hi)
  rw [weight, hall, List.length_range]

/-! ## The smallest and the largest -/

theorem ones_le (w x : ℕ) : 2 ^ weight w x - 1 ≤ x := by
  induction w generalizing x with
  | zero => exact Nat.zero_le x
  | succ w ih =>
      have hhalf := ih (x / 2)
      rw [weight_succ]
      rcases Nat.mod_two_eq_zero_or_one x with hx | hx
      · rw [hx, Nat.zero_add]
        omega
      · rw [hx, Nat.add_comm, Nat.pow_succ]
        omega

/-- The largest number of a weight. -/
theorem le_ones_shifted (hx : x < 2 ^ n) :
    x ≤ (2 ^ weight n x - 1) * 2 ^ (n - weight n x) := by
  induction n generalizing x with
  | zero =>
      rw [Nat.pow_zero] at hx
      omega
  | succ n ih =>
      have hhalf := @ih (x / 2) (by rw [Nat.pow_succ] at hx; omega)
      have hle := weight_le n (x / 2)
      rw [weight_succ]
      generalize weight n (x / 2) = v at hhalf hle ⊢
      rcases Nat.mod_two_eq_zero_or_one x with hx | hx
      · rw [hx, Nat.zero_add, Nat.succ_sub hle, Nat.pow_succ, ← Nat.mul_assoc]
        omega
      · have hpos : 0 < 2 ^ (n - v) := Nat.two_pow_pos _
        have hsplit : (2 ^ (1 + v) - 1) * 2 ^ (n - v) =
            2 * ((2 ^ v - 1) * 2 ^ (n - v)) + 2 ^ (n - v) := by
          have hv := Nat.two_pow_pos v
          obtain ⟨p, hp⟩ : ∃ p, 2 ^ v = p + 1 := ⟨2 ^ v - 1, by omega⟩
          rw [Nat.add_comm, Nat.pow_succ, hp, show (p + 1) * 2 - 1 = 2 * p + 1 by omega,
            Nat.add_sub_cancel]
          ring
        rw [hx, show n + 1 - (1 + v) = n - v by omega, hsplit]
        omega

/-! ## The one before -/

/-- A one above a zero that has `n` ones at the bottom below it, and no others. -/
def gapped (n k : ℕ) : ℕ :=
  2 ^ (n + k + 1) + (2 ^ n - 1)

/-- The same ones, the first of them a bit lower and the others close behind. -/
def moved (n k : ℕ) : ℕ :=
  2 ^ k * (2 ^ (n + 1) - 1)

variable {k : ℕ}

theorem gapped_lt (n k : ℕ) : gapped n k < 2 ^ (n + k + 2) := by
  have hle : 2 ^ n ≤ 2 ^ (n + k + 1) := Nat.pow_le_pow_right (by decide) (by omega)
  have hpos := Nat.two_pow_pos n
  unfold gapped
  rw [Nat.pow_succ 2 (n + k + 1)]
  omega

theorem moved_lt_two_pow (n k : ℕ) : moved n k < 2 ^ (n + k + 1) := by
  have hpos := Nat.two_pow_pos k
  have hlt : 2 ^ (n + 1) - 1 < 2 ^ (n + 1) := Nat.sub_lt (Nat.two_pow_pos _) Nat.one_pos
  unfold moved
  rw [show n + k + 1 = k + (n + 1) by omega, Nat.pow_add 2 k]
  exact Nat.mul_lt_mul_of_pos_left hlt hpos

theorem weight_gapped (n k : ℕ) : weight (n + k + 2) (gapped n k) = n + 1 := by
  have hlt : 2 ^ n - 1 < 2 ^ (n + k + 1) :=
    (Nat.sub_lt (Nat.two_pow_pos n) Nat.one_pos).trans_le (Nat.pow_le_pow_right (by decide) (by omega))
  have hsplit := weight_mul_add hlt 1 1
  rw [Nat.mul_one] at hsplit
  have hlow := weight_of_lt (Nat.sub_lt (Nat.two_pow_pos n) Nat.one_pos) (k + 1)
  rw [weight_ones] at hlow
  rw [gapped, hsplit, show n + k + 1 = n + (k + 1) by omega, hlow]
  rfl

theorem weight_moved (n k : ℕ) : weight (n + k + 2) (moved n k) = n + 1 := by
  have hsplit : weight (k + (n + 1 + 1)) (2 ^ k * (2 ^ (n + 1) - 1)) =
      weight (n + 1 + 1) (2 ^ (n + 1) - 1) := by
    have h := weight_mul_add (Nat.two_pow_pos k) (n + 1 + 1) (2 ^ (n + 1) - 1)
    rwa [weight_zero_right, Nat.zero_add] at h
  have hhigh := weight_of_lt (Nat.sub_lt (Nat.two_pow_pos (n + 1)) Nat.one_pos) 1
  rw [weight_ones] at hhigh
  rw [moved, show n + k + 2 = k + (n + 1 + 1) by omega, hsplit, hhigh]

/-- Of the same weight, only numbers up to the one that is moved are smaller. -/
theorem le_moved (hr : r < gapped n k) (hweight : weight (n + k + 2) r = n + 1) : r ≤ moved n k := by
  by_cases hlow : r < 2 ^ (n + k + 1)
  · have hmax := le_ones_shifted hlow
    have hsame := weight_of_lt hlow 1
    rw [← hsame, hweight, show n + k + 1 - (n + 1) = k by omega, Nat.mul_comm] at hmax
    exact hmax
  · -- below the highest one there would be one place too few
    obtain ⟨s, rfl⟩ := Nat.exists_eq_add_of_le (Nat.not_lt.mp hlow)
    have hs : s < 2 ^ n - 1 := by
      unfold gapped at hr
      omega
    have hlt : s < 2 ^ (n + k + 1) :=
      hs.trans ((Nat.sub_lt (Nat.two_pow_pos n) Nat.one_pos).trans_le
        (Nat.pow_le_pow_right (by decide) (by omega)))
    have hsplit := weight_mul_add hlt 1 1
    rw [Nat.mul_one, hweight] at hsplit
    have hfew := ones_le (n + k + 1) s
    have hn : weight (n + k + 1) s = n := by
      have hone : weight 1 1 = 1 := rfl
      omega
    rw [hn] at hfew
    omega

/-- The one before, with anything above. -/
theorem le_moved_above (hweight : weight b y = weight b (2 ^ (n + k + 2) * h + gapped n k))
    (hb : n + k + 2 ≤ b) (hlt : y < 2 ^ (n + k + 2) * h + gapped n k) :
    y ≤ 2 ^ (n + k + 2) * h + moved n k := by
  obtain ⟨c, rfl⟩ := Nat.exists_eq_add_of_le hb
  rw [weight_mul_add (gapped_lt n k), weight_gapped] at hweight
  have hpos := Nat.two_pow_pos (n + k + 2)
  have hdiv := Nat.div_add_mod y (2 ^ (n + k + 2))
  have hmod := Nat.mod_lt y hpos
  generalize y / 2 ^ (n + k + 2) = q at hdiv
  generalize y % 2 ^ (n + k + 2) = r at hdiv hmod
  subst hdiv
  rw [weight_mul_add hmod] at hweight
  rcases Nat.lt_trichotomy q h with hq | rfl | hq
  · have hstep : 2 ^ (n + k + 2) * (q + 1) ≤ 2 ^ (n + k + 2) * h := Nat.mul_le_mul_left _ hq
    rw [Nat.mul_add, Nat.mul_one] at hstep
    omega
  · exact Nat.add_le_add_left (le_moved (Nat.lt_of_add_lt_add_left hlt) (by omega)) _
  · have hstep : 2 ^ (n + k + 2) * (h + 1) ≤ 2 ^ (n + k + 2) * q := Nat.mul_le_mul_left _ hq
    have hgap := gapped_lt n k
    rw [Nat.mul_add, Nat.mul_one] at hstep
    omega

theorem weight_moved_above (hb : n + k + 2 ≤ b) (h : ℕ) :
    weight b (2 ^ (n + k + 2) * h + moved n k) = weight b (2 ^ (n + k + 2) * h + gapped n k) := by
  obtain ⟨c, rfl⟩ := Nat.exists_eq_add_of_le hb
  have hmoved : moved n k < 2 ^ (n + k + 2) :=
    (moved_lt_two_pow n k).trans (Nat.pow_lt_pow_right (by decide) (Nat.lt_succ_self _))
  rw [weight_mul_add (gapped_lt n k), weight_mul_add hmoved, weight_gapped, weight_moved]

theorem moved_lt_gapped (n k : ℕ) : moved n k < gapped n k :=
  (moved_lt_two_pow n k).trans_le (Nat.le_add_right _ _)

/-- Every number but those with all their ones at the bottom has one that can be moved. -/
theorem eq_ones_or_gapped (x : ℕ) :
    (∃ n, x = 2 ^ n - 1) ∨ ∃ n k h, x = 2 ^ (n + k + 2) * h + gapped n k := by
  induction x using Nat.strong_induction_on with
  | _ x ih =>
      rcases Nat.eq_zero_or_pos x with rfl | hpos
      · exact .inl ⟨0, rfl⟩
      have hhalf := Nat.div_add_mod x 2
      rcases Nat.mod_two_eq_zero_or_one x with hx | hx
      · -- an even number: the lowest one can be moved
        obtain ⟨k, m, hm, hx'⟩ := Nat.exists_eq_two_pow_mul_odd hpos.ne'
        obtain ⟨h, rfl⟩ := hm
        cases k with
        | zero =>
            rw [Nat.pow_zero, Nat.one_mul] at hx'
            omega
        | succ k =>
            refine .inr ⟨0, k, h, ?_⟩
            unfold gapped
            rw [hx', Nat.zero_add, Nat.pow_zero, Nat.sub_self, Nat.add_zero, Nat.pow_succ 2 (k + 1)]
            ring
      · rcases ih (x / 2) (Nat.div_lt_self hpos (by decide)) with ⟨n, hn⟩ | ⟨n, k, h, hn⟩
        · refine .inl ⟨n + 1, ?_⟩
          have := Nat.two_pow_pos n
          rw [Nat.pow_succ]
          omega
        · refine .inr ⟨n + 1, k, h, ?_⟩
          have := Nat.two_pow_pos n
          unfold gapped at hn ⊢
          rw [show n + 1 + k + 2 = n + k + 1 + 1 + 1 by omega, show n + 1 + k + 1 = n + k + 1 + 1 by omega]
          rw [show n + k + 2 = n + k + 1 + 1 by omega] at hn
          simp only [Nat.pow_succ 2 (n + k + 1 + 1), Nat.pow_succ 2 (n + k + 1), Nat.pow_succ 2 n] at hn ⊢
          rw [Nat.mul_right_comm]
          generalize 2 ^ (n + k + 1) * 2 * h = high at hn ⊢
          omega

end Lib
