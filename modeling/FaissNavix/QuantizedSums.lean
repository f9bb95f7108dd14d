import FaissNavix.QuantizeLUT
import Mathlib.Data.Rat.Floor

/-!
# Sums of quantized numbers

How far the 16-bit sums are from the distances: the roundings alone keep them close, but the biases of
3D tables may be further apart than the scale allows for, and the roundings may add up to more than
16 bits hold.
-/

namespace FaissNavix.LUTAndBias

variable {K : Type} {x : LUTAndBias K} {q : QuantizedLUT K} {j : ℕ} {code : ℕ → ℕ}

/-- The sum of the kernels is the one of the numbers, as far as 16 bits hold it. -/
theorem sum16_toNat (hbias : 0 ≤ x.biasq q j ∧ x.biasq q j < 65536)
    (hentry : ∀ i < x.M, 0 ≤ x.entryq q j i (code i) ∧ x.entryq q j i (code i) < 256) :
    ((x.sum16 q j code).toNat : ℤ) =
      (x.biasq q j + ∑ i ∈ Finset.range x.M, x.entryq q j i (code i)) % 65536 := by
  have h16 : ∀ v : ℤ, 0 ≤ v → v < 65536 → ((UInt16.ofInt v).toNat : ℤ) = v := fun v h0 hlt ↦ by
    rw [UInt16.ofInt, Int.emod_eq_of_lt h0 (by omega),
      UInt16.toNat_ofNat_of_lt' (by change v.toNat < 65536; omega), Int.toNat_of_nonneg h0]
  have h8 : ∀ v : ℤ, 0 ≤ v → v < 256 → ((UInt8.ofInt v).toUInt16.toNat : ℤ) = v := fun v h0 hlt ↦ by
    rw [UInt8.toNat_toUInt16, UInt8.ofInt, Int.emod_eq_of_lt h0 (by omega),
      UInt8.toNat_ofNat_of_lt' (by change v.toNat < 256; omega), Int.toNat_of_nonneg h0]
  unfold sum16
  generalize x.M = M at hentry ⊢
  induction M with
  | zero =>
      rw [Finset.range_zero, Finset.sum_empty, add_zero, Int.emod_eq_of_lt hbias.1 hbias.2]
      exact h16 _ hbias.1 hbias.2
  | succ M ih =>
      obtain ⟨h0, hlt⟩ := hentry M (Nat.lt_succ_self M)
      rw [List.range_succ, List.foldl_append, List.foldl_cons, List.foldl_nil, UInt16.toNat_add,
        Finset.sum_range_succ, ← add_assoc]
      push_cast
      rw [ih fun i hi ↦ hentry i (Nat.lt_succ_of_lt hi), h8 _ h0 hlt]
      exact Int.emod_add_emod _ _ _

variable [Field K] [LinearOrder K] [FloorRing K] [IsStrictOrderedRing K]

theorem abs_rounded_sub_scaled_le (x : LUTAndBias K) (a : K) (j : ℕ) (code : ℕ → ℕ) :
    |(x.rounded a j code : K) - x.scaled a j code| ≤ ((x.M + 1 : ℕ) : K) / ((2 : ℕ) : K) := by
  have hrows := Lib.abs_sum_round_sub_le (Finset.range x.M)
    fun i ↦ (x.entry j i (code i) - x.low j i) * a
  have hoffset := abs_sub_round (x.offset j * a)
  rw [Finset.card_range] at hrows
  rw [rounded, scaled, abs_le]
  rw [abs_le] at hrows hoffset
  push_cast at hrows ⊢
  constructor <;> linarith

theorem Computes.entry_fits (h : x.Computes q) (hj : j < x.tables) {i c : ℕ} (hi : i < x.M)
    (hc : c < x.ksub) : 0 ≤ x.entryq q j i c ∧ x.entryq q j i c < 256 := by
  rw [h.entry_eq j hj i hi c hc]
  refine ⟨Lib.round_nonneg (mul_nonneg (sub_nonneg.mpr (rowMin_le hc)) h.nonneg),
    Int.lt_add_one_iff.mpr (Lib.round_le_of_le (n := 255) ?_)⟩
  refine (mul_le_mul_of_nonneg_right (sub_rowMin_le hc) h.nonneg).trans ((mul_comm _ _).trans_le ?_)
  exact (h.span_le j hj i hi).trans_eq (by norm_num)

theorem Computes.biasq_nonneg (h : x.Computes q) (hj : j < x.nprobe) : 0 ≤ x.biasq q j := by
  rw [h.bias_eq j hj]
  exact Lib.round_nonneg (mul_nonneg
    (sub_nonneg.mpr ((le_tabMin (Nat.zero_lt_of_lt hj)).mp le_rfl j hj)) h.nonneg)

/-- A sum is close to the distance if and only if 16 bits hold it, or hardly matter. -/
theorem Computes.close_iff (h : x.Computes q) (hj : j < x.nprobe) (hlt : x.biasq q j < 65536)
    (hcode : ∀ i < x.M, code i < x.ksub) :
    (∃ b : K, q.b = b ∧
        |((x.sum16 q j code).toNat : K) / q.a + b -
            (x.biasOf j + ∑ i ∈ Finset.range x.M, x.entry j i (code i))| ≤
          ((x.M + 1 : ℕ) : K) / (((2 : ℕ) : K) * q.a)) ↔
      x.rounded q.a j code < 65536 ∨ 65535 ≤ x.M ∧
        ((65536 * (x.rounded q.a j code / 65536) : ℤ) : K) ≤
          x.rounded q.a j code - x.scaled q.a j code + ((x.M + 1 : ℕ) : K) / ((2 : ℕ) : K) := by
  have hpos := h.biasq_nonneg hj
  obtain ⟨ha, -, hb⟩ := h.scale (Nat.zero_lt_of_lt hj)
  -- the tables of a probe are among the tables
  obtain ⟨t, ht, htj⟩ : ∃ t < x.tables, x.table t = x.table j := by
    unfold tables table
    split
    · exact ⟨j, hj, rfl⟩
    · exact ⟨0, Nat.one_pos, rfl⟩
  have hentry : ∀ i < x.M, x.entryq q j i (code i) =
      round ((x.entry j i (code i) - x.low j i) * q.a) ∧
        0 ≤ x.entryq q j i (code i) ∧ x.entryq q j i (code i) < 256 := fun i hi ↦ by
    have heq := h.entry_eq t ht i hi _ (hcode i hi)
    have hfits := h.entry_fits ht hi (hcode i hi)
    simp only [entryq, entry, low, htj] at heq hfits ⊢
    exact ⟨heq, hfits⟩
  have hrounded : x.biasq q j + ∑ i ∈ Finset.range x.M, x.entryq q j i (code i) =
      x.rounded q.a j code := by
    rw [rounded, h.bias_eq j hj,
      Finset.sum_congr rfl fun i hi ↦ (hentry i (Finset.mem_range.mp hi)).1]
  have hsum := sum16_toNat ⟨hpos, hlt⟩ fun i hi ↦ (hentry i hi).2
  have hnonneg : 0 ≤ x.rounded q.a j code := hrounded ▸ add_nonneg hpos
    (Finset.sum_nonneg fun i hi ↦ (hentry i (Finset.mem_range.mp hi)).2.1)
  rw [hrounded] at hsum
  have hsumK : ((x.sum16 q j code).toNat : K) = ((x.rounded q.a j code % 65536 : ℤ) : K) := by
    rw [← hsum, Int.cast_natCast]
  have hscaled : x.scaled q.a j code / q.a + (tabMin x.bias2 x.nprobe).untopD 0 =
      x.biasOf j + ∑ i ∈ Finset.range x.M, x.entry j i (code i) := by
    rw [scaled, ← Finset.sum_mul, ← add_mul, mul_div_cancel_right₀ _ ha.ne', offset, bias2,
      Finset.sum_sub_distrib]
    ring
  have hclose : ∀ S : K, |S / q.a + (tabMin x.bias2 x.nprobe).untopD 0 -
      (x.biasOf j + ∑ i ∈ Finset.range x.M, x.entry j i (code i))| ≤
        ((x.M + 1 : ℕ) : K) / (((2 : ℕ) : K) * q.a) ↔
      |S - x.scaled q.a j code| ≤ ((x.M + 1 : ℕ) : K) / ((2 : ℕ) : K) := fun S ↦ by
    rw [← hscaled, add_sub_add_right_eq_sub, ← sub_div, abs_div, abs_of_pos ha, ← div_div,
      div_le_div_iff_of_pos_right ha]
  have hwrap := Lib.abs_emod_sub_le_iff (q := 65536) (by norm_num) hnonneg
    (abs_rounded_sub_scaled_le x q.a j code)
  have hlarge : ((65536 : ℤ) : K) ≤ 2 * (((x.M + 1 : ℕ) : K) / ((2 : ℕ) : K)) ↔ 65535 ≤ x.M := by
    rw [Nat.cast_ofNat, mul_div_cancel₀ _ two_ne_zero, ← Int.cast_natCast, Int.cast_le]
    omega
  rw [hlarge] at hwrap
  rw [← hwrap, hb, hsumK]
  constructor
  · rintro ⟨b, hb, hle⟩
    rwa [← WithTop.coe_injective hb, hclose] at hle
  · exact fun hle ↦ ⟨_, rfl, (hclose _).mpr hle⟩
/-- What is computed is accurate if and only if there is headroom. -/
theorem Computes.accurate_iff (h : x.Computes q) : x.Accurate q ↔ x.Headroom := by
  have hscale : ∀ a, 0 < x.nprobe → (x.IsScale a ↔ a = q.a) := fun a hn ↦
    ⟨fun ha ↦ ha.unique (h.scale hn).2.1, fun ha ↦ ha ▸ (h.scale hn).2.1⟩
  constructor
  · rintro ⟨-, hbias, hclose⟩ a ha j hj
    obtain rfl := (hscale a (Nat.zero_lt_of_lt hj)).mp ha
    exact ⟨h.bias_eq j hj ▸ (hbias j hj).2, fun code hcode ↦
      (h.close_iff hj (hbias j hj).2 hcode).mp (hclose j hj code hcode)⟩
  · intro hroom
    have hroom := fun j hj ↦ hroom q.a ((hscale q.a (Nat.zero_lt_of_lt hj)).mpr rfl) j hj
    have hbias : ∀ j < x.nprobe, x.biasq q j < 65536 := fun j hj ↦ h.bias_eq j hj ▸ (hroom j hj).1
    exact ⟨fun j hj i hi c hc ↦ h.entry_fits hj hi hc, fun j hj ↦ ⟨h.biasq_nonneg hj, hbias j hj⟩,
      fun j hj code hcode ↦ (h.close_iff hj (hbias j hj) hcode).mpr ((hroom j hj).2 code hcode)⟩

/-- With a row that is not constant, the tables and biases are quantized, accurately if and only if there
is headroom. -/
theorem quantize_accurate_iff (x : LUTAndBias K) (hksub : 1 ≤ x.ksub) (hM2 : x.M ≤ x.M2)
    (hrow : ∃ j < x.tables, ∃ i < x.M, ∃ c < x.ksub, ∃ c' < x.ksub, x.entry j i c ≠ x.entry j i c')
    (LUTq : ℕ → ℤ) {m : Option (ℕ → ℤ)}
    (hvariant : if x.bias.isSome then m.isSome else x.lutIs3d = false) :
    ∃ q, x.quantize LUTq m = some q ∧ (x.Accurate q ↔ x.Headroom) := by
  obtain ⟨j, hj, i, hi, c, hc, c', hc', hne⟩ := hrow
  have hspan : 0 < x.span j i := by
    rcases lt_or_gt_of_ne hne with hlt | hlt
    · exact (sub_pos.mpr ((rowMin_le hc).trans_lt hlt)).trans_le (sub_rowMin_le hc')
    · exact (sub_pos.mpr ((rowMin_le hc').trans_lt hlt)).trans_le (sub_rowMin_le hc)
  obtain ⟨q, hq, h⟩ := exists_computes hksub hM2 ⟨j, hj, i, hi, hspan⟩ hvariant LUTq
  exact ⟨q, hq, h.accurate_iff⟩

/-- Two probes with the same bias, whose tables are 1000 apart. -/
def farTables : LUTAndBias ℚ where
  nprobe := 2
  M := 1
  ksub := 2
  lutIs3d := true
  LUT := fun p ↦ [0, 1, 1000, 1001].getD p 0
  bias := some fun _ ↦ 0
  M2 := 2

theorem quantize_accurate_iff_far : ∃ q,
    farTables.quantize (fun _ ↦ 0) (some fun _ ↦ 0) = some q ∧
      (farTables.Accurate q ↔ farTables.Headroom) :=
  quantize_accurate_iff farTables (by decide) (by decide)
    ⟨0, by decide, 0, by decide, 0, by decide, 1, by decide, by decide⟩ _ rfl

theorem not_accurate_far : ∃ q, farTables.quantize (fun _ ↦ 0) (some fun _ ↦ 0) = some q ∧
    ¬ farTables.Accurate q := by
  refine ⟨_, rfl, fun h ↦ absurd (h.bias_fits 1 (by decide)).2 ?_⟩
  decide +kernel

end FaissNavix.LUTAndBias
