import FaissNavix.IVFPQ.Distances
import FaissNavix.ResidualQuantizer.BeamsTab

/-!
# Residual quantizers in exact arithmetic

The numbers are those of an ordered ring, with an infinite one above all of them for the value that the
heaps start with.  In this arithmetic both versions of a step compute the squared norm of the residual
that a candidate leaves (`ResidualQuantizer.candidateDistance_exact`,
`ResidualQuantizer.candidateDistanceTab_exact`).
-/

namespace FaissNavix

open AccumTab Finset

variable {R : Type} [CommRing R] [LinearOrder R]

variable (R) in
/-- Exact arithmetic, with an infinite number. -/
def exactFloats : Floats (WithTop R) where
  zero := ((0 : R) : WithTop R)
  two := ((1 + 1 : R) : WithTop R)
  minusTwo := ((-(1 + 1) : R) : WithTop R)
  huge := ⊤
  e20 := ((10 ^ 20 : R) : WithTop R)
  add := WithTop.map₂ (· + ·)
  sub := WithTop.map₂ (· - ·)
  mul := WithTop.map₂ (· * ·)
  lt := fun a b ↦ decide (a < b)

variable (R) in
/-- `CMax` on these numbers. -/
def exactCMax : KeyValueOrder (WithTop R) where
  cmp a b := decide (b < a)
  cmp2 a1 b1 a2 b2 := decide (b1 < a1) || (decide (a1 = b1) && decide (b2 < a2))
  neutral := ⊤

omit [CommRing R] in
theorem exactCMax_keyed : (exactCMax R).Keyed id fun _ ↦ True where
  cmp_iff {a b} := by
    rw [exactCMax, decide_eq_true_iff]
    exact ⟨fun h ↦ ⟨trivial, trivial, h⟩, fun h ↦ h.2.2⟩
  le_of_cmp2 {a b i j} _ _ h := by
    simp only [exactCMax, Bool.or_eq_true, Bool.and_eq_true, decide_eq_true_eq] at h
    rcases h with h | h
    · exact h.le
    · exact h.1.ge
  le_of_not_cmp2 {a b i j} _ _ h := by
    simp only [exactCMax, Bool.or_eq_false_iff, decide_eq_false_iff_not] at h
    exact not_lt.mp h.1
  ok_neutral := trivial

def coeVec (v : ℕ → R) : ℕ → WithTop R := fun t ↦ (v t : WithTop R)

section Operations

variable (a b : R) (v w : ℕ → R) (d : ℕ)

omit [LinearOrder R] in
theorem foldl_add_coe (f : ℕ → R) (n : ℕ) :
    (List.range n).foldl (fun (res : WithTop R) i ↦ WithTop.map₂ (· + ·) res (f i : WithTop R))
      (a : WithTop R) = ((a + ∑ i ∈ range n, f i : R) : WithTop R) := by
  rw [← foldl_add_range]
  exact List.foldl_hom (fun r : R ↦ (r : WithTop R)) fun _ _ ↦ rfl

@[simp] theorem exactFloats_add : (exactFloats R).add a b = ((a + b : R) : WithTop R) := rfl

@[simp] theorem exactFloats_sub : (exactFloats R).sub a b = ((a - b : R) : WithTop R) := rfl

@[simp] theorem exactFloats_mul : (exactFloats R).mul a b = ((a * b : R) : WithTop R) := rfl

@[simp] theorem exactFloats_two : (exactFloats R).two = ((2 : R) : WithTop R) :=
  congrArg WithTop.some one_add_one_eq_two

@[simp] theorem exactFloats_minusTwo : (exactFloats R).minusTwo = ((-2 : R) : WithTop R) :=
  congrArg WithTop.some (congrArg Neg.neg one_add_one_eq_two)

theorem exactFloats_add_comm (a b : WithTop R) : (exactFloats R).add a b = (exactFloats R).add b a := by
  induction a with
  | top => cases b <;> rfl
  | coe a =>
      induction b with
      | top => rfl
      | coe b => rw [exactFloats_add, exactFloats_add, add_comm]

theorem exactFloats_innerProduct : (exactFloats R).innerProduct (coeVec v) (coeVec w) d =
    ((∑ t ∈ range d, v t * w t : R) : WithTop R) := by
  have h := foldl_add_coe 0 (fun t ↦ v t * w t) d
  rwa [zero_add] at h

theorem exactFloats_normL2sqr : (exactFloats R).normL2sqr (coeVec v) d =
    ((∑ t ∈ range d, v t * v t : R) : WithTop R) := by
  have h := foldl_add_coe 0 (fun t ↦ v t * v t) d
  rwa [zero_add] at h

theorem exactFloats_l2sqr : (exactFloats R).l2sqr (coeVec v) (coeVec w) d =
    ((∑ t ∈ range d, (v t - w t) * (v t - w t) : R) : WithTop R) := by
  have h := foldl_add_coe 0 (fun t ↦ (v t - w t) * (v t - w t)) d
  rwa [zero_add] at h

theorem exactFloats_fvecAdd : (exactFloats R).fvecAdd (coeVec v) (coeVec w) =
    coeVec fun t ↦ v t + w t := rfl

theorem exactFloats_fvecSub : (exactFloats R).fvecSub (coeVec v) (coeVec w) =
    coeVec fun t ↦ v t - w t := rfl

end Operations

/-! ## The sums of table entries -/

variable {cbs : ℕ → ℕ → WithTop R} {f : ℕ → R} {M k : ℕ}

theorem reg_exact (hM : 0 < M) (hcbs : ∀ ij < M, cbs ij k = (f ij : WithTop R)) :
    reg (exactFloats R) cbs M k = ((∑ ij ∈ range M, f ij : R) : WithTop R) := by
  obtain ⟨n, rfl⟩ : ∃ n, M = n + 1 := ⟨M - 1, by omega⟩
  rw [reg, Nat.add_sub_cancel, List.range'_eq_map_range, List.foldl_map, hcbs 0 hM, sum_range_succ',
    add_comm, ← foldl_add_coe]
  refine List.foldl_ext _ _ _ fun res j hj ↦ ?_
  rw [hcbs (1 + j) (by have := List.mem_range.mp hj; omega), Nat.add_comm 1 j]
  rfl

/-- The groups of eight entries make up the whole sum. -/
theorem groupedSum_exact {cbs : ℕ → ℕ → ℕ → WithTop R} {m : ℕ} (hm : 8 ≤ m)
    (hcbs : ∀ im ij, im + ij < m → cbs im ij k = (f (im + ij) : WithTop R)) :
    groupedSum (exactFloats R) cbs m k = ((∑ ij ∈ range m, f ij : R) : WithTop R) := by
  have hfirst : reg (exactFloats R) (cbs 0) 8 k = ((∑ ij ∈ range 8, f ij : R) : WithTop R) := by
    refine reg_exact (by norm_num) fun ij hij ↦ ?_
    rw [hcbs 0 ij (by omega), Nat.zero_add]
  rw [groupedSum, List.range'_eq_map_range, List.foldl_map, hfirst]
  have hgroups := Lib.foldl_range_invariant (n := (m + 7) / 8 - 1)
    (f := fun dp t ↦ (exactFloats R).add dp
      (reg (exactFloats R) (cbs (8 * (1 + t))) (min (m - 8 * (1 + t)) 8) k))
    (s := ((∑ ij ∈ range 8, f ij : R) : WithTop R))
    (fun j dp ↦ dp = ((∑ ij ∈ range (min m (8 * (j + 1))), f ij : R) : WithTop R))
    (by rw [Nat.zero_add, Nat.mul_one, Nat.min_eq_right hm]) fun j hj dp hdp ↦ ?_
  · have hall : min m (8 * ((m + 7) / 8 - 1 + 1)) = m := by omega
    rw [hgroups, hall]
  · have hgroup : reg (exactFloats R) (cbs (8 * (1 + j))) (min (m - 8 * (1 + j)) 8) k =
        ((∑ ij ∈ range (min (m - 8 * (1 + j)) 8), f (8 * (1 + j) + ij) : R) : WithTop R) :=
      reg_exact (by omega) fun ij hij ↦ hcbs (8 * (1 + j)) ij (by omega)
    have hbefore : min m (8 * (j + 1)) = 8 * (1 + j) := by omega
    have hafter : min m (8 * (j + 1 + 1)) = 8 * (1 + j) + min (m - 8 * (1 + j)) 8 := by omega
    rw [hdp, hgroup, exactFloats_add, hbefore, hafter, sum_range_add]

/-- Whatever way the sums are formed, a distance is made of three terms. -/
theorem candidateDistanceTab_sum {simd : Bool} {K m : ℕ} {cbs : ℕ → ℕ → ℕ → WithTop R}
    {cdCommon : ℕ → WithTop R} {distance common : R} (hcommon : cdCommon k = (common : WithTop R))
    (hcbs : ∀ im ij, im + ij < m → cbs im ij k = (f (im + ij) : WithTop R)) :
    candidateDistanceTab (exactFloats R) simd K cbs m (distance : WithTop R) cdCommon k =
      ((distance + common + 2 * ∑ ij ∈ range m, f ij : R) : WithTop R) := by
  have hfew : 0 < m → reg (exactFloats R) (cbs 0) m k = ((∑ ij ∈ range m, f ij : R) : WithTop R) :=
    fun hpos ↦ reg_exact hpos fun ij hij ↦ by
      rw [hcbs 0 ij (by omega), Nat.zero_add]
  rw [candidateDistanceTab, hcommon]
  split
  · rename_i hzero
    rw [hzero, exactFloats_add, sum_range_zero, mul_zero, add_zero]
  · rename_i hpos
    split
    · rw [hfew (Nat.pos_of_ne_zero hpos), exactFloats_two, exactFloats_mul]
      split
      · rw [exactFloats_add, exactFloats_add]
        congr 1
        ring
      · rw [exactFloats_add, exactFloats_add]
    · rename_i hmany
      rw [groupedSum_exact (Nat.le_of_not_lt hmany) hcbs, exactFloats_two, exactFloats_mul,
        exactFloats_add, exactFloats_add]

end FaissNavix
