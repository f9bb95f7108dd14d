import FaissNavix.ResidualQuantizer.EncodedRows
import FaissNavix.ResidualQuantizer.ExactArithmetic

/-!
# Encoding with and without tables

In exact arithmetic the distance of every hypothesis is the squared norm of its residual, and both
versions of a step see the same distances, so they keep the same candidates at every level.
-/

namespace FaissNavix

open Finset

variable {R : Type} [CommRing R] [LinearOrder R]

namespace ResidualQuantizer

variable (rq : ResidualQuantizer (WithTop R)) (cb : ℕ → ℕ → R)

/-- What the first `m` codes stand for. -/
def approximation (code : List ℕ) (m t : ℕ) : R :=
  ∑ l ∈ range m, cb (rq.codebookOffsets l + code.getD l 0) t

/-- The squared norm of what is left of `x`. -/
def residualNorm (x : ℕ → R) (code : List ℕ) (m : ℕ) : R :=
  ∑ t ∈ range rq.d, (x t - rq.approximation cb code m t) * (x t - rq.approximation cb code m t)

variable (simd : Bool)

/-- The hypotheses of both versions after `m` levels. -/
structure BeamsAgree (x : ℕ → R) (m : ℕ) : Prop where
  codes : ∀ b < rq.beamSizeAt m,
    (rq.beamTab (exactFloats R) (exactCMax R) simd (coeVec x) m).1 b =
      (rq.beam (exactFloats R) (exactCMax R) (coeVec x) m).codes b
  fits : ∀ b < rq.beamSizeAt m,
    rq.CodeFits m ((rq.beam (exactFloats R) (exactCMax R) (coeVec x) m).codes b)
  residuals : ∀ b < rq.beamSizeAt m,
    (rq.beam (exactFloats R) (exactCMax R) (coeVec x) m).residuals b = coeVec fun t ↦
      x t - rq.approximation cb ((rq.beam (exactFloats R) (exactCMax R) (coeVec x) m).codes b) m t
  distances : ∀ b < rq.beamSizeAt m,
    (rq.beamTab (exactFloats R) (exactCMax R) simd (coeVec x) m).2 b =
      (rq.residualNorm cb x ((rq.beam (exactFloats R) (exactCMax R) (coeVec x) m).codes b) m :
        WithTop R)

variable {rq cb simd} {x : ℕ → R} {m : ℕ}

omit [LinearOrder R] in
theorem approximation_append {code : List ℕ} (hcode : code.length = m) (k t : ℕ) :
    rq.approximation cb (code ++ [k]) (m + 1) t =
      rq.approximation cb code m t + cb (rq.codebookOffsets m + k) t := by
  rw [approximation, sum_range_succ, List.getD_append_right _ _ _ _ hcode.le, hcode, Nat.sub_self]
  refine congrArg (· + _) (sum_congr rfl fun l hl ↦ ?_)
  rw [List.getD_append _ _ _ _ (by rw [hcode]; exact mem_range.mp hl)]

variable (hcb : ∀ c, rq.codebooks c = coeVec (cb c))

include hcb

theorem candidateDistance_exact {r : ℕ → R} (k : ℕ) :
    rq.candidateDistance (exactFloats R) m (coeVec r) k =
      ((∑ t ∈ range rq.d, (r t - cb (rq.codebookOffsets m + k) t) *
        (r t - cb (rq.codebookOffsets m + k) t) : R) : WithTop R) := by
  have hentry : rq.codebook m k = coeVec (cb (rq.codebookOffsets m + k)) := hcb _
  rw [candidateDistance, hentry, exactFloats_innerProduct, exactFloats_normL2sqr,
    exactFloats_normL2sqr, exactFloats_minusTwo, exactFloats_mul, exactFloats_add, exactFloats_add]
  refine congrArg _ ?_
  rw [mul_sum, ← sum_add_distrib, ← sum_add_distrib]
  exact sum_congr rfl fun t _ ↦ by ring

/-- The distance of a candidate, from the tables. -/
theorem candidateDistanceTab_exact (htables : rq.Tabulated (exactFloats R)) (hm : m < rq.M)
    {code : List ℕ} (hcode : rq.CodeFits m code) {k : ℕ} (hk : k < 2 ^ rq.nbits m) :
    candidateDistanceTab (exactFloats R) simd (2 ^ rq.nbits m) (rq.crossRows m code) m
        (rq.residualNorm cb x code m : WithTop R) (rq.cdCommon (exactFloats R) (coeVec x) m) k =
      (rq.residualNorm cb x (code ++ [k]) (m + 1) : WithTop R) := by
  have hentry : rq.codebook m k = coeVec (cb (rq.codebookOffsets m + k)) := hcb _
  have hcommon : rq.cdCommon (exactFloats R) (coeVec x) m k =
      ((∑ t ∈ range rq.d, cb (rq.codebookOffsets m + k) t * cb (rq.codebookOffsets m + k) t -
        2 * ∑ t ∈ range rq.d, cb (rq.codebookOffsets m + k) t * x t : R) : WithTop R) := by
    rw [cdCommon, htables.norms, hcb, hentry, exactFloats_normL2sqr, exactFloats_innerProduct,
      exactFloats_two, exactFloats_mul, exactFloats_sub]
  have hcross : ∀ im ij, im + ij < m → rq.crossRows m code im ij k =
      ((∑ t ∈ range rq.d, cb (rq.codebookOffsets m + k) t *
        cb (rq.codebookOffsets (im + ij) + code.getD (im + ij) 0) t : R) : WithTop R) := by
    intro im ij hij
    have hlt : rq.codebookOffsets (im + ij) + code.getD (im + ij) 0 < rq.codebookOffsets m :=
      (Nat.add_lt_add_left (hcode.2 _ hij) _).trans_le (codebookOffsets_mono (Nat.succ_le_of_lt hij))
    rw [crossRows, AccumTab.cbs, htables.products m hm _ hlt k hk, hentry, hcb, exactFloats_innerProduct]
  rw [candidateDistanceTab_sum hcommon
    (f := fun l ↦ ∑ t ∈ range rq.d, cb (rq.codebookOffsets m + k) t *
      cb (rq.codebookOffsets l + code.getD l 0) t) hcross]
  refine congrArg _ ?_
  -- the products with the entries add up to that with the approximation
  have hswap : ∑ l ∈ range m, ∑ t ∈ range rq.d, cb (rq.codebookOffsets m + k) t *
      cb (rq.codebookOffsets l + code.getD l 0) t =
      ∑ t ∈ range rq.d, cb (rq.codebookOffsets m + k) t * rq.approximation cb code m t := by
    rw [sum_comm]
    exact sum_congr rfl fun t _ ↦ (mul_sum _ _ _).symm
  rw [hswap, residualNorm, residualNorm, mul_sum, mul_sum, ← sum_sub_distrib, ← sum_add_distrib,
    ← sum_add_distrib]
  refine sum_congr rfl fun t _ ↦ ?_
  rw [approximation_append hcode.1]
  ring

section
variable (htables : rq.Tabulated (exactFloats R)) (hm : m < rq.M) (h : rq.BeamsAgree cb simd x m)
include htables hm h

/-- Both versions see the same distances, and each of them is the norm of what a candidate leaves. -/
theorem BeamsAgree.distances_eq {p : ℕ} (hp : p < rq.beamSizeAt m * 2 ^ rq.nbits m) :
    rq.candidateDistances (exactFloats R) m (rq.beam (exactFloats R) (exactCMax R) (coeVec x) m) p =
        (rq.residualNorm cb x
          ((rq.beam (exactFloats R) (exactCMax R) (coeVec x) m).codes (p / 2 ^ rq.nbits m) ++
            [p % 2 ^ rq.nbits m]) (m + 1) : WithTop R) ∧
      rq.candidateDistancesTab (exactFloats R) simd (coeVec x) m
          (rq.beamTab (exactFloats R) (exactCMax R) simd (coeVec x) m) p =
        rq.candidateDistances (exactFloats R) m
          (rq.beam (exactFloats R) (exactCMax R) (coeVec x) m) p := by
  have hb : p / 2 ^ rq.nbits m < rq.beamSizeAt m := Nat.div_lt_of_lt_mul (by rwa [Nat.mul_comm])
  have hk : p % 2 ^ rq.nbits m < 2 ^ rq.nbits m := Nat.mod_lt p (Nat.two_pow_pos _)
  have hdirect : rq.candidateDistances (exactFloats R) m
      (rq.beam (exactFloats R) (exactCMax R) (coeVec x) m) p =
        (rq.residualNorm cb x
          ((rq.beam (exactFloats R) (exactCMax R) (coeVec x) m).codes (p / 2 ^ rq.nbits m) ++
            [p % 2 ^ rq.nbits m]) (m + 1) : WithTop R) := by
    rw [candidateDistances, h.residuals _ hb, candidateDistance_exact hcb, residualNorm]
    refine congrArg _ (sum_congr rfl fun t _ ↦ ?_)
    rw [approximation_append (h.fits _ hb).1, sub_add_eq_sub_sub]
  refine ⟨hdirect, ?_⟩
  rw [hdirect, candidateDistancesTab, h.codes _ hb, h.distances _ hb]
  exact candidateDistanceTab_exact hcb htables hm (h.fits _ hb) hk

theorem BeamsAgree.fills :
    rq.Fills (exactFloats R) (exactCMax R) (coeVec x) m ∧
      rq.FillsTab (exactFloats R) (exactCMax R) simd (coeVec x) m := by
  have hfills : rq.Fills (exactFloats R) (exactCMax R) (coeVec x) m := by
    refine (enoughCandidates_of_below (fun p hp ↦ ?_) (Nat.min_le_left _ _)).fromCandidates
      exactCMax_keyed
    rw [(h.distances_eq hcb htables hm hp).1]
    exact exactCMax_keyed.cmp_iff.mpr ⟨trivial, trivial, WithTop.coe_lt_top _⟩
  exact ⟨hfills, hfills.congr fun p hp ↦ (h.distances_eq hcb htables hm hp).2.symm⟩

theorem BeamsAgree.kept_eq :
    rq.keptTab (exactFloats R) (exactCMax R) simd (coeVec x) m
        (rq.beamTab (exactFloats R) (exactCMax R) simd (coeVec x) m) =
      rq.kept (exactFloats R) (exactCMax R) m
        (rq.beam (exactFloats R) (exactCMax R) (coeVec x) m) :=
  bestCandidates_congr fun _ hp ↦ (h.distances_eq hcb htables hm hp).2

end

omit hcb in
theorem beamsAgree_zero (x : ℕ → R) : rq.BeamsAgree cb simd x 0 where
  codes := fun _ _ ↦ rfl
  fits := fun _ _ ↦ codeFits_nil
  residuals := fun b _ ↦ funext fun t ↦ by
    change (x t : WithTop R) = ((x t - rq.approximation cb [] 0 t : R) : WithTop R)
    rw [approximation, sum_range_zero, sub_zero]
  distances := fun b _ ↦ by
    rw [beamTab, residualNorm]
    refine (exactFloats_normL2sqr x rq.d).trans (congrArg _ (sum_congr rfl fun t _ ↦ ?_))
    rw [approximation, sum_range_zero, sub_zero]

theorem BeamsAgree.step (htables : rq.Tabulated (exactFloats R)) (hm : m < rq.M)
    (h : rq.BeamsAgree cb simd x m) : rq.BeamsAgree cb simd x (m + 1) := by
  have hkept := h.kept_eq hcb htables hm
  -- a hypothesis that is kept is one of before and an entry of the codebook
  have hnew : ∀ j < rq.beamSizeAt (m + 1), ∃ p < rq.beamSizeAt m * 2 ^ rq.nbits m,
      rq.kept (exactFloats R) (exactCMax R) m
          (rq.beam (exactFloats R) (exactCMax R) (coeVec x) m) j =
        (rq.candidateDistances (exactFloats R) m
          (rq.beam (exactFloats R) (exactCMax R) (coeVec x) m) p, (p : ℤ)) ∧
      (rq.beam (exactFloats R) (exactCMax R) (coeVec x) (m + 1)).codes j =
        (rq.beam (exactFloats R) (exactCMax R) (coeVec x) m).codes (p / 2 ^ rq.nbits m) ++
          [p % 2 ^ rq.nbits m] := by
    intro j hj
    obtain ⟨p, hp, hbest⟩ := (h.fills hcb htables hm).1 j hj
    have hb : p / 2 ^ rq.nbits m < rq.beamSizeAt m := Nat.div_lt_of_lt_mul (by rwa [Nat.mul_comm])
    refine ⟨p, hp, hbest, ?_⟩
    rw [beam, codes_extendBeam (congrArg Prod.snd hbest), List.take_of_length_le (h.fits _ hb).1.le]
  constructor
  · intro j hj
    obtain ⟨p, hp, hbest, hcode⟩ := hnew j hj
    have hb : p / 2 ^ rq.nbits m < rq.beamSizeAt m := Nat.div_lt_of_lt_mul (by rwa [Nat.mul_comm])
    rw [beamTab, codes_extendBeamTab (congrArg Prod.snd ((congrFun hkept j).trans hbest)), hcode,
      h.codes _ hb, List.take_of_length_le (h.fits _ hb).1.le]
  · exact (h.fills hcb htables hm).1.codeFits_step h.fits
  · intro j hj
    obtain ⟨p, hp, hbest, hcode⟩ := hnew j hj
    have hb : p / 2 ^ rq.nbits m < rq.beamSizeAt m := Nat.div_lt_of_lt_mul (by rwa [Nat.mul_comm])
    have hentry : rq.codebook m (p % 2 ^ rq.nbits m) =
        coeVec (cb (rq.codebookOffsets m + p % 2 ^ rq.nbits m)) := hcb _
    rw [hcode, beam, residuals_extendBeam (congrArg Prod.snd hbest), h.residuals _ hb, hentry,
      exactFloats_fvecSub]
    refine congrArg _ (funext fun t ↦ ?_)
    rw [approximation_append (h.fits _ hb).1, sub_add_eq_sub_sub]
  · intro j hj
    obtain ⟨p, hp, hbest, hcode⟩ := hnew j hj
    rw [hcode, ← (h.distances_eq hcb htables hm hp).1]
    exact congrArg Prod.fst ((congrFun hkept j).trans hbest)

theorem beamsAgree (htables : rq.Tabulated (exactFloats R)) (x : ℕ → R) (hm : m ≤ rq.M) :
    rq.BeamsAgree cb simd x m := by
  induction m with
  | zero => exact beamsAgree_zero x
  | succ m ih => exact (ih (Nat.le_of_succ_le hm)).step hcb htables hm

/-! ## The packed codes -/

theorem decodeCode_exact (code : List ℕ) (hM : 0 < rq.M) :
    rq.decodeCode (exactFloats R) code = coeVec (rq.approximation cb code rq.M) := by
  have hloop := Lib.foldl_range_invariant (n := rq.M)
    (f := fun x m ↦
      let c := rq.codebooks (rq.codebookOffsets m + code.getD m 0)
      if m = 0 then c else (exactFloats R).fvecAdd x c)
    (s := fun _ ↦ (exactFloats R).zero)
    (fun m x ↦ 0 < m → x = coeVec (rq.approximation cb code m)) (fun h ↦ absurd h (Nat.lt_irrefl 0))
    fun m _ x hx _ ↦ ?_
  · exact hloop hM
  · have hsucc : (fun t ↦ rq.approximation cb code m t +
        cb (rq.codebookOffsets m + code.getD m 0) t) = rq.approximation cb code (m + 1) :=
      funext fun t ↦ (sum_range_succ _ _).symm
    dsimp only
    rw [hcb]
    split
    · rename_i hzero
      subst hzero
      rw [← hsucc]
      refine congrArg _ (funext fun t ↦ ?_)
      rw [approximation, sum_range_zero, zero_add]
    · rename_i hpos
      rw [hx (Nat.pos_of_ne_zero hpos), exactFloats_fvecAdd, hsucc]

/-- The norm is that of the reconstruction, whether it is taken from the residual or from the code. -/
theorem encodeVector_eq (htables : rq.Tabulated (exactFloats R)) (hM : 0 < rq.M)
    (hmax : 0 < rq.maxBeamSize) (x : ℕ → R) (centroid : Option (ℕ → WithTop R)) :
    rq.encodeVectorTab (exactFloats R) (exactCMax R) simd (coeVec x) centroid =
      rq.encodeVector (exactFloats R) (exactCMax R) (coeVec x) centroid := by
  have h : rq.BeamsAgree cb simd x rq.M := beamsAgree hcb htables x le_rfl
  have hb := beamSizeAt_pos hmax rq.M
  have hnorm : (exactFloats R).l2sqr (coeVec x)
      ((rq.beam (exactFloats R) (exactCMax R) (coeVec x) rq.M).residuals 0) rq.d =
      rq.decodedNorm (exactFloats R)
        ((rq.beam (exactFloats R) (exactCMax R) (coeVec x) rq.M).codes 0) none := by
    rw [h.residuals 0 hb, decodedNorm, decodeCode_exact hcb _ hM, exactFloats_l2sqr,
      exactFloats_normL2sqr]
    simp only [sub_sub_cancel]
  rw [encodeVectorTab, encodeVector, h.codes 0 hb, hnorm]
  unfold packed
  refine congrArg _ ?_
  cases rq.searchType <;> cases centroid <;> rfl

theorem computeCodes_of_tabulated (htables : rq.Tabulated (exactFloats R)) (htrained : rq.isTrained = true)
    (hM : 0 < rq.M) (hmax : 0 < rq.maxBeamSize)
    (hbeam : rq.maxBeamSize ≤ ∏ m ∈ range rq.M, 2 ^ rq.nbits m) (simd : Bool) (n : ℕ) (x : ℕ → ℕ → R)
    (codesOut : ℕ → UInt8) :
    rq.computeCodes (exactFloats R) (exactCMax R) 0 simd (fun i ↦ coeVec (x i)) codesOut n =
        Lib.writeRows rq.codeSize
          (fun i ↦ rq.encodeVector (exactFloats R) (exactCMax R) (coeVec (x i)) none) 0 n codesOut ∧
      rq.computeCodes (exactFloats R) (exactCMax R) 1 simd (fun i ↦ coeVec (x i)) codesOut n =
        Lib.writeRows rq.codeSize
          (fun i ↦ rq.encodeVector (exactFloats R) (exactCMax R) (coeVec (x i)) none) 0 n codesOut := by
  have hfills : ∀ m < rq.M, ∀ i < n,
      rq.Fills (exactFloats R) (exactCMax R) (coeVec (x i)) m ∧
        rq.FillsTab (exactFloats R) (exactCMax R) simd (coeVec (x i)) m := fun m hm i _ ↦
    BeamsAgree.fills hcb htables hm (beamsAgree hcb htables (x i) hm.le)
  have halign : rq.Aligned (min n rq.blockSize) := Or.inl (beamSizeAt_of_le hmax hbeam)
  constructor
  · exact computeCodesAddCentroids_eq htrained exactFloats_add_comm hM hmax halign
      (fun m hm i hi ↦ (hfills m hm i hi).1) codesOut none
  · refine (computeCodesAddCentroids_tab_eq htrained htables.sizes
      (htables.products_pos.imp_left fun hle ↦ Nat.le_antisymm hle hM) hM hmax halign
      (fun m hm i hi ↦ (hfills m hm i hi).2) codesOut none).trans (Lib.writeRows_congr fun i _ ↦ ?_)
    exact encodeVector_eq hcb htables hM hmax (x i) none

theorem exists_encodeVector (htables : rq.Tabulated (exactFloats R)) (hmax : 0 < rq.maxBeamSize)
    (hpack : rq.Packable) (x : ℕ → R) :
    ∃ bytes, rq.encodeVector (exactFloats R) (exactCMax R) (coeVec x) none = .ok bytes := by
  have hagree : rq.BeamsAgree cb false x rq.M := beamsAgree hcb htables x le_rfl
  obtain ⟨bytes, hbytes, -⟩ := exists_packed (exactFloats R) _ none hpack
    (hagree.fits 0 (beamSizeAt_pos hmax _))
  exact ⟨bytes, hbytes⟩

omit hcb

/-- Two levels of two entries each, for vectors of one number. -/
def twoLevels : ResidualQuantizer (WithTop ℤ) where
  d := 1
  M := 2
  nbits := fun _ ↦ 1
  codebooks := fun c _ ↦ ((c : ℤ) : WithTop ℤ)
  searchType := .normQint8
  isTrained := true
  maxMemDistances := 1024
  maxBeamSize := 2
  centroidNorms := fun _ ↦ 0
  codebookCrossProducts := fun _ ↦ 0
  crossTableSize := 0
  normEncoders := NormEncoders.zero _

end ResidualQuantizer

end FaissNavix
