import FaissNavix.ResidualQuantizer.EncodedRows
import FaissNavix.ResidualQuantizer.ExactArithmetic

/-!
# Encoding one vector of a batch

Whether `compute_codes_add_centroids` treats every vector of a batch as if it were alone.  It does where
the last beam is as large as `max_beam_size`, which the strides are computed from; where it is smaller,
the codes of all vectors but the first one of a block are those of other hypotheses.
-/

namespace FaissNavix

open Lib (read)

variable {F : Type}

namespace ResidualQuantizer

variable (rq : ResidualQuantizer F) (fl : Floats F) (C : KeyValueOrder F) (simd : Bool)

/-- The first hypothesis of the last beam, and what is packed for it. -/
def firstHypothesis (useBeamLUT : ℤ) (x : ℕ → F) (centroid : Option (ℕ → F)) :
    Except Fault (List UInt8) :=
  if useBeamLUT = 0 then rq.encodeVector fl C x centroid
  else rq.encodeVectorTab fl C simd x centroid

/-- Every row is what the vector gives alone, and the code of its first hypothesis. -/
def RowsAlone (useBeamLUT : ℤ) (n : ℕ) (x : ℕ → ℕ → F) (centroids : Option (ℕ → ℕ → F)) : Prop :=
  ∀ codesOut, ∃ out,
    rq.computeCodesAddCentroids fl C useBeamLUT simd x codesOut n centroids = .ok out ∧
    ∀ i < n,
      rq.firstHypothesis fl C simd useBeamLUT (x i) (centroids.map (· i)) =
        .ok (read out (i * rq.codeSize) rq.codeSize) ∧
      ∀ codesOut', ∃ alone,
        rq.computeCodesAddCentroids fl C useBeamLUT simd (fun _ ↦ x i) codesOut' 1
          (centroids.map fun c _ ↦ c i) = .ok alone ∧
        read out (i * rq.codeSize) rq.codeSize = read alone 0 rq.codeSize

/-- The distances of the candidates at level `m`. -/
def distancesAt (useBeamLUT : ℤ) (x : ℕ → F) (m : ℕ) : ℕ → F :=
  if useBeamLUT = 0 then rq.candidateDistances fl m (rq.beam fl C x m)
  else rq.candidateDistancesTab fl simd x m (rq.beamTab fl C simd x m)

/-- At every level there are as many candidates before the neutral value as the beam keeps. -/
def Enough (useBeamLUT : ℤ) (x : ℕ → F) : Prop :=
  ∀ m < rq.M, EnoughCandidates C (rq.beamSizeAt (m + 1)) (rq.distancesAt fl C simd useBeamLUT x m)
    (rq.beamSizeAt m * 2 ^ rq.nbits m)

instance (useBeamLUT : ℤ) (x : ℕ → F) : Decidable (rq.Enough fl C simd useBeamLUT x) :=
  inferInstanceAs (Decidable (∀ m < rq.M, EnoughCandidates C (rq.beamSizeAt (m + 1))
    (rq.distancesAt fl C simd useBeamLUT x m) (rq.beamSizeAt m * 2 ^ rq.nbits m)))

variable {rq fl C simd} {useBeamLUT : ℤ} {n : ℕ} {x : ℕ → ℕ → F} {centroids : Option (ℕ → ℕ → F)}

/-- Rows that are written at their places. -/
theorem rowsAlone_of_eq (hone : ∀ i < n, ∀ codesOut',
      rq.computeCodesAddCentroids fl C useBeamLUT simd (fun _ ↦ x i) codesOut' 1
          (centroids.map fun c _ ↦ c i) =
        Lib.writeRows rq.codeSize
          (fun _ ↦ rq.firstHypothesis fl C simd useBeamLUT (x i) (centroids.map (· i))) 0 1 codesOut')
    (hall : ∀ codesOut, rq.computeCodesAddCentroids fl C useBeamLUT simd x codesOut n centroids =
      Lib.writeRows rq.codeSize
        (fun i ↦ rq.firstHypothesis fl C simd useBeamLUT (x i) (centroids.map (· i))) 0 n codesOut)
    (hok : ∀ i < n, ∃ bytes, rq.firstHypothesis fl C simd useBeamLUT (x i) (centroids.map (· i)) =
      .ok bytes ∧ bytes.length = rq.codeSize) :
    rq.RowsAlone fl C simd useBeamLUT n x centroids := by
  have hbytes : ∀ i, ∃ bytes : List UInt8, i < n →
      rq.firstHypothesis fl C simd useBeamLUT (x i) (centroids.map (· i)) = .ok bytes ∧
        bytes.length = rq.codeSize := fun i ↦ by
    by_cases hi : i < n
    · obtain ⟨bytes, h⟩ := hok i hi
      exact ⟨bytes, fun _ ↦ h⟩
    · exact ⟨[], fun h ↦ absurd h hi⟩
  choose bytes hbytes using hbytes
  intro codesOut
  refine ⟨_, (hall codesOut).trans (Lib.writeRows_of_ok fun i hi ↦ (hbytes i hi).1),
    fun i hi ↦ ?_⟩
  have hrow := (Lib.rowsWritten_foldl (fun i hi ↦ (hbytes i hi).2) codesOut 0).rows i hi
  rw [Nat.zero_add] at hrow
  rw [hrow]
  refine ⟨(hbytes i hi).1, fun codesOut' ↦ ⟨_, (hone i hi codesOut').trans
    (Lib.writeRows_of_ok fun _ _ ↦ (hbytes i hi).1), ?_⟩⟩
  have halone := (Lib.rowsWritten_foldl (n := 1) (fun _ _ ↦ (hbytes i hi).2) codesOut' 0).rows 0
    Nat.zero_lt_one
  rw [Nat.zero_mul, Nat.add_zero] at halone
  exact halone.symm

theorem rowsAlone_direct {K : Type} [LinearOrder K] {key : F → K} {ok : F → Prop} (hC : C.Keyed key ok)
    (hcomm : ∀ a b, fl.add a b = fl.add b a) (htrained : rq.isTrained = true) (hM : 0 < rq.M)
    (hmax : 0 < rq.maxBeamSize) (hpack : rq.Packable) (halign : rq.Aligned (min n rq.blockSize))
    (henough : ∀ i < n, rq.Enough fl C simd 0 (x i)) :
    rq.RowsAlone fl C simd 0 n x centroids := by
  have hfills : ∀ i < n, ∀ m < rq.M, rq.Fills fl C (x i) m := fun i hi m hm ↦
    EnoughCandidates.fromCandidates hC (henough i hi m hm)
  refine rowsAlone_of_eq (fun i hi codesOut' ↦ ?_) (fun codesOut ↦ ?_) fun i hi ↦ ?_
  · have hone := @computeCodesAddCentroids_eq _ rq fl C simd 1 (fun _ ↦ x i) htrained hcomm hM hmax
      (Or.inr (Nat.min_le_left _ _)) (fun m hm _ _ ↦ hfills i hi m hm) codesOut'
      (centroids.map fun c _ ↦ c i)
    simp only [Option.map_map] at hone
    exact hone
  · exact computeCodesAddCentroids_eq htrained hcomm hM hmax halign
      (fun m hm i hi ↦ hfills i hi m hm) codesOut centroids
  · obtain ⟨bytes, hbytes, hholds⟩ :=
      exists_packed fl _ _ hpack (codeFits_beam (hfills i hi) 0 (beamSizeAt_pos hmax _))
    exact ⟨bytes, hbytes, hholds.length⟩

theorem rowsAlone_tab {K : Type} [LinearOrder K] {key : F → K} {ok : F → Prop} (hC : C.Keyed key ok)
    (htables : rq.Tabulated fl) (htrained : rq.isTrained = true) (hM : 0 < rq.M)
    (hmax : 0 < rq.maxBeamSize) (hpack : rq.Packable) (halign : rq.Aligned (min n rq.blockSize))
    (henough : ∀ i < n, rq.Enough fl C simd 1 (x i)) :
    rq.RowsAlone fl C simd 1 n x centroids := by
  have hfills : ∀ i < n, ∀ m < rq.M, rq.FillsTab fl C simd (x i) m := fun i hi m hm ↦
    EnoughCandidates.fromCandidates hC (henough i hi m hm)
  have hcross : rq.M = 1 ∨ 0 < rq.crossTableSize :=
    htables.products_pos.imp_left fun hle ↦ Nat.le_antisymm hle hM
  refine rowsAlone_of_eq (fun i hi codesOut' ↦ ?_) (fun codesOut ↦ ?_) fun i hi ↦ ?_
  · have hone := computeCodesAddCentroids_tab_eq (n := 1) htrained htables.sizes hcross hM hmax
      (Or.inr (Nat.min_le_left _ _)) (fun m hm _ _ ↦ hfills i hi m hm) codesOut'
      (centroids.map fun c _ ↦ c i)
    simp only [Option.map_map] at hone
    exact hone
  · exact computeCodesAddCentroids_tab_eq htrained htables.sizes hcross hM hmax halign
      (fun m hm i hi ↦ hfills i hi m hm) codesOut centroids
  · obtain ⟨bytes, hbytes, hholds⟩ :=
      exists_packed fl _ _ hpack (codeFits_beamTab (hfills i hi) 0 (beamSizeAt_pos hmax _))
    exact ⟨bytes, hbytes, hholds.length⟩

/-- Two levels of two entries each, for vectors of one number. -/
def twoByTwo : ResidualQuantizer (WithTop ℤ) where
  d := 1
  M := 2
  nbits := fun _ ↦ 1
  codebooks := fun c _ ↦ ((c : ℤ) : WithTop ℤ)
  searchType := .normQint8
  isTrained := true
  maxMemDistances := 1024
  maxBeamSize := 2
  centroidNorms := fun _ ↦ 0
  codebookCrossProducts := fun _ ↦ 0
  crossTableSize := 0
  normEncoders := NormEncoders.zero _

/-- A codebook of two entries, for a beam of three. -/
def oneOfTwo : ResidualQuantizer (WithTop ℤ) where
  d := 1
  M := 1
  nbits := fun _ ↦ 1
  codebooks := fun c _ ↦ ((c : ℤ) : WithTop ℤ)
  searchType := .decompress
  isTrained := true
  maxMemDistances := 1024
  maxBeamSize := 3
  centroidNorms := fun _ ↦ 0
  codebookCrossProducts := fun _ ↦ 0
  crossTableSize := 0
  normEncoders := NormEncoders.zero _

end ResidualQuantizer

end FaissNavix
