import FaissNavix.HeapBlock
import FaissNavix.ResidualQuantizer.Quantizer

/-!
# Encoding steps of the beam search

The two versions of a step in `faiss/impl/residual_quantizer_encode_steps.cpp`.  Both extend the codes of
each vector by all centroids of a codebook, and keep the best ones.  `beam_search_encode_step` computes
the distances from the residuals, `beam_search_encode_step_tab` from the distances of the step before and
tables of inner products, which it adds up in groups of eight codes.
-/

namespace FaissNavix

open Function
open Lib (write)

variable {F : Type} (fl : Floats F) (C : KeyValueOrder F)

/-! ## Sums of table entries -/

namespace AccumTab

/-- `cbs`: the row of the table for each code, from code `im` on. -/
def cbs (codebookCrossNorms : ℕ → F) (codebookOffsets : ℕ → ℕ) (code : List ℕ) (im ldc ij : ℕ) : ℕ → F :=
  fun kk ↦ codebookCrossNorms ((codebookOffsets (im + ij) + code.getD (im + ij) 0) * ldc + kk)

/-- `reg`: the sum of `M` entries of a column. -/
def reg (cbs : ℕ → ℕ → F) (M kk : ℕ) : F :=
  (List.range' 1 (M - 1)).foldl (fun r ij ↦ fl.add r (cbs ij kk)) (cbs 0 kk)

/-- `8 * NK` -/
def chunkSize : ℕ := 8 * 4

/-- `K8`: the columns in whole chunks, where there are registers for it. -/
def chunkColumns (simd : Bool) (K : ℕ) : ℕ := if simd then K / chunkSize * chunkSize else 0

/-- A loop over the columns, in chunks and then one by one. -/
def columns (simd : Bool) (K : ℕ) (chunk one : ℕ → F → F) (ofs : ℕ) (output : ℕ → F) : ℕ → F :=
  let K8 := chunkColumns simd K
  let output := (List.range (K8 / chunkSize)).foldl (fun out c ↦
    write out (ofs + c * chunkSize) ((List.range chunkSize).map fun l ↦
      chunk (c * chunkSize + l) (out (ofs + c * chunkSize + l)))) output
  (List.range (K - K8)).foldl (fun out t ↦
    let kk := K8 + t
    update out (ofs + kk) (one kk (out (ofs + kk)))) output

/-- `accum_and_store_tab` -/
def store (simd : Bool) (M : ℕ) (cbs : ℕ → ℕ → F) (K : ℕ) (output : ℕ → F) : ℕ → F :=
  columns simd K (fun kk _ ↦ reg fl cbs M kk) (fun kk _ ↦ reg fl cbs M kk) 0 output

/-- `accum_and_add_tab` -/
def add (simd : Bool) (M : ℕ) (cbs : ℕ → ℕ → F) (K : ℕ) (output : ℕ → F) : ℕ → F :=
  columns simd K (fun kk existing ↦ fl.add existing (reg fl cbs M kk))
    (fun kk existing ↦ fl.add existing (reg fl cbs M kk)) 0 output

/-- `accum_and_finalize_tab` -/
def finalize (simd : Bool) (M : ℕ) (cbs : ℕ → ℕ → F) (b K : ℕ) (distance : F) (cdCommon : ℕ → F)
    (output : ℕ → F) : ℕ → F :=
  columns simd K
    (fun kk _ ↦ fl.add (fl.add (fl.mul fl.two (reg fl cbs M kk)) (cdCommon kk)) distance)
    (fun kk _ ↦ fl.add (fl.add distance (cdCommon kk)) (fl.mul fl.two (reg fl cbs M kk)))
    (b * K) output

end AccumTab

/-- The distances of the candidates of one vector, as `beam_search_encode_step_tab` computes them: the
number `m` of codes decides how the table entries are added up. -/
def centDistancesTab (simd : Bool) (K beamSize : ℕ) (codebookCrossNorms : ℕ → F) (ldc : ℕ)
    (codebookOffsets : ℕ → ℕ) (cdCommon : ℕ → F) (m : ℕ) (codes : ℕ → List ℕ) (distances : ℕ → F) :
    ℕ → F :=
  let cbs := fun b im ↦ AccumTab.cbs codebookCrossNorms codebookOffsets (codes b) im ldc
  (List.range beamSize).foldl (fun centDistances b ↦
    if m = 0 then
      (List.range K).foldl (fun out k ↦
        update out (b * K + k) (fl.add (distances b) (cdCommon k))) centDistances
    else if m < 8 then
      AccumTab.finalize fl simd m (cbs b 0) b K (distances b) cdCommon centDistances
    else
      -- all of `dp` is written for each hypothesis
      let dp := AccumTab.store fl simd 8 (cbs b 0) K fun _ ↦ fl.zero
      let dp := (List.range' 1 ((m + 7) / 8 - 1)).foldl (fun dp t ↦
        let im := 8 * t
        AccumTab.add fl simd (min (m - im) 8) (cbs b im) K dp) dp
      (List.range K).foldl (fun out k ↦
        update out (b * K + k)
          (fl.add (fl.add (distances b) (cdCommon k)) (fl.mul fl.two (dp k)))) centDistances)
    fun _ ↦ fl.zero

/-! ## Selecting candidates -/

/-- `new_distances_i` and `perm` after `heap_addn` and `heap_reorder`. -/
def bestCandidates (newBeamSize : ℕ) (centDistances : ℕ → F) (n : ℕ) : ℕ → F × ℤ :=
  (heapReorder C newBeamSize
    (heapAddn C newBeamSize (fun _ ↦ (C.neutral, -1)) (fun p ↦ (centDistances p, p)) n)).2

/-- `js` and `ls` of a candidate, as a position in the array of a vector whose codes start at `ofs`. -/
def candidateSlot (ofs K : ℕ) (perm : ℤ) : ℕ × ℕ := ((ofs + perm / K).toNat, (perm % K).toNat)

/-- What a step writes. -/
structure BeamArrays (F : Type) where
  codes : ℕ → List ℕ
  residuals : ℕ → ℕ → F
  distances : ℕ → F

/-- `beam_search_encode_step` -/
def beamSearchEncodeStep (d K : ℕ) (cent : ℕ → ℕ → F) (n beamSize : ℕ) (residuals : ℕ → ℕ → F)
    (m : ℕ) (codes : ℕ → List ℕ) (newBeamSize : ℕ) (out : BeamArrays F) : Except Fault (BeamArrays F) := do
  Fault.throwIfNot (newBeamSize ≤ beamSize * K) "new_beam_size <= beam_size * K"
  let centDistances := fl.pairwiseL2sqr d K residuals cent
  return (List.range n).foldl (fun out i ↦
    let best := bestCandidates C newBeamSize (fun p ↦ centDistances (i * (beamSize * K) + p))
      (beamSize * K)
    let c := fun j ↦ candidateSlot (i * beamSize) K (best j).2
    { codes := write out.codes (i * newBeamSize)
        ((List.range newBeamSize).map fun j ↦ (codes (c j).1).take m ++ [(c j).2])
      residuals := write out.residuals (i * newBeamSize)
        ((List.range newBeamSize).map fun j ↦ fl.fvecSub (residuals (c j).1) (cent (c j).2))
      distances := write out.distances (i * newBeamSize)
        ((List.range newBeamSize).map fun j ↦ (best j).1) }) out

/-- `beam_search_encode_step_tab` -/
def beamSearchEncodeStepTab (simd : Bool) (K n beamSize : ℕ) (codebookCrossNorms : ℕ → F) (ldc : ℕ)
    (codebookOffsets : ℕ → ℕ) (queryCp : ℕ → F) (ldqc : ℕ) (centNorms : ℕ → F) (m : ℕ)
    (codes : ℕ → List ℕ) (distances : ℕ → F) (newBeamSize : ℕ) (newCodes : ℕ → List ℕ)
    (newDistances : ℕ → F) : Except Fault ((ℕ → List ℕ) × (ℕ → F)) := do
  Fault.throwIfNot (K ≤ ldc) "ldc >= K"
  return (List.range n).foldl (fun (out : (ℕ → List ℕ) × (ℕ → F)) i ↦
    let cdCommon := fun k ↦ fl.sub (centNorms k) (fl.mul fl.two (queryCp (i * ldqc + k)))
    let centDistances := centDistancesTab fl simd K beamSize codebookCrossNorms ldc codebookOffsets
      cdCommon m (fun b ↦ codes (i * beamSize + b)) fun b ↦ distances (i * beamSize + b)
    let best := bestCandidates C newBeamSize centDistances (beamSize * K)
    let c := fun j ↦ candidateSlot (i * beamSize) K (best j).2
    (write out.1 (i * newBeamSize)
        ((List.range newBeamSize).map fun j ↦ (codes (c j).1).take m ++ [(c j).2]),
      write out.2 (i * newBeamSize) ((List.range newBeamSize).map fun j ↦ (best j).1)))
    (newCodes, newDistances)

end FaissNavix

/-!
# Encoding with a residual quantizer

`refine_beam_mp`, `refine_beam_LUT_mp` and what calls them, up to
`ResidualQuantizer::compute_codes_add_centroids`.  The memory pools go from one block of vectors to the
next; that the two buffers of a pool are swapped is what the swap of the pointers to them does.
-/

namespace FaissNavix

open Lib (read write)

namespace ResidualQuantizer

variable {F : Type} (rq : ResidualQuantizer F) (fl : Floats F) (C : KeyValueOrder F)

/-- `codebooks_m` -/
def codebook (m k : ℕ) : ℕ → F := rq.codebooks (rq.codebookOffsets m + k)

/-! ## Without tables -/

/-- `RefineBeamMemoryPool`, and the local variables of `refine_beam_mp`: `size` counts the hypotheses
of all vectors. -/
structure RefineBeam (F : Type) where
  codes : ℕ → List ℕ
  newCodes : ℕ → List ℕ
  residuals : ℕ → ℕ → F
  newResiduals : ℕ → ℕ → F
  distances : ℕ → F
  curBeamSize : ℕ
  size : ℕ

/-- A turn of the main loop of `refine_beam_mp`. -/
def refineBeamStep (n outBeamSize : ℕ) (s : RefineBeam F) (m : ℕ) : Except Fault (RefineBeam F) := do
  let K := 2 ^ rq.nbits m
  let newBeamSize := min (s.curBeamSize * K) outBeamSize
  let out ← beamSearchEncodeStep fl C rq.d K (rq.codebook m) n s.curBeamSize s.residuals m s.codes
    newBeamSize ⟨s.newCodes, s.newResiduals, s.distances⟩
  return {
    codes := out.codes
    newCodes := s.codes
    residuals := out.residuals
    newResiduals := s.residuals
    distances := out.distances
    curBeamSize := newBeamSize
    size := n * newBeamSize }

/-- `refine_beam_mp` -/
def refineBeamMp (n beamSize : ℕ) (x : ℕ → ℕ → F) (outBeamSize : ℕ) (out : BeamArrays F)
    (pool : RefineBeam F) : Except Fault (BeamArrays F × RefineBeam F) := do
  let s ← (List.range rq.M).foldlM (rq.refineBeamStep fl C n outBeamSize)
    { pool with
      residuals := write pool.residuals 0 ((List.range (n * beamSize)).map x)
      curBeamSize := beamSize
      size := 0 }
  return (⟨write out.codes 0 (read s.codes 0 s.size), write out.residuals 0 (read s.residuals 0 s.size),
    write out.distances 0 (read s.distances 0 s.size)⟩, s)

/-! ## With tables -/

/-- `RefineBeamLUTMemoryPool`, and the local variables of `refine_beam_LUT_mp`. -/
structure RefineBeamLUT (F : Type) where
  codes : ℕ → List ℕ
  newCodes : ℕ → List ℕ
  distances : ℕ → F
  newDistances : ℕ → F
  beamSize : ℕ
  size : ℕ
  crossOfs : ℕ

/-- A turn of the main loop of `refine_beam_LUT_mp`. -/
def refineBeamLUTStep (simd : Bool) (n : ℕ) (queryCp : ℕ → F) (outBeamSize : ℕ) (s : RefineBeamLUT F)
    (m : ℕ) : Except Fault (RefineBeamLUT F) := do
  let K := 2 ^ rq.nbits m
  let newBeamSize := min (s.beamSize * K) outBeamSize
  Fault.throwIfNot (s.crossOfs + rq.codebookOffsets m * K ≤ rq.crossTableSize)
    "cross_ofs + rq.codebook_offsets[m] * K <= rq.codebook_cross_products.size()"
  let out ← beamSearchEncodeStepTab fl C simd K n s.beamSize
    (fun p ↦ rq.codebookCrossProducts (s.crossOfs + p)) K rq.codebookOffsets
    (fun p ↦ queryCp (rq.codebookOffsets m + p)) rq.totalCodebookSize
    (fun k ↦ rq.centroidNorms (rq.codebookOffsets m + k)) m s.codes s.distances newBeamSize s.newCodes
    s.newDistances
  return {
    codes := out.1
    newCodes := s.codes
    distances := out.2
    newDistances := s.distances
    beamSize := newBeamSize
    size := n * newBeamSize
    crossOfs := s.crossOfs + rq.codebookOffsets m * K }

/-- `refine_beam_LUT_mp` -/
def refineBeamLUTMp (simd : Bool) (n : ℕ) (queryNorms queryCp : ℕ → F) (outBeamSize : ℕ)
    (outCodes : ℕ → List ℕ) (outDistances : ℕ → F) (pool : RefineBeamLUT F) :
    Except Fault ((ℕ → List ℕ) × (ℕ → F) × RefineBeamLUT F) := do
  let s ← (List.range rq.M).foldlM (rq.refineBeamLUTStep fl C simd n queryCp outBeamSize)
    { pool with
      distances := write pool.distances 0 ((List.range n).map queryNorms)
      beamSize := 1
      size := 0
      crossOfs := 0 }
  return (write outCodes 0 (read s.codes 0 s.size), write outDistances 0 (read s.distances 0 s.size), s)

/-! ## Blocks of vectors -/

/-- `ComputeCodesAddCentroidsLUT0MemoryPool` -/
structure LUT0Pool (F : Type) where
  out : BeamArrays F
  refineBeamPool : RefineBeam F

/-- `ComputeCodesAddCentroidsLUT1MemoryPool` -/
structure LUT1Pool (F : Type) where
  codes : ℕ → List ℕ
  distances : ℕ → F
  queryCp : ℕ → F
  refineBeamLUTPool : RefineBeamLUT F

variable (useBeamLUT : ℤ) (simd : Bool) (x : ℕ → ℕ → F) (codesOut : ℕ → UInt8) (ofs : ℕ)

def newLUT0Pool : LUT0Pool F where
  out := ⟨fun _ ↦ List.replicate rq.M 0, fun _ _ ↦ fl.zero, fun _ ↦ fl.zero⟩
  refineBeamPool := ⟨fun _ ↦ [], fun _ ↦ [], fun _ _ ↦ fl.zero, fun _ _ ↦ fl.zero, fun _ ↦ fl.zero, 0, 0⟩

def newLUT1Pool : LUT1Pool F where
  codes := fun _ ↦ List.replicate rq.M 0
  distances := fun _ ↦ fl.zero
  queryCp := fun _ ↦ fl.zero
  refineBeamLUTPool := ⟨fun _ ↦ [], fun _ ↦ [], fun _ ↦ fl.zero, fun _ ↦ fl.zero, 0, 0, 0⟩

/-- `compute_codes_add_centroids_mp_lut0`, which writes codes from `ofs` on.  The codes of a vector are
the first ones of `max_beam_size`. -/
def computeCodesLUT0 (n : ℕ)
    (centroids : Option (ℕ → ℕ → F)) (pool : LUT0Pool F) :
    Except Fault ((ℕ → UInt8) × LUT0Pool F) := do
  let (out, refinePool) ← rq.refineBeamMp fl C n 1 x rq.maxBeamSize pool.out pool.refineBeamPool
  let norms :=
    if rq.searchType.normOfResidual then
      some fun i ↦ fl.l2sqr (x i) (out.residuals (i * rq.maxBeamSize)) rq.d
    else none
  let codesOut ← rq.packCodes fl n out.codes codesOut ofs rq.maxBeamSize norms centroids
  return (codesOut, ⟨out, refinePool⟩)

/-- `compute_codes_add_centroids_mp_lut1` -/
def computeCodesLUT1 (n : ℕ)
    (centroids : Option (ℕ → ℕ → F)) (pool : LUT1Pool F) :
    Except Fault ((ℕ → UInt8) × LUT1Pool F) := do
  Fault.throwIfNotMsg (rq.M = 1 || 0 < rq.crossTableSize)
    "rq.M == 1 || rq.codebook_cross_products.size() > 0" "call compute_codebook_tables first"
  let queryNorms := fun i ↦ fl.normL2sqr (x i) rq.d
  let queryCp := fl.sgemm rq.totalCodebookSize n rq.d rq.codebooks x pool.queryCp rq.totalCodebookSize
  let (codes, distances, refinePool) ← rq.refineBeamLUTMp fl C simd n queryNorms queryCp rq.maxBeamSize
    pool.codes pool.distances pool.refineBeamLUTPool
  let codesOut ← rq.packCodes fl n codes codesOut ofs rq.maxBeamSize none centroids
  return (codesOut, ⟨codes, distances, queryCp, refinePool⟩)

/-- `memory_per_point` for `max_beam_size` -/
def memoryPerPoint : ℕ :=
  rq.maxBeamSize * rq.d * 2 * 4 + rq.maxBeamSize * rq.maxBeamSize * (4 + 8)

/-- `bs` -/
def blockSize : ℕ :=
  let bs := rq.maxMemDistances / rq.memoryPerPoint
  if bs = 0 then 1 else bs

/-- The loop over blocks of vectors. -/
def forBlocks {P : Type} (n : ℕ) (centroids : Option (ℕ → ℕ → F))
    (block : ℕ → ℕ → Option (ℕ → ℕ → F) → (ℕ → UInt8) × P → Except Fault ((ℕ → UInt8) × P))
    (s : (ℕ → UInt8) × P) : Except Fault ((ℕ → UInt8) × P) :=
  (List.range ((n + rq.blockSize - 1) / rq.blockSize)).foldlM (fun s b ↦
    let i0 := b * rq.blockSize
    let i1 := min n (i0 + rq.blockSize)
    block i0 (i1 - i0) (centroids.map fun c i ↦ c (i0 + i)) s) s

/-- `compute_codes_add_centroids`, for a value of `use_beam_LUT`; `simd` says whether the build has
registers of eight floats. -/
def computeCodesAddCentroids (n : ℕ)
    (centroids : Option (ℕ → ℕ → F)) : Except Fault (ℕ → UInt8) := do
  Fault.throwIfNotMsg rq.isTrained "is_trained" "RQ is not trained yet."
  if useBeamLUT = 0 then
    let s ← rq.forBlocks n centroids (fun i0 len cent s ↦
      rq.computeCodesLUT0 fl C (fun i ↦ x (i0 + i)) s.1 (i0 * rq.codeSize) len cent s.2)
      (codesOut, rq.newLUT0Pool fl)
    return s.1
  else if useBeamLUT = 1 then
    let s ← rq.forBlocks n centroids (fun i0 len cent s ↦
      rq.computeCodesLUT1 fl C simd (fun i ↦ x (i0 + i)) s.1 (i0 * rq.codeSize) len cent s.2)
      (codesOut, rq.newLUT1Pool fl)
    return s.1
  else return codesOut

/-- `compute_codes` -/
def computeCodes (n : ℕ) :
    Except Fault (ℕ → UInt8) :=
  rq.computeCodesAddCentroids fl C useBeamLUT simd x codesOut n none

end ResidualQuantizer

end FaissNavix
