import FaissNavix.ResidualQuantizer.BeamsTab

/-!
# The code of one vector

Each block of vectors writes the packed first hypothesis of each of its vectors, as long as the strides
agree with the size of the last beam; so `compute_codes_add_centroids` writes the code of each vector at
its place.
-/

namespace FaissNavix

open Lib

variable {F : Type}

namespace ResidualQuantizer

variable (rq : ResidualQuantizer F) (fl : Floats F) (C : KeyValueOrder F) (simd : Bool)

/-- The norm of what a code stands for. -/
def decodedNorm (code : List ℕ) (centroid : Option (ℕ → F)) : F :=
  fl.normL2sqr (match centroid with
    | some c => fl.fvecAdd (rq.decodeCode fl code) c
    | none => rq.decodeCode fl code) rq.d

/-- The bytes for a code, where `norm` is what there is without the code. -/
def packed (code : List ℕ) (norm : Option F) (centroid : Option (ℕ → F)) : Except Fault (List UInt8) :=
  rq.packCode code
    (if rq.searchType.withNorm && (centroid.isSome || norm.isNone) then
      .ok (rq.decodedNorm fl code centroid)
    else match norm with
      | some norm => .ok norm
      | none => .error .nullPointer)

/-- The code of a vector, without tables. -/
def encodeVector (x : ℕ → F) (centroid : Option (ℕ → F)) : Except Fault (List UInt8) :=
  rq.packed fl ((rq.beam fl C x rq.M).codes 0)
    (if rq.searchType.normOfResidual then
      some (fl.l2sqr x ((rq.beam fl C x rq.M).residuals 0) rq.d)
    else none) centroid

/-- The code of a vector, with tables. -/
def encodeVectorTab (x : ℕ → F) (centroid : Option (ℕ → F)) : Except Fault (List UInt8) :=
  rq.packed fl ((rq.beamTab fl C simd x rq.M).1 0) none centroid

/-- The strides of the results are those of the last beam, or there is only one vector. -/
def Aligned (n : ℕ) : Prop := rq.beamSizeAt rq.M = rq.maxBeamSize ∨ n ≤ 1

variable {rq fl C simd} {n : ℕ} {x : ℕ → ℕ → F}

/-- `pack_codes` writes the bytes for each code. -/
theorem packCodes_eq (htrained : rq.isTrained = true) (codes : ℕ → List ℕ) (m : ℕ → UInt8)
    (ofs ld : ℕ) (norms : Option (ℕ → F)) (centroids : Option (ℕ → ℕ → F)) :
    rq.packCodes fl n codes m ofs ld norms centroids =
      writeRows rq.codeSize (fun i ↦ rq.packed fl (codes (i * ld)) (norms.map (· i))
        (centroids.map (· i))) ofs n m := by
  rw [packCodes, decodeUnpacked, htrained]
  by_cases hnorm : (rq.searchType.withNorm && (centroids.isSome || norms.isNone)) = true
  · rw [if_pos hnorm]
    refine (writeRows_congr fun i _ ↦ ?_).symm
    have hnorm' : (rq.searchType.withNorm &&
        ((centroids.map (· i)).isSome || (norms.map (· i)).isNone)) = true := by
      rwa [Option.isSome_map, Option.isNone_map]
    unfold packed
    rw [if_pos hnorm']
    cases centroids with
    | none => rfl
    | some c => rfl
  · rw [if_neg hnorm]
    refine (writeRows_congr fun i _ ↦ ?_).symm
    have hnorm' : ¬ (rq.searchType.withNorm &&
        ((centroids.map (· i)).isSome || (norms.map (· i)).isNone)) = true := by
      rwa [Option.isSome_map, Option.isNone_map]
    unfold packed
    rw [if_neg hnorm']
    cases norms with
    | none => rfl
    | some norms => rfl

/-! ## Packing succeeds -/

theorem encodeNorm_lt (norm : F) : rq.encodeNorm norm < 2 ^ rq.normBits := by
  rw [encodeNorm, normBits]
  cases rq.searchType with
  | normFloat => exact (rq.normEncoders.float norm).isLt
  | normQint8 => exact (rq.normEncoders.qint8 norm).isLt
  | normQint4 => exact (rq.normEncoders.qint4 norm).isLt
  | normCqint8 => exact (rq.normEncoders.qcint8 norm).isLt
  | normCqint4 => exact (rq.normEncoders.qcint4 norm).isLt
  | normLsq2x4 => exact (rq.normEncoders.qcint8 norm).isLt
  | normRq2x4 => exact (rq.normEncoders.qcint8 norm).isLt
  | decompress => exact Nat.zero_lt_one
  | lutNonorm => exact Nat.zero_lt_one
  | normFromLut => exact Nat.zero_lt_one

/-- The bits before level `m`. -/
def bitsBefore (rq : ResidualQuantizer F) (m : ℕ) : ℕ := ((List.range m).map rq.nbits).sum

theorem bitsBefore_succ (m : ℕ) : rq.bitsBefore (m + 1) = rq.bitsBefore m + rq.nbits m := by
  rw [bitsBefore, bitsBefore, List.range_succ, List.map_append, List.sum_append, List.map_singleton,
    List.sum_singleton]

theorem bitsBefore_mono : Monotone rq.bitsBefore :=
  monotone_nat_of_le_succ fun m ↦ by
    rw [bitsBefore_succ]
    exact Nat.le_add_right _ _

/-- No code is written after the last byte, not even one without bits. -/
def Packable (rq : ResidualQuantizer F) : Prop :=
  ∀ m < rq.M, rq.nbits m ≤ 64 ∧ rq.bitsBefore m < 8 * rq.codeSize

theorem bits_le_codeSize (rq : ResidualQuantizer F) : rq.bitsBefore rq.M + rq.normBits ≤ 8 * rq.codeSize := by
  rw [codeSize, bitsBefore]
  omega

theorem packable_of_pos (hbits : ∀ m < rq.M, 0 < rq.nbits m ∧ rq.nbits m ≤ 64) : rq.Packable := by
  intro m hm
  obtain ⟨hpos, hle⟩ := hbits m hm
  refine ⟨hle, ?_⟩
  have hmono : rq.bitsBefore (m + 1) ≤ rq.bitsBefore rq.M := bitsBefore_mono (Nat.succ_le_of_lt hm)
  have hsize := bits_le_codeSize rq
  rw [bitsBefore_succ] at hmono
  omega

section
variable (rq : ResidualQuantizer F) (code : List ℕ) (m : ℕ)

/-- The bits of the first `m` numbers of a code. -/
def codeBits : List Bool :=
  (List.range m).flatMap fun l ↦ toBits (rq.nbits l) (code.getD l 0)

theorem codeBits_succ :
    rq.codeBits code (m + 1) = rq.codeBits code m ++ toBits (rq.nbits m) (code.getD m 0) := by
  rw [codeBits, codeBits, List.range_succ, List.flatMap_append, List.flatMap_singleton]

theorem length_codeBits :
    (rq.codeBits code m).length = rq.bitsBefore m := by
  induction m with
  | zero => rfl
  | succ m ih => rw [codeBits_succ, List.length_append, ih, length_toBits, bitsBefore_succ]

end

theorem exists_writes {code : List ℕ} (hpack : rq.Packable) (hcode : rq.CodeFits rq.M code) :
    ∃ bsw, (List.range rq.M).foldlM (fun bsw m ↦ bsw.write (code.getD m 0) (rq.nbits m))
        (BitstringWriter.new rq.codeSize) = some bsw ∧
      bsw.Wrote (rq.codeBits code rq.M) ∧ bsw.code.length = rq.codeSize := by
  have hsize := bits_le_codeSize rq
  refine foldlM_range_done (fun m (bsw : BitstringWriter) ↦
    bsw.Wrote (rq.codeBits code m) ∧ bsw.code.length = rq.codeSize)
    ⟨BitstringWriter.wrote_new rq.codeSize, List.length_replicate⟩ fun m hm bsw ⟨hwrote, hlength⟩ ↦ ?_
  have hmono : rq.bitsBefore (m + 1) ≤ rq.bitsBefore rq.M := bitsBefore_mono (Nat.succ_le_of_lt hm)
  have hlen := length_codeBits rq code m
  rw [bitsBefore_succ] at hmono
  obtain ⟨hle, hbefore⟩ := hpack m hm
  obtain ⟨bsw', hbsw', hwrote', hlength'⟩ := hwrote.write (hcode.2 m hm) hle
    (by rw [hlen, hlength]; exact hbefore) (by rw [hlen, hlength]; omega)
  refine ⟨bsw', hbsw', ?_, hlength'.trans hlength⟩
  rwa [codeBits_succ]

/-- The bytes have the bits of the numbers of a code. -/
structure HoldsCode (rq : ResidualQuantizer F) (bytes : List UInt8) (code : List ℕ) : Prop where
  length : bytes.length = rq.codeSize
  bits : ∀ p < rq.bitsBefore rq.M, bitAt bytes p = (rq.codeBits code rq.M).getD p false

theorem exists_packCode {code : List ℕ} {norm : Except Fault F} (hpack : rq.Packable)
    (hcode : rq.CodeFits rq.M code) (hnorm : rq.normBits ≠ 0 → ∃ v, norm = .ok v) :
    ∃ bytes, rq.packCode code norm = .ok bytes ∧ rq.HoldsCode bytes code := by
  have hsize := bits_le_codeSize rq
  obtain ⟨bsw, hbsw, hwrote, hlength⟩ := exists_writes hpack hcode
  have hlen := length_codeBits rq code rq.M
  rw [packCode, hbsw]
  by_cases hzero : rq.normBits = 0
  · exact ⟨bsw.code, if_neg (not_not_intro hzero), hlength, fun p _ ↦ hwrote.2 p⟩
  · obtain ⟨v, rfl⟩ := hnorm hzero
    have hnormBits : rq.normBits ≤ 64 := by
      rw [normBits]
      cases rq.searchType <;> decide
    obtain ⟨bsw', hbsw', hwrote', hlength'⟩ := hwrote.write (encodeNorm_lt v) hnormBits
      (by rw [hlen, hlength]; omega) (by rw [hlen, hlength]; omega)
    refine ⟨bsw'.code, (if_pos hzero).trans ?_, hlength'.trans hlength, fun p hp ↦ ?_⟩
    · exact congrArg (fun r ↦ withinCode r >>= fun bsw ↦ .ok bsw.code) hbsw'
    · rw [hwrote'.2, List.getD_append _ _ _ _ (by rwa [hlen])]

theorem exists_packed (fl : Floats F) {code : List ℕ} (norm : Option F) (centroid : Option (ℕ → F))
    (hpack : rq.Packable) (hcode : rq.CodeFits rq.M code) :
    ∃ bytes, rq.packed fl code norm centroid = .ok bytes ∧ rq.HoldsCode bytes code := by
  refine exists_packCode hpack hcode fun hzero ↦ ?_
  have hwith : rq.searchType.withNorm = true := by
    revert hzero
    rw [normBits]
    cases rq.searchType <;> decide
  rw [hwith, Bool.true_and]
  cases norm with
  | none => exact ⟨_, if_pos (Bool.or_true _)⟩
  | some v =>
      split
      · exact ⟨_, rfl⟩
      · exact ⟨v, rfl⟩

/-! ## Blocks of vectors -/

theorem Aligned.mul_eq (halign : rq.Aligned n) {i : ℕ} (hi : i < n) :
    i * rq.maxBeamSize = i * rq.beamSizeAt rq.M + 0 := by
  rcases halign with hfull | hone
  · rw [hfull, Nat.add_zero]
  · obtain rfl : i = 0 := by omega
    rw [Nat.zero_mul, Nat.zero_mul]

theorem beamSizeAt_pos (hmax : 0 < rq.maxBeamSize) (m : ℕ) : 0 < rq.beamSizeAt m := by
  induction m with
  | zero => exact Nat.zero_lt_one
  | succ m ih => exact Nat.lt_min.mpr ⟨Nat.mul_pos ih (Nat.two_pow_pos _), hmax⟩

theorem beamSizeAt_eq (hmax : 0 < rq.maxBeamSize) (m : ℕ) :
    rq.beamSizeAt m = min (∏ l ∈ Finset.range m, 2 ^ rq.nbits l) rq.maxBeamSize := by
  induction m with
  | zero => exact (Nat.min_eq_left hmax).symm
  | succ m ih =>
      have hK : 1 ≤ 2 ^ rq.nbits m := Nat.one_le_two_pow
      rw [beamSizeAt, ih, Finset.prod_range_succ]
      rcases Nat.le_total (∏ l ∈ Finset.range m, 2 ^ rq.nbits l) rq.maxBeamSize with hle | hle
      · rw [Nat.min_eq_left hle]
      · rw [Nat.min_eq_right hle, Nat.min_eq_right (Nat.le_mul_of_pos_right _ hK),
          Nat.min_eq_right (hle.trans (Nat.le_mul_of_pos_right _ hK))]

theorem beamSizeAt_of_le (hmax : 0 < rq.maxBeamSize)
    (hbeam : rq.maxBeamSize ≤ ∏ m ∈ Finset.range rq.M, 2 ^ rq.nbits m) :
    rq.beamSizeAt rq.M = rq.maxBeamSize := by
  rw [beamSizeAt_eq hmax]
  exact Nat.min_eq_right hbeam

theorem computeCodesLUT0_eq (htrained : rq.isTrained = true) (hcomm : ∀ a b, fl.add a b = fl.add b a)
    (hM : 0 < rq.M) (hmax : 0 < rq.maxBeamSize) (halign : rq.Aligned n)
    (hfills : ∀ m < rq.M, ∀ i < n, rq.Fills fl C (x i) m) (codesOut : ℕ → UInt8) (ofs : ℕ)
    (centroids : Option (ℕ → ℕ → F)) (pool : LUT0Pool F) :
    ∃ pool', rq.computeCodesLUT0 fl C x codesOut ofs n centroids pool =
      writeRows rq.codeSize (fun i ↦ rq.encodeVector fl C (x i) (centroids.map (· i))) ofs n codesOut >>=
        fun m ↦ .ok (m, pool') := by
  obtain ⟨⟨out, refinePool⟩, hrun, hbeams⟩ :=
    refineBeamMp_spec hcomm hM hfills pool.out pool.refineBeamPool
  have hpack : rq.packCodes fl n out.codes codesOut ofs rq.maxBeamSize
      (if rq.searchType.normOfResidual then
        some fun i ↦ fl.l2sqr (x i) (out.residuals (i * rq.maxBeamSize)) rq.d
      else none) centroids =
      writeRows rq.codeSize (fun i ↦ rq.encodeVector fl C (x i) (centroids.map (· i))) ofs n
        codesOut := by
    refine (packCodes_eq htrained _ _ _ _ _ _).trans (writeRows_congr fun i hi ↦ ?_)
    obtain ⟨hcode, hresidual⟩ := hbeams i hi 0 (beamSizeAt_pos hmax _)
    have hcode' := (congrArg out.codes (halign.mul_eq hi)).trans hcode
    have hresidual' := (congrArg out.residuals (halign.mul_eq hi)).trans hresidual
    rw [encodeVector, hcode']
    split
    · rw [← hresidual']
      rfl
    · rfl
  refine ⟨⟨out, refinePool⟩, ?_⟩
  rw [computeCodesLUT0, hrun, ← hpack]
  rfl

theorem computeCodesLUT1_eq (htrained : rq.isTrained = true) (htables : rq.HasTables)
    (hcross : rq.M = 1 ∨ 0 < rq.crossTableSize) (hM : 0 < rq.M) (hmax : 0 < rq.maxBeamSize)
    (halign : rq.Aligned n) (hfills : ∀ m < rq.M, ∀ i < n, rq.FillsTab fl C simd (x i) m)
    (codesOut : ℕ → UInt8) (ofs : ℕ) (centroids : Option (ℕ → ℕ → F)) (pool : LUT1Pool F) :
    ∃ pool', rq.computeCodesLUT1 fl C simd x codesOut ofs n centroids pool =
      writeRows rq.codeSize (fun i ↦ rq.encodeVectorTab fl C simd (x i) (centroids.map (· i))) ofs n
        codesOut >>= fun m ↦ .ok (m, pool') := by
  obtain ⟨⟨codes, distances, refinePool⟩, hrun, hbeams⟩ :=
    refineBeamLUTMp_spec htables hM pool.queryCp hfills pool.codes pool.distances pool.refineBeamLUTPool
  have hthrow : (decide (rq.M = 1) || decide (0 < rq.crossTableSize)) = true := by
    rw [Bool.or_eq_true, decide_eq_true_eq, decide_eq_true_eq]
    exact hcross
  have hpack : rq.packCodes fl n codes codesOut ofs rq.maxBeamSize none centroids =
      writeRows rq.codeSize (fun i ↦ rq.encodeVectorTab fl C simd (x i) (centroids.map (· i))) ofs n
        codesOut := by
    refine (packCodes_eq htrained _ _ _ _ _ _).trans (writeRows_congr fun i hi ↦ ?_)
    have hcode := (congrArg codes (halign.mul_eq hi)).trans (hbeams i hi 0 (beamSizeAt_pos hmax _))
    rw [encodeVectorTab, hcode]
    rfl
  refine ⟨⟨codes, distances, fl.sgemm rq.totalCodebookSize n rq.d rq.codebooks x pool.queryCp
    rq.totalCodebookSize, refinePool⟩, ?_⟩
  rw [computeCodesLUT1, hthrow, ← hpack]
  dsimp only
  rw [hrun]
  rfl

theorem blockSize_pos (rq : ResidualQuantizer F) : 0 < rq.blockSize := by
  rw [blockSize]
  split
  · exact Nat.zero_lt_one
  · exact Nat.pos_of_ne_zero ‹_›

theorem Aligned.mono {n' : ℕ} (halign : rq.Aligned n) (hle : n' ≤ n) : rq.Aligned n' :=
  halign.imp_right hle.trans

/-- Blocks that write the rows of their vectors write the rows of all vectors. -/
theorem forBlocks_eq {P : Type} {centroids : Option (ℕ → ℕ → F)}
    {block : ℕ → ℕ → Option (ℕ → ℕ → F) → (ℕ → UInt8) × P → Except Fault ((ℕ → UInt8) × P)}
    (row : ℕ → Option (ℕ → F) → Except Fault (List UInt8))
    (hblock : ∀ i0 len, i0 + len ≤ n → len ≤ min n rq.blockSize → ∀ cent s, ∃ p,
      block i0 len cent s =
        writeRows rq.codeSize (fun i ↦ row (i0 + i) (cent.map (· i))) (i0 * rq.codeSize) len s.1 >>=
          fun m ↦ .ok (m, p)) (s : (ℕ → UInt8) × P) :
    (rq.forBlocks n centroids block s >>= fun s ↦ .ok s.1) =
      writeRows rq.codeSize (fun i ↦ row i (centroids.map (· i))) 0 n s.1 := by
  refine (foldlM_fst (g := fun m b ↦ writeRows rq.codeSize
    (fun i ↦ row (b * rq.blockSize + i) (centroids.map (· (b * rq.blockSize + i))))
    (b * rq.blockSize * rq.codeSize) (min n (b * rq.blockSize + rq.blockSize) - b * rq.blockSize) m)
    (fun b hb s ↦ ?_) s).trans ?_
  · have hb' : b * rq.blockSize < n := by
      have hlt := List.mem_range.mp hb
      rw [Nat.lt_div_iff_mul_lt rq.blockSize_pos] at hlt
      omega
    obtain ⟨p, hp⟩ := hblock (b * rq.blockSize)
      (min n (b * rq.blockSize + rq.blockSize) - b * rq.blockSize) (by omega) (by omega)
      (centroids.map fun c i ↦ c (b * rq.blockSize + i)) s
    refine ⟨p, hp.trans ?_⟩
    simp only [Option.map_map]
    rfl
  · have hrows := writeRows_blocks (w := rq.codeSize) (o := 0)
      (fun i ↦ row i (centroids.map (· i))) rq.blockSize_pos n s.1
    simpa only [Nat.zero_add] using hrows

theorem computeCodesAddCentroids_eq (htrained : rq.isTrained = true)
    (hcomm : ∀ a b, fl.add a b = fl.add b a) (hM : 0 < rq.M) (hmax : 0 < rq.maxBeamSize)
    (halign : rq.Aligned (min n rq.blockSize))
    (hfills : ∀ m < rq.M, ∀ i < n, rq.Fills fl C (x i) m) (codesOut : ℕ → UInt8)
    (centroids : Option (ℕ → ℕ → F)) :
    rq.computeCodesAddCentroids fl C 0 simd x codesOut n centroids =
      writeRows rq.codeSize (fun i ↦ rq.encodeVector fl C (x i) (centroids.map (· i))) 0 n codesOut := by
  rw [computeCodesAddCentroids, htrained, Fault.throwIfNotMsg_true, if_pos rfl]
  exact forBlocks_eq (fun i ↦ rq.encodeVector fl C (x i)) (fun i0 len hin hlen cent s ↦
    computeCodesLUT0_eq htrained hcomm hM hmax (halign.mono hlen)
      (fun m hm i hi ↦ hfills m hm (i0 + i) (by omega)) s.1 (i0 * rq.codeSize) cent s.2) _

theorem computeCodesAddCentroids_tab_eq (htrained : rq.isTrained = true)
    (htables : rq.HasTables) (hcross : rq.M = 1 ∨ 0 < rq.crossTableSize) (hM : 0 < rq.M)
    (hmax : 0 < rq.maxBeamSize) (halign : rq.Aligned (min n rq.blockSize))
    (hfills : ∀ m < rq.M, ∀ i < n, rq.FillsTab fl C simd (x i) m) (codesOut : ℕ → UInt8)
    (centroids : Option (ℕ → ℕ → F)) :
    rq.computeCodesAddCentroids fl C 1 simd x codesOut n centroids =
      writeRows rq.codeSize (fun i ↦ rq.encodeVectorTab fl C simd (x i) (centroids.map (· i))) 0 n
        codesOut := by
  rw [computeCodesAddCentroids, htrained, Fault.throwIfNotMsg_true, if_neg one_ne_zero, if_pos rfl]
  exact forBlocks_eq (fun i ↦ rq.encodeVectorTab fl C simd (x i)) (fun i0 len hin hlen cent s ↦
    computeCodesLUT1_eq htrained htables hcross hM hmax (halign.mono hlen)
      (fun m hm i hi ↦ hfills m hm (i0 + i) (by omega)) s.1 (i0 * rq.codeSize) cent s.2) _

end ResidualQuantizer

end FaissNavix
