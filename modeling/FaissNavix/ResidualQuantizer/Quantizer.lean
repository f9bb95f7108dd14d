import FaissNavix.Bitstring
import FaissNavix.Invlists.InvertedLists
import FaissNavix.Lib.Region
import FaissNavix.ProductQuantizer

/-!
# Residual quantizers

The parts of `faiss/impl/AdditiveQuantizer.cpp` and `faiss/impl/ResidualQuantizer.h` that encoding
vectors rests on: the layout of the codebooks, the tables of norms and inner products of their
entries, and the packing of codes.  A vector is a function of the dimension, and an array of vectors, or
of codes of one length, is a function of the position in the array.
-/

namespace FaissNavix

open Lib (write)

namespace Floats

variable {F : Type} (fl : Floats F)

/-- `fvec_add` -/
def fvecAdd (a b : ℕ → F) : ℕ → F := fun t ↦ fl.add (a t) (b t)

/-- `fvec_sub` -/
def fvecSub (a b : ℕ → F) : ℕ → F := fun t ↦ fl.sub (a t) (b t)

/-- `sgemm_` of the transposed columns of `a` and the columns of `b`, into columns of length `ldc`. -/
def sgemm (m n k : ℕ) (a b : ℕ → ℕ → F) (c : ℕ → F) (ldc : ℕ) : ℕ → F :=
  fun p ↦ if p % ldc < m ∧ p / ldc < n then fl.innerProduct (a (p % ldc)) (b (p / ldc)) k else c p

/-- `pairwise_L2sqr`, which writes the norms of `xb` over the first row, and adds the products with
`sgemm_`. -/
def pairwiseL2sqr (d nb : ℕ) (xq xb : ℕ → ℕ → F) : ℕ → F :=
  fun p ↦
    let i := p / nb
    let j := p % nb
    let bNorm := fl.normL2sqr (xb j) d
    let qNorm := fl.normL2sqr (xq i) d
    let dis := if i = 0 then fl.add bNorm qNorm else fl.add qNorm bNorm
    fl.add (fl.mul fl.minusTwo (fl.innerProduct (xb j) (xq i) d)) dis

end Floats

/-- `AdditiveQuantizer::Search_type_t` -/
inductive SearchType where
  | decompress
  | lutNonorm
  | normFromLut
  | normFloat
  | normQint8
  | normQint4
  | normCqint8
  | normCqint4
  | normLsq2x4
  | normRq2x4
deriving DecidableEq, Repr

namespace SearchType

/-- `norm_bits` -/
def normBits : SearchType → ℕ
  | normFloat => 32
  | normQint8 | normCqint8 | normLsq2x4 | normRq2x4 => 8
  | normQint4 | normCqint4 => 4
  | decompress | lutNonorm | normFromLut => 0

/-- The types for which `pack_codes` needs norms. -/
def withNorm (st : SearchType) : Bool :=
  st = normFloat || st = normQint4 || st = normQint8 || st = normCqint8 || st = normCqint4 ||
    st = normLsq2x4 || st = normRq2x4

def normOfResidual (st : SearchType) : Bool := st = normFloat || st = normQint8 || st = normQint4

end SearchType

/-- The codes of norms: the bits of a float, `encode_qint8`, `encode_qint4`, and `encode_qcint` where
`qnorm` has 256 or 16 entries. -/
structure NormEncoders (F : Type) where
  float : F → Fin (2 ^ 32)
  qint8 : F → Fin (2 ^ 8)
  qint4 : F → Fin (2 ^ 4)
  qcint8 : F → Fin (2 ^ 8)
  qcint4 : F → Fin (2 ^ 4)

/-- All norms have code 0. -/
def NormEncoders.zero (F : Type) : NormEncoders F where
  float := fun _ ↦ 0
  qint8 := fun _ ↦ 0
  qint4 := fun _ ↦ 0
  qcint8 := fun _ ↦ 0
  qcint4 := fun _ ↦ 0

/-- A `ResidualQuantizer` without an `assign_index_factory`, that selects with `EXACT_TOPK`. -/
structure ResidualQuantizer (F : Type) where
  d : ℕ
  M : ℕ
  nbits : ℕ → ℕ
  /-- The centroids of all levels, one level after the other. -/
  codebooks : ℕ → ℕ → F
  searchType : SearchType
  isTrained : Bool
  maxMemDistances : ℕ
  maxBeamSize : ℕ
  centroidNorms : ℕ → F
  codebookCrossProducts : ℕ → F
  /-- `codebook_cross_products.size()` -/
  crossTableSize : ℕ
  normEncoders : NormEncoders F

namespace ResidualQuantizer

variable {F : Type} (rq : ResidualQuantizer F) (fl : Floats F)

/-- `codebook_offsets` -/
def codebookOffsets : ℕ → ℕ
  | 0 => 0
  | m + 1 => codebookOffsets m + 2 ^ rq.nbits m

/-- `total_codebook_size` -/
def totalCodebookSize : ℕ := rq.codebookOffsets rq.M

/-- `norm_bits` -/
def normBits : ℕ := rq.searchType.normBits

/-- `code_size` -/
def codeSize : ℕ := (((List.range rq.M).map rq.nbits).sum + rq.normBits + 7) / 8

/-- `compute_codebook_tables`: the norms, and the products of the entries of each codebook with those
of the codebooks before it. -/
def computeCodebookTables : ResidualQuantizer F :=
  let tables := (List.range' 1 (rq.M - 1)).foldl (fun (t : (ℕ → F) × ℕ) m ↦
    let ki := 2 ^ rq.nbits m
    let kk := rq.codebookOffsets m
    let block := fl.sgemm ki kk rq.d (fun r ↦ rq.codebooks (kk + r)) rq.codebooks
      (fun p ↦ t.1 (t.2 + p)) ki
    (write t.1 t.2 ((List.range (ki * kk)).map block), t.2 + ki * kk))
    (rq.codebookCrossProducts, 0)
  { rq with
    centroidNorms := fun c ↦ fl.normL2sqr (rq.codebooks c) rq.d
    codebookCrossProducts := tables.1
    crossTableSize := ((List.range rq.M).map fun m ↦ 2 ^ rq.nbits m * rq.codebookOffsets m).sum }

/-- `encode_norm` -/
def encodeNorm (norm : F) : ℕ :=
  match rq.searchType with
  | .normFloat => rq.normEncoders.float norm
  | .normQint8 => rq.normEncoders.qint8 norm
  | .normQint4 => rq.normEncoders.qint4 norm
  | .normLsq2x4 | .normRq2x4 | .normCqint8 => rq.normEncoders.qcint8 norm
  | .normCqint4 => rq.normEncoders.qcint4 norm
  | .decompress | .lutNonorm | .normFromLut => 0

/-- One vector of `decode_unpacked`: the entries of the codebooks are added up. -/
def decodeCode (code : List ℕ) : ℕ → F :=
  (List.range rq.M).foldl (fun x m ↦
    let c := rq.codebooks (rq.codebookOffsets m + code.getD m 0)
    if m = 0 then c else fl.fvecAdd x c) fun _ ↦ fl.zero

/-- `decode_unpacked`, where `ld` counts codes. -/
def decodeUnpacked (code : ℕ → List ℕ) (ld : ℕ) : Except Fault (ℕ → ℕ → F) := do
  Fault.throwIfNotMsg rq.isTrained "is_trained" "The additive quantizer is not trained yet."
  return fun i ↦ rq.decodeCode fl (code (i * ld))

/-- A writer that has stayed within the code. -/
def withinCode (bsw : Option BitstringWriter) : Except Fault BitstringWriter :=
  match bsw with
  | some bsw => .ok bsw
  | none => .error (.assertion "code_size * 8 >= nbit + i")

/-- The bytes that `pack_codes` writes for a code. -/
def packCode (code : List ℕ) (norm : Except Fault F) : Except Fault (List UInt8) := do
  let bsw ← withinCode ((List.range rq.M).foldlM
    (fun bsw m ↦ bsw.write (code.getD m 0) (rq.nbits m)) (BitstringWriter.new rq.codeSize))
  if rq.normBits ≠ 0 then
    let bsw ← withinCode (bsw.write (rq.encodeNorm (← norm)) rq.normBits)
    return bsw.code
  else return bsw.code

/-- `pack_codes`, where `ld` counts codes. -/
def packCodes (n : ℕ) (codes : ℕ → List ℕ) (packedCodes : ℕ → UInt8) (ofs ld : ℕ)
    (norms : Option (ℕ → F)) (centroids : Option (ℕ → ℕ → F)) : Except Fault (ℕ → UInt8) := do
  let norms ←
    if rq.searchType.withNorm && (centroids.isSome || norms.isNone) then do
      let xRecons ← rq.decodeUnpacked fl codes ld
      let xRecons := match centroids with
        | some c => fun i ↦ fl.fvecAdd (xRecons i) (c i)
        | none => xRecons
      pure (some fun i ↦ fl.normL2sqr (xRecons i) rq.d)
    else pure norms
  (List.range n).foldlM (fun packed i ↦ do
    let norm := match norms with
      | some norms => .ok (norms i)
      | none => .error .nullPointer
    let code ← rq.packCode (codes (i * ld)) norm
    return write packed (ofs + i * rq.codeSize) code) packedCodes

end ResidualQuantizer

end FaissNavix
