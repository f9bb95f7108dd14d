import FaissNavix.Lib.Bits

/-!
# Product quantizers

`ProductQuantizer` of `faiss/impl/ProductQuantizer.cpp`, with the encoders and decoders of
`faiss/impl/ProductQuantizer-inl.h`: a vector is cut into `M` sub-vectors, and a code has the number
of a centroid for each of them.

The arithmetic on floats is a parameter, so that the same definitions stand for what is computed and
for exact arithmetic.
-/

namespace FaissNavix

/-- The arithmetic on floats that the program uses, and some of its literals. -/
structure Floats (F : Type) where
  zero : F
  /-- `2.0` -/
  two : F
  /-- `-2.0` -/
  minusTwo : F
  /-- `HUGE_VALF` -/
  huge : F
  /-- `1e20` -/
  e20 : F
  add : F → F → F
  sub : F → F → F
  mul : F → F → F
  lt : F → F → Bool

namespace Floats

variable {F : Type} (fl : Floats F)

/-- `fvec_inner_product` -/
def innerProduct (x y : ℕ → F) (d : ℕ) : F :=
  (List.range d).foldl (fun res i ↦ fl.add res (fl.mul (x i) (y i))) fl.zero

/-- `fvec_L2sqr` -/
def l2sqr (x y : ℕ → F) (d : ℕ) : F :=
  (List.range d).foldl (fun res i ↦
    let tmp := fl.sub (x i) (y i)
    fl.add res (fl.mul tmp tmp)) fl.zero

/-- `fvec_norm_L2sqr` -/
def normL2sqr (x : ℕ → F) (d : ℕ) : F :=
  (List.range d).foldl (fun res i ↦ fl.add res (fl.mul (x i) (x i))) fl.zero

/-- `fvec_madd` -/
def madd (a : ℕ → F) (bf : F) (b : ℕ → F) : ℕ → F := fun i ↦ fl.add (a i) (fl.mul bf (b i))

/-- The position of the least of `n` values that are below `bound`, or `none`. -/
def argmin (bound : F) (n : ℕ) (c : ℕ → F) : Option ℕ :=
  ((List.range n).foldl (fun (s : F × Option ℕ) i ↦ if fl.lt (c i) s.1 then (c i, some i) else s)
    (bound, none)).2

end Floats

/-! ## Codes -/

/-- The state of a `PQDecoderGeneric` beside its parameters: `code` has been moved by `pos`. -/
structure PQDecoderGeneric where
  pos : ℕ := 0
  offset : ℕ := 0
  reg : ℕ := 0

/-- `PQDecoderGeneric::decode` -/
def PQDecoderGeneric.decode (nbits : ℕ) (code : ℕ → UInt8) (s : PQDecoderGeneric) :
    ℕ × PQDecoderGeneric :=
  let reg := if s.offset = 0 then (code s.pos).toNat else s.reg
  let c := reg >>> s.offset
  if 8 ≤ s.offset + nbits then
    let e := 8 - s.offset
    let pos := s.pos + 1
    let nmore := (nbits - (8 - s.offset)) / 8
    let c := (List.range nmore).foldl (fun c i ↦ c ||| (code (pos + i)).toNat <<< (e + 8 * i)) c
    let pos := pos + nmore
    let e := e + 8 * nmore
    let offset := (s.offset + nbits) % 8
    if 0 < offset then
      let reg := (code pos).toNat
      ((c ||| reg <<< e) % 2 ^ nbits, ⟨pos, offset, reg⟩)
    else (c % 2 ^ nbits, ⟨pos, offset, reg⟩)
  else (c % 2 ^ nbits, ⟨s.pos, s.offset + nbits, reg⟩)

def PQDecoderGeneric.after (nbits : ℕ) (code : ℕ → UInt8) : ℕ → PQDecoderGeneric
  | 0 => {}
  | m + 1 => (PQDecoderGeneric.decode nbits code (after nbits code m)).2

/-- The number that the decoder for `nbits` returns in its turn `m`: a `PQDecoder8`, a `PQDecoder16` or
a `PQDecoderGeneric`. -/
def pqDecode (nbits : ℕ) (code : ℕ → UInt8) (m : ℕ) : ℕ :=
  if nbits = 8 then (code m).toNat
  else if nbits = 16 then (code (2 * m)).toNat + 2 ^ 8 * (code (2 * m + 1)).toNat
  else (PQDecoderGeneric.decode nbits code (PQDecoderGeneric.after nbits code m)).1

/-- Every number that is decoded is that of a centroid. -/
theorem pqDecode_lt (nbits : ℕ) (code : ℕ → UInt8) (m : ℕ) : pqDecode nbits code m < 2 ^ nbits := by
  unfold pqDecode
  split
  · rename_i h
    rw [h]
    exact (code m).toNat_lt
  · split
    · rename_i h
      have hlow := (code (2 * m)).toNat_lt
      have hhigh := (code (2 * m + 1)).toNat_lt
      rw [h]
      omega
    · unfold PQDecoderGeneric.decode
      dsimp only
      split
      · split
        · exact Nat.mod_lt _ (Nat.two_pow_pos nbits)
        · exact Nat.mod_lt _ (Nat.two_pow_pos nbits)
      · exact Nat.mod_lt _ (Nat.two_pow_pos nbits)

/-- The state of a `PQEncoderGeneric`, with what it has written. -/
structure PQEncoderGeneric where
  written : List UInt8 := []
  offset : ℕ := 0
  reg : UInt8 := 0

/-- `PQEncoderGeneric::encode` -/
def PQEncoderGeneric.encode (nbits : ℕ) (s : PQEncoderGeneric) (x : ℕ) : PQEncoderGeneric :=
  let reg := s.reg ||| UInt8.ofNat (x <<< s.offset)
  let x := x >>> (8 - s.offset)
  if 8 ≤ s.offset + nbits then
    let nmore := (nbits - (8 - s.offset)) / 8
    let more := (List.range nmore).map fun i ↦ UInt8.ofNat (x >>> (8 * i))
    ⟨s.written ++ reg :: more, (s.offset + nbits) % 8, UInt8.ofNat (x >>> (8 * nmore))⟩
  else ⟨s.written, s.offset + nbits, reg⟩

/-- What the encoder for `nbits` writes for some numbers. -/
def pqEncode (nbits : ℕ) (xs : List ℕ) : List UInt8 :=
  if nbits = 8 then xs.map UInt8.ofNat
  else if nbits = 16 then xs.flatMap fun x ↦ [UInt8.ofNat x, UInt8.ofNat (x >>> 8)]
  else
    let s := xs.foldl (PQEncoderGeneric.encode nbits) {}
    if 0 < s.offset then s.written ++ [s.reg] else s.written

/-! ## Quantizers -/

/-- `ProductQuantizer`, where there are no transposed centroids. -/
structure ProductQuantizer (F : Type) where
  d : ℕ
  M : ℕ
  nbits : ℕ
  centroids : ℕ → F
  /-- `set_derived_values` checks that the dimension is a multiple of the number of sub-quantizers. -/
  dvd : M ∣ d

namespace ProductQuantizer

variable {F : Type} (pq : ProductQuantizer F) (fl : Floats F)

variable (simTable x : ℕ → F) (code0 code1 code2 code3 code : ℕ → UInt8)

def dsub : ℕ := pq.d / pq.M

def ksub : ℕ := 2 ^ pq.nbits

def codeSize : ℕ := (pq.nbits * pq.M + 7) / 8

/-- `get_centroids` -/
def getCentroids (m i : ℕ) : ℕ → F := fun j ↦ pq.centroids ((m * pq.ksub + i) * pq.dsub + j)

/-- `compute_code`, in a buffer of the size of a code. -/
def computeCode : List UInt8 :=
  pqEncode pq.nbits ((List.range pq.M).map fun m ↦
    (fl.argmin fl.huge pq.ksub fun j ↦
      fl.l2sqr (fun i ↦ x (m * pq.dsub + i)) (pq.getCentroids m j) pq.dsub).getD 0)

/-- `decode` -/
def decode : ℕ → F := fun p ↦
  pq.getCentroids (p / pq.dsub) (pqDecode pq.nbits code (p / pq.dsub)) (p % pq.dsub)

/-- `compute_distance_table` -/
def computeDistanceTable : ℕ → F := fun p ↦
  fl.l2sqr (fun i ↦ x (p / pq.ksub * pq.dsub + i)) (pq.getCentroids (p / pq.ksub) (p % pq.ksub)) pq.dsub

/-- `compute_inner_prod_table` -/
def computeInnerProdTable : ℕ → F := fun p ↦
  fl.innerProduct (fun i ↦ x (p / pq.ksub * pq.dsub + i)) (pq.getCentroids (p / pq.ksub) (p % pq.ksub))
    pq.dsub

/-- `compute_inner_prod_tables`, one after the other for vectors that are. -/
def computeInnerProdTables (xs : ℕ → F) : ℕ → F := fun p ↦
  pq.computeInnerProdTable fl (fun i ↦ xs (p / (pq.M * pq.ksub) * pq.d + i)) (p % (pq.M * pq.ksub))

/-- `distance_single_code`, on a table and the numbers of a code. -/
def distanceSingleCode : F :=
  (List.range pq.M).foldl
    (fun result m ↦ fl.add result (simTable (m * pq.ksub + pqDecode pq.nbits code m))) fl.zero

/-- `distance_four_codes` -/
def distanceFourCodes : F × F × F × F :=
  (List.range pq.M).foldl (fun (r : F × F × F × F) m ↦
    let tab := fun i ↦ simTable (m * pq.ksub + i)
    (fl.add r.1 (tab (pqDecode pq.nbits code0 m)), fl.add r.2.1 (tab (pqDecode pq.nbits code1 m)),
      fl.add r.2.2.1 (tab (pqDecode pq.nbits code2 m)), fl.add r.2.2.2 (tab (pqDecode pq.nbits code3 m))))
    (fl.zero, fl.zero, fl.zero, fl.zero)

theorem distanceFourCodes_eq :
    pq.distanceFourCodes fl simTable code0 code1 code2 code3 =
      (pq.distanceSingleCode fl simTable code0, pq.distanceSingleCode fl simTable code1,
        pq.distanceSingleCode fl simTable code2, pq.distanceSingleCode fl simTable code3) := by
  unfold distanceFourCodes distanceSingleCode
  induction pq.M with
  | zero => rfl
  | succ M ih =>
      simp only [List.range_succ, List.foldl_append, List.foldl_cons, List.foldl_nil]
      rw [ih]

end ProductQuantizer

end FaissNavix
