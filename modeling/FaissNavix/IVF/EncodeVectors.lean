import FaissNavix.IVF.Search
import FaissNavix.Lib.Loop
import FaissNavix.Lib.Rows

/-!
# Encoding vectors with the numbers of their lists

`encode_vectors` of `IndexIVFPQ`, `IndexIVFScalarQuantizer`, `IndexIVFAdditiveQuantizer`,
`IndexIVFPQFastScan` and `IndexIVFAdditiveQuantizerFastScan`.  All but the second write the codes densely
and then spread them out in place, from the end, to make room for the numbers of the lists.  The last
one cuts large batches into blocks, and places each block as if the codes were dense.
-/

namespace FaissNavix

open Lib (read write RowsWritten)

/-- The classes, by their sub-quantizers. -/
inductive IVFEncoding where
  | pq
  | scalarQuantizer
  | additiveQuantizer
  | pqFastScan
  | additiveQuantizerFastScan
deriving DecidableEq

/-- What the encoders read of an index.  The sub-quantizer encodes every vector on its own. -/
structure EncodingIndex (α : Type) where
  encoding : IVFEncoding
  nlist : ℕ
  codeSize : ℕ
  byResidual : Bool
  isTrained : Bool
  /-- `quantizer->compute_residual` -/
  computeResidual : α → ℤ → α
  /-- `quantizer->reconstruct` -/
  reconstruct : ℤ → α
  /-- the vector of zeros -/
  zero : α
  /-- `pq.compute_codes`, `aq->compute_codes` or `squant->encode_vector` in cleared bytes, for one
  vector -/
  computeCode : α → List UInt8
  /-- `aq->compute_codes_add_centroids` for one vector -/
  computeCodeAddCentroid : α → α → List UInt8
  length_computeCode : ∀ x, (computeCode x).length = codeSize
  length_computeCodeAddCentroid : ∀ x c, (computeCodeAddCentroid x c).length = codeSize

namespace EncodingIndex

variable {α : Type} (idx : EncodingIndex α)

section
variable (n : ℕ) (code : ℕ → List UInt8) (listNos : ℕ → ℤ) (m : ℕ → UInt8) (codes : ℕ)

/-- `coarse_code_size` -/
def coarseSize : ℕ := coarseCodeSize (idx.nlist - 1)

/-- `encode_listno`: the low bytes of the 64-bit number. -/
def listnoCode (listNo : ℤ) : List UInt8 := encodeListno (idx.nlist - 1) (listNo % 2 ^ 64).toNat

/-- The codes of `n` vectors, one after the other from address `codes` on. -/
def writeCodes : ℕ → UInt8 :=
  (List.range n).foldl (fun m i ↦ write m (codes + i * idx.codeSize) (code i)) m

/-- The loop that writes back from the end: `memmove` and `encode_listno`. -/
def addListnos : ℕ → UInt8 :=
  (List.range n).reverse.foldl (fun m i ↦
    let code := codes + i * (idx.coarseSize + idx.codeSize)
    let m := write m (code + idx.coarseSize) (read m (codes + i * idx.codeSize) idx.codeSize)
    write m code (idx.listnoCode (listNos i))) m

/-- First encode, then add the numbers of the lists if wanted. -/
def encodeThenAdd (includeListnos : Bool) : ℕ → UInt8 :=
  let m := idx.writeCodes n code m codes
  if includeListnos then idx.addListnos n listNos m codes else m

end

/-- The residual, or zeros for a vector without a list. -/
def residualOrZero (x : α) (listNo : ℤ) : α :=
  if listNo < 0 then idx.zero else idx.computeResidual x listNo

section
variable (n : ℕ) (x : ℕ → α) (listNos : ℕ → ℤ) (m : ℕ → UInt8) (codes : ℕ) (includeListnos : Bool)

/-- `IndexIVFPQ::encode_vectors` -/
def encodePQ : ℕ → UInt8 :=
  idx.encodeThenAdd n (fun i ↦
    idx.computeCode (if idx.byResidual then idx.residualOrZero (x i) (listNos i) else x i))
    listNos m codes includeListnos

/-- `IndexIVFPQFastScan::encode_vectors`, which is written in the same way. -/
def encodePQFastScan : ℕ → UInt8 :=
  idx.encodePQ n x listNos m codes includeListnos

/-- `IndexIVFScalarQuantizer::encode_vectors`, which clears all bytes and writes each row at its
place. -/
def encodeScalarQuantizer : ℕ → UInt8 :=
  let coarseSize := if includeListnos then idx.coarseSize else 0
  let m := write m codes (List.replicate ((idx.codeSize + coarseSize) * n) 0)
  (List.range n).foldl (fun m i ↦
    if 0 ≤ listNos i then
      let code := codes + i * (idx.codeSize + coarseSize)
      let xi := if idx.byResidual then idx.computeResidual (x i) (listNos i) else x i
      let m := if coarseSize ≠ 0 then write m code (idx.listnoCode (listNos i)) else m
      write m (code + coarseSize) (idx.computeCode xi)
    else m) m

/-- `IndexIVFAdditiveQuantizer::encode_vectors` -/
def encodeAdditiveQuantizer : Except Fault (ℕ → UInt8) := do
  Fault.throwIfNot idx.isTrained "is_trained"
  return idx.encodeThenAdd n (fun i ↦
    idx.computeCode (if idx.byResidual then
      idx.computeResidual (x i) (if 0 ≤ listNos i then listNos i else 0) else x i))
    listNos m codes includeListnos

/-- `IndexIVFAdditiveQuantizerFastScan::encode_vectors`, for a batch that is not cut. -/
def encodeAdditiveFastScanBlock : ℕ → UInt8 :=
  idx.encodeThenAdd n (fun i ↦
    if idx.byResidual then
      idx.computeCodeAddCentroid (idx.residualOrZero (x i) (listNos i)) (idx.reconstruct (listNos i))
    else idx.computeCode (x i))
    listNos m codes includeListnos

/-- `IndexIVFAdditiveQuantizerFastScan::encode_vectors` -/
def encodeAdditiveFastScan : ℕ → UInt8 :=
  let bs := 65536
  if bs < n then
    (List.range ((n + bs - 1) / bs)).foldl (fun m b ↦
      let i0 := b * bs
      let i1 := min n (i0 + bs)
      idx.encodeAdditiveFastScanBlock (i1 - i0) (fun i ↦ x (i0 + i)) (fun i ↦ listNos (i0 + i)) m
        (codes + i0 * idx.codeSize) includeListnos) m
  else idx.encodeAdditiveFastScanBlock n x listNos m codes includeListnos

/-- `encode_vectors` -/
def encodeVectors : Except Fault (ℕ → UInt8) :=
  match idx.encoding with
  | .pq => .ok (idx.encodePQ n x listNos m codes includeListnos)
  | .scalarQuantizer => .ok (idx.encodeScalarQuantizer n x listNos m codes includeListnos)
  | .additiveQuantizer => idx.encodeAdditiveQuantizer n x listNos m codes includeListnos
  | .pqFastScan => .ok (idx.encodePQFastScan n x listNos m codes includeListnos)
  | .additiveQuantizerFastScan => .ok (idx.encodeAdditiveFastScan n x listNos m codes includeListnos)

/-- The rows written with the numbers of the lists: each one is the number of the list and the code that
the vector has when it is encoded alone, without the number. -/
def RowByRow : Prop :=
  ∀ m, ∃ m', idx.encodeVectors n x listNos m codes true = .ok m' ∧
    (∀ i < n, ∀ m₀ codes₀, ∃ alone,
      idx.encodeVectors 1 (fun _ ↦ x i) (fun _ ↦ listNos i) m₀ codes₀ false = .ok alone ∧
      read m' (codes + i * (idx.coarseSize + idx.codeSize)) (idx.coarseSize + idx.codeSize) =
        idx.listnoCode (listNos i) ++ read alone codes₀ idx.codeSize) ∧
    ∀ a, a < codes ∨ codes + n * (idx.coarseSize + idx.codeSize) ≤ a → m' a = m a

end

variable {idx} {n : ℕ} {x : ℕ → α} {listNos : ℕ → ℤ} {codes : ℕ}

@[simp] theorem length_listnoCode (listNo : ℤ) : (idx.listnoCode listNo).length = idx.coarseSize :=
  length_encodeListno _ _

theorem coarseSize_eq_zero (hlists : idx.nlist ≤ 1) : idx.coarseSize = 0 := by
  rw [coarseSize, coarseCodeSize, if_pos (Nat.sub_eq_zero_of_le hlists)]

theorem coarseSize_pos (hlists : 1 < idx.nlist) : 0 < idx.coarseSize := by
  rw [coarseSize, coarseCodeSize, if_neg (Nat.sub_ne_zero_of_lt hlists)]
  exact Nat.succ_pos _

/-! ## Encoding and adding the numbers -/

theorem rowsWritten_encodeThenAdd {code : ℕ → List UInt8}
    (hcode : ∀ i < n, (code i).length = idx.codeSize) (listNos : ℕ → ℤ) (m : ℕ → UInt8) (codes : ℕ) :
    RowsWritten m (idx.encodeThenAdd n code listNos m codes false) codes n idx.codeSize code ∧
      RowsWritten m (idx.encodeThenAdd n code listNos m codes true) codes n
        (idx.coarseSize + idx.codeSize) fun i ↦ idx.listnoCode (listNos i) ++ code i := by
  have hdense : RowsWritten m (idx.writeCodes n code m codes) codes n idx.codeSize code :=
    Lib.rowsWritten_foldl hcode m codes
  refine ⟨hdense, ?_⟩
  have hspread := Lib.rowsWritten_spread (c := idx.coarseSize)
    (g := fun i ↦ idx.listnoCode (listNos i)) (fun i _ ↦ length_listnoCode _) hdense.rows
  -- what is outside of the wider rows is outside of the dense ones
  refine ⟨hspread.rows, fun a ha ↦ ?_⟩
  have hout := hspread.outside a ha
  rw [Nat.mul_add] at ha
  exact hout.trans (hdense.outside a (by omega))

/-- The code of a vector in a batch. -/
def codeOf (idx : EncodingIndex α) (x : α) (listNo : ℤ) : List UInt8 :=
  match idx.encoding with
  | .pq | .pqFastScan =>
      idx.computeCode (if idx.byResidual then idx.residualOrZero x listNo else x)
  | .scalarQuantizer => idx.computeCode (if idx.byResidual then idx.computeResidual x listNo else x)
  | .additiveQuantizer =>
      idx.computeCode (if idx.byResidual then
        idx.computeResidual x (if 0 ≤ listNo then listNo else 0) else x)
  | .additiveQuantizerFastScan =>
      if idx.byResidual then
        idx.computeCodeAddCentroid (idx.residualOrZero x listNo) (idx.reconstruct listNo)
      else idx.computeCode x

theorem length_codeOf (idx : EncodingIndex α) (x : α) (listNo : ℤ) :
    (idx.codeOf x listNo).length = idx.codeSize := by
  unfold codeOf
  split
  · exact idx.length_computeCode _
  · exact idx.length_computeCode _
  · exact idx.length_computeCode _
  · exact idx.length_computeCode _
  · split
    · exact idx.length_computeCodeAddCentroid _ _
    · exact idx.length_computeCode _

/-- The scalar quantizer writes the rows at their places. -/
theorem rowsWritten_encodeScalarQuantizer (x : ℕ → α) (hlist : ∀ i < n, 0 ≤ listNos i)
    (henc : idx.encoding = .scalarQuantizer) (m : ℕ → UInt8) (codes : ℕ) :
    RowsWritten m (idx.encodeScalarQuantizer n x listNos m codes false) codes n idx.codeSize
        (fun i ↦ idx.codeOf (x i) (listNos i)) ∧
      RowsWritten m (idx.encodeScalarQuantizer n x listNos m codes true) codes n
        (idx.coarseSize + idx.codeSize)
        fun i ↦ idx.listnoCode (listNos i) ++ idx.codeOf (x i) (listNos i) := by
  -- with or without the numbers, a row is what stands before the code, and the code
  have hrows : ∀ (c : ℕ) (listno : ℕ → List UInt8), (∀ i, (listno i).length = c) →
      RowsWritten m ((List.range n).foldl (fun m i ↦
          if 0 ≤ listNos i then
            write (if c ≠ 0 then write m (codes + i * (idx.codeSize + c)) (listno i) else m)
              (codes + i * (idx.codeSize + c) + c)
              (idx.computeCode (if idx.byResidual then idx.computeResidual (x i) (listNos i) else x i))
          else m) (write m codes (List.replicate ((idx.codeSize + c) * n) 0)))
        codes n (c + idx.codeSize) fun i ↦ listno i ++ idx.codeOf (x i) (listNos i) := by
    intro c listno hlistno
    have hcode : ∀ i, idx.codeOf (x i) (listNos i) =
        idx.computeCode (if idx.byResidual then idx.computeResidual (x i) (listNos i) else x i) :=
      fun i ↦ by rw [codeOf, henc]
    have hstep : (List.range n).foldl (fun m i ↦
          if 0 ≤ listNos i then
            write (if c ≠ 0 then write m (codes + i * (idx.codeSize + c)) (listno i) else m)
              (codes + i * (idx.codeSize + c) + c)
              (idx.computeCode (if idx.byResidual then idx.computeResidual (x i) (listNos i) else x i))
          else m) (write m codes (List.replicate ((idx.codeSize + c) * n) 0)) =
        (List.range n).foldl (fun m i ↦ write m (codes + i * (c + idx.codeSize))
          (listno i ++ idx.codeOf (x i) (listNos i)))
          (write m codes (List.replicate ((idx.codeSize + c) * n) 0)) := by
      refine List.foldl_ext _ _ _ fun m' i hi ↦ ?_
      rw [if_pos (hlist i (List.mem_range.mp hi)), hcode, Nat.add_comm idx.codeSize c]
      by_cases hc : c = 0
      · have hnil : listno i = [] := List.length_eq_zero_iff.mp ((hlistno i).trans hc)
        rw [if_neg (not_not_intro hc), hnil, hc, Nat.add_zero, List.nil_append]
      · rw [if_pos hc, ← Lib.write_append, hlistno]
    have hfold := Lib.rowsWritten_foldl (n := n) (w := c + idx.codeSize)
      (f := fun i ↦ listno i ++ idx.codeOf (x i) (listNos i))
      (fun i _ ↦ by rw [List.length_append, hlistno, length_codeOf])
      (write m codes (List.replicate ((idx.codeSize + c) * n) 0)) codes
    rw [hstep]
    refine ⟨hfold.rows, fun a ha ↦ (hfold.outside a ha).trans (Lib.write_of_outside ?_)⟩
    rw [List.length_replicate, Nat.mul_comm, Nat.add_comm idx.codeSize c]
    exact ha
  constructor
  · have h := hrows 0 (fun _ ↦ []) fun _ ↦ rfl
    rw [Nat.zero_add] at h
    exact h
  · exact hrows idx.coarseSize (fun i ↦ idx.listnoCode (listNos i)) fun i ↦ length_listnoCode _

/-! ## A row at a time -/

def rowSize (idx : EncodingIndex α) (includeListnos : Bool) : ℕ :=
  (if includeListnos then idx.coarseSize else 0) + idx.codeSize

/-- A row: the number of the list if wanted, and the code. -/
def rowOf (idx : EncodingIndex α) (includeListnos : Bool) (x : α) (listNo : ℤ) : List UInt8 :=
  (if includeListnos then idx.listnoCode listNo else []) ++ idx.codeOf x listNo

theorem rowsWritten_encodeThenAdd_codeOf {code : ℕ → List UInt8}
    (hcode : ∀ i < n, code i = idx.codeOf (x i) (listNos i)) (m : ℕ → UInt8) (codes : ℕ)
    (includeListnos : Bool) :
    RowsWritten m (idx.encodeThenAdd n code listNos m codes includeListnos) codes n
      (idx.rowSize includeListnos) fun i ↦ idx.rowOf includeListnos (x i) (listNos i) := by
  have hlen : ∀ i < n, (code i).length = idx.codeSize := fun i hi ↦ by
    rw [hcode i hi]
    exact length_codeOf _ _ _
  obtain ⟨hdense, hwide⟩ := rowsWritten_encodeThenAdd hlen listNos m codes
  cases includeListnos with
  | false =>
      refine ⟨fun i hi ↦ ?_, fun a ha ↦ hdense.outside a ?_⟩
      · rw [rowSize, if_neg Bool.false_ne_true, Nat.zero_add, hdense.rows i hi, hcode i hi]
        rfl
      · rwa [rowSize, if_neg Bool.false_ne_true, Nat.zero_add] at ha
  | true =>
      refine ⟨fun i hi ↦ ?_, hwide.outside⟩
      refine (hwide.rows i hi).trans ?_
      rw [hcode i hi]
      rfl

section
variable (henc : idx.encoding = .additiveQuantizerFastScan)
include henc

theorem rowsWritten_encodeAdditiveFastScanBlock
    (n : ℕ) (x : ℕ → α) (listNos : ℕ → ℤ) (m : ℕ → UInt8) (codes : ℕ) (includeListnos : Bool) :
    RowsWritten m (idx.encodeAdditiveFastScanBlock n x listNos m codes includeListnos) codes n
      (idx.rowSize includeListnos) fun i ↦ idx.rowOf includeListnos (x i) (listNos i) :=
  rowsWritten_encodeThenAdd_codeOf (fun i _ ↦ by rw [codeOf, henc]) m codes includeListnos

/-- The blocks follow each other when the rows are as long as the codes. -/
theorem rowsWritten_blocks {includeListnos : Bool}
    (hsize : idx.rowSize includeListnos = idx.codeSize) (n : ℕ) (x : ℕ → α) (listNos : ℕ → ℤ)
    (m : ℕ → UInt8) (codes bs k : ℕ) :
    RowsWritten m ((List.range k).foldl (fun m b ↦
        idx.encodeAdditiveFastScanBlock (min n (b * bs + bs) - b * bs) (fun i ↦ x (b * bs + i))
          (fun i ↦ listNos (b * bs + i)) m (codes + b * bs * idx.codeSize) includeListnos) m)
      codes (min n (k * bs)) (idx.rowSize includeListnos)
      fun i ↦ idx.rowOf includeListnos (x i) (listNos i) := by
  induction k with
  | zero =>
      rw [Nat.zero_mul, Nat.min_zero]
      exact Lib.rowsWritten_zero m codes _ _
  | succ k ih =>
      rw [List.range_succ, List.foldl_append, List.foldl_cons, List.foldl_nil, Nat.succ_mul]
      generalize (List.range k).foldl _ m = m₁ at ih ⊢
      by_cases hk : k * bs ≤ n
      · rw [Nat.min_eq_right hk] at ih
        have hblock := rowsWritten_encodeAdditiveFastScanBlock henc (min n (k * bs + bs) - k * bs)
          (fun i ↦ x (k * bs + i)) (fun i ↦ listNos (k * bs + i)) m₁
          (codes + k * bs * idx.rowSize includeListnos) includeListnos
        have happend := ih.append hblock
        rw [hsize] at happend ⊢
        rwa [Nat.add_sub_cancel' (by omega)] at happend
      · -- past the last row the blocks are empty
        have hnone : min n (k * bs + bs) - k * bs = 0 := by omega
        have hblock := rowsWritten_encodeAdditiveFastScanBlock henc 0 (fun i ↦ x (k * bs + i))
          (fun i ↦ listNos (k * bs + i)) m₁ (codes + k * bs * idx.codeSize) includeListnos
        rw [hnone]
        rw [Nat.min_eq_left (by omega)] at ih ⊢
        refine ⟨fun i hi ↦ ?_, fun a ha ↦ ?_⟩
        · rw [← ih.rows i hi]
          exact Lib.read_congr fun j _ ↦ hblock.outside _ (by omega)
        · rw [hblock.outside a (by omega), ih.outside a ha]

theorem rowsWritten_encodeAdditiveFastScan
    {includeListnos : Bool} (hfits : n ≤ 65536 ∨ idx.rowSize includeListnos = idx.codeSize)
    (m : ℕ → UInt8) (codes : ℕ) :
    RowsWritten m (idx.encodeAdditiveFastScan n x listNos m codes includeListnos) codes n
      (idx.rowSize includeListnos) fun i ↦ idx.rowOf includeListnos (x i) (listNos i) := by
  rw [encodeAdditiveFastScan]
  split
  · rename_i hlarge
    have hblocks := rowsWritten_blocks henc (hfits.resolve_left (by omega)) n x listNos m codes 65536
      ((n + 65536 - 1) / 65536)
    rwa [Nat.min_eq_left (by omega)] at hblocks
  · exact rowsWritten_encodeAdditiveFastScanBlock henc n x listNos m codes includeListnos

end

/-- Every class writes the rows at their places, as long as a batch in several blocks has rows of the
length of the codes. -/
theorem rowsWritten_encodeVectors (htrained : idx.isTrained = true) (x : ℕ → α)
    (hlist : ∀ i < n, 0 ≤ listNos i) (includeListnos : Bool)
    (hfits : idx.encoding = .additiveQuantizerFastScan →
      n ≤ 65536 ∨ idx.rowSize includeListnos = idx.codeSize) (m : ℕ → UInt8) (codes : ℕ) :
    ∃ m', idx.encodeVectors n x listNos m codes includeListnos = .ok m' ∧
      RowsWritten m m' codes n (idx.rowSize includeListnos)
        fun i ↦ idx.rowOf includeListnos (x i) (listNos i) := by
  rw [encodeVectors]
  cases henc : idx.encoding with
  | pq =>
      exact ⟨_, rfl, rowsWritten_encodeThenAdd_codeOf (fun i _ ↦ by rw [codeOf, henc]) m codes _⟩
  | scalarQuantizer =>
      obtain ⟨hdense, hwide⟩ := rowsWritten_encodeScalarQuantizer x hlist henc m codes
      refine ⟨_, rfl, ?_⟩
      cases includeListnos with
      | false =>
          rw [rowSize, if_neg Bool.false_ne_true, Nat.zero_add]
          exact hdense
      | true => exact hwide
  | additiveQuantizer =>
      simp only [encodeAdditiveQuantizer, htrained]
      exact ⟨_, rfl, rowsWritten_encodeThenAdd_codeOf (fun i _ ↦ by rw [codeOf, henc]) m codes _⟩
  | pqFastScan =>
      exact ⟨_, rfl, rowsWritten_encodeThenAdd_codeOf (fun i _ ↦ by rw [codeOf, henc]) m codes _⟩
  | additiveQuantizerFastScan =>
      exact ⟨_, rfl, rowsWritten_encodeAdditiveFastScan henc (hfits henc) m codes⟩

theorem encodeVectors_alone (htrained : idx.isTrained = true) {listNo : ℤ} (hlist : 0 ≤ listNo) (y : α)
    (m : ℕ → UInt8) (codes : ℕ) :
    ∃ m', idx.encodeVectors 1 (fun _ ↦ y) (fun _ ↦ listNo) m codes false = .ok m' ∧
      read m' codes idx.codeSize = idx.codeOf y listNo := by
  obtain ⟨m', hrun, hrows⟩ := rowsWritten_encodeVectors (n := 1) htrained (fun _ ↦ y)
    (fun _ _ ↦ hlist) false (fun _ ↦ Or.inl (by norm_num)) m codes
  refine ⟨m', hrun, ?_⟩
  have hrow := hrows.rows 0 Nat.zero_lt_one
  rwa [rowSize, if_neg Bool.false_ne_true, Nat.zero_add, Nat.zero_mul] at hrow

theorem rowByRow_of_rowsWritten (htrained : idx.isTrained = true) (hlist : ∀ i < n, 0 ≤ listNos i)
    (hfits : idx.encoding = .additiveQuantizerFastScan → n ≤ 65536 ∨ idx.coarseSize = 0) :
    idx.RowByRow n x listNos codes := by
  intro m
  obtain ⟨m', hrun, hrows⟩ := rowsWritten_encodeVectors htrained x hlist true
    (fun henc ↦ (hfits henc).imp_right fun hcoarse ↦ by
      rw [rowSize, if_pos rfl, hcoarse, Nat.zero_add]) m codes
  refine ⟨m', hrun, fun i hi m₀ codes₀ ↦ ?_, hrows.outside⟩
  obtain ⟨alone, halone, hcode⟩ := encodeVectors_alone htrained (hlist i hi) (x i) m₀ codes₀
  refine ⟨alone, halone, ?_⟩
  rw [hcode]
  exact hrows.rows i hi

/-! ## Blocks that are placed as if the codes were dense -/

/-- The last byte of the last row is never written when there are several blocks. -/
theorem encodeAdditiveFastScan_last (henc : idx.encoding = .additiveQuantizerFastScan)
    (hlarge : 65536 < n) (hcoarse : 0 < idx.coarseSize) (x : ℕ → α) (listNos : ℕ → ℤ)
    (m : ℕ → UInt8) (codes : ℕ) :
    idx.encodeAdditiveFastScan n x listNos m codes true
        (codes + n * (idx.coarseSize + idx.codeSize) - 1) =
      m (codes + n * (idx.coarseSize + idx.codeSize) - 1) := by
  rw [encodeAdditiveFastScan, if_pos hlarge]
  refine Lib.foldl_invariant (fun m' : ℕ → UInt8 ↦ m' (codes + n * (idx.coarseSize + idx.codeSize) - 1) =
    m (codes + n * (idx.coarseSize + idx.codeSize) - 1)) rfl fun b hb m' hm' ↦ ?_
  refine Eq.trans ?_ hm'
  have hblock := rowsWritten_encodeAdditiveFastScanBlock henc
    (min n (b * 65536 + 65536) - b * 65536) (fun i ↦ x (b * 65536 + i))
    (fun i ↦ listNos (b * 65536 + i)) m' (codes + b * 65536 * idx.codeSize) true
  refine hblock.outside _ (Or.inr ?_)
  -- the rows before the block are too short, and the block does not have all the rows
  generalize hcount : min n (b * 65536 + 65536) - b * 65536 = count
  rw [rowSize, if_pos rfl]
  have hb' := List.mem_range.mp hb
  have hfew : count < n := by omega
  have hrows : b * 65536 + count ≤ n := by omega
  have hcodes : b * 65536 * idx.codeSize + count * idx.codeSize ≤ n * idx.codeSize := by
    rw [← Nat.add_mul]
    exact Nat.mul_le_mul_right _ hrows
  have hnumbers : count * idx.coarseSize + idx.coarseSize ≤ n * idx.coarseSize := by
    rw [← Nat.succ_mul]
    exact Nat.mul_le_mul_right _ hfew
  rw [Nat.mul_add, Nat.mul_add]
  omega

/-- So what stands there does not depend on the vector. -/
theorem not_rowByRow (henc : idx.encoding = .additiveQuantizerFastScan) (hlarge : 65536 < n)
    (hcoarse : 0 < idx.coarseSize) : ¬ idx.RowByRow n x listNos codes := by
  intro h
  have hlast : ∀ v : UInt8, ∃ m',
      m' (codes + (n - 1) * (idx.coarseSize + idx.codeSize) +
        (idx.coarseSize + idx.codeSize - 1)) = v ∧
      ∀ alone, idx.encodeVectors 1 (fun _ ↦ x (n - 1)) (fun _ ↦ listNos (n - 1)) (fun _ ↦ 0) 0 false =
          .ok alone →
        read m' (codes + (n - 1) * (idx.coarseSize + idx.codeSize))
            (idx.coarseSize + idx.codeSize) =
          idx.listnoCode (listNos (n - 1)) ++ read alone 0 idx.codeSize := by
    intro v
    obtain ⟨m', hrun, hrows, -⟩ := h fun _ ↦ v
    refine ⟨m', ?_, fun alone halone ↦ ?_⟩
    · rw [encodeVectors, henc] at hrun
      cases hrun
      have hkept := encodeAdditiveFastScan_last henc hlarge hcoarse x listNos (fun _ ↦ v) codes
      have hplace : n * (idx.coarseSize + idx.codeSize) =
          (n - 1) * (idx.coarseSize + idx.codeSize) + (idx.coarseSize + idx.codeSize) := by
        rw [← Nat.succ_mul]
        congr 1
        omega
      rwa [hplace, ← Nat.add_assoc, Nat.add_sub_assoc (by omega)] at hkept
    · obtain ⟨alone', halone', hrow⟩ := hrows (n - 1) (by omega) (fun _ ↦ 0) 0
      cases halone.symm.trans halone'
      exact hrow
  obtain ⟨m₀, hm₀, hrow₀⟩ := hlast 0
  obtain ⟨m₁, hm₁, hrow₁⟩ := hlast 1
  obtain ⟨_, _, hrows, _⟩ := h fun _ ↦ 0
  obtain ⟨alone, halone, -⟩ := hrows (n - 1) (by omega) (fun _ ↦ 0) 0
  have heq := Lib.cell_eq_of_read_eq ((hrow₀ alone halone).trans (hrow₁ alone halone).symm)
    (Nat.sub_one_lt_of_lt (Nat.lt_add_right _ hcoarse))
  rw [hm₀, hm₁] at heq
  exact absurd heq (by decide)

/-- **Theorem.**  `encode_vectors` with the numbers of the lists writes a row for each vector, its number
and the code that the vector has alone, for all classes, except that
`IndexIVFAdditiveQuantizerFastScan` does so only for batches of at most 65536 vectors, or where the
numbers take no bytes. -/
theorem rowByRow_iff (idx : EncodingIndex α) (htrained : idx.isTrained = true) (n : ℕ) (x : ℕ → α)
    (listNos : ℕ → ℤ) (hlist : ∀ i < n, 0 ≤ listNos i ∧ listNos i < idx.nlist) (codes : ℕ) :
    idx.RowByRow n x listNos codes ↔
      idx.encoding ≠ .additiveQuantizerFastScan ∨ n ≤ 65536 ∨ idx.nlist ≤ 1 := by
  constructor
  · intro h
    by_contra hnot
    obtain ⟨henc, hlarge, hlists⟩ : idx.encoding = .additiveQuantizerFastScan ∧ 65536 < n ∧
        1 < idx.nlist := by
      simpa only [not_or, not_not, Nat.not_le] using hnot
    exact not_rowByRow henc hlarge (coarseSize_pos hlists) h
  · rintro (henc | hfits)
    · exact rowByRow_of_rowsWritten htrained (fun i hi ↦ (hlist i hi).1) fun h ↦ absurd h henc
    · exact rowByRow_of_rowsWritten htrained (fun i hi ↦ (hlist i hi).1) fun _ ↦
        hfits.imp_right coarseSize_eq_zero

/-- An index of one-byte vectors that are their own codes, with two lists. -/
def bytes (encoding : IVFEncoding) : EncodingIndex UInt8 where
  encoding := encoding
  nlist := 2
  codeSize := 1
  byResidual := false
  isTrained := true
  computeResidual := fun x _ ↦ x
  reconstruct := fun _ ↦ 0
  zero := 0
  computeCode := fun x ↦ [x]
  computeCodeAddCentroid := fun x _ ↦ [x]
  length_computeCode := fun _ ↦ rfl
  length_computeCodeAddCentroid := fun _ _ ↦ rfl

/-- Three vectors in a list each. -/
theorem rowByRow_iff_three :
    (bytes .additiveQuantizerFastScan).RowByRow 3 (fun _ ↦ 7) (fun i ↦ i % 2) 0 :=
  (rowByRow_iff (bytes .additiveQuantizerFastScan) rfl 3 (fun _ ↦ 7) (fun i ↦ i % 2)
    (fun i _ ↦ ⟨by omega, by
      show (i : ℤ) % 2 < 2
      omega⟩) 0).mpr (Or.inr (Or.inl (by norm_num)))

/-- One vector more than a block. -/
theorem not_rowByRow_above_block :
    ¬ (bytes .additiveQuantizerFastScan).RowByRow 65537 (fun _ ↦ 7) (fun _ ↦ 1) 0 :=
  not_rowByRow rfl (by norm_num) (coarseSize_pos (by decide))

end EncodingIndex

end FaissNavix
