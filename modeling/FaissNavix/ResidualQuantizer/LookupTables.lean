import FaissNavix.IVFPQ.Agreement
import FaissNavix.ResidualQuantizer.EncodedRows

/-!
# Distances from look-up tables

`compute_1_distance_LUT<false, ST_norm_from_LUT>`, `compute_inner_prod_with_LUT`, `decode` and `decode_64bit` of
`faiss/impl/AdditiveQuantizer.cpp`, on the fields that a `ResidualQuantizer` has as an `AdditiveQuantizer`.  In exact
arithmetic the tables give what decoding the code gives.
-/

namespace FaissNavix

open Finset
open Lib (write)

namespace ResidualQuantizer

variable {F : Type} (rq : ResidualQuantizer F) (fl : Floats F)

/-! ## The model -/

/-- A reader that has stayed within the code. -/
def withinBytes {α : Type} (r : Option α) : Except Fault α :=
  match r with
  | some a => .ok a
  | none => .error (.assertion "code_size * 8 >= nbit + i")

/-- One vector of `decode`. -/
def decode (code : List UInt8) : Except Fault (ℕ → F) := do
  Fault.throwIfNotMsg rq.isTrained "is_trained" "The additive quantizer is not trained yet."
  let s ← withinBytes ((List.range rq.M).foldlM (fun (s : (ℕ → F) × BitstringReader) m ↦
    (s.2.read (rq.nbits m)).map fun r ↦
      let c := rq.codebooks (rq.codebookOffsets m + r.1)
      (if m = 0 then c else fl.fvecAdd s.1 c, r.2)) (fun _ ↦ fl.zero, ⟨code, 0⟩))
  return s.1

/-- `decode_64bit` -/
def decode64bit (bits : ℕ) : ℕ → F :=
  ((List.range rq.M).foldl (fun (s : (ℕ → F) × ℕ) m ↦
    let idx := s.2 &&& (2 ^ rq.nbits m - 1)
    let c := rq.codebooks (rq.codebookOffsets m + idx)
    (if m = 0 then c else fl.fvecAdd s.1 c, s.2 >>> rq.nbits m)) (fun _ ↦ fl.zero, bits)).1

/-- `compute_inner_prod_with_LUT`: the inner products, and `prev_size`. -/
def computeInnerProdWithLUT (lut ips : ℕ → F) : ℕ → F :=
  ((List.range rq.M).foldl (fun (s : (ℕ → F) × ℕ) m ↦
    let lutm := fun i ↦ lut (rq.codebookOffsets m + i)
    let nc := 2 ^ rq.nbits m
    let ips :=
      if m = 0 then write s.1 0 ((List.range nc).map lut)
      else (List.range nc).foldl (fun ips j ↦
        -- from the last entry to the first one
        let i := nc - 1 - j
        write ips (i * s.2) ((List.range s.2).map fun t ↦ fl.add (ips t) (lutm i))) s.1
    (ips, s.2 * nc)) (ips, 1)).1

/-- `accumulate_IPs`: the sum, and how far `LUT` has been moved. -/
def accumulateIPs (bs : BitstringReader) (lut : ℕ → F) : Option F :=
  ((List.range rq.M).foldlM (fun (s : F × ℕ × BitstringReader) m ↦
    (s.2.2.read (rq.nbits m)).map fun r ↦
      (fl.add s.1 (lut (s.2.1 + r.1)), s.2.1 + 2 ^ rq.nbits m, r.2)) (fl.zero, 0, bs)).map Prod.fst

/-- The state of `compute_norm_from_LUT`, where `c` has been moved. -/
structure NormFromLUT (F : Type) where
  accu : F
  idx : ℕ → ℕ
  c : ℕ
  bs : BitstringReader

/-- The loop over the codebooks before. -/
def addCrossProducts (idx : ℕ → ℕ) (m i : ℕ) (accu : F) (c : ℕ) : F × ℕ :=
  let K := 2 ^ rq.nbits m
  (List.range m).foldl (fun (s : F × ℕ) l ↦
    let j := idx l
    (fl.add s.1 (fl.mul fl.two (rq.codebookCrossProducts (s.2 + (j * K + i)))), s.2 + 2 ^ rq.nbits l * K)) (accu, c)

/-- `compute_norm_from_LUT` -/
def computeNormFromLUT (bs : BitstringReader) : Option F :=
  ((List.range rq.M).foldlM (fun (s : NormFromLUT F) m ↦
    (s.bs.read (rq.nbits m)).map fun r ↦
      let i := r.1
      let idx := Function.update s.idx m i
      let accu := fl.add s.accu (rq.centroidNorms (rq.codebookOffsets m + i))
      let t := rq.addCrossProducts fl idx m i accu s.c
      { accu := t.1, idx := idx, c := t.2, bs := r.2 : NormFromLUT F })
    ⟨fl.zero, fun _ ↦ 0, 0, bs⟩).map NormFromLUT.accu

/-- `compute_1_distance_LUT<false, ST_norm_from_LUT>` -/
def compute1DistanceLUT (codes : List UInt8) (lut : ℕ → F) : Except Fault F := do
  Fault.throwIfNot (decide (0 < rq.crossTableSize)) "codebook_cross_products.size() > 0"
  let accu ← withinBytes (rq.accumulateIPs fl ⟨codes, 0⟩ lut)
  let norm2 ← withinBytes (rq.computeNormFromLUT fl ⟨codes, 0⟩)
  return fl.sub norm2 (fl.mul fl.two accu)

/-! ## What is read -/

variable {rq fl} {bytes : List UInt8} {code : List ℕ}

/-- The numbers of a code are read one after the other. -/
theorem HoldsCode.read (h : rq.HoldsCode bytes code) (hpack : rq.Packable) (hcode : rq.CodeFits rq.M code) {m : ℕ}
    (hm : m < rq.M) : BitstringReader.read ⟨bytes, rq.bitsBefore m⟩ (rq.nbits m) =
      some (code.getD m 0, ⟨bytes, rq.bitsBefore (m + 1)⟩) := by
  obtain ⟨hlength, hbits⟩ := h
  obtain ⟨hle, hbefore⟩ := hpack m hm
  have hmono : rq.bitsBefore (m + 1) ≤ rq.bitsBefore rq.M := bitsBefore_mono (Nat.succ_le_of_lt hm)
  have hsize := bits_le_codeSize rq
  rw [bitsBefore_succ] at hmono ⊢
  obtain ⟨r, hr⟩ := BitstringReader.exists_read ⟨bytes, rq.bitsBefore m⟩ hle
    (by dsimp only; rw [hlength]; exact hbefore) (by dsimp only; rw [hlength]; omega)
  obtain ⟨-, hread⟩ := BitstringReader.of_read hr
  obtain rfl : r = code.getD m 0 := by
    refine Nat.eq_of_testBit_eq fun q ↦ ?_
    rw [hread]
    by_cases hq : q < rq.nbits m
    · have hprefix : (rq.codeBits code rq.M).getD (rq.bitsBefore m + q) false =
          (rq.codeBits code (m + 1)).getD (rq.bitsBefore m + q) false := by
        obtain ⟨k, hk⟩ := Nat.exists_eq_add_of_le (Nat.succ_le_of_lt hm)
        rw [hk, codeBits, List.range_add, List.flatMap_append, ← codeBits, List.getD_append]
        rw [length_codeBits, bitsBefore_succ]
        omega
      rw [decide_eq_true hq, Bool.true_and, hbits _ (by dsimp only; omega), hprefix, codeBits_succ,
        List.getD_append_right, length_codeBits, Nat.add_sub_cancel_left,
        List.getD_eq_getElem _ _ (by rwa [Lib.length_toBits]), Lib.getElem_toBits]
      rw [length_codeBits]
      exact Nat.le_add_right _ _
    · rw [decide_eq_false hq, Bool.false_and, Lib.testBit_of_lt (hcode.2 m hm) (not_lt.mp hq)]
  exact hr

/-! ## Decoding -/

section Exact

variable [CommRing F] {q lut : ℕ → F} {m i : ℕ}

variable (rq) in
/-- The sum of the entries of the first `m` numbers. -/
def entrySum (code : List ℕ) (m t : ℕ) : F :=
  ∑ l ∈ range m, rq.codebook l (code.getD l 0) t

theorem entrySum_succ (code : List ℕ) (m : ℕ) :
    (fun t ↦ rq.entrySum code m t + rq.codebook m (code.getD m 0) t) = rq.entrySum code (m + 1) :=
  funext fun _ ↦ (sum_range_succ _ _).symm

theorem addEntry_exact (h : fl.Exact) (x : ℕ → ℕ → F) (c : ℕ → F) (hx : x 0 = fun _ ↦ 0) (m : ℕ) :
    (if m = 0 then c else fl.fvecAdd (x m) c) = fun t ↦ x m t + c t := by
  split
  · next hzero =>
      subst hzero
      funext t
      rw [hx, zero_add]
  · funext t
    exact h.add _ _

/-- `decode` returns the sum of the entries. -/
theorem decode_exact (h : fl.Exact) (htrained : rq.isTrained = true) (hpack : rq.Packable)
    (hcode : rq.CodeFits rq.M code) (hholds : rq.HoldsCode bytes code) :
    rq.decode fl bytes = .ok (rq.entrySum code rq.M) := by
  obtain ⟨s, hloop, rfl⟩ := Lib.foldlM_range_done (n := rq.M)
    (f := fun (s : (ℕ → F) × BitstringReader) m ↦ (s.2.read (rq.nbits m)).map fun r ↦
      (if m = 0 then rq.codebooks (rq.codebookOffsets m + r.1)
        else fl.fvecAdd s.1 (rq.codebooks (rq.codebookOffsets m + r.1)), r.2))
    (s := (fun _ ↦ fl.zero, ⟨bytes, 0⟩))
    (fun m s ↦ s = (rq.entrySum code m, ⟨bytes, rq.bitsBefore m⟩))
    (by
      rw [h.zero]
      rfl)
    fun m hm s hs ↦ by
      subst hs
      refine ⟨_, congrArg (Option.map _) (hholds.read hpack hcode hm), ?_⟩
      dsimp only
      rw [addEntry_exact h (rq.entrySum code) _ rfl, ← entrySum_succ]
      rfl
  unfold decode
  rw [htrained]
  exact congrArg (fun r ↦ withinBytes r >>= fun s ↦ .ok s.1) hloop

/-- `accumulate_IPs` adds up the entries of the table for the numbers. -/
theorem accumulateIPs_exact (h : fl.Exact) (hpack : rq.Packable) (hcode : rq.CodeFits rq.M code)
    (hholds : rq.HoldsCode bytes code) (lut : ℕ → F) :
    rq.accumulateIPs fl ⟨bytes, 0⟩ lut =
      some (∑ m ∈ range rq.M, lut (rq.codebookOffsets m + code.getD m 0)) := by
  obtain ⟨s, hloop, rfl⟩ := Lib.foldlM_range_done (n := rq.M)
    (f := fun (s : F × ℕ × BitstringReader) m ↦ (s.2.2.read (rq.nbits m)).map fun r ↦
      (fl.add s.1 (lut (s.2.1 + r.1)), s.2.1 + 2 ^ rq.nbits m, r.2))
    (s := (fl.zero, 0, ⟨bytes, 0⟩))
    (fun m s ↦ s = (∑ l ∈ range m, lut (rq.codebookOffsets l + code.getD l 0), rq.codebookOffsets m,
      ⟨bytes, rq.bitsBefore m⟩))
    (by
      rw [h.zero]
      rfl)
    fun m hm s hs ↦ by
      subst hs
      refine ⟨_, congrArg (Option.map _) (hholds.read hpack hcode hm), ?_⟩
      dsimp only
      rw [h.add, sum_range_succ]
      rfl
  exact congrArg (Option.map Prod.fst) hloop

/-- The products with the entries before, in the block of the table that `c` is at. -/
theorem addCrossProducts_exact (h : fl.Exact) (htables : rq.Tabulated fl) (hm : m < rq.M) {idx : ℕ → ℕ}
    (hidx : ∀ l < m, idx l < 2 ^ rq.nbits l) (hi : i < 2 ^ rq.nbits m) (accu : F) :
    rq.addCrossProducts fl idx m i accu (rq.crossOfs m) =
      (accu + ∑ l ∈ range m, 2 * ∑ t ∈ range rq.d, rq.codebook m i t * rq.codebook l (idx l) t,
        rq.crossOfs (m + 1)) := by
  have hloop := Lib.foldl_range_invariant (n := m)
    (f := fun (s : F × ℕ) l ↦ (fl.add s.1 (fl.mul fl.two
      (rq.codebookCrossProducts (s.2 + (idx l * 2 ^ rq.nbits m + i)))), s.2 + 2 ^ rq.nbits l * 2 ^ rq.nbits m))
    (s := (accu, rq.crossOfs m))
    (fun k s ↦ s = (accu + ∑ l ∈ range k, 2 * ∑ t ∈ range rq.d, rq.codebook m i t * rq.codebook l (idx l) t,
      rq.crossOfs m + rq.codebookOffsets k * 2 ^ rq.nbits m))
    (by rw [sum_range_zero, add_zero, codebookOffsets, Nat.zero_mul, Nat.add_zero])
    fun l hl s hs ↦ by
      subst hs
      have hentry : rq.codebookOffsets l + idx l < rq.codebookOffsets m :=
        (Nat.add_lt_add_left (hidx l hl) _).trans_le (codebookOffsets_mono (Nat.succ_le_of_lt hl))
      have hplace : rq.crossOfs m + rq.codebookOffsets l * 2 ^ rq.nbits m + (idx l * 2 ^ rq.nbits m + i) =
          rq.crossOfs m + ((rq.codebookOffsets l + idx l) * 2 ^ rq.nbits m + i) := by ring
      dsimp only
      rw [hplace, htables.products m hm _ hentry i hi, h.innerProduct, h.add, h.mul, h.two, sum_range_succ,
        add_assoc, codebookOffsets]
      refine Prod.ext rfl ?_
      dsimp only
      ring
  exact hloop

theorem sum_sq_add (x c : ℕ → F) (d : ℕ) :
    ∑ t ∈ range d, (x t + c t) ^ 2 =
      ∑ t ∈ range d, x t ^ 2 + ∑ t ∈ range d, c t ^ 2 + 2 * ∑ t ∈ range d, c t * x t := by
  rw [mul_sum, ← sum_add_distrib, ← sum_add_distrib]
  exact sum_congr rfl fun t _ ↦ by ring

section
variable (h : fl.Exact) (htables : rq.Tabulated fl) (hpack : rq.Packable)
  (hcode : rq.CodeFits rq.M code) (hholds : rq.HoldsCode bytes code)
include h htables hpack hcode hholds

/-- `compute_norm_from_LUT` computes the squared norm of the sum of the entries. -/
theorem computeNormFromLUT_exact :
    rq.computeNormFromLUT fl ⟨bytes, 0⟩ = some (∑ t ∈ range rq.d, rq.entrySum code rq.M t ^ 2) := by
  obtain ⟨s, hloop, haccu, -⟩ := Lib.foldlM_range_done (n := rq.M)
    (f := fun (s : NormFromLUT F) m ↦ (s.bs.read (rq.nbits m)).map fun r ↦
      ({ accu := (rq.addCrossProducts fl (Function.update s.idx m r.1) m r.1
            (fl.add s.accu (rq.centroidNorms (rq.codebookOffsets m + r.1))) s.c).1
         idx := Function.update s.idx m r.1
         c := (rq.addCrossProducts fl (Function.update s.idx m r.1) m r.1
            (fl.add s.accu (rq.centroidNorms (rq.codebookOffsets m + r.1))) s.c).2
         bs := r.2 } : NormFromLUT F))
    (s := ⟨fl.zero, fun _ ↦ 0, 0, ⟨bytes, 0⟩⟩)
    (fun m s ↦ s.accu = ∑ t ∈ range rq.d, rq.entrySum code m t ^ 2 ∧ (∀ l < m, s.idx l = code.getD l 0) ∧
      s.c = rq.crossOfs m ∧ s.bs = ⟨bytes, rq.bitsBefore m⟩)
    ⟨by
      rw [h.zero]
      exact (sum_eq_zero fun t _ ↦ zero_pow (by decide)).symm, fun l hl ↦ absurd hl (Nat.not_lt_zero l), rfl, rfl⟩
    fun m hm s ⟨haccu, hidx, hc, hbs⟩ ↦ by
      have hread := hholds.read hpack hcode hm
      rw [← hbs] at hread
      have hidx' : ∀ l < m + 1, Function.update s.idx m (code.getD m 0) l = code.getD l 0 := fun l hl ↦ by
        rcases Nat.lt_succ_iff_lt_or_eq.mp hl with hlt | rfl
        · rw [Function.update_of_ne hlt.ne, hidx l hlt]
        · rw [Function.update_self]
      have hfits : ∀ l < m, Function.update s.idx m (code.getD m 0) l < 2 ^ rq.nbits l := fun l hl ↦ by
        rw [hidx' l (Nat.lt_succ_of_lt hl)]
        exact hcode.2 l (hl.trans hm)
      have hproducts := addCrossProducts_exact h htables hm hfits (hcode.2 m hm)
        (fl.add s.accu (rq.centroidNorms (rq.codebookOffsets m + code.getD m 0)))
      refine ⟨_, congrArg (Option.map _) hread, ?_, hidx', ?_, rfl⟩
      · dsimp only
        rw [hc, hproducts, h.add, haccu, htables.norms, h.normL2sqr, ← entrySum_succ, sum_sq_add, ← codebook,
          ← mul_sum, sum_comm]
        refine congrArg₂ (· + ·) rfl (congrArg (2 * ·) (sum_congr rfl fun t _ ↦ ?_))
        rw [entrySum, mul_sum]
        exact sum_congr rfl fun l hl ↦ by rw [hidx' l (Nat.lt_succ_of_lt (mem_range.mp hl))]
      · dsimp only
        rw [hc, hproducts]
  refine (congrArg (Option.map NormFromLUT.accu) hloop).trans ?_
  exact congrArg some haccu

/-- Where there are products, the distance is that to the decoded vector, up to the norm of the query. -/
theorem compute1DistanceLUT_exact (hpos : 0 < rq.crossTableSize)
    (hlut : ∀ m < rq.M, ∀ i < 2 ^ rq.nbits m,
      lut (rq.codebookOffsets m + i) = ∑ t ∈ range rq.d, q t * rq.codebook m i t) :
    rq.compute1DistanceLUT fl bytes lut =
      .ok (∑ t ∈ range rq.d, (q t - rq.entrySum code rq.M t) ^ 2 - ∑ t ∈ range rq.d, q t ^ 2) := by
  have hips : ∑ m ∈ range rq.M, lut (rq.codebookOffsets m + code.getD m 0) =
      ∑ t ∈ range rq.d, q t * rq.entrySum code rq.M t := by
    rw [sum_congr rfl fun m hm ↦ hlut m (mem_range.mp hm) _ (hcode.2 m (mem_range.mp hm)), sum_comm]
    exact sum_congr rfl fun t _ ↦ (mul_sum _ _ _).symm
  unfold compute1DistanceLUT
  rw [decide_eq_true hpos, accumulateIPs_exact h hpack hcode hholds, hips,
    computeNormFromLUT_exact h htables hpack hcode hholds]
  refine congrArg Except.ok ?_
  rw [h.sub, h.mul, h.two, mul_sum, ← sum_sub_distrib, ← sum_sub_distrib]
  exact sum_congr rfl fun t _ ↦ by ring

end

/-! ## All codes at once -/

omit [CommRing F] in
/-- The table is expanded from its own first part, which is overwritten at last. -/
theorem expand_apply (old g : ℕ → F) {prev nc a : ℕ} (hprev : 0 < prev) (ha : a < nc * prev) :
    (List.range nc).foldl (fun ips j ↦
      write ips ((nc - 1 - j) * prev) ((List.range prev).map fun t ↦ fl.add (ips t) (g (nc - 1 - j)))) old a =
      fl.add (old (a % prev)) (g (a / prev)) := by
  have hloop := Lib.foldl_range_invariant (n := nc)
    (f := fun (ips : ℕ → F) j ↦
      write ips ((nc - 1 - j) * prev) ((List.range prev).map fun t ↦ fl.add (ips t) (g (nc - 1 - j))))
    (s := old)
    (fun j ips ↦ ∀ a < nc * prev,
      ips a = if (nc - j) * prev ≤ a then fl.add (old (a % prev)) (g (a / prev)) else old a)
    (fun a ha ↦ by rw [Nat.sub_zero, if_neg (not_le.mpr ha)])
    fun j hj ips hips a ha ↦ by
      obtain ⟨i, rfl⟩ : ∃ i, nc = i + 1 + j := ⟨nc - 1 - j, by omega⟩
      have hi : i + 1 + j - 1 - j = i := by omega
      have hnext : i + 1 + j - (j + 1) = i := by omega
      have hsucc : (i + 1) * prev = i * prev + prev := Nat.succ_mul i prev
      have hlen (f : ℕ → F) : ((List.range prev).map f).length = prev := by rw [List.length_map, List.length_range]
      simp only [Nat.add_sub_cancel] at hips
      rw [hi, hnext]
      rcases Nat.lt_or_ge a (i * prev) with hbefore | hfrom
      · rw [Lib.write_of_outside (.inl hbefore), hips a ha, if_neg (by omega), if_neg (by omega)]
      · rw [if_pos hfrom]
        obtain ⟨t, rfl⟩ := Nat.exists_eq_add_of_le hfrom
        by_cases ht : t < prev
        · rw [Lib.write_of_inside (by rwa [hlen]), List.get_eq_getElem, List.getElem_map, List.getElem_range,
            hips t (by omega), if_neg (by omega), Lib.cell_div i ht, Lib.cell_mod i ht]
        · rw [Lib.write_of_outside (.inr (by rw [hlen]; omega)), hips _ ha, if_pos (by omega)]
  rw [hloop a ha, Nat.sub_self, Nat.zero_mul, if_pos (Nat.zero_le a)]

variable (rq) in
/-- The number of level `l` in a code of 64 bits. -/
def numberOf (c l : ℕ) : ℕ := c / 2 ^ rq.bitsBefore l % 2 ^ rq.nbits l

omit [CommRing F] in
theorem numberOf_lt (c l : ℕ) : rq.numberOf c l < 2 ^ rq.nbits l := Nat.mod_lt _ (Nat.two_pow_pos _)

omit [CommRing F] in
theorem numberOf_mod {l : ℕ} (hl : l < m) (c : ℕ) : rq.numberOf (c % 2 ^ rq.bitsBefore m) l = rq.numberOf c l := by
  have hle : rq.bitsBefore (l + 1) ≤ rq.bitsBefore m := bitsBefore_mono (Nat.succ_le_of_lt hl)
  rw [bitsBefore_succ] at hle
  refine Nat.eq_of_testBit_eq fun q ↦ ?_
  unfold numberOf
  rw [Nat.testBit_mod_two_pow, Nat.testBit_mod_two_pow, Nat.testBit_div_two_pow, Nat.testBit_div_two_pow,
    Nat.testBit_mod_two_pow]
  by_cases hq : q < rq.nbits l
  · rw [decide_eq_true (by omega : q + rq.bitsBefore l < rq.bitsBefore m), Bool.true_and]
  · rw [decide_eq_false hq, Bool.false_and, Bool.false_and]

/-- `compute_inner_prod_with_LUT` adds up the entries of the table for every code. -/
theorem computeInnerProdWithLUT_exact (h : fl.Exact) (hM : 0 < rq.M) (lut ips : ℕ → F) {c : ℕ}
    (hc : c < 2 ^ rq.bitsBefore rq.M) :
    rq.computeInnerProdWithLUT fl lut ips c =
      ∑ l ∈ range rq.M, lut (rq.codebookOffsets l + rq.numberOf c l) := by
  have hloop := Lib.foldl_range_invariant (n := rq.M)
    (f := fun (s : (ℕ → F) × ℕ) m ↦
      (if m = 0 then write s.1 0 ((List.range (2 ^ rq.nbits m)).map lut)
        else (List.range (2 ^ rq.nbits m)).foldl (fun ips j ↦
          write ips ((2 ^ rq.nbits m - 1 - j) * s.2) ((List.range s.2).map fun t ↦
            fl.add (ips t) (lut (rq.codebookOffsets m + (2 ^ rq.nbits m - 1 - j))))) s.1, s.2 * 2 ^ rq.nbits m))
    (s := (ips, 1))
    (fun m s ↦ s.2 = 2 ^ rq.bitsBefore m ∧ (0 < m → ∀ c < 2 ^ rq.bitsBefore m,
      s.1 c = ∑ l ∈ range m, lut (rq.codebookOffsets l + rq.numberOf c l)))
    ⟨rfl, fun hpos ↦ absurd hpos (Nat.lt_irrefl 0)⟩
    fun m hm s ⟨hprev, hsums⟩ ↦ by
      refine ⟨by rw [hprev, bitsBefore_succ, pow_add], fun _ c hc ↦ ?_⟩
      dsimp only
      rw [bitsBefore_succ, pow_add] at hc
      have htop : rq.numberOf c m = c / 2 ^ rq.bitsBefore m := Nat.mod_eq_of_lt (Nat.div_lt_of_lt_mul hc)
      split
      · next hzero =>
          subst hzero
          have hone : 2 ^ rq.bitsBefore 0 = 1 := rfl
          rw [hone, Nat.one_mul] at hc
          have hin : c < ((List.range (2 ^ rq.nbits 0)).map lut).length := by
            rwa [List.length_map, List.length_range]
          have hcell := Lib.write_of_inside (m := s.1) (o := 0) hin
          rw [Nat.zero_add] at hcell
          rw [hcell, List.get_eq_getElem, List.getElem_map, List.getElem_range, sum_range_one, htop, hone, Nat.div_one,
            codebookOffsets, Nat.zero_add]
      · next hne =>
          rw [Nat.mul_comm] at hc
          rw [hprev, expand_apply _ (fun i ↦ lut (rq.codebookOffsets m + i)) (Nat.two_pow_pos _) hc,
            hsums (Nat.pos_of_ne_zero hne) _ (Nat.mod_lt _ (Nat.two_pow_pos _)), h.add, sum_range_succ, htop]
          refine congrArg (· + _) (sum_congr rfl fun l hl ↦ ?_)
          rw [numberOf_mod (mem_range.mp hl)]
  exact hloop.2 hM c hc

/-- `decode_64bit` adds up the entries of the codebooks. -/
theorem decode64bit_exact (h : fl.Exact) (c t : ℕ) :
    rq.decode64bit fl c t = ∑ l ∈ range rq.M, rq.codebook l (rq.numberOf c l) t := by
  have hloop := Lib.foldl_range_invariant (n := rq.M)
    (f := fun (s : (ℕ → F) × ℕ) m ↦
      (if m = 0 then rq.codebooks (rq.codebookOffsets m + (s.2 &&& (2 ^ rq.nbits m - 1)))
        else fl.fvecAdd s.1 (rq.codebooks (rq.codebookOffsets m + (s.2 &&& (2 ^ rq.nbits m - 1)))),
        s.2 >>> rq.nbits m))
    (s := (fun _ ↦ fl.zero, c))
    (fun m s ↦ s = ((fun t ↦ ∑ l ∈ range m, rq.codebook l (rq.numberOf c l) t), c >>> rq.bitsBefore m))
    (by
      rw [h.zero]
      rfl)
    fun m hm s hs ↦ by
      subst hs
      dsimp only
      rw [addEntry_exact h (fun m t ↦ ∑ l ∈ range m, rq.codebook l (rq.numberOf c l) t) _ rfl,
        ← Nat.shiftRight_add, bitsBefore_succ, Nat.and_two_pow_sub_one_eq_mod, Nat.shiftRight_eq_div_pow,
        ← numberOf]
      refine Prod.ext (funext fun t ↦ ?_) rfl
      exact (sum_range_succ _ _).symm
  exact congrFun (congrArg Prod.fst hloop) t

/-! ## Packing, decoding and the distance -/

variable (rq fl) in
/-- The distance for a packed code is that of the query to what is decoded, without the norm of the query. -/
def LutDistanceExact (q lut : ℕ → F) (code : List ℕ) : Prop :=
  ∃ bytes y, rq.packed fl code none none = .ok bytes ∧ rq.decode fl bytes = .ok y ∧
    rq.compute1DistanceLUT fl bytes lut =
      .ok (∑ t ∈ range rq.d, (q t - y t) ^ 2 - ∑ t ∈ range rq.d, q t ^ 2)

omit [CommRing F] in
variable (rq) in
/-- The last codebook has more than one entry, or the last byte is not full. -/
def EndsWithin : Prop := rq.nbits (rq.M - 1) ≠ 0 ∨ rq.bitsBefore rq.M < 8 * rq.codeSize

omit [CommRing F] in
theorem packable_of_endsWithin (hM : 1 ≤ rq.M) (hbits : ∀ m < rq.M, rq.nbits m ≤ 64) (hends : rq.EndsWithin) :
    rq.Packable := by
  intro m hm
  refine ⟨hbits m hm, ?_⟩
  have hmono : rq.bitsBefore m ≤ rq.bitsBefore (rq.M - 1) := bitsBefore_mono (Nat.le_sub_one_of_lt hm)
  have hall : rq.bitsBefore rq.M = rq.bitsBefore (rq.M - 1) + rq.nbits (rq.M - 1) := by
    rw [← bitsBefore_succ, Nat.sub_add_cancel hM]
  have hsize := bits_le_codeSize rq
  unfold EndsWithin at hends
  omega

omit [CommRing F] in
/-- Otherwise the last number is written after the last byte. -/
theorem endsWithin_of_packCode (hM : 1 ≤ rq.M) (hbits : ∀ m < rq.M, rq.nbits m ≤ 64) {norm : Except Fault F}
    (hpacked : rq.packCode code norm = .ok bytes) : rq.EndsWithin := by
  obtain ⟨bsw, hbsw, -⟩ := Fault.bind_eq_ok.mp hpacked
  have hwrites : (List.range rq.M).foldlM (fun bsw m ↦ bsw.write (code.getD m 0) (rq.nbits m))
      (BitstringWriter.new rq.codeSize) = some bsw := by
    unfold withinCode at hbsw
    split at hbsw
    · next h =>
        rw [h]
        exact congrArg some (Except.ok.inj hbsw)
    · cases hbsw
  obtain ⟨k, hk⟩ : ∃ k, rq.M = k + 1 := ⟨rq.M - 1, by omega⟩
  rw [hk, List.range_succ, List.foldlM_append] at hwrites
  obtain ⟨before, hbefore, hlast⟩ := Option.bind_eq_some_iff.mp hwrites
  obtain ⟨after, hlast, -⟩ := Option.bind_eq_some_iff.mp hlast
  have hlen : (BitstringWriter.new rq.codeSize).code.length = rq.codeSize := List.length_replicate
  obtain ⟨hi, hlength, -⟩ := BitstringWriter.advances_foldlM
    (fun m hm _ _ hwr ↦ BitstringWriter.advances_write hwr (hbits m (by have := List.mem_range.mp hm; omega)))
    (Nat.lt_of_lt_of_le (Nat.succ_pos 63) (Nat.le_add_left 64 _)) hbefore
  obtain ⟨-, -, hroom, -⟩ := BitstringWriter.of_write hlast
  have hplace : before.i = rq.bitsBefore k := by
    rw [hi, ← bitsBefore]
    exact Nat.zero_add _
  rw [hlength, hlen, hplace] at hroom
  unfold EndsWithin
  rw [hk, Nat.add_sub_cancel, bitsBefore_succ]
  by_cases hzero : rq.nbits k = 0
  · exact .inr (by rw [hzero]; exact hroom)
  · exact .inl hzero

/-- With the tables of `compute_codebook_tables`, the distance for a packed code is that to what is decoded if and
only if there are two codebooks and the last number is written within the code; and the inner products are those with
what is decoded for every code. -/
theorem lookups_iff (h : fl.Exact) (rq : ResidualQuantizer F) (htrained : rq.isTrained = true) (hM : 1 ≤ rq.M)
    (hbits : ∀ m < rq.M, rq.nbits m ≤ 64) (q lut : ℕ → F)
    (hlut : ∀ m < rq.M, ∀ i < 2 ^ rq.nbits m,
      lut (rq.codebookOffsets m + i) = ∑ t ∈ range rq.d, q t * rq.codebook m i t) :
    (∀ code, rq.CodeFits rq.M code →
      ((rq.computeCodebookTables fl).LutDistanceExact fl q lut code ↔ 2 ≤ rq.M ∧ rq.EndsWithin)) ∧
    ∀ ips, ∀ c < 2 ^ rq.bitsBefore rq.M,
      rq.computeInnerProdWithLUT fl lut ips c = ∑ t ∈ range rq.d, q t * rq.decode64bit fl c t := by
  have htables : (rq.computeCodebookTables fl).Tabulated fl := tabulated_computeCodebookTables fl
  have hsize : (rq.computeCodebookTables fl).crossTableSize = rq.crossOfs rq.M :=
    crossTableSize_computeCodebookTables fl
  refine ⟨fun code hcode ↦ ⟨?_, ?_⟩, fun ips c hc ↦ ?_⟩
  · rintro ⟨bytes, y, hpacked, -, hdis⟩
    have hends : (rq.computeCodebookTables fl).EndsWithin := endsWithin_of_packCode hM hbits hpacked
    refine ⟨?_, hends⟩
    obtain ⟨_, hguard, -⟩ := Fault.bind_eq_ok.mp hdis
    have hpos := of_decide_eq_true (Fault.throwIfNot_eq_ok.mp hguard)
    by_contra hlt
    rw [hsize, show rq.M = 1 by omega] at hpos
    exact absurd hpos (by rw [crossOfs, crossOfs, codebookOffsets, Nat.zero_mul]; exact Nat.lt_irrefl 0)
  · rintro ⟨htwo, hends⟩
    have hpack : (rq.computeCodebookTables fl).Packable := packable_of_endsWithin hM hbits hends
    have hpos : 0 < (rq.computeCodebookTables fl).crossTableSize :=
      htables.products_pos.resolve_left (Nat.not_le.mpr htwo)
    obtain ⟨bytes, hbytes, hholds⟩ := exists_packed fl none none hpack hcode
    refine ⟨bytes, _, hbytes, decode_exact h htrained hpack hcode hholds,
      compute1DistanceLUT_exact h htables hpack hcode hholds hpos fun m hm i hi ↦ ?_⟩
    rw [codebook, codebookOffsets_computeCodebookTables]
    exact hlut m hm i hi
  · rw [computeInnerProdWithLUT_exact h hM lut ips hc,
      sum_congr rfl fun l hl ↦ hlut l (mem_range.mp hl) _ (numberOf_lt c l), sum_comm]
    refine sum_congr rfl fun t _ ↦ ?_
    rw [decode64bit_exact h, mul_sum]

end Exact

/-- The first `M` of a codebook of two entries and one of four, of one number each. -/
def firstOfTwo (M : ℕ) : ResidualQuantizer ℤ where
  d := 1
  M := M
  nbits := fun m ↦ m + 1
  codebooks := fun c _ ↦ c
  searchType := .normFromLut
  isTrained := true
  maxMemDistances := 1024
  maxBeamSize := 2
  centroidNorms := fun _ ↦ 0
  codebookCrossProducts := fun _ ↦ 0
  crossTableSize := 0
  normEncoders := NormEncoders.zero _

/-- With both codebooks, for the numbers 1 and 2, and for the last code of 64 bits. -/
theorem lookups_iff_two :
    ((firstOfTwo 2).computeCodebookTables integerFloats).LutDistanceExact integerFloats (fun _ ↦ 3) (fun c ↦ 3 * c)
        [1, 2] ∧
      (firstOfTwo 2).computeInnerProdWithLUT integerFloats (fun c ↦ 3 * c) (fun _ ↦ 0) 7 =
        ∑ t ∈ range 1, 3 * (firstOfTwo 2).decode64bit integerFloats 7 t := by
  have htwo := lookups_iff integerFloats_exact (firstOfTwo 2) rfl (by decide)
    (fun m hm ↦ show m + 1 ≤ 64 from (Nat.succ_le_of_lt hm).trans (by decide)) (fun _ ↦ 3) (fun c ↦ 3 * c)
    fun m _ i _ ↦ by
      change _ = ∑ t ∈ range 1, 3 * (((firstOfTwo 2).codebookOffsets m + i : ℕ) : ℤ)
      rw [sum_range_one]
  exact ⟨(htwo.1 [1, 2] ⟨rfl, by decide⟩).mpr ⟨by decide, .inl (by decide)⟩, htwo.2 (fun _ ↦ 0) 7 (by decide)⟩

/-- With one codebook, the tables are there but the call fails. -/
theorem not_lutDistanceExact_one :
    ¬ ((firstOfTwo 1).computeCodebookTables integerFloats).LutDistanceExact integerFloats (fun _ ↦ 3)
      (fun c ↦ 3 * c) [1] := by
  rintro ⟨bytes, y, -, -, hdis⟩
  obtain ⟨_, hguard, -⟩ := Fault.bind_eq_ok.mp hdis
  have hpos := of_decide_eq_true (Fault.throwIfNot_eq_ok.mp hguard)
  exact absurd hpos (by decide)

end ResidualQuantizer

end FaissNavix
