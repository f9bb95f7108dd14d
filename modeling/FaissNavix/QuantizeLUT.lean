import FaissNavix.Lib.Rounding
import FaissNavix.Lib.Rows
import Mathlib.Tactic.Ring

/-!
# Quantization of look-up tables

`quantize_LUT_and_bias`: one scale for all tables and biases, so that an entry fits in 8 bits and a
distance in 16 bits, the offsets that are left out, and how far the sums of the kernels are from the
distances.  Floats are exact, with the two infinities where a minimum or a maximum starts.
-/

namespace FaissNavix

open Lib (write)

variable {K : Type} [Field K] [LinearOrder K]

/-! ## The model -/

/-- `tab_min`; `⊤` is `HUGE_VAL`. -/
def tabMin (tab : ℕ → K) (n : ℕ) : WithTop K :=
  (List.range n).foldl (fun min i ↦ if (tab i : WithTop K) < min then ↑(tab i) else min) ⊤

/-- `tab_max`; `⊥` is `-HUGE_VAL`. -/
def tabMax (tab : ℕ → K) (n : ℕ) : WithBot K :=
  (List.range n).foldl (fun max i ↦ if max < (tab i : WithBot K) then ↑(tab i) else max) ⊥

section Extrema

variable {tab : ℕ → K} {n : ℕ}

omit [Field K] in
theorem le_tabMin_iff {b : WithTop K} : b ≤ tabMin tab n ↔ ∀ i < n, b ≤ tab i := by
  induction n with
  | zero => exact iff_of_true le_top fun i hi ↦ absurd hi (Nat.not_lt_zero i)
  | succ n ih =>
      have hturn : tabMin tab (n + 1) = min (tab n : WithTop K) (tabMin tab n) := by
        rw [tabMin, List.range_succ, List.foldl_append, min_def_lt]
        rfl
      rw [hturn, le_min_iff, ih, Nat.forall_lt_succ_right, and_comm]

omit [Field K] in
theorem tabMax_le_iff {b : WithBot K} : tabMax tab n ≤ b ↔ ∀ i < n, tab i ≤ b := by
  induction n with
  | zero => exact iff_of_true bot_le fun i hi ↦ absurd hi (Nat.not_lt_zero i)
  | succ n ih =>
      have hturn : tabMax tab (n + 1) = max (tabMax tab n) (tab n : WithBot K) := by
        rw [tabMax, List.range_succ, List.foldl_append, max_def_lt]
        rfl
      rw [hturn, max_le_iff, ih, Nat.forall_lt_succ_right]

variable (tab)

theorem coe_tabMin (hn : 0 < n) : (((tabMin tab n).untopD 0 : K) : WithTop K) = tabMin tab n := by
  cases h : tabMin tab n with
  | top => exact absurd (h ▸ le_tabMin_iff.mp le_rfl 0 hn) (not_le.mpr (WithTop.coe_lt_top _))
  | coe m => rfl

theorem coe_tabMax (hn : 0 < n) : (((tabMax tab n).unbotD 0 : K) : WithBot K) = tabMax tab n := by
  cases h : tabMax tab n with
  | bot => exact absurd (h ▸ tabMax_le_iff.mp le_rfl 0 hn) (not_le.mpr (WithBot.bot_lt_coe _))
  | coe m => rfl

variable {tab}

theorem le_tabMin (hn : 0 < n) {b : K} : b ≤ (tabMin tab n).untopD 0 ↔ ∀ i < n, b ≤ tab i := by
  rw [← WithTop.coe_le_coe, coe_tabMin tab hn, le_tabMin_iff]
  exact forall₂_congr fun _ _ ↦ WithTop.coe_le_coe

theorem tabMax_le (hn : 0 < n) {b : K} : (tabMax tab n).unbotD 0 ≤ b ↔ ∀ i < n, tab i ≤ b := by
  rw [← WithBot.coe_le_coe, coe_tabMax tab hn, tabMax_le_iff]
  exact forall₂_congr fun _ _ ↦ WithBot.coe_le_coe

end Extrema

/-- The minimum of row `ij` of the tables, which has entries. -/
def rowMin (LUT : ℕ → K) (ksub ij : ℕ) : K :=
  (tabMin (fun c ↦ LUT (ij * ksub + c)) ksub).untopD 0

def rowMax (LUT : ℕ → K) (ksub ij : ℕ) : K :=
  (tabMax (fun c ↦ LUT (ij * ksub + c)) ksub).unbotD 0

/-- `span` -/
def rowSpan (LUT : ℕ → K) (ksub ij : ℕ) : K :=
  rowMax LUT ksub ij - rowMin LUT ksub ij

/-- `max_span_LUT`, `max_span_dis` and the sum of the offsets. -/
structure LUTSpans (K : Type) where
  maxSpanLUT : WithBot K
  maxSpanDis : WithBot K
  b : K

/-- The loop over `M` rows, from row `ij` on. -/
def spanRows (LUT : ℕ → K) (ksub M ij : ℕ) (s : LUTSpans K) : LUTSpans K :=
  (List.range M).foldl (fun s i ↦
    { maxSpanLUT := max s.maxSpanLUT (rowSpan LUT ksub (ij + i) : K)
      maxSpanDis := s.maxSpanDis + (rowSpan LUT ksub (ij + i) : K)
      b := s.b + rowMin LUT ksub (ij + i) }) s

section

variable {LUT : ℕ → K} {ksub ij c : ℕ}

theorem rowMin_le (hc : c < ksub) : rowMin LUT ksub ij ≤ LUT (ij * ksub + c) :=
  (le_tabMin (Nat.zero_lt_of_lt hc)).mp le_rfl c hc

theorem sub_rowMin_le [IsStrictOrderedRing K] (hc : c < ksub) :
    LUT (ij * ksub + c) - rowMin LUT ksub ij ≤ rowSpan LUT ksub ij :=
  have hle := (tabMax_le (Nat.zero_lt_of_lt hc)).mp (le_refl (rowMax LUT ksub ij)) c hc
  sub_le_sub_right hle _

/-- What the loop over the rows adds up, and the greatest span. -/
theorem spanRows_spec (LUT : ℕ → K) (ksub M ij : ℕ) (s : LUTSpans K) :
    (spanRows LUT ksub M ij s).b = s.b + ∑ i ∈ Finset.range M, rowMin LUT ksub (ij + i) ∧
      (spanRows LUT ksub M ij s).maxSpanDis =
        s.maxSpanDis + (∑ i ∈ Finset.range M, rowSpan LUT ksub (ij + i) : K) ∧
      ∀ z, (spanRows LUT ksub M ij s).maxSpanLUT ≤ z ↔
        s.maxSpanLUT ≤ z ∧ ∀ i < M, (rowSpan LUT ksub (ij + i) : K) ≤ z := by
  induction M with
  | zero =>
      refine ⟨(add_zero _).symm, (add_zero _).symm, fun z ↦ ⟨fun h ↦ ⟨h, fun i hi ↦ ?_⟩, And.left⟩⟩
      exact absurd hi (Nat.not_lt_zero i)
  | succ M ih =>
      obtain ⟨hb, hdis, hlut⟩ := ih
      have hturn : spanRows LUT ksub (M + 1) ij s =
          { maxSpanLUT := max (spanRows LUT ksub M ij s).maxSpanLUT (rowSpan LUT ksub (ij + M) : K)
            maxSpanDis := (spanRows LUT ksub M ij s).maxSpanDis + (rowSpan LUT ksub (ij + M) : K)
            b := (spanRows LUT ksub M ij s).b + rowMin LUT ksub (ij + M) } := by
        rw [spanRows, List.range_succ, List.foldl_append]
        rfl
      rw [hturn]
      refine ⟨?_, ?_, fun z ↦ ?_⟩
      · rw [hb, add_assoc, ← Finset.sum_range_succ]
      · rw [hdis, add_assoc, ← WithBot.coe_add, ← Finset.sum_range_succ]
      · rw [max_le_iff, hlut, and_assoc, Nat.forall_lt_succ_right]

end

/-- A quotient, which is zero for `-HUGE_VAL`. -/
def overSpan (n : ℕ) (span : WithBot K) : K :=
  (span.map fun span : K ↦ (n : K) / span).unbotD 0

/-- `a` -/
def lutScale (maxSpanLUT maxSpanDis : WithBot K) : K :=
  min (overSpan 255 maxSpanLUT) (overSpan 65535 maxSpanDis)

/-- What is computed for the tables of all probes. -/
structure ProbeSpans (K : Type) where
  maxSpanLUT : WithBot K
  maxSpanDis : WithBot K
  b : WithTop K
  bias2 : List K

/-- A turn for probe `j`. -/
def spanProbe (LUT : ℕ → K) (ksub M : ℕ) (bias : ℕ → K) (biasMin : K) (s : ProbeSpans K) (j : ℕ) :
    ProbeSpans K :=
  let r := spanRows LUT ksub M (j * M) ⟨s.maxSpanLUT, (bias j - biasMin : K), bias j⟩
  { maxSpanLUT := r.maxSpanLUT
    maxSpanDis := max s.maxSpanDis r.maxSpanDis
    b := if (r.b : WithTop K) < s.b then ↑r.b else s.b
    bias2 := s.bias2 ++ [r.b] }

variable [FloorRing K]

/-- `round_tab`, before the conversion to `T`. -/
def roundTab (tab : ℕ → K) (n : ℕ) (a bi : K) : List ℤ :=
  (List.range n).map fun i ↦ ⌊(tab i - bi) * a + ((2 : ℕ) : K)⁻¹⌋

/-- The rounded rows of one probe and the zeros after them. -/
def roundRows (M M2 ksub : ℕ) (LUT : ℕ → K) (a : K) (mins : ℕ → K) (j : ℕ) (LUTq : ℕ → ℤ) : ℕ → ℤ :=
  write ((List.range M).foldl (fun LUTq i ↦ write LUTq (j * M2 * ksub + i * ksub)
      (roundTab (fun c ↦ LUT ((j * M + i) * ksub + c)) ksub a (mins i))) LUTq)
    (j * M2 * ksub + M * ksub) (List.replicate (ksub * (M2 - M)) 0)

/-- The arguments: tables with `M` rows of `ksub` entries, for each probe if they are 3D. -/
structure LUTAndBias (K : Type) where
  nprobe : ℕ
  M : ℕ
  ksub : ℕ
  lutIs3d : Bool
  LUT : ℕ → K
  bias : Option (ℕ → K)
  M2 : ℕ

/-- The results, before they are converted to `uint8_t` and `uint16_t`. -/
structure QuantizedLUT (K : Type) where
  LUTq : ℕ → ℤ
  biasq : Option (ℕ → ℤ)
  a : K
  b : WithTop K

namespace LUTAndBias

/-- `quantize_LUT_and_bias`; without a result where it throws or writes to a null pointer. -/
def quantize (x : LUTAndBias K) (LUTq : ℕ → ℤ) (biasq : Option (ℕ → ℤ)) : Option (QuantizedLUT K) :=
  match x.bias, x.lutIs3d, biasq with
  | none, true, _ => none
  | none, false, biasq =>
      let s := spanRows x.LUT x.ksub x.M 0 ⟨⊥, (0 : K), 0⟩
      let a := lutScale s.maxSpanLUT s.maxSpanDis
      some ⟨roundRows x.M x.M2 x.ksub x.LUT a (rowMin x.LUT x.ksub) 0 LUTq, biasq, a, s.b⟩
  | some _, false, none => none
  | some bias, false, some biasq =>
      let biasMin := tabMin bias x.nprobe
      let biasSpan := (tabMax bias x.nprobe).map (· - biasMin.untopD 0)
      let s := spanRows x.LUT x.ksub x.M 0 ⟨⊥, biasSpan, 0⟩
      let a := lutScale s.maxSpanLUT s.maxSpanDis
      some ⟨roundRows x.M x.M2 x.ksub x.LUT a (rowMin x.LUT x.ksub) 0 LUTq,
        some (write biasq 0 (roundTab bias x.nprobe a (biasMin.untopD 0))), a, s.b + biasMin⟩
  | some bias, true, some biasq =>
      let s := (List.range x.nprobe).foldl
        (spanProbe x.LUT x.ksub x.M bias ((tabMin bias x.nprobe).untopD 0)) ⟨⊥, ⊥, ⊤, []⟩
      let a := lutScale s.maxSpanLUT s.maxSpanDis
      some ⟨(List.range x.nprobe).foldl (fun LUTq j ↦ roundRows x.M x.M2 x.ksub x.LUT a
          (fun i ↦ rowMin x.LUT x.ksub (j * x.M + i)) j LUTq) LUTq,
        some (write biasq 0 (roundTab (s.bias2.getD · 0) x.nprobe a (s.b.untopD 0))), a, s.b⟩
  | some bias, true, none =>
      -- the biases are integrated into the tables
      let LUT2 := fun ijc ↦ x.LUT ijc + bias (ijc / (x.M * x.ksub)) / (x.M : K)
      let row := fun j i c ↦ LUT2 ((j * x.M + i) * x.ksub + c)
      let mins := fun i ↦ ((List.range x.nprobe).foldl (fun m j ↦ min m (tabMin (row j i) x.ksub)) ⊤).untopD 0
      let maxs := fun i ↦ ((List.range x.nprobe).foldl (fun m j ↦ max m (tabMax (row j i) x.ksub)) ⊥).unbotD 0
      let maxSpan := (List.range x.M).foldl (fun (s : WithBot K) i ↦ max s ↑(maxs i - mins i)) ⊥
      let a := overSpan 255 maxSpan
      some ⟨(List.range x.nprobe).foldl (fun LUTq j ↦
          roundRows x.M x.M2 x.ksub LUT2 a mins j LUTq) LUTq, none, a,
        ((List.range x.M).map mins).sum⟩

/-! ## What the results are to be -/

variable (x : LUTAndBias K)

/-- The table of probe `j`, and how many tables there are. -/
def table (j : ℕ) : ℕ := if x.lutIs3d then j else 0

def tables : ℕ := if x.lutIs3d then x.nprobe else 1

def entry (j i c : ℕ) : K := x.LUT ((x.table j * x.M + i) * x.ksub + c)

def low (j i : ℕ) : K := rowMin x.LUT x.ksub (x.table j * x.M + i)

def span (j i : ℕ) : K := rowSpan x.LUT x.ksub (x.table j * x.M + i)

def biasOf (j : ℕ) : K := x.bias.elim 0 (· j)

def bias2 (j : ℕ) : K := x.biasOf j + ∑ i ∈ Finset.range x.M, x.low j i

def offset (j : ℕ) : K := x.bias2 j - (tabMin x.bias2 x.nprobe).untopD 0

/-- How far the bias of a probe is above the least one, with the spans of its table. -/
def spread (j : ℕ) : K :=
  x.biasOf j - (tabMin x.biasOf x.nprobe).untopD 0 + ∑ i ∈ Finset.range x.M, x.span j i

/-- The greatest scale with which the rows fit in 8 bits and the spreads in 16 bits. -/
def IsScale : K → Prop :=
  IsGreatest {a | ∀ j < x.nprobe, (∀ i < x.M, a * x.span j i ≤ ((255 : ℕ) : K)) ∧
    a * x.spread j ≤ ((65535 : ℕ) : K)}

/-- What a code adds up to, in units of the scale. -/
def scaled (a : K) (j : ℕ) (code : ℕ → ℕ) : K :=
  x.offset j * a + ∑ i ∈ Finset.range x.M, (x.entry j i (code i) - x.low j i) * a

def rounded (a : K) (j : ℕ) (code : ℕ → ℕ) : ℤ :=
  round (x.offset j * a) + ∑ i ∈ Finset.range x.M, round ((x.entry j i (code i) - x.low j i) * a)

/-- The rounded numbers of each code add up to less than `2 ^ 16`; with 65535 rows or more the tolerance
may also be so large that it hides what is lost. -/
def Headroom : Prop :=
  ∀ a, x.IsScale a → ∀ j < x.nprobe, round (x.offset j * a) < 65536 ∧
    ∀ code, (∀ i < x.M, code i < x.ksub) → x.rounded a j code < 65536 ∨ 65535 ≤ x.M ∧
      ((65536 * (x.rounded a j code / 65536) : ℤ) : K) ≤
        x.rounded a j code - x.scaled a j code + ((x.M + 1 : ℕ) : K) / ((2 : ℕ) : K)

/-- The bias that the kernels add, if there is one. -/
def biasq (q : QuantizedLUT K) (j : ℕ) : ℤ :=
  if x.bias.isSome then q.biasq.getD 0 j else 0

def entryq (q : QuantizedLUT K) (j i c : ℕ) : ℤ :=
  q.LUTq (x.table j * x.M2 * x.ksub + i * x.ksub + c)

def sum16 (q : QuantizedLUT K) (j : ℕ) (code : ℕ → ℕ) : UInt16 :=
  (List.range x.M).foldl (fun s i ↦ s + (UInt8.ofInt (x.entryq q j i (code i))).toUInt16)
    (UInt16.ofInt (x.biasq q j))

/-- All numbers fit, and the sums are as close to the distances as the roundings make them. -/
structure Accurate (q : QuantizedLUT K) : Prop where
  entry_fits : ∀ j < x.tables, ∀ i < x.M, ∀ c < x.ksub, 0 ≤ x.entryq q j i c ∧ x.entryq q j i c < 256
  bias_fits : ∀ j < x.nprobe, 0 ≤ x.biasq q j ∧ x.biasq q j < 65536
  close : ∀ j < x.nprobe, ∀ code, (∀ i < x.M, code i < x.ksub) → ∃ b : K, q.b = b ∧
    |((x.sum16 q j code).toNat : K) / q.a + b -
        (x.biasOf j + ∑ i ∈ Finset.range x.M, x.entry j i (code i))| ≤
      ((x.M + 1 : ℕ) : K) / (((2 : ℕ) : K) * q.a)

/-- What is computed, whichever the variant. -/
structure Computes (q : QuantizedLUT K) : Prop where
  nonneg : 0 ≤ q.a
  span_le : ∀ j < x.tables, ∀ i < x.M, q.a * x.span j i ≤ ((255 : ℕ) : K)
  entry_eq : ∀ j < x.tables, ∀ i < x.M, ∀ c < x.ksub,
    x.entryq q j i c = round ((x.entry j i c - x.low j i) * q.a)
  bias_eq : ∀ j < x.nprobe, x.biasq q j = round (x.offset j * q.a)
  scale : 0 < x.nprobe → 0 < q.a ∧ x.IsScale q.a ∧ q.b = ((tabMin x.bias2 x.nprobe).untopD 0 : K)


end LUTAndBias

/-! ## The loops -/

section Loops

variable {LUT : ℕ → K} {ksub M M2 i j c : ℕ}

theorem roundRows_apply [IsStrictOrderedRing K] (LUT : ℕ → K) (M2 : ℕ) (a : K) (mins : ℕ → K) (j : ℕ)
    (m : ℕ → ℤ) (hi : i < M) (hc : c < ksub) :
    roundRows M M2 ksub LUT a mins j m (j * M2 * ksub + i * ksub + c) =
      round ((LUT ((j * M + i) * ksub + c) - mins i) * a) := by
  have hwithin := Lib.cell_lt hi hc
  have hlen : ∀ i < M, (roundTab (fun c ↦ LUT ((j * M + i) * ksub + c)) ksub a (mins i)).length = ksub :=
    fun i _ ↦ by rw [roundTab, List.length_map, List.length_range]
  rw [roundRows, Lib.write_of_outside (.inl (by omega)), round_eq, one_div]
  have hrow := (Lib.rowsWritten_foldl hlen m (j * M2 * ksub)).rows i hi
  exact List.map_inj_left.mp hrow c (List.mem_range.mpr hc)

theorem roundRows_of_outside (a : K) (mins : ℕ → K) (m : ℕ → ℤ) (hM : M ≤ M2) {p : ℕ}
    (hp : p < j * M2 * ksub ∨ (j + 1) * M2 * ksub ≤ p) : roundRows M M2 ksub LUT a mins j m p = m p := by
  have hlen : ∀ i < M, (roundTab (fun c ↦ LUT ((j * M + i) * ksub + c)) ksub a (mins i)).length = ksub :=
    fun i _ ↦ by rw [roundTab, List.length_map, List.length_range]
  have hwide : (j + 1) * M2 * ksub = j * M2 * ksub + M * ksub + ksub * (M2 - M) := by
    obtain ⟨k, rfl⟩ := Nat.exists_eq_add_of_le hM
    rw [Nat.add_sub_cancel_left]
    ring
  rw [roundRows, Lib.write_of_outside (by rw [List.length_replicate]; omega)]
  exact (Lib.rowsWritten_foldl hlen m (j * M2 * ksub)).outside p (by omega)

theorem foldl_roundRows_apply [IsStrictOrderedRing K] (LUT : ℕ → K) (a : K) (mins : ℕ → ℕ → K)
    (m : ℕ → ℤ) (hM : M ≤ M2) {n : ℕ} (hj : j < n)
    (hi : i < M) (hc : c < ksub) :
    (List.range n).foldl (fun m j ↦ roundRows M M2 ksub LUT a (mins j) j m) m
        (j * M2 * ksub + i * ksub + c) =
      round ((LUT ((j * M + i) * ksub + c) - mins j i) * a) := by
  induction n with
  | zero => exact absurd hj (Nat.not_lt_zero j)
  | succ n ih =>
      rw [List.range_succ, List.foldl_append, List.foldl_cons, List.foldl_nil]
      rcases Nat.lt_succ_iff_lt_or_eq.mp hj with hlt | rfl
      · have hcell : j * M2 * ksub + (i * ksub + c) < n * M2 * ksub := by
          rw [Nat.mul_assoc, Nat.mul_assoc]
          exact Lib.cell_lt hlt ((Lib.cell_lt hi hc).trans_le (Nat.mul_le_mul_right ksub hM))
        rw [roundRows_of_outside a _ _ hM (.inl (by omega)), ih hlt]
      · exact roundRows_apply LUT M2 a _ j _ hi hc

end Loops

namespace LUTAndBias

variable [IsStrictOrderedRing K] {x : LUTAndBias K} {q : QuantizedLUT K}

/-! ## The scale -/

omit [FloorRing K] [IsStrictOrderedRing K] in
theorem forall_tables (hn : 0 < x.nprobe) {P : (ℕ → K) → Prop} :
    (∀ j < x.tables, P (x.span j)) ↔ ∀ j < x.nprobe, P (x.span j) := by
  unfold tables span table
  cases x.lutIs3d with
  | true => exact Iff.rfl
  | false => exact ⟨fun h j _ ↦ h 0 Nat.one_pos, fun h j _ ↦ h 0 hn⟩

omit [FloorRing K] in
theorem span_nonneg (hksub : 0 < x.ksub) (j i : ℕ) : 0 ≤ x.span j i :=
  (sub_nonneg.mpr (rowMin_le hksub)).trans (sub_rowMin_le hksub)

omit [FloorRing K] in
theorem span_le_spread (hksub : 0 < x.ksub) {j i : ℕ} (hj : j < x.nprobe) (hi : i < x.M) :
    x.span j i ≤ x.spread j :=
  (Finset.single_le_sum (fun i _ ↦ span_nonneg hksub j i) (Finset.mem_range.mpr hi)).trans
    (le_add_of_nonneg_left (sub_nonneg.mpr ((le_tabMin (Nat.zero_lt_of_lt hj)).mp le_rfl j hj)))

omit [FloorRing K] in
/-- No row is too wide for the scale, and with a probe the scale is the greatest one. -/
theorem lutScale_spec (hksub : 0 < x.ksub) (hrow : ∃ j < x.tables, ∃ i < x.M, 0 < x.span j i)
    {L D : WithBot K} (hlut : ∀ z : K, L ≤ z ↔ ∀ j < x.tables, ∀ i < x.M, x.span j i ≤ z)
    (hD : D = ⊥ ∨ 0 ≤ D) (hdis : 0 < x.nprobe → ∀ z : K, D ≤ z ↔ ∀ j < x.nprobe, x.spread j ≤ z) :
    0 ≤ lutScale L D ∧ (∀ j < x.tables, ∀ i < x.M, lutScale L D * x.span j i ≤ ((255 : ℕ) : K)) ∧
      (0 < x.nprobe → 0 < lutScale L D ∧ x.IsScale (lutScale L D)) := by
  obtain ⟨j₀, hj₀, i₀, hi₀, hpos⟩ := id hrow
  cases L with
  | bot => exact absurd ((hlut 0).mp bot_le j₀ hj₀ i₀ hi₀) (not_le.mpr hpos)
  | coe L =>
      have hspans := (hlut L).mp le_rfl
      have hL : 0 < L := hpos.trans_le (hspans j₀ hj₀ i₀ hi₀)
      have ha : 0 ≤ lutScale (L : WithBot K) D := by
        refine le_min (div_nonneg (Nat.cast_nonneg _) hL.le) ?_
        cases D with
        | bot => exact le_rfl
        | coe D =>
            have hD := hD.resolve_left (WithBot.coe_ne_bot)
            exact div_nonneg (Nat.cast_nonneg _) (WithBot.coe_nonneg.mp hD)
      have hfit : ∀ j < x.tables, ∀ i < x.M, lutScale L D * x.span j i ≤ ((255 : ℕ) : K) :=
        fun j hj i hi ↦ (mul_le_mul_of_nonneg_left (hspans j hj i hi) ha).trans
          ((le_div_iff₀ hL).mp (min_le_left _ _))
      refine ⟨ha, hfit, fun hn ↦ ?_⟩
      have hspread := hdis hn
      obtain ⟨j, hj, i, hi, hpos⟩ : ∃ j < x.nprobe, ∃ i < x.M, 0 < x.span j i := by
        by_contra hnone
        push Not at hnone
        exact hpos.not_ge ((forall_tables hn (P := fun f ↦ ∀ i < x.M, f i ≤ 0)).mpr hnone j₀ hj₀ i₀ hi₀)
      cases D with
      | bot => exact absurd ((hspread 0).mp bot_le j hj) (not_le.mpr (hpos.trans_le (span_le_spread hksub hj hi)))
      | coe D =>
          have hDs := (hspread D).mp le_rfl
          have hD : 0 < D := hpos.trans_le ((span_le_spread hksub hj hi).trans (hDs j hj))
          have hscale : 0 < lutScale (L : WithBot K) D :=
            lt_min (div_pos (by norm_num) hL) (div_pos (by norm_num) hD)
          refine ⟨hscale, fun j hj ↦ ⟨?_, ?_⟩, fun a h ↦ ?_⟩
          · exact (forall_tables hn (P := fun f ↦ ∀ i < x.M, _ * f i ≤ ((255 : ℕ) : K))).mp hfit j hj
          · exact (mul_le_mul_of_nonneg_left (hDs j hj) ha).trans
              ((le_div_iff₀ hD).mp (min_le_right _ _))
          · by_cases hnpos : a ≤ 0
            · exact hnpos.trans ha
            · have hapos := not_le.mp hnpos
              refine le_min ((le_div_comm₀ hL hapos).mp ?_) ((le_div_comm₀ hD hapos).mp ?_)
              · refine WithBot.coe_le_coe.mp ((hlut _).mpr ((forall_tables hn
                  (P := fun f ↦ ∀ i < x.M, f i ≤ ((255 : ℕ) : K) / a)).mpr fun j hj i hi ↦ ?_))
                exact (le_div_iff₀' hapos).mpr ((h j hj).1 i hi)
              · exact WithBot.coe_le_coe.mp ((hspread _).mpr fun j hj ↦
                  (le_div_iff₀' hapos).mpr (h j hj).2)

/-! ## The variants -/

variable {LUTq : ℕ → ℤ} {m : Option (ℕ → ℤ)}

omit [FloorRing K] in
theorem base_of_flat (h : x.lutIs3d = false) (hn : 0 < x.nprobe) :
    (tabMin x.bias2 x.nprobe).untopD 0 =
      (∑ i ∈ Finset.range x.M, rowMin x.LUT x.ksub (0 + i)) + (tabMin x.biasOf x.nprobe).untopD 0 := by
  have hlow : ∀ j i, x.low j i = rowMin x.LUT x.ksub (0 + i) := fun j i ↦ by
    rw [low, table, h, if_neg Bool.false_ne_true, Nat.zero_mul]
  refine eq_of_forall_le_iff fun b ↦ ?_
  rw [le_tabMin hn, ← sub_le_iff_le_add', le_tabMin hn]
  simp only [bias2, hlow, sub_le_iff_le_add]

/-- The rows of 2D tables. -/
theorem computes_flat (h : x.lutIs3d = false) (hksub : 0 < x.ksub)
    (hrow : ∃ j < x.tables, ∃ i < x.M, 0 < x.span j i) {D : WithBot K}
    (hD : D = ⊥ ∨ 0 ≤ D)
    (hdis : 0 < x.nprobe → ∀ z : K, D + (∑ i ∈ Finset.range x.M, rowSpan x.LUT x.ksub (0 + i) : K) ≤ z ↔
      ∀ j < x.nprobe, x.spread j ≤ z)
    {s : LUTSpans K} (hs : spanRows x.LUT x.ksub x.M 0 ⟨⊥, D, 0⟩ = s)
    (hq : q.LUTq = roundRows x.M x.M2 x.ksub x.LUT q.a (rowMin x.LUT x.ksub) 0 LUTq)
    (ha : q.a = lutScale s.maxSpanLUT s.maxSpanDis)
    (hbias : ∀ j < x.nprobe,
      x.biasq q j = round ((x.biasOf j - (tabMin x.biasOf x.nprobe).untopD 0) * q.a))
    (hb : 0 < x.nprobe → q.b = s.b + tabMin x.biasOf x.nprobe) : x.Computes q := by
  obtain ⟨hsb, hsdis, hslut⟩ := hs ▸ spanRows_spec x.LUT x.ksub x.M 0 ⟨⊥, D, 0⟩
  have hspan : ∀ j i, x.span j i = rowSpan x.LUT x.ksub (0 + i) := fun j i ↦ by
    rw [span, table, h, if_neg Bool.false_ne_true, Nat.zero_mul]
  have htables : x.tables = 1 := by rw [tables, h, if_neg Bool.false_ne_true]
  obtain ⟨hnonneg, hfit, hscale⟩ := lutScale_spec hksub hrow (L := s.maxSpanLUT) (D := s.maxSpanDis)
    (fun z ↦ by
      rw [hslut, htables]
      simp only [hspan, WithBot.coe_le_coe, bot_le, true_and, Nat.lt_one_iff, forall_eq]) (by
      rw [hsdis]
      rcases hD with rfl | hD
      · exact Or.inl (WithBot.bot_add _)
      · exact Or.inr (add_nonneg hD (WithBot.coe_nonneg.mpr
          (Finset.sum_nonneg fun i _ ↦ hspan 0 i ▸ span_nonneg hksub 0 i)))) (hsdis ▸ hdis)
  rw [← ha] at hnonneg hfit hscale
  refine ⟨hnonneg, hfit, fun j hj i hi c hc ↦ ?_, fun j hj ↦ ?_,
    fun hn ↦ ⟨(hscale hn).1, (hscale hn).2, ?_⟩⟩
  · have happly := roundRows_apply x.LUT x.M2 q.a (rowMin x.LUT x.ksub) 0 LUTq hi hc
    rw [entryq, entry, low, table, h, if_neg Bool.false_ne_true, hq, happly, Nat.zero_mul, Nat.zero_add]
  · rw [hbias j hj, offset, base_of_flat h (Nat.zero_lt_of_lt hj), bias2]
    simp only [low, table, h, if_neg Bool.false_ne_true, Nat.zero_mul]
    rw [add_comm (x.biasOf j), add_sub_add_left_eq_sub]
  · rw [hb hn, hsb, zero_add, ← coe_tabMin x.biasOf hn, base_of_flat h hn, WithTop.coe_add]

omit [FloorRing K] [IsStrictOrderedRing K] in
/-- The probes that have been gone through. -/
theorem spanProbes_spec {bias : ℕ → K} (h : x.lutIs3d = true) (hbias : x.bias = some bias) (n : ℕ)
    {s : ProbeSpans K} (hs : (List.range n).foldl (spanProbe x.LUT x.ksub x.M bias
      ((tabMin bias x.nprobe).untopD 0)) ⟨⊥, ⊥, ⊤, []⟩ = s) :
    s.b = tabMin x.bias2 n ∧ s.bias2 = (List.range n).map x.bias2 ∧
      (∀ z : K, s.maxSpanLUT ≤ z ↔ ∀ j < n, ∀ i < x.M, x.span j i ≤ z) ∧
      (∀ z : K, s.maxSpanDis ≤ z ↔ ∀ j < n, x.spread j ≤ z) := by
  have hof : x.biasOf = bias := funext fun j ↦ by rw [biasOf, hbias]; rfl
  have htable : ∀ j, x.table j = j := fun j ↦ if_pos h
  induction n generalizing s with
  | zero =>
      subst hs
      exact ⟨rfl, rfl, fun z ↦ iff_of_true bot_le fun j hj ↦ absurd hj (Nat.not_lt_zero j),
        fun z ↦ iff_of_true bot_le fun j hj ↦ absurd hj (Nat.not_lt_zero j)⟩
  | succ n ih =>
      rw [List.range_succ, List.foldl_append] at hs
      generalize ht : (List.range n).foldl _ _ = t at hs
      obtain ⟨hb, hlist, hlut, hdis⟩ := ih ht
      obtain ⟨hrb, hrdis, hrlut⟩ := spanRows_spec x.LUT x.ksub x.M (n * x.M)
        ⟨t.maxSpanLUT, (bias n - (tabMin bias x.nprobe).untopD 0 : K), bias n⟩
      have hbias2 : x.bias2 n = bias n + ∑ i ∈ Finset.range x.M, rowMin x.LUT x.ksub (n * x.M + i) := by
        simp only [bias2, low, htable, hof]
      have hspread : x.spread n = bias n - (tabMin bias x.nprobe).untopD 0 +
          ∑ i ∈ Finset.range x.M, rowSpan x.LUT x.ksub (n * x.M + i) := by
        simp only [spread, span, htable, hof]
      subst hs
      refine ⟨?_, ?_, fun z ↦ ?_, fun z ↦ ?_⟩
      · change (if (_ : WithTop K) < t.b then _ else t.b) = _
        rw [hrb, ← hbias2, hb]
        conv_rhs => rw [tabMin, List.range_succ, List.foldl_append]
        rfl
      · change t.bias2 ++ [_] = _
        rw [hrb, ← hbias2, hlist, List.range_succ, List.map_append, List.map_singleton]
      · refine (hrlut z).trans ?_
        rw [hlut, Nat.forall_lt_succ_right]
        simp only [WithBot.coe_le_coe, span, htable]
      · refine max_le_iff.trans ?_
        rw [hdis, hrdis, Nat.forall_lt_succ_right, ← WithBot.coe_add, ← hspread, WithBot.coe_le_coe]

/-- Whichever the variant, what is computed are the entries and the biases above their offsets, in units
of the scale. -/
theorem exists_computes (hksub : 0 < x.ksub) (hM2 : x.M ≤ x.M2)
    (hrow : ∃ j < x.tables, ∃ i < x.M, 0 < x.span j i)
    (hvariant : if x.bias.isSome then m.isSome else x.lutIs3d = false) (LUTq : ℕ → ℤ) :
    ∃ q, x.quantize LUTq m = some q ∧ x.Computes q := by
  unfold quantize
  split
  · next h h' => simp [h, h'] at hvariant
  · next h h' =>
      have hof : x.biasOf = fun _ ↦ 0 := funext fun j ↦ by rw [biasOf, h]; rfl
      have hmin : ∀ n, 0 < n → tabMin (fun _ ↦ (0 : K)) n = (0 : K) := fun n hn ↦ by
        rw [← coe_tabMin _ hn]
        exact congrArg _ (eq_of_forall_le_iff fun b ↦ (le_tabMin hn).trans ⟨fun h ↦ h 0 hn, fun h _ _ ↦ h⟩)
      refine ⟨_, rfl, computes_flat h' hksub hrow (Or.inr le_rfl) (fun hn z ↦ ?_) rfl rfl rfl
        (fun j hj ↦ ?_) fun hn ↦ ?_⟩
      · have hspread : ∀ j, x.spread j = ∑ i ∈ Finset.range x.M, rowSpan x.LUT x.ksub (0 + i) := fun j ↦ by
          rw [spread, hof, hmin _ hn]
          simp [span, table, h']
        simp only [hspread]
        rw [zero_add, WithBot.coe_le_coe]
        exact ⟨fun h _ _ ↦ h, fun h ↦ h 0 hn⟩
      · rw [biasq, h, hof, hmin _ (Nat.zero_lt_of_lt hj)]
        simp
      · rw [hof, hmin _ hn, WithTop.coe_zero, add_zero]
        rfl
  · next h h' => simp [h] at hvariant
  · next bias m h h' =>
      have hof : x.biasOf = bias := funext fun j ↦ by rw [biasOf, h]; rfl
      have hspan : ∀ j, ∑ i ∈ Finset.range x.M, x.span j i =
          ∑ i ∈ Finset.range x.M, rowSpan x.LUT x.ksub (0 + i) := fun j ↦ by
        simp [span, table, h']
      refine ⟨_, rfl, computes_flat h' hksub hrow ?_ (fun hn z ↦ ?_) rfl rfl rfl (fun j hj ↦ ?_) fun _ ↦ ?_⟩
      · rcases Nat.eq_zero_or_pos x.nprobe with hn | hn
        · rw [hn]
          exact Or.inl rfl
        · rw [← coe_tabMax bias hn]
          exact Or.inr (WithBot.coe_nonneg.mpr (sub_nonneg.mpr (((le_tabMin hn).mp le_rfl 0 hn).trans
            ((tabMax_le hn).mp le_rfl 0 hn))))
      · rw [← coe_tabMax bias hn, WithBot.map_coe, ← WithBot.coe_add, WithBot.coe_le_coe,
          ← le_sub_iff_add_le, sub_le_iff_le_add, tabMax_le hn]
        simp only [spread, hspan, hof, ← le_sub_iff_add_le, sub_le_iff_le_add]
      · have hwrite := Lib.write_zero_apply m (fun j ↦ ⌊(bias j - (tabMin bias x.nprobe).untopD 0) *
          lutScale (spanRows x.LUT x.ksub x.M 0 ⟨⊥, (tabMax bias x.nprobe).map
            (· - (tabMin bias x.nprobe).untopD 0), 0⟩).maxSpanLUT (spanRows x.LUT x.ksub x.M 0
            ⟨⊥, (tabMax bias x.nprobe).map (· - (tabMin bias x.nprobe).untopD 0), 0⟩).maxSpanDis +
            ((2 : ℕ) : K)⁻¹⌋) hj
        rw [biasq, h, hof, round_eq, one_div]
        exact hwrite
      · rw [hof]
  · next bias m h h' =>
      generalize hs : (List.range x.nprobe).foldl (spanProbe x.LUT x.ksub x.M bias _) _ = s
      obtain ⟨hb, hlist, hlut, hdis⟩ := spanProbes_spec h' h x.nprobe hs
      have htables : x.tables = x.nprobe := if_pos h'
      have hD : s.maxSpanDis = ⊥ ∨ 0 ≤ s.maxSpanDis := by
        obtain ⟨j, hj, i, hi, hpos⟩ := hrow
        cases hD : s.maxSpanDis with
        | bot => exact Or.inl rfl
        | coe d => exact Or.inr (WithBot.coe_nonneg.mpr ((hpos.le.trans
            (span_le_spread hksub (htables ▸ hj) hi)).trans ((hdis d).mp hD.le j (htables ▸ hj))))
      obtain ⟨hnonneg, hfit, hscale⟩ := lutScale_spec hksub hrow (fun z ↦ htables ▸ hlut z) hD fun _ ↦ hdis
      refine ⟨_, rfl, hnonneg, hfit, fun j hj i hi c hc ↦ ?_, fun j hj ↦ ?_, fun hn ↦
        ⟨(hscale hn).1, (hscale hn).2, hb.trans (coe_tabMin x.bias2 hn).symm⟩⟩
      · have happly := foldl_roundRows_apply x.LUT (lutScale s.maxSpanLUT s.maxSpanDis)
          (fun j i ↦ rowMin x.LUT x.ksub (j * x.M + i)) LUTq hM2 (htables ▸ hj) hi hc
        simp only [entryq, entry, low, table, h', if_true]
        exact happly
      · have hwrite := Lib.write_zero_apply m (fun j ↦ ⌊(s.bias2.getD j 0 - s.b.untopD 0) *
          lutScale s.maxSpanLUT s.maxSpanDis + ((2 : ℕ) : K)⁻¹⌋) hj
        have hget : s.bias2.getD j 0 = x.bias2 j := by
          rw [hlist, List.getD_eq_getElem _ _ (by rwa [List.length_map, List.length_range])]
          simp
        rw [biasq, h, round_eq, one_div, offset, ← hget, ← hb]
        exact hwrite
  · next h h' => simp [h] at hvariant

end LUTAndBias

end FaissNavix
