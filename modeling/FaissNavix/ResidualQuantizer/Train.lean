import FaissNavix.ResidualQuantizer.ExactArithmetic
import FaissNavix.ResidualQuantizer.LookupTables
import Mathlib.Data.List.Sort

/-!
# Training a residual quantizer

The levels of `ResidualQuantizer::train` of `faiss/impl/ResidualQuantizer.cpp`.  What was found of each
training vector and what is left of it agree at every level, unless `Train_top_beam` is set at a level
that starts from several hypotheses: the vector of the residuals is then cut down to the best ones, and
the whole beam is read from it.
-/

namespace FaissNavix

open Finset
open Lib

/-- How `train` can stop. -/
inductive Stop where
  | exception
  /-- Something outside of a vector is read. -/
  | outside
deriving DecidableEq, Repr

/-- What a step writes for a hypothesis. -/
structure Hypothesis (F D : Type) where
  code : List ℕ
  residual : ℕ → F
  distance : D

/-- The local variables of `train`, and the codebooks. -/
structure Training (F D : Type) where
  codebooks : ℕ → ℕ → F
  curBeamSize : ℕ
  residuals : List (ℕ → F)
  codes : List (List ℕ)
  distances : List D

/-- The flags of `train_type`, and what is called: the centroids that `Clustering` or
`ProgressiveDimClustering` finds in a training set, and the results of the search of an `assign_index`
with `K` centroids for the `k` nearest ones. -/
structure Trainer (F D : Type) where
  trainType : ℕ
  cluster : (progressive : Bool) → (K : ℕ) → List (ℕ → F) → ℕ → ℕ → F
  search : (K : ℕ) → (cent : ℕ → ℕ → F) → (k : ℕ) → (x : ℕ → F) → ℕ → D × ℤ

namespace Trainer

variable {F D : Type}

/-- `train_type & Train_progressive_dim` -/
def progressiveDim (t : Trainer F D) : Bool := t.trainType &&& 1 ≠ 0

/-- `train_type & Train_top_beam` -/
def topBeam (t : Trainer F D) : Bool := t.trainType &&& 1024 ≠ 0

/-- Results before the neutral value have the label of a centroid, and there are as many as there are
centroids, or all. -/
structure Searches (t : Trainer F D) (C : KeyValueOrder D) : Prop where
  label : ∀ K cent k x, ∀ j < k, C.cmp C.neutral (t.search K cent k x j).1 = true →
    0 ≤ (t.search K cent k x j).2 ∧ (t.search K cent k x j).2 < K
  enough : ∀ K cent k x,
    min k K ≤ (List.range k).countP fun j ↦ C.cmp C.neutral (t.search K cent k x j).1

end Trainer

namespace ResidualQuantizer

variable {F D : Type} (rq : ResidualQuantizer F) (fl : Floats F) (C : KeyValueOrder D) (t : Trainer F D)

/-! ## The model -/

/-- The elements from `p` on. -/
def within {α : Type} (v : List α) (p n : ℕ) : Except Stop (List α) :=
  if p + n ≤ v.length then .ok ((v.drop p).take n) else .error .outside

/-- What the loop of `beam_search_encode_step` over the vectors does for one of them, when there is an
`assign_index`. -/
def encodeHypotheses (K : ℕ) (cent : ℕ → ℕ → F) (beamSize m newBeamSize : ℕ) (residuals : List (ℕ → F))
    (codes : List (List ℕ)) : Except Stop (List (Hypothesis F D)) :=
  let residual := fun b ↦ residuals.getD b fun _ ↦ fl.zero
  let found := fun p ↦ t.search K cent newBeamSize (residual (p / newBeamSize)) (p % newBeamSize)
  let best := bestCandidates C newBeamSize (fun p ↦ (found p).1) (beamSize * newBeamSize)
  let perm := fun j ↦ (best j).2.toNat
  let ls := fun j ↦ (found (perm j)).2
  if ∀ j < newBeamSize, 0 ≤ (best j).2 ∧ 0 ≤ ls j ∧ ls j < K then
    .ok ((List.range newBeamSize).map fun j ↦
      { code := (codes.getD (perm j / newBeamSize) []).take m ++ [(ls j).toNat]
        residual := fl.fvecSub (residual (perm j / newBeamSize)) (cent (ls j).toNat)
        distance := (best j).1 })
  else .error .outside

/-- The same, for hypotheses that start at `p`. -/
def encodeHypothesesAt (K : ℕ) (cent : ℕ → ℕ → F) (beamSize : ℕ) (residuals : List (ℕ → F)) (m : ℕ)
    (codes : List (List ℕ)) (newBeamSize p : ℕ) : Except Stop (List (Hypothesis F D)) := do
  let residuals ← within residuals p beamSize
  let codes ← within codes p beamSize
  encodeHypotheses fl C t K cent beamSize m newBeamSize residuals codes

/-- `beam_search_encode_step` with an `assign_index`, for vectors whose hypotheses start at `ofs`, and
which are written from `o` on. -/
def encodeStepIndexed (K : ℕ) (cent : ℕ → ℕ → F) (n beamSize : ℕ) (residuals : List (ℕ → F)) (ofs m : ℕ)
    (codes : List (List ℕ)) (newBeamSize o : ℕ) (out : ℕ → Hypothesis F D) :
    Except Stop (ℕ → Hypothesis F D) :=
  if newBeamSize ≤ beamSize * K then
    writeRows newBeamSize (fun i ↦
      encodeHypothesesAt fl C t K cent beamSize residuals m codes newBeamSize (ofs + i * beamSize)) o n out
  else .error .exception

/-- `new_beam_size`, with the product of two `int`. -/
def newBeamSize (curBeamSize m : ℕ) : ℤ :=
  min (Int.bmod (curBeamSize * 2 ^ rq.nbits m) (2 ^ 32)) rq.maxBeamSize

/-- `bs` -/
def trainBlockSize (n : ℕ) : ℕ :=
  let mem := rq.memoryPerPoint
  if n > 1 ∧ mem * n > rq.maxMemDistances then max (rq.maxMemDistances / mem) 1 else n

/-- The first part of a level: `residuals` is the training set, also where it is to be `residuals1`. -/
def trainCodebook (n m : ℕ) (s : Training F D) : Except Stop (Training F D) := do
  let K := 2 ^ rq.nbits m
  let residuals ←
    if t.topBeam then
      if ∀ j < n, j * s.curBeamSize < s.residuals.length then
        .ok ((List.range n).map fun j ↦ s.residuals.getD (j * s.curBeamSize) fun _ ↦ fl.zero)
      else .error .outside
    else .ok s.residuals
  if K ≤ residuals.length then
    let cent := t.cluster t.progressiveDim K residuals
    .ok { s with
      residuals := residuals
      codebooks := write s.codebooks (rq.codebookOffsets m) ((List.range K).map cent) }
  else .error .exception

/-- The second part of a level: all hypotheses are extended, in blocks of vectors.  Vectors of a negative
length are not allocated, and `search` needs `k > 0`. -/
def trainEncode (n m : ℕ) (s : Training F D) : Except Stop (Training F D) := do
  let newBeamSize := rq.newBeamSize s.curBeamSize m
  if 0 < newBeamSize then
    let w := newBeamSize.toNat
    let bs := rq.trainBlockSize n
    let out ← (List.range ((n + bs - 1) / bs)).foldlM (fun out b ↦
      encodeStepIndexed fl C t (2 ^ rq.nbits m) (fun k ↦ s.codebooks (rq.codebookOffsets m + k))
        (min n (b * bs + bs) - b * bs) s.curBeamSize s.residuals (b * bs * s.curBeamSize) m s.codes w
        (b * bs * w) out) fun _ ↦ ⟨[], fun _ ↦ fl.zero, C.neutral⟩
    let hypotheses := read out 0 (n * w)
    .ok { s with
      curBeamSize := w
      residuals := hypotheses.map Hypothesis.residual
      codes := hypotheses.map Hypothesis.code
      distances := hypotheses.map Hypothesis.distance }
  else .error .exception

/-- What `train` starts a level with. -/
def trainedLevels (n : ℕ) (x : ℕ → ℕ → F) : ℕ → Except Stop (Training F D)
  | 0 => .ok ⟨rq.codebooks, 1, (List.range n).map x, List.replicate n [], []⟩
  | m + 1 => do
    let s ← trainedLevels n x m
    let s ← rq.trainCodebook fl t n m s
    rq.trainEncode fl C t n m s

/-- `cur_beam_size` at level `m`. -/
def trainBeamSize : ℕ → ℕ
  | 0 => 1
  | m + 1 => (rq.newBeamSize (trainBeamSize m) m).toNat

/-- The quantizer after the levels. -/
def trainedWith (rq : ResidualQuantizer F) (s : Training F D) : ResidualQuantizer F :=
  { rq with codebooks := s.codebooks, isTrained := true }

/-! ## What is to hold -/

/-- There are the residuals and codes of all hypotheses, and what is left of a vector is what the
centroids of its code leave. -/
structure Consistent [CommRing F] (n : ℕ) (x : ℕ → ℕ → F) (m : ℕ) (s : Training F D) : Prop where
  residuals : s.residuals.length = n * s.curBeamSize
  codes : s.codes.length = n * s.curBeamSize
  row : ∀ i < n, ∀ b < s.curBeamSize, ∃ code r, s.codes[i * s.curBeamSize + b]? = some code ∧
    s.residuals[i * s.curBeamSize + b]? = some r ∧ rq.CodeFits m code ∧
    ∀ j, r j = x i j - ∑ l ∈ range m, s.codebooks (rq.codebookOffsets l + code.getD l 0) j

/-- Whenever a level starts and whenever its hypotheses are extended, the variables are consistent, and
nothing outside of them is read. -/
def TrainsConsistently [CommRing F] (n : ℕ) (x : ℕ → ℕ → F) : Prop :=
  ∀ m < rq.M, ∀ s, rq.trainedLevels fl C t n x m = .ok s → rq.Consistent n x m s ∧
    ∀ s', rq.trainCodebook fl t n m s = .ok s' →
      rq.Consistent n x m s' ∧ rq.trainEncode fl C t n m s' ≠ .error .outside

/-! ## A step -/

section Step

variable {K : Type} [LinearOrder K] {rq fl C t} {key : D → K} {ok : D → Prop} {n m : ℕ}
  {s : Training F D}

theorem count_rows {p : ℕ → Bool} {c w : ℕ} (n : ℕ)
    (h : ∀ i < n, c ≤ (List.range w).countP fun j ↦ p (i * w + j)) :
    n * c ≤ (List.range (n * w)).countP p := by
  induction n with
  | zero => rw [Nat.zero_mul]; exact Nat.zero_le _
  | succ n ih =>
      rw [Nat.succ_mul, Nat.succ_mul, List.range_add, List.countP_append, List.countP_map]
      exact Nat.add_le_add (ih fun i hi ↦ h i (Nat.lt_succ_of_lt hi)) (h n (Nat.lt_succ_self n))

theorem encodeHypotheses_spec (fl : Floats F) (m : ℕ) (hC : C.Keyed key ok) (ht : t.Searches C)
    {centroids beamSize w : ℕ}
    (cent : ℕ → ℕ → F) (residuals : List (ℕ → F)) (codes : List (List ℕ))
    (hw : w ≤ beamSize * centroids) :
    ∃ hyps, encodeHypotheses fl C t centroids cent beamSize m w residuals codes = .ok hyps ∧
      hyps.length = w ∧ ∀ j, ∀ hj : j < hyps.length, ∃ b < beamSize, ∃ k < centroids,
        hyps[j].code = (codes.getD b []).take m ++ [k] ∧
        hyps[j].residual = fl.fvecSub (residuals.getD b fun _ ↦ fl.zero) (cent k) := by
  unfold encodeHypotheses
  extract_lets residual found best perm ls
  have henough : EnoughCandidates C w (fun p ↦ (found p).1) (beamSize * w) := by
    refine le_trans ?_ (count_rows (c := min w centroids) beamSize fun i _ ↦ ?_)
    · rcases Nat.le_total w centroids with hle | hle
      · rw [Nat.min_eq_left hle]
        rcases Nat.eq_zero_or_pos beamSize with rfl | hpos
        · omega
        · exact Nat.le_mul_of_pos_left w hpos
      · rwa [Nat.min_eq_right hle]
    · refine (ht.enough centroids cent w (residual i)).trans_eq (List.countP_congr fun j hj ↦ ?_)
      dsimp only [found]
      rw [cell_div i (List.mem_range.mp hj), cell_mod i (List.mem_range.mp hj)]
  -- what is selected comes from a result before the neutral value
  have hbest : ∀ j < w, ∃ p < beamSize * w, (best j).2 = p ∧ 0 ≤ (found p).2 ∧ (found p).2 < centroids := by
    intro j hj
    obtain ⟨p, hp, hbefore, hsel⟩ := henough.best hC hj
    exact ⟨p, hp, congrArg Prod.snd hsel, ht.label _ _ _ _ _ (Nat.mod_lt p (Nat.zero_lt_of_lt hj)) hbefore⟩
  have hcheck : ∀ j < w, 0 ≤ (best j).2 ∧ 0 ≤ ls j ∧ ls j < centroids := fun j hj ↦ by
    obtain ⟨p, -, hp, hlabel⟩ := hbest j hj
    dsimp only [ls, perm]
    rw [hp, Int.toNat_natCast]
    exact ⟨Int.natCast_nonneg p, hlabel⟩
  refine ⟨_, if_pos hcheck, by rw [List.length_map, List.length_range], fun j hj ↦ ?_⟩
  rw [List.length_map, List.length_range] at hj
  obtain ⟨p, hp, hperm, -⟩ := hbest j hj
  obtain ⟨-, hpos, hlt⟩ := hcheck j hj
  refine ⟨perm j / w, ?_, (ls j).toNat, by omega, ?_, ?_⟩
  · dsimp only [perm]
    rw [hperm, Int.toNat_natCast]
    exact Nat.div_lt_of_lt_mul (by rwa [Nat.mul_comm])
  · rw [List.getElem_map, List.getElem_range]
  · rw [List.getElem_map, List.getElem_range]

theorem bmod_le_self {v : ℤ} (hv : 0 ≤ v) (w : ℕ) : v.bmod w ≤ v := by
  have hnonneg := Int.mul_nonneg (Int.natCast_nonneg w) (Int.ediv_nonneg hv (Int.natCast_nonneg w))
  have hmod := Int.emod_add_mul_ediv v w
  rw [Int.bmod_def]
  split <;> omega

theorem newBeamSize_le {curBeamSize m : ℕ} :
    (rq.newBeamSize curBeamSize m).toNat ≤ curBeamSize * 2 ^ rq.nbits m := by
  have hle : rq.newBeamSize curBeamSize m ≤ ((curBeamSize * 2 ^ rq.nbits m : ℕ) : ℤ) := by
    rw [Nat.cast_mul, Nat.cast_pow, Nat.cast_ofNat]
    exact (min_le_left _ _).trans (bmod_le_self (by positivity) _)
  omega

theorem getD_slice {α : Type} (v : List α) (p : ℕ) {c b : ℕ} (hb : b < c) (d : α) :
    ((v.drop p).take c).getD b d = v.getD (p + b) d := by
  rw [List.getD_eq_getElem?_getD, List.getElem?_take_of_lt hb, List.getElem?_drop, ← List.getD_eq_getElem?_getD]

/-- The hypotheses that a vector is extended to. -/
def Extends (rq : ResidualQuantizer F) (fl : Floats F) (m : ℕ) (s : Training F D) (i : ℕ)
    (hyps : List (Hypothesis F D)) : Prop :=
  ∀ j, ∀ hj : j < hyps.length, ∃ b < s.curBeamSize, ∃ k < 2 ^ rq.nbits m,
    hyps[j].code = (s.codes.getD (i * s.curBeamSize + b) []).take m ++ [k] ∧
    hyps[j].residual = fl.fvecSub (s.residuals.getD (i * s.curBeamSize + b) fun _ ↦ fl.zero)
      (s.codebooks (rq.codebookOffsets m + k))

theorem trainBlockSize_pos (hn : 0 < n) : 0 < rq.trainBlockSize n := by
  rw [trainBlockSize]
  split
  · exact Nat.lt_of_lt_of_le Nat.zero_lt_one (Nat.le_max_right _ _)
  · exact hn

/-- Where there are the rows of all vectors, all are extended. -/
theorem trainEncode_spec (fl : Floats F) (hC : C.Keyed key ok) (ht : t.Searches C) (hn : 0 < n) (hres : s.residuals.length = n * s.curBeamSize)
    (hcodes : s.codes.length = n * s.curBeamSize) (hpos : 0 < rq.newBeamSize s.curBeamSize m) :
    ∃ s', rq.trainEncode fl C t n m s = .ok s' ∧ s'.codebooks = s.codebooks ∧
      s'.curBeamSize = (rq.newBeamSize s.curBeamSize m).toNat ∧
      s'.residuals.length = n * s'.curBeamSize ∧ s'.codes.length = n * s'.curBeamSize ∧
      ∀ i < n, ∃ hyps : List (Hypothesis F D), Extends rq fl m s i hyps ∧ hyps.length = s'.curBeamSize ∧
        ∀ j, ∀ hj : j < hyps.length, s'.codes[i * s'.curBeamSize + j]? = some hyps[j].code ∧
          s'.residuals[i * s'.curBeamSize + j]? = some hyps[j].residual := by
  have hw : (rq.newBeamSize s.curBeamSize m).toNat ≤ s.curBeamSize * 2 ^ rq.nbits m := newBeamSize_le
  unfold trainEncode
  generalize rq.newBeamSize s.curBeamSize m = v at hpos hw ⊢
  rw [if_pos hpos]
  generalize v.toNat = w at hw ⊢
  let row := fun i ↦ encodeHypothesesAt fl C t (2 ^ rq.nbits m)
    (fun k ↦ s.codebooks (rq.codebookOffsets m + k)) s.curBeamSize s.residuals m s.codes w (i * s.curBeamSize)
  have hrow : ∀ i < n, ∃ hyps, row i = .ok hyps ∧ hyps.length = w ∧ Extends rq fl m s i hyps := by
    intro i hi
    have hle : i * s.curBeamSize + s.curBeamSize ≤ n * s.curBeamSize := by
      rw [← Nat.succ_mul]
      exact Nat.mul_le_mul_right _ hi
    obtain ⟨hyps, hok, hlen, hhyps⟩ := encodeHypotheses_spec fl m hC ht
      (fun k ↦ s.codebooks (rq.codebookOffsets m + k))
      ((s.residuals.drop (i * s.curBeamSize)).take s.curBeamSize)
      ((s.codes.drop (i * s.curBeamSize)).take s.curBeamSize) hw
    refine ⟨hyps, ?_, hlen, fun j hj ↦ ?_⟩
    · dsimp only [row]
      rw [encodeHypothesesAt, within, if_pos (hle.trans_eq hres.symm), within,
        if_pos (hle.trans_eq hcodes.symm)]
      exact (pure_bind _ _).trans ((pure_bind _ _).trans hok)
    · obtain ⟨b, hb, k, hk, hcode, hresidual⟩ := hhyps j hj
      rw [getD_slice _ _ hb] at hcode hresidual
      exact ⟨b, hb, k, hk, hcode, hresidual⟩
  choose! f hf using hrow
  -- the blocks are the rows one after the other
  have hblocks : ∀ mem : ℕ → Hypothesis F D,
      (List.range ((n + rq.trainBlockSize n - 1) / rq.trainBlockSize n)).foldlM (fun out b ↦
        encodeStepIndexed fl C t (2 ^ rq.nbits m) (fun k ↦ s.codebooks (rq.codebookOffsets m + k))
          (min n (b * rq.trainBlockSize n + rq.trainBlockSize n) - b * rq.trainBlockSize n) s.curBeamSize
          s.residuals (b * rq.trainBlockSize n * s.curBeamSize) m s.codes w
          (b * rq.trainBlockSize n * w) out) mem =
      .ok ((List.range n).foldl (fun mem i ↦ write mem (0 + i * w) (f i)) mem) := fun mem ↦ by
    have hok : writeRows w row 0 n mem = .ok ((List.range n).foldl (fun mem i ↦ write mem (0 + i * w) (f i)) mem) :=
      writeRows_of_ok fun i hi ↦ (hf i hi).1
    rw [← hok, ← writeRows_blocks row (trainBlockSize_pos hn)]
    refine congrArg (fun turn ↦ List.foldlM turn mem _) (funext₂ fun out b ↦ ?_)
    rw [encodeStepIndexed, if_pos hw, Nat.zero_add]
    dsimp only [row]
    simp only [Nat.add_mul]
  have hwritten := rowsWritten_foldl (fun i hi ↦ (hf i hi).2.1) (fun _ ↦ (⟨[], fun _ ↦ fl.zero, C.neutral⟩ :
    Hypothesis F D)) 0
  dsimp only
  rw [hblocks]
  refine ⟨_, rfl, rfl, rfl, by simp, by simp, fun i hi ↦ ⟨f i, (hf i hi).2.2, (hf i hi).2.1, fun j hj ↦ ?_⟩⟩
  have hjw : j < w := (hf i hi).2.1 ▸ hj
  have hcell := cell_lt hi hjw
  have hentry := congrArg (fun r ↦ r[j]?) (hwritten.rows i hi)
  rw [Lib.read, List.getElem?_map, List.getElem?_range hjw, List.getElem?_eq_getElem hj] at hentry
  simp only [Lib.read, List.getElem?_map, List.getElem?_range hcell, Option.map_some]
  rw [← Option.some.inj hentry]
  dsimp only
  rw [Nat.add_assoc]
  exact ⟨rfl, rfl⟩

theorem trainCodebook_eq (rq : ResidualQuantizer F) (fl : Floats F) (t : Trainer F D) (m : ℕ)
    (hs : s.residuals.length = n * s.curBeamSize) (hpos : 0 < s.curBeamSize) :
    ∃ residuals, residuals.length = n * (if t.topBeam then 1 else s.curBeamSize) ∧
      (t.topBeam = false ∨ s.curBeamSize = 1 → residuals = s.residuals) ∧
      rq.trainCodebook fl t n m s = if 2 ^ rq.nbits m ≤ residuals.length then
        .ok { s with
          residuals := residuals
          codebooks := write s.codebooks (rq.codebookOffsets m)
            ((List.range (2 ^ rq.nbits m)).map (t.cluster t.progressiveDim (2 ^ rq.nbits m) residuals)) }
      else .error .exception := by
  unfold trainCodebook
  cases htop : t.topBeam with
  | false => exact ⟨s.residuals, hs, fun _ ↦ rfl, rfl⟩
  | true =>
      refine ⟨(List.range n).map fun j ↦ s.residuals.getD (j * s.curBeamSize) fun _ ↦ fl.zero, by simp,
        fun h ↦ ?_, ?_⟩
      · obtain hone : s.curBeamSize = 1 := h.resolve_left (by decide)
        rw [hone, Nat.mul_one] at hs
        refine List.ext_getElem (by simp [hs]) fun j _ hj ↦ ?_
        rw [List.getElem_map, List.getElem_range, hone, Nat.mul_one, List.getD_eq_getElem _ _ hj]
      · have hin : ∀ j < n, j * s.curBeamSize < s.residuals.length := fun j hj ↦
          hs ▸ Nat.mul_lt_mul_of_pos_right hj hpos
        rw [if_pos rfl, if_pos hin]
        rfl

end Step

section Exact

variable {K : Type} [LinearOrder K] [CommRing F] {rq fl C t} {key : D → K} {ok : D → Prop} {n m : ℕ}
  {x : ℕ → ℕ → F} {s s' : Training F D}

section
variable (hC : C.Keyed key ok) (ht : t.Searches C)
include hC ht

theorem Consistent.trainEncode (h : fl.Exact) (hn : 0 < n) (hs : rq.Consistent n x m s)
    (hpos : 0 < rq.newBeamSize s.curBeamSize m) :
    ∃ s', rq.trainEncode fl C t n m s = .ok s' ∧ rq.Consistent n x (m + 1) s' ∧
      s'.curBeamSize = (rq.newBeamSize s.curBeamSize m).toNat := by
  obtain ⟨s', hs', hcodebooks, hcur, hlres, hlcodes, hrows⟩ :=
    trainEncode_spec fl hC ht hn hs.residuals hs.codes hpos
  refine ⟨s', hs', ⟨hlres, hlcodes, fun i hi j hj ↦ ?_⟩, hcur⟩
  obtain ⟨hyps, hext, hlen, hcells⟩ := hrows i hi
  rw [← hlen] at hj
  obtain ⟨b, hb, k, hk, hcode, hresidual⟩ := hext j hj
  obtain ⟨code, r, hcode', hr, hfits, hleft⟩ := hs.row i hi b hb
  rw [List.getD_eq_getElem?_getD, hcode', Option.getD_some] at hcode
  rw [List.getD_eq_getElem?_getD, hr, Option.getD_some] at hresidual
  refine ⟨_, _, (hcells j hj).1, (hcells j hj).2, hcode ▸ hfits.append hk, fun a ↦ ?_⟩
  rw [hresidual, Floats.fvecSub, h.sub, hleft, hcodebooks, hcode, List.take_of_length_le hfits.1.le,
    sum_range_succ, sub_sub, List.getD_append_right _ _ _ _ hfits.1.le, hfits.1, Nat.sub_self]
  refine congrArg (fun v ↦ x i a - (v + s.codebooks (rq.codebookOffsets m + k) a))
    (sum_congr rfl fun l hl ↦ ?_)
  rw [List.getD_append _ _ _ _ (by rw [hfits.1]; exact mem_range.mp hl)]

end

theorem Consistent.trainCodebook (hs : rq.Consistent n x m s) (hpos : 0 < s.curBeamSize)
    (hall : t.topBeam = false ∨ s.curBeamSize = 1) (hs' : rq.trainCodebook fl t n m s = .ok s') :
    rq.Consistent n x m s' ∧ s'.curBeamSize = s.curBeamSize ∧ 2 ^ rq.nbits m ≤ n * s.curBeamSize := by
  obtain ⟨residuals, -, heq, hcodebook⟩ := trainCodebook_eq rq fl t m hs.residuals hpos
  obtain rfl := heq hall
  rw [hcodebook] at hs'
  split at hs'
  · next hle =>
      obtain rfl := Except.ok.inj hs'
      refine ⟨⟨hs.residuals, hs.codes, fun i hi b hb ↦ ?_⟩, rfl, hs.residuals ▸ hle⟩
      obtain ⟨code, r, hcode, hr, hfits, hleft⟩ := hs.row i hi b hb
      refine ⟨code, r, hcode, hr, hfits, fun j ↦ (hleft j).trans ?_⟩
      -- the centroids of the levels before are kept
      refine congrArg (x i j - ·) (sum_congr rfl fun l hl ↦ ?_)
      have hlt := hfits.2 l (mem_range.mp hl)
      have hmono := rq.codebookOffsets_mono (Nat.succ_le_of_lt (mem_range.mp hl))
      rw [codebookOffsets] at hmono
      exact (congrFun (write_of_outside (Or.inl (by omega))) j).symm
  · cases hs'

/-! ## Runs -/

theorem consistent_start : rq.Consistent n x 0
    (⟨rq.codebooks, 1, (List.range n).map x, List.replicate n [], []⟩ : Training F D) where
  residuals := by simp
  codes := by simp
  row := fun i hi b hb ↦ by
    obtain rfl := Nat.lt_one_iff.mp hb
    exact ⟨[], x i, by simp [hi], by simp [hi], codeFits_nil, fun j ↦ by simp⟩

/-- There are enough vectors for a level that is trained. -/
theorem Consistent.sizes (hs : rq.Consistent n x m s) (hpos : 0 < s.curBeamSize)
    (hcur : s.curBeamSize = rq.trainBeamSize m)
    (hM : t.topBeam = true → 1 < rq.trainBeamSize m → ∃ l ≤ m, n < 2 ^ rq.nbits l)
    (hsizes : t.topBeam = true → ∀ l < m, 2 ^ rq.nbits l ≤ n) (hs' : rq.trainCodebook fl t n m s = .ok s') :
    (t.topBeam = true → ∀ l < m + 1, 2 ^ rq.nbits l ≤ n) ∧ (t.topBeam = false ∨ s.curBeamSize = 1) := by
  have hall : t.topBeam = true → ∀ l < m + 1, 2 ^ rq.nbits l ≤ n := fun htop l hl ↦ by
    rcases Nat.lt_succ_iff_lt_or_eq.mp hl with hlt | rfl
    · exact hsizes htop l hlt
    · obtain ⟨residuals, hlen, -, heq⟩ := trainCodebook_eq rq fl t l hs.residuals hpos
      rw [htop, if_pos rfl, Nat.mul_one] at hlen
      rw [heq] at hs'
      split at hs'
      · next hle => exact hlen ▸ hle
      · cases hs'
  refine ⟨hall, ?_⟩
  rw [← Bool.not_eq_true, or_iff_not_imp_left, not_not]
  intro htop
  by_contra hne
  obtain ⟨l, hl, hlt⟩ := hM htop (by omega)
  exact absurd (hall htop l (Nat.lt_succ_of_le hl)) (Nat.not_le.mpr hlt)

section
variable (hC : C.Keyed key ok) (ht : t.Searches C) (h : fl.Exact)
include hC ht h

/-- A level that the training set is not cut down for. -/
theorem Consistent.level (hs : rq.Consistent n x m s) (hpos : 0 < s.curBeamSize)
    (hall : t.topBeam = false ∨ s.curBeamSize = 1) {s₁ : Training F D}
    (hs₁ : rq.trainCodebook fl t n m s = .ok s₁) :
    rq.Consistent n x m s₁ ∧ rq.trainEncode fl C t n m s₁ ≠ .error .outside ∧
      ∀ s', rq.trainEncode fl C t n m s₁ = .ok s' → rq.Consistent n x (m + 1) s' ∧
        0 < s'.curBeamSize ∧ s'.curBeamSize = (rq.newBeamSize s.curBeamSize m).toNat := by
  obtain ⟨hcons, hcur, hle⟩ := hs.trainCodebook hpos hall hs₁
  have hn : 0 < n := Nat.pos_of_mul_pos_right (Nat.lt_of_lt_of_le (Nat.two_pow_pos _) hle)
  refine ⟨hcons, ?_⟩
  by_cases hnew : 0 < rq.newBeamSize s₁.curBeamSize m
  · obtain ⟨s', hs', hcons', hcur'⟩ := hcons.trainEncode hC ht h hn hnew
    rw [hs']
    refine ⟨nofun, fun s'' hs'' ↦ ?_⟩
    obtain rfl := Except.ok.inj hs''
    rw [hcur', hcur]
    rw [hcur] at hnew
    exact ⟨hcons', by omega, rfl⟩
  · have hstop : rq.trainEncode fl C t n m s₁ = .error .exception := by
      rw [ResidualQuantizer.trainEncode]
      exact if_neg hnew
    rw [hstop]
    exact ⟨nofun, nofun⟩

/-- Levels that start from one hypothesis, or whose training set is not cut down. -/
theorem trainedLevels_consistent (hM : ∀ l < m, t.topBeam = true → 1 < rq.trainBeamSize l → ∃ l' ≤ l, n < 2 ^ rq.nbits l')
    (hs : rq.trainedLevels fl C t n x m = .ok s) :
    rq.Consistent n x m s ∧ 0 < s.curBeamSize ∧ s.curBeamSize = rq.trainBeamSize m ∧
      (t.topBeam = true → ∀ l < m, 2 ^ rq.nbits l ≤ n) := by
  induction m generalizing s with
  | zero =>
      obtain rfl := Except.ok.inj hs
      exact ⟨consistent_start, Nat.zero_lt_one, rfl, fun _ l hl ↦ absurd hl (Nat.not_lt_zero l)⟩
  | succ m ih =>
      obtain ⟨s₀, hs₀, hs⟩ := Fault.bind_eq_ok.mp hs
      obtain ⟨s₁, hs₁, hs'⟩ := Fault.bind_eq_ok.mp hs
      obtain ⟨hcons, hpos, hcur, hsizes⟩ := ih (fun l hl ↦ hM l (Nat.lt_succ_of_lt hl)) hs₀
      obtain ⟨hsizes', hall⟩ := hcons.sizes hpos hcur (hM m (Nat.lt_succ_self m)) hsizes hs₁
      obtain ⟨hcons', hpos', hcur'⟩ := (hcons.level hC ht h hpos hall hs₁).2.2 s hs'
      exact ⟨hcons', hpos', by rw [hcur', hcur, trainBeamSize], hsizes'⟩

/-- Levels that start from one hypothesis are reached if there are enough vectors. -/
theorem exists_trainedLevels (x : ℕ → ℕ → F) (hone : ∀ l < m, rq.trainBeamSize l = 1) (hpos : 0 < rq.trainBeamSize m)
    (hn : ∀ l < m, 2 ^ rq.nbits l ≤ n) :
    ∃ s, rq.trainedLevels fl C t n x m = .ok s ∧ rq.Consistent n x m s ∧ s.curBeamSize = rq.trainBeamSize m := by
  induction m with
  | zero => exact ⟨_, rfl, consistent_start, rfl⟩
  | succ m ih =>
      have hm := hone m (Nat.lt_succ_self m)
      obtain ⟨s, hs, hcons, hcur⟩ := ih (fun l hl ↦ hone l (Nat.lt_succ_of_lt hl)) (hm ▸ Nat.zero_lt_one)
        fun l hl ↦ hn l (Nat.lt_succ_of_lt hl)
      rw [hm] at hcur
      obtain ⟨residuals, -, heq, hcodebook⟩ := trainCodebook_eq rq fl t m hcons.residuals (hcur ▸ Nat.zero_lt_one)
      obtain rfl := heq (Or.inr hcur)
      rw [if_pos (by rw [hcons.residuals, hcur, Nat.mul_one]; exact hn m (Nat.lt_succ_self m))] at hcodebook
      obtain ⟨hcons₁, hcur₁, hle⟩ := hcons.trainCodebook (hcur ▸ Nat.zero_lt_one) (Or.inr hcur) hcodebook
      rw [hcur, Nat.mul_one] at hle
      rw [trainBeamSize, hm] at hpos
      obtain ⟨s', hs', hcons', hcur'⟩ := hcons₁.trainEncode hC ht h
        (Nat.lt_of_lt_of_le (Nat.two_pow_pos _) hle) (by rw [hcur₁, hcur]; omega)
      exact ⟨s', Fault.bind_eq_ok.mpr ⟨s, hs, Fault.bind_eq_ok.mpr ⟨_, hcodebook, hs'⟩⟩, hcons',
        by rw [hcur', hcur₁, hcur, trainBeamSize, hm]⟩

/-- The residuals that are left at a level that starts from several hypotheses are too few. -/
theorem not_trainsConsistently (htop : t.topBeam = true) (hm : m < rq.M) (hone : ∀ l < m, rq.trainBeamSize l = 1)
    (hbig : 1 < rq.trainBeamSize m) (hn : ∀ l ≤ m, 2 ^ rq.nbits l ≤ n) :
    ¬ rq.TrainsConsistently fl C t n x := by
  intro hcons
  obtain ⟨s, hs, hs', hcur⟩ := exists_trainedLevels hC ht h x hone (Nat.lt_of_succ_lt hbig)
    fun l hl ↦ hn l hl.le
  obtain ⟨residuals, hlen, -, heq⟩ := trainCodebook_eq rq fl t m hs'.residuals (hcur ▸ Nat.lt_of_succ_lt hbig)
  rw [htop, if_pos rfl, Nat.mul_one] at hlen
  rw [if_pos (hlen ▸ hn m le_rfl)] at heq
  have hrows := ((hcons m hm s hs).2 _ heq).1.residuals
  dsimp only at hrows
  rw [hlen, hcur] at hrows
  have hpos : 0 < n := Nat.lt_of_lt_of_le (Nat.two_pow_pos _) (hn m le_rfl)
  exact absurd (Nat.eq_of_mul_eq_mul_left hpos ((Nat.mul_one n).trans hrows)) (Nat.ne_of_lt hbig)

/-- Training is consistent if and only if `Train_top_beam` is not set, or no level that is trained starts
from several hypotheses: one is not trained where there are fewer vectors than centroids. -/
theorem trainsConsistently_iff (n : ℕ) (x : ℕ → ℕ → F) : rq.TrainsConsistently fl C t n x ↔
    (t.topBeam = true → ∀ m < rq.M, 1 < rq.trainBeamSize m → ∃ l ≤ m, n < 2 ^ rq.nbits l) := by
  constructor
  · intro hcons htop m hm hbig
    by_contra! hn
    -- the first level that starts from several hypotheses
    have hex : ∃ m, 1 < rq.trainBeamSize m := ⟨m, hbig⟩
    have hle : Nat.find hex ≤ m := Nat.find_min' hex hbig
    have hone : ∀ l < Nat.find hex, rq.trainBeamSize l = 1 := fun l hl ↦ by
      have hmin := Nat.find_min hex hl
      have hne : rq.trainBeamSize l ≠ 0 := fun hzero ↦ by
        have hall : ∀ k, rq.trainBeamSize (l + k) = 0 := fun k ↦ by
          induction k with
          | zero => exact hzero
          | succ k ih =>
              have hnew : (rq.newBeamSize 0 (l + k)).toNat ≤ 0 * 2 ^ rq.nbits (l + k) := newBeamSize_le
              rw [Nat.zero_mul] at hnew
              rw [← Nat.add_assoc, trainBeamSize, ih]
              exact Nat.le_zero.mp hnew
        have hspec := Nat.find_spec hex
        rw [← Nat.add_sub_of_le hl.le, hall] at hspec
        exact absurd hspec (Nat.not_lt_zero 1)
      omega
    exact not_trainsConsistently hC ht h htop (Nat.lt_of_le_of_lt hle hm) hone (Nat.find_spec hex)
      (fun l hl ↦ hn l (hl.trans hle)) hcons
  · intro hgood m hm s hs
    obtain ⟨hcons, hpos, hcur, hsizes⟩ := trainedLevels_consistent hC ht h
      (fun l hl htop ↦ hgood htop l (hl.trans hm)) hs
    refine ⟨hcons, fun s' hs' ↦ ?_⟩
    have hall := (hcons.sizes hpos hcur (fun htop ↦ hgood htop m hm) hsizes hs').2
    obtain ⟨hcons', hinside, -⟩ := hcons.level hC ht h hpos hall hs'
    exact ⟨hcons', hinside⟩

/-- What is kept of a vector is packed and decoded again, and what is left of it is added. -/
theorem decode_trained (htop : t.topBeam = false) (hpack : rq.Packable)
    (hs : rq.trainedLevels fl C t n x rq.M = .ok s) {i b : ℕ} (hi : i < n) (hb : b < s.curBeamSize) (norm : F) :
    ∃ code r bytes y, s.codes[i * s.curBeamSize + b]? = some code ∧
      s.residuals[i * s.curBeamSize + b]? = some r ∧
      (rq.trainedWith s).packCode code (.ok norm) = .ok bytes ∧
      (rq.trainedWith s).decode fl bytes = .ok y ∧
      ∀ j, y j + r j = x i j := by
  obtain ⟨code, r, hcode, hr, hfits, hleft⟩ := (trainedLevels_consistent hC ht h
    (fun _ _ htop' ↦ absurd htop' (by rw [htop]; decide)) hs).1.row i hi b hb
  have hfits' : (rq.trainedWith s).CodeFits (rq.trainedWith s).M code := hfits
  have hnorm : (rq.trainedWith s).normBits ≠ 0 → ∃ v, (.ok norm : Except Fault F) = .ok v := fun _ ↦ ⟨norm, rfl⟩
  have hpack' : (rq.trainedWith s).Packable := hpack
  obtain ⟨bytes, hbytes, hholds⟩ := exists_packCode hpack' hfits' hnorm
  refine ⟨code, r, bytes, _, hcode, hr, hbytes, decode_exact h rfl hpack' hfits' hholds, fun j ↦ ?_⟩
  have hoffset : ∀ l, (rq.trainedWith s).codebookOffsets l = rq.codebookOffsets l := fun l ↦ by
    induction l with
    | zero => rfl
    | succ l ih => rw [codebookOffsets, codebookOffsets, ih]; rfl
  have hsum : (rq.trainedWith s).entrySum code rq.M j =
      ∑ l ∈ range rq.M, s.codebooks (rq.codebookOffsets l + code.getD l 0) j :=
    sum_congr rfl fun l _ ↦ by rw [codebook, hoffset]; rfl
  rw [hleft, ← hsum]
  exact add_sub_cancel ((rq.trainedWith s).entrySum code rq.M j) (x i j)

end

end Exact

/-! ## Four numbers -/

/-- The first vectors are the centroids, and the index sorts all of them. -/
def firstVectors (trainType : ℕ) : Trainer ℤ (WithTop ℤ) where
  trainType := trainType
  cluster := fun _ _ v k ↦ v.getD k fun _ ↦ 0
  search := fun K cent _ x j ↦
    let dis := fun c ↦ (x 0 - cent c 0) ^ 2
    match ((List.range K).insertionSort fun a b ↦ dis a ≤ dis b)[j]? with
    | some c => ((dis c : ℤ), (c : ℤ))
    | none => (⊤, -1)

theorem firstVectors_searches (trainType : ℕ) : (firstVectors trainType).Searches (exactCMax ℤ) where
  label := by
    intro K cent k x j _ hbefore
    dsimp only [firstVectors] at hbefore ⊢
    cases hc : ((List.range K).insertionSort fun a b ↦ (x 0 - cent a 0) ^ 2 ≤ (x 0 - cent b 0) ^ 2)[j]? with
    | none =>
        rw [hc] at hbefore
        change decide ((⊤ : WithTop ℤ) < ⊤) = true at hbefore
        exact absurd (of_decide_eq_true hbefore) (lt_irrefl _)
    | some c =>
        have hmem := (List.perm_insertionSort _ _).mem_iff.mp (List.mem_of_getElem? hc)
        exact ⟨Int.natCast_nonneg c, Int.ofNat_lt.mpr (List.mem_range.mp hmem)⟩
  enough := by
    intro K cent k x
    have hfirst : (List.range (min k K)).countP (fun j ↦ (exactCMax ℤ).cmp (exactCMax ℤ).neutral
        ((firstVectors trainType).search K cent k x j).1) = min k K := by
      refine (List.countP_eq_length.mpr fun j hj ↦ ?_).trans List.length_range
      have hlen : j < ((List.range K).insertionSort
          fun a b ↦ (x 0 - cent a 0) ^ 2 ≤ (x 0 - cent b 0) ^ 2).length := by
        rw [List.length_insertionSort, List.length_range]
        exact (List.mem_range.mp hj).trans_le (Nat.min_le_right k K)
      dsimp only [firstVectors]
      rw [List.getElem?_eq_getElem hlen]
      simp only [exactCMax, WithTop.coe_lt_top, decide_true]
    exact hfirst.symm.trans_le (List.range_sublist.mpr (Nat.min_le_left k K)).countP_le

/-- Progressive dimensions, without `Train_top_beam`. -/
theorem trainsConsistently_iff_progressive : (firstOfTwo 2).TrainsConsistently integerFloats (exactCMax ℤ)
    (firstVectors 1) 4 fun i _ ↦ (i : ℤ) ^ 2 :=
  (trainsConsistently_iff exactCMax_keyed (firstVectors_searches 1) integerFloats_exact 4 _).mpr
    fun htop ↦ absurd htop (by decide)

/-- The second level starts from two hypotheses for each of four numbers, and four residuals. -/
theorem not_trainsConsistently_topBeam : ¬ (firstOfTwo 2).TrainsConsistently integerFloats (exactCMax ℤ)
    (firstVectors 1025) 4 fun i _ ↦ (i : ℤ) ^ 2 :=
  not_trainsConsistently exactCMax_keyed (firstVectors_searches 1025) integerFloats_exact (by decide) (by decide)
    (m := 1) (by decide) (by decide) (by decide)

theorem decode_trained_four : ∃ s, (firstOfTwo 1).trainedLevels integerFloats (exactCMax ℤ) (firstVectors 1) 4
    (fun i _ ↦ (i : ℤ) ^ 2) 1 = .ok s ∧ ∃ code r bytes y, s.codes[3 * s.curBeamSize + 0]? = some code ∧
      s.residuals[3 * s.curBeamSize + 0]? = some r ∧
      ((firstOfTwo 1).trainedWith s).packCode code (.ok 0) = .ok bytes ∧
      ((firstOfTwo 1).trainedWith s).decode integerFloats bytes = .ok y ∧
      ∀ j, y j + r j = ((3 : ℕ) : ℤ) ^ 2 := by
  have hone : ∀ l < 1, (firstOfTwo 1).trainBeamSize l = 1 := by decide
  obtain ⟨s, hs, -, hcur⟩ := exists_trainedLevels exactCMax_keyed (firstVectors_searches 1) integerFloats_exact
    (fun i _ ↦ (i : ℤ) ^ 2) hone (n := 4) (by decide) (by decide)
  exact ⟨s, hs, decode_trained exactCMax_keyed (firstVectors_searches 1) integerFloats_exact (by decide)
    (packable_of_pos (by decide)) hs (by decide) (by rw [hcur]; decide) 0⟩

end ResidualQuantizer

end FaissNavix
