import FaissNavix.ResidualQuantizer.Beams

/-!
# The beam of one vector, with tables

The same for `refine_beam_LUT_mp`: what the hypotheses of a vector are when their distances are computed
from the tables (`ResidualQuantizer.beamTab`).
-/

namespace FaissNavix

open AccumTab

variable {F : Type}

namespace ResidualQuantizer

variable (rq : ResidualQuantizer F) (fl : Floats F) (C : KeyValueOrder F) (simd : Bool)

/-- Where the products of the entries of level `m` start. -/
def crossOfs : ℕ → ℕ
  | 0 => 0
  | m + 1 => crossOfs m + rq.codebookOffsets m * 2 ^ rq.nbits m

section
variable (x : ℕ → F) (m : ℕ) (beam : (ℕ → List ℕ) × (ℕ → F))

/-- `cd_common` -/
def cdCommon (k : ℕ) : F :=
  fl.sub (rq.centroidNorms (rq.codebookOffsets m + k))
    (fl.mul fl.two (fl.innerProduct (rq.codebook m k) x rq.d))

/-- `cbs` of a code at level `m`. -/
def crossRows (code : List ℕ) (im : ℕ) : ℕ → ℕ → F :=
  cbs (fun p ↦ rq.codebookCrossProducts (rq.crossOfs m + p)) rq.codebookOffsets code im (2 ^ rq.nbits m)

/-- The distances of all candidates of a beam, from the tables. -/
def candidateDistancesTab (p : ℕ) : F :=
  candidateDistanceTab fl simd (2 ^ rq.nbits m) (rq.crossRows m (beam.1 (p / 2 ^ rq.nbits m))) m
    (beam.2 (p / 2 ^ rq.nbits m)) (rq.cdCommon fl x m) (p % 2 ^ rq.nbits m)

/-- The candidates that level `m` keeps. -/
def keptTab : ℕ → F × ℤ :=
  bestCandidates C (rq.beamSizeAt (m + 1)) (rq.candidateDistancesTab fl simd x m beam)
    (rq.beamSizeAt m * 2 ^ rq.nbits m)

/-- A beam that is extended by level `m`. -/
def extendBeamTab : (ℕ → List ℕ) × (ℕ → F) :=
  (fun j ↦
    let c := candidateSlot 0 (2 ^ rq.nbits m) (rq.keptTab fl C simd x m beam j).2
    (beam.1 c.1).take m ++ [c.2],
  fun j ↦ (rq.keptTab fl C simd x m beam j).1)

end

/-- The hypotheses of a vector after `m` levels. -/
def beamTab (x : ℕ → F) : ℕ → (ℕ → List ℕ) × (ℕ → F)
  | 0 => (fun _ ↦ [], fun _ ↦ fl.normL2sqr x rq.d)
  | m + 1 => rq.extendBeamTab fl C simd x m (beamTab x m)

/-- The hypotheses that level `m` keeps come from candidates. -/
def FillsTab (x : ℕ → F) (m : ℕ) : Prop :=
  FromCandidates C (rq.beamSizeAt (m + 1))
    (rq.candidateDistancesTab fl simd x m (rq.beamTab fl C simd x m))
    (rq.beamSizeAt m * 2 ^ rq.nbits m)

/-- The arrays of `refine_beam_LUT_mp` after `m` levels. -/
structure HoldsBeamsTab (n : ℕ) (x : ℕ → ℕ → F) (m : ℕ) (s : RefineBeamLUT F) : Prop where
  beamSize : s.beamSize = rq.beamSizeAt m
  size : 0 < m → s.size = n * rq.beamSizeAt m
  crossOfs : s.crossOfs = rq.crossOfs m
  codes : 0 < m → ∀ i < n, ∀ b < rq.beamSizeAt m,
    s.codes (i * rq.beamSizeAt m + b) = (rq.beamTab fl C simd (x i) m).1 b
  distances : ∀ i < n, ∀ b < rq.beamSizeAt m,
    s.distances (i * rq.beamSizeAt m + b) = (rq.beamTab fl C simd (x i) m).2 b

/-- The tables of products are as long as `compute_codebook_tables` makes them. -/
def HasTables : Prop := ∀ m < rq.M, rq.crossOfs (m + 1) ≤ rq.crossTableSize

variable {rq fl C simd} {n : ℕ} {x : ℕ → ℕ → F} {m : ℕ}

theorem codebookOffsets_mono : Monotone rq.codebookOffsets :=
  monotone_nat_of_le_succ fun _ ↦ Nat.le_add_right _ _

theorem codebookOffsets_add_lt (hm : m < rq.M) {k : ℕ} (hk : k < 2 ^ rq.nbits m) :
    rq.codebookOffsets m + k < rq.totalCodebookSize :=
  (Nat.add_lt_add_left hk _).trans_le (codebookOffsets_mono (Nat.succ_le_of_lt hm))

theorem queryCp_apply (hm : m < rq.M) {i k : ℕ} (hi : i < n) (hk : k < 2 ^ rq.nbits m) (c : ℕ → F) :
    fl.sgemm rq.totalCodebookSize n rq.d rq.codebooks x c rq.totalCodebookSize
        (rq.codebookOffsets m + (i * rq.totalCodebookSize + k)) =
      fl.innerProduct (rq.codebook m k) (x i) rq.d := by
  have hlt := codebookOffsets_add_lt hm hk
  have hcell : rq.codebookOffsets m + (i * rq.totalCodebookSize + k) =
      i * rq.totalCodebookSize + (rq.codebookOffsets m + k) := by omega
  rw [hcell, Floats.sgemm, Lib.cell_mod i hlt, Lib.cell_div i hlt, if_pos ⟨hlt, hi⟩]
  rfl

theorem codes_extendBeamTab {y : ℕ → F} {beam : (ℕ → List ℕ) × (ℕ → F)} {j p : ℕ}
    (hp : (rq.keptTab fl C simd y m beam j).2 = (p : ℤ)) :
    (rq.extendBeamTab fl C simd y m beam).1 j =
      (beam.1 (p / 2 ^ rq.nbits m)).take m ++ [p % 2 ^ rq.nbits m] := by
  rw [extendBeamTab]
  dsimp only
  rw [hp, candidateSlot_natCast, Nat.zero_add]

theorem codeFits_beamTab {y : ℕ → F} (hfills : ∀ l < m, rq.FillsTab fl C simd y l) :
    ∀ b < rq.beamSizeAt m, rq.CodeFits m ((rq.beamTab fl C simd y m).1 b) := by
  induction m with
  | zero => exact fun _ _ ↦ codeFits_nil
  | succ m ih =>
      intro b hb
      obtain ⟨p, hp, hbest⟩ := hfills m (Nat.lt_succ_self m) b hb
      rw [beamTab, codes_extendBeamTab (congrArg Prod.snd hbest)]
      exact (ih (fun l hl ↦ hfills l (Nat.lt_succ_of_lt hl)) _
        (Nat.div_lt_of_lt_mul (by rwa [Nat.mul_comm]))).append (Nat.mod_lt p (Nat.two_pow_pos _))

theorem HoldsBeamsTab.codes_take {s : RefineBeamLUT F} (h : rq.HoldsBeamsTab fl C simd n x m s)
    {i b : ℕ} (hi : i < n) (hb : b < rq.beamSizeAt m) :
    (s.codes (i * rq.beamSizeAt m + b)).take m =
      ((rq.beamTab fl C simd (x i) m).1 b).take m := by
  rcases Nat.eq_zero_or_pos m with rfl | hm
  · rfl
  · rw [h.codes hm i hi b hb]

theorem candidateDistanceTab_congr {K : ℕ} {cbs cbs' : ℕ → ℕ → ℕ → F} {distance : F}
    {cd cd' : ℕ → F} {k : ℕ} (hcbs : 0 < m → cbs = cbs') (hcd : cd k = cd' k) :
    candidateDistanceTab fl simd K cbs m distance cd k =
      candidateDistanceTab fl simd K cbs' m distance cd' k := by
  rw [candidateDistanceTab, candidateDistanceTab, hcd]
  rcases Nat.eq_zero_or_pos m with rfl | hm
  · rfl
  · rw [hcbs hm]

theorem foldl_beamArraysTab {w i j : ℕ} (codes : ℕ → ℕ → List ℕ) (distances : ℕ → ℕ → F)
    (out : (ℕ → List ℕ) × (ℕ → F)) (hi : i < n) (hj : j < w) :
    let r := (List.range n).foldl (fun (out : (ℕ → List ℕ) × (ℕ → F)) i ↦
      (Lib.write out.1 (i * w) ((List.range w).map (codes i)),
        Lib.write out.2 (i * w) ((List.range w).map (distances i)))) out
    r.1 (i * w + j) = codes i j ∧ r.2 (i * w + j) = distances i j := by
  intro r
  constructor
  · have hcomponent : r.1 = (List.range n).foldl
        (fun m i ↦ Lib.write m (i * w) ((List.range w).map (codes i))) out.1 :=
      (List.foldl_hom Prod.fst fun _ _ ↦ rfl).symm
    rw [hcomponent]
    exact Lib.foldl_write_apply codes out.1 hi hj
  · have hcomponent : r.2 = (List.range n).foldl
        (fun m i ↦ Lib.write m (i * w) ((List.range w).map (distances i))) out.2 :=
      (List.foldl_hom Prod.snd fun _ _ ↦ rfl).symm
    rw [hcomponent]
    exact Lib.foldl_write_apply distances out.2 hi hj

/-- A level extends the beam of each vector. -/
theorem HoldsBeamsTab.step {s : RefineBeamLUT F} (htables : rq.HasTables) (hm : m < rq.M) (c : ℕ → F)
    (h : rq.HoldsBeamsTab fl C simd n x m s) (hfills : ∀ i < n, rq.FillsTab fl C simd (x i) m) :
    ∃ s', rq.refineBeamLUTStep fl C simd n
        (fl.sgemm rq.totalCodebookSize n rq.d rq.codebooks x c rq.totalCodebookSize) rq.maxBeamSize s m =
        .ok s' ∧ rq.HoldsBeamsTab fl C simd n x (m + 1) s' := by
  have hsize := h.beamSize
  have hcross := h.crossOfs
  have hK : 0 < 2 ^ rq.nbits m := Nat.two_pow_pos _
  have hnew : min (rq.beamSizeAt m * 2 ^ rq.nbits m) rq.maxBeamSize = rq.beamSizeAt (m + 1) := rfl
  -- what is selected for a vector is what the vector alone keeps
  have hbest : ∀ i < n, bestCandidates C (rq.beamSizeAt (m + 1))
      (centDistancesTab fl simd (2 ^ rq.nbits m) (rq.beamSizeAt m)
        (fun p ↦ rq.codebookCrossProducts (rq.crossOfs m + p)) (2 ^ rq.nbits m) rq.codebookOffsets
        (fun k ↦ fl.sub (rq.centroidNorms (rq.codebookOffsets m + k)) (fl.mul fl.two
          (fl.sgemm rq.totalCodebookSize n rq.d rq.codebooks x c rq.totalCodebookSize
            (rq.codebookOffsets m + (i * rq.totalCodebookSize + k)))))
        m (fun b ↦ s.codes (i * rq.beamSizeAt m + b)) fun b ↦ s.distances (i * rq.beamSizeAt m + b))
      (rq.beamSizeAt m * 2 ^ rq.nbits m) =
      rq.keptTab fl C simd (x i) m (rq.beamTab fl C simd (x i) m) := by
    refine fun i hi ↦ bestCandidates_congr fun p hp ↦ ?_
    have hb : p / 2 ^ rq.nbits m < rq.beamSizeAt m := Nat.div_lt_of_lt_mul (by rwa [Nat.mul_comm])
    have hk : p % 2 ^ rq.nbits m < 2 ^ rq.nbits m := Nat.mod_lt p hK
    have hcell : p = p / 2 ^ rq.nbits m * 2 ^ rq.nbits m + p % 2 ^ rq.nbits m :=
      (Nat.div_add_mod' p _).symm
    rw [hcell, centDistancesTab_apply _ _ _ _ _ _ _ _ hb hk, ← hcell, h.distances i hi _ hb]
    refine candidateDistanceTab_congr (fun hpos ↦ ?_) ?_
    · rw [h.codes hpos i hi _ hb]
      rfl
    · rw [queryCp_apply hm hi hk]
      rfl
  have hthrow : rq.crossOfs m + rq.codebookOffsets m * 2 ^ rq.nbits m ≤ rq.crossTableSize :=
    htables m hm
  rw [refineBeamLUTStep, hsize, hcross, beamSearchEncodeStepTab, decide_eq_true hthrow,
    decide_eq_true (Nat.le_refl _), hnew]
  refine ⟨_, rfl, ⟨rfl, fun _ ↦ rfl, rfl, fun _ i hi j hj ↦ ?_, fun i hi j hj ↦ ?_⟩⟩
  · refine (foldl_beamArraysTab _ _ _ hi hj).1.trans ?_
    obtain ⟨p, hp, hkept⟩ := hfills i hi j hj
    replace hkept := congrArg Prod.snd hkept
    dsimp only
    rw [hbest i hi, keptTab, hkept, beamTab, codes_extendBeamTab hkept, candidateSlot_natCast,
      h.codes_take hi (Nat.div_lt_of_lt_mul (by rwa [Nat.mul_comm]))]
  · refine (foldl_beamArraysTab _ _ _ hi hj).2.trans ?_
    rw [hbest i hi]
    rfl

theorem holdsBeamsTab_start (n : ℕ) (x : ℕ → ℕ → F) (pool : RefineBeamLUT F) :
    rq.HoldsBeamsTab fl C simd n x 0 { pool with
      distances := Lib.write pool.distances 0
        ((List.range n).map fun i ↦ fl.normL2sqr (x i) rq.d)
      beamSize := 1
      size := 0
      crossOfs := 0 } where
  beamSize := rfl
  size := fun h ↦ absurd h (Nat.lt_irrefl 0)
  crossOfs := rfl
  codes := fun h ↦ absurd h (Nat.lt_irrefl 0)
  distances := fun i hi b hb ↦ by
    obtain rfl : b = 0 := Nat.lt_one_iff.mp hb
    rw [beamSizeAt, Nat.mul_one, Nat.add_zero]
    exact Lib.write_zero_apply pool.distances (fun i ↦ fl.normL2sqr (x i) rq.d) hi

/-- `refine_beam_LUT_mp` leaves the beams of the vectors, one after the other. -/
theorem refineBeamLUTMp_spec (htables : rq.HasTables) (hM : 0 < rq.M) (c : ℕ → F)
    (hfills : ∀ m < rq.M, ∀ i < n, rq.FillsTab fl C simd (x i) m) (outCodes : ℕ → List ℕ)
    (outDistances : ℕ → F) (pool : RefineBeamLUT F) :
    ∃ r, rq.refineBeamLUTMp fl C simd n (fun i ↦ fl.normL2sqr (x i) rq.d)
        (fl.sgemm rq.totalCodebookSize n rq.d rq.codebooks x c rq.totalCodebookSize) rq.maxBeamSize
        outCodes outDistances pool = .ok r ∧
      ∀ i < n, ∀ b < rq.beamSizeAt rq.M,
        r.1 (i * rq.beamSizeAt rq.M + b) = (rq.beamTab fl C simd (x i) rq.M).1 b := by
  obtain ⟨s, hs, h⟩ := Lib.foldlM_range_done (rq.HoldsBeamsTab fl C simd n x)
    (holdsBeamsTab_start n x pool) fun m hm s h ↦ h.step htables hm c (hfills m hm)
  rw [refineBeamLUTMp, hs]
  refine ⟨_, rfl, fun i hi b hb ↦ ?_⟩
  have hcell : i * rq.beamSizeAt rq.M + b < s.size := by
    rw [h.size hM]
    exact Lib.cell_lt hi hb
  rw [← h.codes hM i hi b hb]
  exact Lib.write_read_apply _ _ hcell

end ResidualQuantizer

end FaissNavix

/-!
# The tables of a residual quantizer

`compute_codebook_tables` leaves the norm of each centroid, and the inner product of each centroid with
all those of the levels before it (`ResidualQuantizer.tabulated_computeCodebookTables`).
-/

namespace FaissNavix

variable {F : Type}

namespace ResidualQuantizer

variable (rq : ResidualQuantizer F) (fl : Floats F)

/-- The tables hold norms and products. -/
structure Tabulated : Prop where
  norms : ∀ c, rq.centroidNorms c = fl.normL2sqr (rq.codebooks c) rq.d
  products : ∀ m < rq.M, ∀ c < rq.codebookOffsets m, ∀ r < 2 ^ rq.nbits m,
    rq.codebookCrossProducts (rq.crossOfs m + (c * 2 ^ rq.nbits m + r)) =
      fl.innerProduct (rq.codebook m r) (rq.codebooks c) rq.d
  sizes : rq.HasTables
  products_pos : rq.M ≤ 1 ∨ 0 < rq.crossTableSize

variable {rq}

theorem crossOfs_mono : Monotone rq.crossOfs :=
  monotone_nat_of_le_succ fun _ ↦ Nat.le_add_right _ _

theorem crossTableSize_computeCodebookTables :
    (rq.computeCodebookTables fl).crossTableSize = rq.crossOfs rq.M := by
  have hsum : ∀ m, ((List.range m).map fun m ↦ 2 ^ rq.nbits m * rq.codebookOffsets m).sum =
      rq.crossOfs m := by
    intro m
    induction m with
    | zero => rfl
    | succ m ih =>
        rw [List.range_succ, List.map_append, List.sum_append, ih, List.map_singleton,
          List.sum_singleton, crossOfs, Nat.mul_comm]
  exact hsum rq.M

theorem codebookOffsets_computeCodebookTables (m : ℕ) :
    (rq.computeCodebookTables fl).codebookOffsets m = rq.codebookOffsets m := by
  induction m with
  | zero => rfl
  | succ m ih => rw [codebookOffsets, codebookOffsets, ih]; rfl

theorem crossOfs_computeCodebookTables (m : ℕ) :
    (rq.computeCodebookTables fl).crossOfs m = rq.crossOfs m := by
  induction m with
  | zero => rfl
  | succ m ih => rw [crossOfs, crossOfs, ih, codebookOffsets_computeCodebookTables]; rfl

/-- The tables up to a level. -/
def ProductsUpTo (l : ℕ) (t : (ℕ → F) × ℕ) : Prop :=
  t.2 = rq.crossOfs l ∧ ∀ m < l, ∀ c < rq.codebookOffsets m, ∀ r < 2 ^ rq.nbits m,
    t.1 (rq.crossOfs m + (c * 2 ^ rq.nbits m + r)) =
      fl.innerProduct (rq.codebook m r) (rq.codebooks c) rq.d

/-- The block of a level is written after those of the levels before. -/
theorem ProductsUpTo.step {l : ℕ} {t : (ℕ → F) × ℕ} (h : rq.ProductsUpTo fl l t) :
    let block := fl.sgemm (2 ^ rq.nbits l) (rq.codebookOffsets l) rq.d
      (fun r ↦ rq.codebooks (rq.codebookOffsets l + r)) rq.codebooks (fun p ↦ t.1 (t.2 + p))
      (2 ^ rq.nbits l)
    rq.ProductsUpTo fl (l + 1)
      (Lib.write t.1 t.2 ((List.range (2 ^ rq.nbits l * rq.codebookOffsets l)).map block),
        t.2 + 2 ^ rq.nbits l * rq.codebookOffsets l) := by
  intro block
  obtain ⟨hofs, hproducts⟩ := h
  refine ⟨by rw [hofs, crossOfs, Nat.mul_comm], fun m hm c hc r hr ↦ ?_⟩
  have hcell := Lib.cell_lt hc hr
  dsimp only
  rw [hofs]
  rcases Nat.lt_succ_iff_lt_or_eq.mp hm with hlt | rfl
  · have hle : rq.crossOfs m + rq.codebookOffsets m * 2 ^ rq.nbits m ≤ rq.crossOfs l :=
      crossOfs_mono (Nat.succ_le_of_lt hlt)
    rw [Lib.write_of_outside (Or.inl (by omega))]
    exact hproducts m hlt c hc r hr
  · have hlen : c * 2 ^ rq.nbits m + r <
        ((List.range (2 ^ rq.nbits m * rq.codebookOffsets m)).map block).length := by
      rwa [List.length_map, List.length_range, Nat.mul_comm (2 ^ rq.nbits m) (rq.codebookOffsets m)]
    rw [Lib.write_of_inside hlen, List.get_eq_getElem, List.getElem_map, List.getElem_range]
    dsimp only [block]
    rw [Floats.sgemm, Lib.cell_mod c hr, Lib.cell_div c hr, if_pos ⟨hr, hc⟩]
    rfl

/-- **Theorem.**  The tables after `compute_codebook_tables`. -/
theorem tabulated_computeCodebookTables : (rq.computeCodebookTables fl).Tabulated fl := by
  have hloop : rq.ProductsUpTo fl (1 + (rq.M - 1)) ((List.range' 1 (rq.M - 1)).foldl
      (fun (t : (ℕ → F) × ℕ) m ↦
        let ki := 2 ^ rq.nbits m
        let kk := rq.codebookOffsets m
        let block := fl.sgemm ki kk rq.d (fun r ↦ rq.codebooks (kk + r)) rq.codebooks
          (fun p ↦ t.1 (t.2 + p)) ki
        (Lib.write t.1 t.2 ((List.range (ki * kk)).map block), t.2 + ki * kk))
      (rq.codebookCrossProducts, 0)) := by
    rw [List.range'_eq_map_range, List.foldl_map]
    refine Lib.foldl_range_invariant (fun j ↦ rq.ProductsUpTo fl (1 + j)) ⟨?_, ?_⟩
      fun j _ t ht ↦ ht.step fl
    · exact ((Nat.zero_add _).trans (Nat.zero_mul (2 ^ rq.nbits 0))).symm
    · rintro m hm c hc
      obtain rfl : m = 0 := by omega
      exact absurd hc (Nat.not_lt_zero c)
  constructor
  · exact fun c ↦ rfl
  · intro m hm c hc r hr
    rw [codebookOffsets_computeCodebookTables] at hc
    rw [crossOfs_computeCodebookTables]
    refine (hloop.2 m ?_ c hc r hr).trans ?_
    · have hm' : m < rq.M := hm
      omega
    · rw [codebook, codebook, codebookOffsets_computeCodebookTables]
      rfl
  · intro m hm
    rw [crossOfs_computeCodebookTables, crossTableSize_computeCodebookTables]
    exact crossOfs_mono (Nat.succ_le_of_lt hm)
  · rcases Nat.lt_or_ge 1 rq.M with hM | hM
    · refine Or.inr ?_
      rw [crossTableSize_computeCodebookTables]
      have htwo : rq.crossOfs 2 ≤ rq.crossOfs rq.M := crossOfs_mono hM
      refine lt_of_lt_of_le ?_ htwo
      refine Nat.lt_of_lt_of_le (Nat.mul_pos ?_ (Nat.two_pow_pos _)) (Nat.le_add_left _ _)
      exact Nat.lt_of_lt_of_le (Nat.two_pow_pos _) (Nat.le_add_left _ _)
    · exact Or.inl hM

end ResidualQuantizer

end FaissNavix
