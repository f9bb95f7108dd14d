import FaissNavix.ResidualQuantizer.Accumulate

/-!
# The beam of one vector

What the hypotheses of a vector are, computed from that vector alone (`ResidualQuantizer.beam`,
`ResidualQuantizer.beamTab`).  A batch holds the beams of its vectors one after the other, and each level
extends each of them, as long as every hypothesis that is kept comes from a candidate
(`FromCandidates`).
-/

namespace FaissNavix

open Lib

variable {F : Type}

/-! ## Selected candidates -/

def FromCandidates (C : KeyValueOrder F) (newBeamSize : ℕ) (centDistances : ℕ → F) (n : ℕ) : Prop :=
  ∀ j < newBeamSize, ∃ p < n, bestCandidates C newBeamSize centDistances n j = (centDistances p, (p : ℤ))

theorem bestCandidates_congr {C : KeyValueOrder F} {newBeamSize n : ℕ} {dis dis' : ℕ → F}
    (h : ∀ p < n, dis p = dis' p) :
    bestCandidates C newBeamSize dis n = bestCandidates C newBeamSize dis' n := by
  rw [bestCandidates, bestCandidates, heapAddn, heapAddn]
  refine congrArg (fun bh ↦ (heapReorder C newBeamSize bh).2) (List.foldl_ext _ _ _ fun bh p hp ↦ ?_)
  rw [h p (List.mem_range.mp hp)]

theorem FromCandidates.congr {C : KeyValueOrder F} {newBeamSize n : ℕ} {dis dis' : ℕ → F}
    (hdis : FromCandidates C newBeamSize dis n) (h : ∀ p < n, dis p = dis' p) :
    FromCandidates C newBeamSize dis' n := by
  intro j hj
  obtain ⟨p, hp, hbest⟩ := hdis j hj
  exact ⟨p, hp, by rw [← bestCandidates_congr h, hbest, h p hp]⟩

/-- There are as many candidates before the neutral value as the beam has room for. -/
def EnoughCandidates (C : KeyValueOrder F) (newBeamSize : ℕ) (centDistances : ℕ → F) (n : ℕ) : Prop :=
  newBeamSize ≤ (List.range n).countP fun p ↦ C.cmp C.neutral (centDistances p)

instance {C : KeyValueOrder F} {newBeamSize n : ℕ} {dis : ℕ → F} :
    Decidable (EnoughCandidates C newBeamSize dis n) :=
  inferInstanceAs (Decidable (_ ≤ _))

theorem enoughCandidates_of_below {C : KeyValueOrder F} {newBeamSize n : ℕ} {dis : ℕ → F}
    (hbelow : ∀ p < n, C.cmp C.neutral (dis p) = true) (hn : newBeamSize ≤ n) :
    EnoughCandidates C newBeamSize dis n := by
  have hall : (List.range n).countP (fun p ↦ C.cmp C.neutral (dis p)) = (List.range n).length :=
    List.countP_eq_length.mpr fun p hp ↦ hbelow p (List.mem_range.mp hp)
  rwa [EnoughCandidates, hall, List.length_range]

section
variable {K : Type} [LinearOrder K] {C : KeyValueOrder F} {key : F → K} {ok : F → Prop}
  (hC : C.Keyed key ok) {newBeamSize n : ℕ} {dis : ℕ → F} (h : EnoughCandidates C newBeamSize dis n)
include hC h

/-- Candidates that come before the neutral value fill the beam. -/
theorem EnoughCandidates.best {j : ℕ} (hj : j < newBeamSize) :
    ∃ p < n, C.cmp C.neutral (dis p) = true ∧
      bestCandidates C newBeamSize dis n j = (dis p, (p : ℤ)) := by
  have hpos : 1 ≤ newBeamSize := Nat.one_le_of_lt hj
  generalize hoffers : (List.range n).map (fun p ↦ (dis p, (p : ℤ))) = offers
  have hid : ∀ x ∈ offers, x.2 ≠ -1 := by
    rw [← hoffers]
    intro x hx
    obtain ⟨p, -, rfl⟩ := List.mem_map.mp hx
    exact fun h ↦ absurd h (by omega)
  obtain ⟨L, hL, -, hres⟩ := (TopK.exact_of_keyed hC hpos (fun _ ↦ (C.neutral, -1)) hid).results
  -- the selection is full
  have hfull : L.length = newBeamSize := by
    have hcard := hL.card_eq
    rw [Multiset.coe_card, Multiset.coe_card, ← List.countP_eq_length_filter, ← hoffers,
      List.countP_map] at hcard
    exact hcard.trans (Nat.min_eq_left h)
  rw [hfull, Nat.sub_self, List.replicate_zero, List.append_nil] at hres
  have hbegin : TopK.begin C newBeamSize (fun _ ↦ (C.neutral, -1)) =
      ⟨newBeamSize, fun _ ↦ (C.neutral, -1), C.neutral⟩ := by
    have hheap : heapHeapify C newBeamSize (fun _ ↦ (C.neutral, -1)) = fun _ ↦ (C.neutral, -1) := by
      funext i
      rw [heapHeapify, ite_self]
    rw [TopK.begin, hheap]
  have hadd := TopK.addResults_eq_heapAddn (C := C) newBeamSize (fun _ ↦ (C.neutral, -1))
    (fun p ↦ (dis p, (p : ℤ))) n
  rw [hoffers] at hadd
  rw [hbegin, hadd] at hres
  have hmem : bestCandidates C newBeamSize dis n j ∈ L := by
    rw [← hres]
    exact List.mem_map.mpr ⟨j, List.mem_range.mpr hj, rfl⟩
  obtain ⟨hoffer, hbefore⟩ := List.mem_filter.mp
    (Multiset.mem_coe.mp (Multiset.mem_of_le hL.sub (Multiset.mem_coe.mpr hmem)))
  rw [← hoffers] at hoffer
  obtain ⟨p, hp, hbest⟩ := List.mem_map.mp hoffer
  rw [← hbest] at hbefore
  exact ⟨p, List.mem_range.mp hp, hbefore, hbest.symm⟩

theorem EnoughCandidates.fromCandidates : FromCandidates C newBeamSize dis n := fun j hj ↦ by
  obtain ⟨p, hp, -, hbest⟩ := h.best hC hj
  exact ⟨p, hp, hbest⟩

end

theorem candidateSlot_natCast (ofs K p : ℕ) : candidateSlot ofs K (p : ℤ) = (ofs + p / K, p % K) := by
  rw [candidateSlot]
  refine Prod.ext ?_ ?_
  · exact Int.toNat_natCast (ofs + p / K)
  · exact Int.toNat_natCast (p % K)

theorem foldl_beamArrays {n w i j : ℕ} (codes : ℕ → ℕ → List ℕ) (residuals : ℕ → ℕ → ℕ → F)
    (distances : ℕ → ℕ → F) (out : BeamArrays F) (hi : i < n) (hj : j < w) :
    let r := (List.range n).foldl (fun (out : BeamArrays F) i ↦
      { codes := Lib.write out.codes (i * w) ((List.range w).map (codes i))
        residuals := Lib.write out.residuals (i * w) ((List.range w).map (residuals i))
        distances := Lib.write out.distances (i * w) ((List.range w).map (distances i)) }) out
    r.codes (i * w + j) = codes i j ∧ r.residuals (i * w + j) = residuals i j ∧
      r.distances (i * w + j) = distances i j := by
  intro r
  refine ⟨?_, ?_, ?_⟩
  · have hcomponent : r.codes = (List.range n).foldl
        (fun m i ↦ Lib.write m (i * w) ((List.range w).map (codes i))) out.codes :=
      (List.foldl_hom BeamArrays.codes fun _ _ ↦ rfl).symm
    rw [hcomponent]
    exact foldl_write_apply codes out.codes hi hj
  · have hcomponent : r.residuals = (List.range n).foldl
        (fun m i ↦ Lib.write m (i * w) ((List.range w).map (residuals i))) out.residuals :=
      (List.foldl_hom BeamArrays.residuals fun _ _ ↦ rfl).symm
    rw [hcomponent]
    exact foldl_write_apply residuals out.residuals hi hj
  · have hcomponent : r.distances = (List.range n).foldl
        (fun m i ↦ Lib.write m (i * w) ((List.range w).map (distances i))) out.distances :=
      (List.foldl_hom BeamArrays.distances fun _ _ ↦ rfl).symm
    rw [hcomponent]
    exact foldl_write_apply distances out.distances hi hj

namespace ResidualQuantizer

variable (rq : ResidualQuantizer F) (fl : Floats F) (C : KeyValueOrder F)

/-- The number of hypotheses after `m` levels. -/
def beamSizeAt : ℕ → ℕ
  | 0 => 1
  | m + 1 => min (beamSizeAt m * 2 ^ rq.nbits m) rq.maxBeamSize

/-! ## Without tables -/

def candidateDistance (m : ℕ) (residual : ℕ → F) (k : ℕ) : F :=
  fl.add (fl.mul fl.minusTwo (fl.innerProduct (rq.codebook m k) residual rq.d))
    (fl.add (fl.normL2sqr residual rq.d) (fl.normL2sqr (rq.codebook m k) rq.d))

def candidateDistances (m : ℕ) (beam : BeamArrays F) (p : ℕ) : F :=
  rq.candidateDistance fl m (beam.residuals (p / 2 ^ rq.nbits m)) (p % 2 ^ rq.nbits m)

/-- The candidates that level `m` keeps. -/
def kept (m : ℕ) (beam : BeamArrays F) : ℕ → F × ℤ :=
  bestCandidates C (rq.beamSizeAt (m + 1)) (rq.candidateDistances fl m beam)
    (rq.beamSizeAt m * 2 ^ rq.nbits m)

/-- A beam that is extended by level `m`. -/
def extendBeam (m : ℕ) (beam : BeamArrays F) : BeamArrays F where
  codes := fun j ↦
    let c := candidateSlot 0 (2 ^ rq.nbits m) (rq.kept fl C m beam j).2
    (beam.codes c.1).take m ++ [c.2]
  residuals := fun j ↦
    let c := candidateSlot 0 (2 ^ rq.nbits m) (rq.kept fl C m beam j).2
    fl.fvecSub (beam.residuals c.1) (rq.codebook m c.2)
  distances := fun j ↦ (rq.kept fl C m beam j).1

/-- The hypotheses of a vector after `m` levels. -/
def beam (x : ℕ → F) : ℕ → BeamArrays F
  | 0 => ⟨fun _ ↦ [], fun _ ↦ x, fun _ ↦ fl.zero⟩
  | m + 1 => rq.extendBeam fl C m (beam x m)

/-- The hypotheses that level `m` keeps come from candidates. -/
def Fills (x : ℕ → F) (m : ℕ) : Prop :=
  FromCandidates C (rq.beamSizeAt (m + 1)) (rq.candidateDistances fl m (rq.beam fl C x m))
    (rq.beamSizeAt m * 2 ^ rq.nbits m)

/-- The arrays of `refine_beam_mp` after `m` levels. -/
structure HoldsBeams (n : ℕ) (x : ℕ → ℕ → F) (m : ℕ) (s : RefineBeam F) : Prop where
  curBeamSize : s.curBeamSize = rq.beamSizeAt m
  size : 0 < m → s.size = n * rq.beamSizeAt m
  codes : 0 < m → ∀ i < n, ∀ b < rq.beamSizeAt m,
    s.codes (i * rq.beamSizeAt m + b) = (rq.beam fl C (x i) m).codes b
  residuals : ∀ i < n, ∀ b < rq.beamSizeAt m,
    s.residuals (i * rq.beamSizeAt m + b) = (rq.beam fl C (x i) m).residuals b
  distances : 0 < m → ∀ i < n, ∀ b < rq.beamSizeAt m,
    s.distances (i * rq.beamSizeAt m + b) = (rq.beam fl C (x i) m).distances b

variable {rq fl C} {n : ℕ} {x : ℕ → ℕ → F} {m : ℕ}

theorem codes_extendBeam {beam : BeamArrays F} {j p : ℕ} (hp : (rq.kept fl C m beam j).2 = (p : ℤ)) :
    (rq.extendBeam fl C m beam).codes j =
      (beam.codes (p / 2 ^ rq.nbits m)).take m ++ [p % 2 ^ rq.nbits m] := by
  rw [extendBeam]
  dsimp only
  rw [hp, candidateSlot_natCast, Nat.zero_add]

theorem residuals_extendBeam {beam : BeamArrays F} {j p : ℕ}
    (hp : (rq.kept fl C m beam j).2 = (p : ℤ)) :
    (rq.extendBeam fl C m beam).residuals j =
      fl.fvecSub (beam.residuals (p / 2 ^ rq.nbits m)) (rq.codebook m (p % 2 ^ rq.nbits m)) := by
  rw [extendBeam]
  dsimp only
  rw [hp, candidateSlot_natCast, Nat.zero_add]

theorem HoldsBeams.codes_take {s : RefineBeam F} (h : rq.HoldsBeams fl C n x m s) {i b : ℕ}
    (hi : i < n) (hb : b < rq.beamSizeAt m) :
    (s.codes (i * rq.beamSizeAt m + b)).take m = ((rq.beam fl C (x i) m).codes b).take m := by
  rcases Nat.eq_zero_or_pos m with rfl | hm
  · rfl
  · rw [h.codes hm i hi b hb]

/-- A code of `m` levels. -/
def CodeFits (rq : ResidualQuantizer F) (m : ℕ) (code : List ℕ) : Prop :=
  code.length = m ∧ ∀ l < m, code.getD l 0 < 2 ^ rq.nbits l

theorem codeFits_nil : rq.CodeFits 0 [] := ⟨rfl, fun l hl ↦ absurd hl (Nat.not_lt_zero l)⟩

theorem CodeFits.append {code : List ℕ} {k : ℕ} (h : rq.CodeFits m code) (hk : k < 2 ^ rq.nbits m) :
    rq.CodeFits (m + 1) (code.take m ++ [k]) := by
  obtain ⟨hlen, hentries⟩ := h
  rw [List.take_of_length_le hlen.le]
  refine ⟨by rw [List.length_append, hlen]; rfl, fun l hl ↦ ?_⟩
  rcases Nat.lt_succ_iff_lt_or_eq.mp hl with hlt | rfl
  · rw [List.getD_append _ _ _ _ (by rwa [hlen])]
    exact hentries l hlt
  · rw [List.getD_append_right _ _ _ _ hlen.le, hlen, Nat.sub_self]
    exact hk

theorem Fills.codeFits_step {y : ℕ → F} (hfills : rq.Fills fl C y m)
    (h : ∀ b < rq.beamSizeAt m, rq.CodeFits m ((rq.beam fl C y m).codes b)) :
    ∀ b < rq.beamSizeAt (m + 1), rq.CodeFits (m + 1) ((rq.beam fl C y (m + 1)).codes b) := by
  intro b hb
  obtain ⟨p, hp, hbest⟩ := hfills b hb
  rw [beam, codes_extendBeam (congrArg Prod.snd hbest)]
  exact (h _ (Nat.div_lt_of_lt_mul (by rwa [Nat.mul_comm]))).append (Nat.mod_lt p (Nat.two_pow_pos _))

theorem codeFits_beam {y : ℕ → F} (hfills : ∀ l < m, rq.Fills fl C y l) :
    ∀ b < rq.beamSizeAt m, rq.CodeFits m ((rq.beam fl C y m).codes b) := by
  induction m with
  | zero => exact fun _ _ ↦ codeFits_nil
  | succ m ih =>
      exact (hfills m (Nat.lt_succ_self m)).codeFits_step fun b hb ↦
        ih (fun l hl ↦ hfills l (Nat.lt_succ_of_lt hl)) b hb

section
variable {s : RefineBeam F} (hcomm : ∀ a b, fl.add a b = fl.add b a)
  (h : rq.HoldsBeams fl C n x m s)
include hcomm h

/-- The distances that `pairwise_L2sqr` computes for a batch are those of each vector alone. -/
theorem HoldsBeams.pairwise {i p : ℕ} (hi : i < n) (hp : p < rq.beamSizeAt m * 2 ^ rq.nbits m) :
    fl.pairwiseL2sqr rq.d (2 ^ rq.nbits m) s.residuals (rq.codebook m)
        (i * (rq.beamSizeAt m * 2 ^ rq.nbits m) + p) =
      rq.candidateDistances fl m (rq.beam fl C (x i) m) p := by
  have hK : 0 < 2 ^ rq.nbits m := Nat.two_pow_pos _
  have hrow : (i * (rq.beamSizeAt m * 2 ^ rq.nbits m) + p) / 2 ^ rq.nbits m =
      i * rq.beamSizeAt m + p / 2 ^ rq.nbits m := by
    rw [← Nat.mul_assoc, Nat.add_comm, Nat.add_mul_div_right _ _ hK, Nat.add_comm]
  have hcol : (i * (rq.beamSizeAt m * 2 ^ rq.nbits m) + p) % 2 ^ rq.nbits m = p % 2 ^ rq.nbits m := by
    rw [← Nat.mul_assoc, Nat.add_comm, Nat.add_mul_mod_self_right]
  rw [Floats.pairwiseL2sqr, hrow, hcol, h.residuals i hi _ (Nat.div_lt_of_lt_mul (by rwa [Nat.mul_comm]))]
  rw [hcomm (fl.normL2sqr (rq.codebook m _) rq.d) (fl.normL2sqr _ rq.d), ite_self]
  rfl

/-- A level extends the beam of each vector. -/
theorem HoldsBeams.step (hfills : ∀ i < n, rq.Fills fl C (x i) m) :
    ∃ s', rq.refineBeamStep fl C n rq.maxBeamSize s m = .ok s' ∧ rq.HoldsBeams fl C n x (m + 1) s' := by
  have hcur := h.curBeamSize
  -- what is selected for a vector is what the vector alone keeps
  have hbest : ∀ i < n, bestCandidates C (rq.beamSizeAt (m + 1))
      (fun p ↦ fl.pairwiseL2sqr rq.d (2 ^ rq.nbits m) s.residuals (rq.codebook m)
        (i * (rq.beamSizeAt m * 2 ^ rq.nbits m) + p)) (rq.beamSizeAt m * 2 ^ rq.nbits m) =
      rq.kept fl C m (rq.beam fl C (x i) m) := fun i hi ↦
    bestCandidates_congr fun p hp ↦ h.pairwise hcomm hi hp
  have hslot : ∀ i < n, ∀ j < rq.beamSizeAt (m + 1), ∃ p < rq.beamSizeAt m * 2 ^ rq.nbits m,
      (rq.kept fl C m (rq.beam fl C (x i) m) j).2 = (p : ℤ) := fun i hi j hj ↦ by
    obtain ⟨p, hp, hbest⟩ := hfills i hi j hj
    exact ⟨p, hp, congrArg Prod.snd hbest⟩
  have hle : min (rq.beamSizeAt m * 2 ^ rq.nbits m) rq.maxBeamSize ≤
      rq.beamSizeAt m * 2 ^ rq.nbits m := Nat.min_le_left _ _
  have hnew : min (rq.beamSizeAt m * 2 ^ rq.nbits m) rq.maxBeamSize = rq.beamSizeAt (m + 1) := rfl
  rw [refineBeamStep, hcur, beamSearchEncodeStep, decide_eq_true hle, hnew]
  refine ⟨_, rfl, ⟨rfl, fun _ ↦ rfl, fun _ i hi j hj ↦ ?_, fun i hi j hj ↦ ?_, fun _ i hi j hj ↦ ?_⟩⟩
  · refine (foldl_beamArrays _ _ _ _ hi hj).1.trans ?_
    obtain ⟨p, hp, hkept⟩ := hslot i hi j hj
    dsimp only
    rw [hbest i hi, hkept, beam, codes_extendBeam hkept, candidateSlot_natCast,
      h.codes_take hi (Nat.div_lt_of_lt_mul (by rwa [Nat.mul_comm]))]
  · refine (foldl_beamArrays _ _ _ _ hi hj).2.1.trans ?_
    obtain ⟨p, hp, hkept⟩ := hslot i hi j hj
    dsimp only
    rw [hbest i hi, hkept, beam, residuals_extendBeam hkept, candidateSlot_natCast,
      h.residuals i hi _ (Nat.div_lt_of_lt_mul (by rwa [Nat.mul_comm]))]
  · refine (foldl_beamArrays _ _ _ _ hi hj).2.2.trans ?_
    rw [hbest i hi]
    rfl

end

theorem holdsBeams_start (n : ℕ) (x : ℕ → ℕ → F) (pool : RefineBeam F) :
    rq.HoldsBeams fl C n x 0 { pool with
      residuals := Lib.write pool.residuals 0 ((List.range (n * 1)).map x)
      curBeamSize := 1
      size := 0 } where
  curBeamSize := rfl
  size := fun h ↦ absurd h (Nat.lt_irrefl 0)
  codes := fun h ↦ absurd h (Nat.lt_irrefl 0)
  residuals := fun i hi b hb ↦ by
    obtain rfl : b = 0 := Nat.lt_one_iff.mp hb
    rw [beamSizeAt, Nat.mul_one, Nat.add_zero, Nat.mul_one]
    exact write_zero_apply pool.residuals x hi
  distances := fun h ↦ absurd h (Nat.lt_irrefl 0)

/-- `refine_beam_mp` leaves the beams of the vectors, one after the other. -/
theorem refineBeamMp_spec (hcomm : ∀ a b, fl.add a b = fl.add b a) (hM : 0 < rq.M)
    (hfills : ∀ m < rq.M, ∀ i < n, rq.Fills fl C (x i) m) (out : BeamArrays F) (pool : RefineBeam F) :
    ∃ r, rq.refineBeamMp fl C n 1 x rq.maxBeamSize out pool = .ok r ∧
      ∀ i < n, ∀ b < rq.beamSizeAt rq.M,
        r.1.codes (i * rq.beamSizeAt rq.M + b) = (rq.beam fl C (x i) rq.M).codes b ∧
        r.1.residuals (i * rq.beamSizeAt rq.M + b) = (rq.beam fl C (x i) rq.M).residuals b := by
  obtain ⟨s, hs, h⟩ := foldlM_range_done (rq.HoldsBeams fl C n x)
    (holdsBeams_start n x pool) fun m hm s h ↦ h.step hcomm (hfills m hm)
  rw [refineBeamMp, hs]
  refine ⟨_, rfl, fun i hi b hb ↦ ?_⟩
  have hcell : i * rq.beamSizeAt rq.M + b < s.size := by
    rw [h.size hM]
    exact cell_lt hi hb
  rw [← h.codes hM i hi b hb, ← h.residuals i hi b hb]
  exact ⟨write_read_apply _ _ hcell, write_read_apply _ _ hcell⟩

end ResidualQuantizer

end FaissNavix
