import FaissNavix.Lib.Loop
import FaissNavix.Lib.Rows
import FaissNavix.ResidualQuantizer.RefineBeam

/-!
# The sums of the table version

Whatever the number of codes and the columns that are done in chunks, each distance of a candidate is
computed from the entries of one column (`centDistancesTab_apply`).
-/

namespace FaissNavix

open Function
open Lib (write)

variable {F : Type} {fl : Floats F} {K M b : ℕ}

namespace AccumTab

theorem chunkColumns_le (simd : Bool) (K : ℕ) : chunkColumns simd K ≤ K := by
  rw [chunkColumns]
  split
  · exact Nat.div_mul_le_self K chunkSize
  · exact Nat.zero_le K

theorem chunkColumns_div (simd : Bool) (K : ℕ) :
    chunkColumns simd K / chunkSize * chunkSize = chunkColumns simd K := by
  rw [chunkColumns]
  split
  · rw [Nat.mul_div_cancel _ (by decide)]
  · rfl

theorem chunks_apply (chunk : ℕ → F → F) (ofs : ℕ) (output : ℕ → F) (n a : ℕ) :
    (List.range n).foldl (fun out c ↦
      write out (ofs + c * chunkSize) ((List.range chunkSize).map fun l ↦
        chunk (c * chunkSize + l) (out (ofs + c * chunkSize + l)))) output a =
      if ofs ≤ a ∧ a < ofs + n * chunkSize then chunk (a - ofs) (output a) else output a := by
  refine Lib.foldl_range_invariant (fun n (out : ℕ → F) ↦ ∀ a, out a =
    if ofs ≤ a ∧ a < ofs + n * chunkSize then chunk (a - ofs) (output a) else output a)
    (fun a ↦ ?_) (fun c _ out hout a ↦ ?_) a
  · rw [if_neg (by omega)]
  · have hlen : ((List.range chunkSize).map fun l ↦
        chunk (c * chunkSize + l) (out (ofs + c * chunkSize + l))).length = chunkSize := by
      rw [List.length_map, List.length_range]
    have hsucc : (c + 1) * chunkSize = c * chunkSize + chunkSize := Nat.succ_mul c chunkSize
    by_cases hin : ofs + c * chunkSize ≤ a ∧ a < ofs + c * chunkSize + chunkSize
    · obtain ⟨l, rfl⟩ := Nat.exists_eq_add_of_le hin.1
      have hcolumn : ofs + c * chunkSize + l - ofs = c * chunkSize + l := by omega
      rw [Lib.write_of_inside (by omega), List.get_eq_getElem, List.getElem_map, List.getElem_range,
        hout, if_neg (by omega), if_pos (by omega), hcolumn]
    · rw [Lib.write_of_outside (by omega), hout]
      exact if_congr (by omega) rfl rfl

/-- Each column is computed from what it held. -/
theorem columns_apply (simd : Bool) (K : ℕ) (chunk one : ℕ → F → F) (ofs : ℕ) (output : ℕ → F)
    (a : ℕ) : columns simd K chunk one ofs output a =
      if ofs ≤ a ∧ a < ofs + K then
        (if a - ofs < chunkColumns simd K then chunk else one) (a - ofs) (output a)
      else output a := by
  have hle := chunkColumns_le simd K
  rw [columns]
  refine (Lib.foldl_range_invariant (fun n (out : ℕ → F) ↦ ∀ a, out a =
    if ofs ≤ a ∧ a < ofs + chunkColumns simd K + n then
      (if a - ofs < chunkColumns simd K then chunk else one) (a - ofs) (output a)
    else output a) (fun a ↦ ?_) (fun t _ out hout a ↦ ?_) a).trans
    (if_congr (by omega) rfl rfl)
  · rw [chunks_apply, chunkColumns_div, Nat.add_zero]
    split
    · rw [if_pos (by omega)]
    · rfl
  · by_cases hself : a = ofs + (chunkColumns simd K + t)
    · subst hself
      rw [update_self, hout, if_neg (by omega), if_pos (by omega), if_neg (by omega),
        Nat.add_sub_cancel_left]
    · rw [update_of_ne hself, hout]
      exact if_congr (by omega) rfl rfl

end AccumTab

/-! ## The distance of one candidate -/

open AccumTab

/-- `dp` of a column, for eight codes and more. -/
def groupedSum (fl : Floats F) (cbs : ℕ → ℕ → ℕ → F) (m k : ℕ) : F :=
  (List.range' 1 ((m + 7) / 8 - 1)).foldl (fun dp t ↦
    fl.add dp (reg fl (cbs (8 * t)) (min (m - 8 * t) 8) k)) (reg fl (cbs 0) 8 k)

/-- The distance of a candidate, as the table version computes it. -/
def candidateDistanceTab (fl : Floats F) (simd : Bool) (K : ℕ) (cbs : ℕ → ℕ → ℕ → F) (m : ℕ)
    (distance : F) (cdCommon : ℕ → F) (k : ℕ) : F :=
  if m = 0 then fl.add distance (cdCommon k)
  else if m < 8 then
    if k < chunkColumns simd K then
      fl.add (fl.add (fl.mul fl.two (reg fl (cbs 0) m k)) (cdCommon k)) distance
    else fl.add (fl.add distance (cdCommon k)) (fl.mul fl.two (reg fl (cbs 0) m k))
  else fl.add (fl.add distance (cdCommon k)) (fl.mul fl.two (groupedSum fl cbs m k))

theorem groupedSum_eq (simd : Bool) (cbs : ℕ → ℕ → ℕ → F) (m : ℕ) (output : ℕ → F) {k : ℕ}
    (hk : k < K) :
    (List.range' 1 ((m + 7) / 8 - 1)).foldl (fun dp t ↦
      AccumTab.add fl simd (min (m - 8 * t) 8) (cbs (8 * t)) K dp)
      (store fl simd 8 (cbs 0) K output) k = groupedSum fl cbs m k := by
  rw [groupedSum]
  generalize List.range' 1 ((m + 7) / 8 - 1) = ts
  have hstore : store fl simd 8 (cbs 0) K output k = reg fl (cbs 0) 8 k := by
    rw [store, columns_apply, if_pos (by omega), Nat.sub_zero]
    split <;> rfl
  rw [← hstore]
  generalize store fl simd 8 (cbs 0) K output = dp
  induction ts generalizing dp with
  | nil => rfl
  | cons t ts ih =>
      rw [List.foldl_cons, List.foldl_cons, ih, AccumTab.add, columns_apply, if_pos (by omega),
        Nat.sub_zero]
      split <;> rfl

theorem foldl_update_apply (f : ℕ → F) (ofs K : ℕ) (out : ℕ → F) (a : ℕ) :
    (List.range K).foldl (fun out k ↦ update out (ofs + k) (f k)) out a =
      if ofs ≤ a ∧ a < ofs + K then f (a - ofs) else out a := by
  refine Lib.foldl_range_invariant (fun n (out' : ℕ → F) ↦ ∀ a, out' a =
    if ofs ≤ a ∧ a < ofs + n then f (a - ofs) else out a) (fun a ↦ ?_) (fun k _ out' hout a ↦ ?_) a
  · rw [if_neg (by omega)]
  · by_cases hself : a = ofs + k
    · subst hself
      rw [update_self, if_pos (by omega), Nat.add_sub_cancel_left]
    · rw [update_of_ne hself, hout]
      exact if_congr (by omega) rfl rfl

/-- Every candidate has its distance, in whatever way the sums are formed. -/
theorem centDistancesTab_apply (simd : Bool) {beamSize k : ℕ} (codebookCrossNorms : ℕ → F) (ldc : ℕ)
    (codebookOffsets : ℕ → ℕ) (cdCommon : ℕ → F) (m : ℕ) (codes : ℕ → List ℕ) (distances : ℕ → F)
    (hb : b < beamSize) (hk : k < K) :
    centDistancesTab fl simd K beamSize codebookCrossNorms ldc codebookOffsets cdCommon m codes
        distances (b * K + k) =
      candidateDistanceTab fl simd K
        (fun im ↦ cbs codebookCrossNorms codebookOffsets (codes b) im ldc) m (distances b) cdCommon k := by
  rw [centDistancesTab]
  -- a hypothesis only writes its own columns
  have hrow : ∀ (b : ℕ) (out : ℕ → F) (a : ℕ),
      (if m = 0 then
        (List.range K).foldl (fun out k ↦
          update out (b * K + k) (fl.add (distances b) (cdCommon k))) out
      else if m < 8 then
        finalize fl simd m (cbs codebookCrossNorms codebookOffsets (codes b) 0 ldc) b K (distances b)
          cdCommon out
      else
        (List.range K).foldl (fun out k ↦
          update out (b * K + k) (fl.add (fl.add (distances b) (cdCommon k)) (fl.mul fl.two
            ((List.range' 1 ((m + 7) / 8 - 1)).foldl (fun dp t ↦
              AccumTab.add fl simd (min (m - 8 * t) 8)
                (cbs codebookCrossNorms codebookOffsets (codes b) (8 * t) ldc) K dp)
              (store fl simd 8 (cbs codebookCrossNorms codebookOffsets (codes b) 0 ldc) K
                fun _ ↦ fl.zero) k)))) out) a =
      if b * K ≤ a ∧ a < b * K + K then
        candidateDistanceTab fl simd K
          (fun im ↦ cbs codebookCrossNorms codebookOffsets (codes b) im ldc) m (distances b) cdCommon
          (a - b * K)
      else out a := by
    intro b out a
    rw [candidateDistanceTab]
    by_cases hzero : m = 0
    · rw [if_pos hzero, if_pos hzero, foldl_update_apply]
    rw [if_neg hzero, if_neg hzero]
    by_cases hfew : m < 8
    · rw [if_pos hfew, if_pos hfew, finalize, columns_apply]
      refine if_congr Iff.rfl ?_ rfl
      split <;> rfl
    · rw [if_neg hfew, if_neg hfew, foldl_update_apply]
      split
      · rename_i hin
        rw [groupedSum_eq simd (fun im ↦ cbs codebookCrossNorms codebookOffsets (codes b) im ldc) m
          (fun _ ↦ fl.zero) (by omega : a - b * K < K)]
      · rfl
  -- so that it keeps those of the ones before
  refine Lib.foldl_range_invariant (fun n (out : ℕ → F) ↦ b < n → out (b * K + k) = _)
    (fun hlt ↦ absurd hlt (Nat.not_lt_zero b)) (fun c _ out hout hlt ↦ ?_) hb
  refine (hrow c out (b * K + k)).trans ?_
  rcases Nat.lt_succ_iff_lt_or_eq.mp hlt with hbefore | rfl
  · have hcell := Lib.cell_lt (n := c) hbefore hk
    rw [if_neg (by omega), hout hbefore]
  · rw [if_pos (by omega), Nat.add_sub_cancel_left]

end FaissNavix
