import FaissNavix.Lib.Loop
import FaissNavix.Lib.Tally

/-!
# The bucket sort in place

`matrix_bucket_sort_inplace` of `faiss/utils/sorting.cpp` with one thread.  The values of a matrix are
bucket numbers, and the sort replaces them by the numbers of the rows they were in, bucket by bucket.
It follows the cycles of the permutation: each row number it writes takes the place of a value whose
own row is the next one to write, and `-1` marks the place that a cycle began with.

A call that throws, reads or writes outside of an array, or fails an `assert` has no result.
-/

namespace FaissNavix

open Function
open Lib

/-! ## The model -/

/-- The local variables of the loop that follows the cycles. -/
structure SortCycle where
  vals : ℕ → ℤ
  ptrs : ℕ → ℕ
  row : ℤ
  bucketNo : ℕ
  initBucketNo : ℕ

/-- The loop `for (i < nval) lims[vals[i] + 1]++`. -/
def countVals (nbucket : ℕ) (vals : List ℤ) : Option (ℕ → ℕ) :=
  vals.foldlM (fun (lims : ℕ → ℕ) (v : ℤ) ↦
    if -1 ≤ v ∧ v < nbucket then some (bump lims (v + 1).toNat) else none) fun _ ↦ 0

def nextBucket (nbucket : ℕ) (lims ptrs : ℕ → ℕ) (initBucketNo : ℕ) : Option ℕ :=
  (List.range' initBucketNo (nbucket - initBucketNo)).find? fun b ↦ decide (ptrs b < lims (b + 1))

/-- One turn of the loop that follows the cycles. -/
def cycleTurn (assertions : Bool) (ncol nval nbucket : ℕ) (lims : ℕ → ℕ) :
    Option SortCycle → Turn (Option SortCycle)
  | none => .done none
  | some s =>
    let idx := s.ptrs s.bucketNo
    let ptrs := if 0 ≤ s.row then bump s.ptrs s.bucketNo else s.ptrs
    if assertions ∧ lims (s.bucketNo + 1) ≤ idx then .done none
    else if nbucket ≤ s.bucketNo ∨ nval ≤ idx then .done none
    else
      let nextBucketNo := s.vals idx
      let vals := update s.vals idx s.row
      if nextBucketNo ≠ -1 then
        .next (some ⟨vals, ptrs, (idx / ncol : ℕ), nextBucketNo.toNat, s.initBucketNo⟩)
      else
        match nextBucket nbucket lims ptrs s.initBucketNo with
        | none => .done (some ⟨vals, ptrs, s.row, s.bucketNo, nbucket⟩)
        | some b => .next (some ⟨vals, ptrs, -1, b, b⟩)

/-- `bucket_sort_inplace_ref`, with room for `limsSize` limits: the rows and the limits. -/
def bucketSortInplaceRef (assertions : Bool) (turns nrow ncol : ℕ) (vals : ℕ → ℤ) (nbucket limsSize : ℕ) :
    Option ((ℕ → ℤ) × (ℕ → ℕ)) :=
  let nval := nrow * ncol
  if nval ≤ nbucket then none
  else if limsSize < nbucket + 1 then none
  else do
    let counts ← countVals nbucket ((List.range nval).map vals)
    let lims := cumulate nbucket counts
    if lims nbucket ≠ nval then none
    else do
      let s ← (iterate (cycleTurn assertions ncol nval nbucket lims) turns (some ⟨vals, lims, -1, 0, 0⟩)).join
      if assertions ∧ ∃ b < nbucket, s.ptrs b ≠ lims (b + 1) then none
      else some (s.vals, lims)

/-! ## The limits -/

/-- The number of values below `b`. -/
def valuesBelow (nval : ℕ) (vals : ℕ → ℤ) (b : ℕ) : ℕ :=
  (List.range nval).countP fun p ↦ vals p < b

theorem countVals_eq {nbucket : ℕ} {vals : List ℤ} (h : ∀ v ∈ vals, -1 ≤ v ∧ v < nbucket) :
    countVals nbucket vals = some (tally (vals.map fun v ↦ (v + 1).toNat)) := by
  have hrun : ∀ lims, vals.foldlM (fun (lims : ℕ → ℕ) (v : ℤ) ↦
      if -1 ≤ v ∧ v < nbucket then some (bump lims (v + 1).toNat) else none) lims =
        some ((vals.map fun v ↦ (v + 1).toNat).foldl bump lims) := by
    induction vals with
    | nil => exact fun lims ↦ rfl
    | cons v vals ih =>
        intro lims
        rw [List.foldlM_cons, if_pos (h v List.mem_cons_self)]
        exact ih (fun w hw ↦ h w (List.mem_cons_of_mem v hw)) (bump lims (v + 1).toNat)
  exact hrun _

variable {nval nbucket ncol : ℕ} {V : ℕ → ℤ}

theorem cumulate_counts (hV : ∀ p < nval, -1 ≤ V p ∧ V p < nbucket) {b : ℕ} (hb : b ≤ nbucket) :
    cumulate nbucket (tally (((List.range nval).map V).map fun v ↦ (v + 1).toNat)) b =
      valuesBelow nval V b := by
  rw [cumulate_tally _ _ hb, List.map_map, List.countP_map]
  refine List.countP_congr fun p hp ↦ ?_
  have hp := hV p (List.mem_range.mp hp)
  simp only [Function.comp_apply, decide_eq_true_eq]
  omega

theorem valuesBelow_succ (nval : ℕ) (V : ℕ → ℤ) (b : ℕ) :
    valuesBelow nval V (b + 1) = valuesBelow nval V b + (List.range nval).countP fun p ↦ V p = b := by
  unfold valuesBelow
  induction List.range nval with
  | nil => rfl
  | cons p ps ih =>
      simp only [List.countP_cons, ih, decide_eq_true_eq]
      split_ifs <;> omega

theorem valuesBelow_mono (nval : ℕ) (V : ℕ → ℤ) : Monotone (valuesBelow nval V) := by
  refine monotone_nat_of_le_succ fun b ↦ ?_
  rw [valuesBelow_succ]
  exact Nat.le_add_right _ _

theorem valuesBelow_nbucket (hV : ∀ p < nval, -1 ≤ V p ∧ V p < nbucket) : valuesBelow nval V nbucket = nval := by
  unfold valuesBelow
  rw [List.countP_eq_length.mpr fun p hp ↦ decide_eq_true (hV p (List.mem_range.mp hp)).2, List.length_range]

/-! ## Following the cycles -/

/-- The rows of the values of bucket `b` among the places `ps`. -/
def rowsAt (ncol : ℕ) (V : ℕ → ℤ) (ps : Finset ℕ) (b : ℕ) : Multiset ℤ :=
  (ps.filter fun p ↦ V p = b).val.map fun p ↦ ((p / ncol : ℕ) : ℤ)

/-- What has been written in the places from `l` to `r`. -/
def writtenAt (vals : ℕ → ℤ) (l r : ℕ) : Multiset ℤ :=
  (Finset.Ico l r).val.map vals

/-- The row that is on its way to bucket `b`, if it is the one of the place `p`. -/
def lifted (ncol : ℕ) (V : ℕ → ℤ) (rest : Finset ℕ) (p b : ℕ) : Multiset ℤ :=
  if p ∈ rest ∧ V p = b then {((p / ncol : ℕ) : ℤ)} else 0

/-- The row that is on its way to bucket `b`. -/
def carried (row : ℤ) (bucketNo b : ℕ) : Multiset ℤ :=
  if 0 ≤ row ∧ bucketNo = b then {row} else 0

def Unwritten (nval nbucket : ℕ) (V : ℕ → ℤ) (ptrs : ℕ → ℕ) (p : ℕ) : Prop :=
  ∃ b < nbucket, ptrs b ≤ p ∧ p < valuesBelow nval V (b + 1)

/-- The values that are still at the places `rest`, those on their way, and those that are written make up
the buckets. -/
structure Following (ncol nval nbucket : ℕ) (V vals : ℕ → ℤ) (ptrs : ℕ → ℕ) (hand : ℕ → Multiset ℤ)
    (rest : Finset ℕ) : Prop where
  ptrs_mem : ∀ b < nbucket, valuesBelow nval V b ≤ ptrs b ∧ ptrs b ≤ valuesBelow nval V (b + 1)
  rest_mem : ∀ p ∈ rest, Unwritten nval nbucket V ptrs p
  original : ∀ p ∈ rest, vals p = V p
  taken : ∀ p ∉ rest, Unwritten nval nbucket V ptrs p → vals p = -1
  account : ∀ b < nbucket, writtenAt vals (valuesBelow nval V b) (ptrs b) + hand b + rowsAt ncol V rest b =
    rowsAt ncol V (Finset.Ico (valuesBelow nval V 0) nval) b

theorem eq_of_mem_bucket {b b' p : ℕ} (hl : valuesBelow nval V b ≤ p) (hr : p < valuesBelow nval V (b + 1))
    (hl' : valuesBelow nval V b' ≤ p) (hr' : p < valuesBelow nval V (b' + 1)) : b = b' := by
  by_contra hne
  rcases Nat.lt_or_gt_of_ne hne with hlt | hlt
  · have : valuesBelow nval V (b + 1) ≤ _ := valuesBelow_mono nval V hlt
    omega
  · have : valuesBelow nval V (b' + 1) ≤ _ := valuesBelow_mono nval V hlt
    omega

theorem rowsAt_erase (ncol : ℕ) (V : ℕ → ℤ) (rest : Finset ℕ) (p b : ℕ) :
    rowsAt ncol V rest b = lifted ncol V rest p b + rowsAt ncol V (rest.erase p) b := by
  unfold rowsAt lifted
  rw [Finset.filter_erase]
  split
  · rename_i hp
    have hmem : p ∈ rest.filter fun p ↦ V p = b := Finset.mem_filter.mpr hp
    rw [← Multiset.cons_erase (Finset.mem_val.mpr hmem), Multiset.map_cons, Finset.erase_val]
    rfl
  · rename_i hp
    rw [Finset.erase_eq_of_notMem fun hmem ↦ hp (Finset.mem_filter.mp hmem), zero_add]

theorem writtenAt_update {vals : ℕ → ℤ} {l r p : ℕ} (hp : p < l ∨ r ≤ p) (row : ℤ) :
    writtenAt (update vals p row) l r = writtenAt vals l r := by
  refine Multiset.map_congr rfl fun q hq ↦ update_of_ne ?_ row vals
  have := Finset.mem_Ico.mp (Finset.mem_val.mp hq)
  omega

theorem writtenAt_succ {vals : ℕ → ℤ} {l r : ℕ} (h : l ≤ r) (row : ℤ) :
    writtenAt (update vals r row) l (r + 1) = writtenAt vals l r + {row} := by
  have hlast : writtenAt (update vals r row) l (r + 1) = row ::ₘ writtenAt (update vals r row) l r := by
    unfold writtenAt
    rw [← Finset.insert_Ico_right_eq_Ico_add_one h, Finset.insert_val_of_notMem (by simp), Multiset.map_cons, update_self]
  rw [hlast, writtenAt_update (Or.inr le_rfl), ← Multiset.singleton_add, add_comm]

@[simp] theorem card_writtenAt (vals : ℕ → ℤ) (l r : ℕ) : (writtenAt vals l r).card = r - l := by
  rw [writtenAt, Multiset.card_map, Finset.card_val, Nat.card_Ico]

theorem card_rowsAt_le (ncol nval l : ℕ) (V : ℕ → ℤ) (b : ℕ) :
    (rowsAt ncol V (Finset.Ico l nval) b).card ≤ valuesBelow nval V (b + 1) - valuesBelow nval V b := by
  rw [valuesBelow_succ, Nat.add_sub_cancel_left, rowsAt, Multiset.card_map, Finset.card_val]
  have hrange : ((List.range nval).countP fun p ↦ V p = b) =
      ((Finset.range nval).filter fun p ↦ V p = b).card := by
    rw [List.countP_eq_length_filter]
    rfl
  rw [hrange]
  refine Finset.card_le_card (Finset.filter_subset_filter _ fun p hp ↦ ?_)
  exact Finset.mem_range.mpr (Finset.mem_Ico.mp hp).2

namespace Following

variable {vals : ℕ → ℤ} {ptrs : ℕ → ℕ} {hand : ℕ → Multiset ℤ} {rest : Finset ℕ}

section
variable (h : Following ncol nval nbucket V vals ptrs hand rest)
include h

theorem ptrs_lt {b : ℕ} (hb : b < nbucket)
    (hhand : hand b ≠ 0) : ptrs b < valuesBelow nval V (b + 1) := by
  have hcard := congrArg Multiset.card (h.account b hb)
  have hle := card_rowsAt_le ncol nval (valuesBelow nval V 0) V b
  have hpos := Multiset.card_pos.mpr hhand
  have hmem := h.ptrs_mem b hb
  rw [Multiset.card_add, Multiset.card_add, card_writtenAt] at hcard
  omega

theorem out_of_written {p b : ℕ}
    (hp : Unwritten nval nbucket V ptrs p) (hb : b < nbucket) : p < valuesBelow nval V b ∨ ptrs b ≤ p := by
  obtain ⟨b', hb', hl, hr⟩ := hp
  by_contra hin
  have hmem := h.ptrs_mem b hb
  have heq : b' = b := eq_of_mem_bucket ((h.ptrs_mem b' hb').1.trans hl) hr (by omega) (by omega)
  subst heq
  omega

theorem unwritten_bump {b p : ℕ} (hb : b < nbucket)
    (hlt : ptrs b < valuesBelow nval V (b + 1)) :
    Unwritten nval nbucket V (bump ptrs b) p ↔ Unwritten nval nbucket V ptrs p ∧ p ≠ ptrs b := by
  constructor
  · rintro ⟨b', hb', hl, hr⟩
    refine ⟨⟨b', hb', (le_bump ptrs b b').trans hl, hr⟩, ?_⟩
    rintro rfl
    by_cases heq : b' = b
    · rw [heq, bump_self] at hl
      omega
    · rw [bump_of_ne heq] at hl
      exact heq (eq_of_mem_bucket ((h.ptrs_mem b' hb').1.trans hl) hr (h.ptrs_mem b hb).1 hlt)
  · rintro ⟨⟨b', hb', hl, hr⟩, hne⟩
    refine ⟨b', hb', ?_, hr⟩
    by_cases heq : b' = b
    · rw [heq] at hl ⊢
      rw [bump_self]
      omega
    · rw [bump_of_ne heq]
      exact hl

end

theorem lift (h : Following ncol nval nbucket V vals ptrs (fun _ ↦ 0) rest) {p : ℕ}
    (hp : Unwritten nval nbucket V ptrs p) :
    Following ncol nval nbucket V (update vals p (-1)) ptrs (lifted ncol V rest p) (rest.erase p) where
  ptrs_mem := h.ptrs_mem
  rest_mem q hq := h.rest_mem q (Finset.mem_of_mem_erase hq)
  original q hq := by
    rw [update_of_ne (Finset.ne_of_mem_erase hq)]
    exact h.original q (Finset.mem_of_mem_erase hq)
  taken q hq hunwritten := by
    by_cases hqp : q = p
    · rw [hqp, update_self]
    · rw [update_of_ne hqp]
      exact h.taken q (fun hmem ↦ hq (Finset.mem_erase.mpr ⟨hqp, hmem⟩)) hunwritten
  account b hb := by
    rw [writtenAt_update (h.out_of_written hp hb), ← h.account b hb, rowsAt_erase ncol V rest p b, add_zero,
      add_assoc]

/-- The turn that writes a row. -/
theorem place {row : ℤ} {b : ℕ} (h : Following ncol nval nbucket V vals ptrs (carried row b) rest)
    (hb : b < nbucket) (hrow : 0 ≤ row) : ptrs b < valuesBelow nval V (b + 1) ∧
    Following ncol nval nbucket V (update vals (ptrs b) row) (bump ptrs b) (lifted ncol V rest (ptrs b))
      (rest.erase (ptrs b)) := by
  have hlt : ptrs b < valuesBelow nval V (b + 1) := by
    refine h.ptrs_lt hb ?_
    rw [carried, if_pos ⟨hrow, rfl⟩]
    exact Multiset.singleton_ne_zero row
  have hmem := h.ptrs_mem b hb
  have hunwritten := fun p ↦ h.unwritten_bump (p := p) hb hlt
  refine ⟨hlt, ⟨fun b' hb' ↦ ?_, fun q hq ↦ ?_, fun q hq ↦ ?_, fun q hq hq' ↦ ?_, fun b' hb' ↦ ?_⟩⟩
  · by_cases heq : b' = b
    · rw [heq, bump_self]
      omega
    · rw [bump_of_ne heq]
      exact h.ptrs_mem b' hb'
  · exact (hunwritten q).mpr ⟨h.rest_mem q (Finset.mem_of_mem_erase hq), Finset.ne_of_mem_erase hq⟩
  · rw [update_of_ne (Finset.ne_of_mem_erase hq)]
    exact h.original q (Finset.mem_of_mem_erase hq)
  · obtain ⟨hold, hne⟩ := (hunwritten q).mp hq'
    rw [update_of_ne hne]
    exact h.taken q (fun hin ↦ hq (Finset.mem_erase.mpr ⟨hne, hin⟩)) hold
  · have haccount := h.account b' hb'
    rw [rowsAt_erase ncol V rest (ptrs b) b'] at haccount
    by_cases heq : b' = b
    · subst heq
      rw [carried, if_pos ⟨hrow, rfl⟩] at haccount
      rw [bump_self, writtenAt_succ hmem.1, ← haccount, add_assoc _ (lifted ncol V rest (ptrs b') b')]
    · rw [carried, if_neg fun hand ↦ heq hand.2.symm, add_zero] at haccount
      have hout : ptrs b < valuesBelow nval V b' ∨ ptrs b' ≤ ptrs b :=
        h.out_of_written ⟨b, hb, le_rfl, hlt⟩ hb'
      rw [bump_of_ne heq, writtenAt_update hout, ← haccount, add_assoc]

end Following

end FaissNavix
