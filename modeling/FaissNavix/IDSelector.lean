import FaissNavix.Invlists.InvertedLists
import FaissNavix.Lib.Bisect

/-!
# Selectors of ids

`faiss/impl/IDSelector.h` and `faiss/impl/IDSelector.cpp`.  A selector is asked whether it has an
id; an array of ids and a range are also asked for by their class.  For ids that are sorted, a range
finds the section of the array that it has by two bisections.
-/

namespace FaissNavix

open Lib (bisect Rising IsCut isCut_zero isCut_bisect)

/-- `IDSelectorRange`: the ids in `[imin, imax)`. -/
structure IDSelectorRange where
  imin : Idx
  imax : Idx
  assumeSorted : Bool
deriving DecidableEq, Repr

/-- `IDSelector`, with the classes that are asked for by a `dynamic_cast`. -/
inductive IDSelector where
  | array (ids : List Idx)
  | range (sel : IDSelectorRange)
  | other (isMember : Idx → Bool)

namespace IDSelectorRange

variable (sel : IDSelectorRange)

/-- `is_member` -/
def isMember (id : Idx) : Bool :=
  decide (sel.imin ≤ id) && decide (id < sel.imax)

/-- The bisection that finds `imin`, if it is needed. -/
def jmin (listSize : ℕ) (ids : ℕ → Idx) : ℕ :=
  if sel.imin ≤ ids 0 then 0 else bisect (fun j ↦ decide (sel.imin ≤ ids j)) listSize 0 listSize

/-- The bisection that finds `imax` from `jmin` on, if it is needed. -/
def jmax (listSize : ℕ) (ids : ℕ → Idx) (jmin : ℕ) : ℕ :=
  if jmin = listSize ∨ sel.imax ≤ ids jmin then jmin
  else bisect (fun j ↦ decide (sel.imax ≤ ids j)) listSize jmin listSize

/-- `find_sorted_ids_bounds`, where `ids` is `none` for a null pointer. -/
def findSortedIdsBounds (listSize : ℕ) (ids : Option (ℕ → Idx)) : Except Fault (ℕ × ℕ) := do
  Fault.assert sel.assumeSorted "assume_sorted"
  if listSize = 0 then return (0, 0)
  match ids with
  | none => .error .nullPointer
  | some ids =>
      if sel.imax ≤ ids 0 ∨ ids (listSize - 1) < sel.imin then return (0, 0)
      return (sel.jmin listSize ids, sel.jmax listSize ids (sel.jmin listSize ids))

end IDSelectorRange

/-- `is_member` -/
def IDSelector.isMember : IDSelector → Idx → Bool
  | .array ids, id => decide (id ∈ ids)
  | .range sel, id => sel.isMember id
  | .other isMember, id => isMember id

/-! ## The bounds of a range in sorted ids -/

def SortedIds (n : ℕ) (ids : ℕ → Idx) : Prop :=
  ∀ i j, i ≤ j → j < n → ids i ≤ ids j

namespace IDSelectorRange

variable {sel : IDSelectorRange} {n : ℕ} {ids : ℕ → Idx}

theorem rising_of_sorted (h : SortedIds n ids) (bound : Idx) :
    Rising (fun j ↦ decide (bound ≤ ids j)) n := by
  intro i j hij hj hi
  rw [decide_eq_true_iff] at hi ⊢
  exact Int64.le_trans hi (h i j hij hj)

/-- What `find_sorted_ids_bounds` looks for: the bounds of the ids that the range has. -/
structure Bounds (sel : IDSelectorRange) (n : ℕ) (ids : ℕ → Idx) (b : ℕ × ℕ) : Prop where
  le : b.1 ≤ b.2
  le_size : b.2 ≤ n
  isMember_iff : ∀ j < n, sel.isMember (ids j) = true ↔ b.1 ≤ j ∧ j < b.2

theorem bounds_zero (h : ∀ j < n, sel.isMember (ids j) = false) : sel.Bounds n ids (0, 0) where
  le := le_rfl
  le_size := Nat.zero_le n
  isMember_iff := fun j hj ↦ by
    rw [h j hj]
    exact iff_of_false Bool.false_ne_true fun hb ↦ Nat.not_lt_zero j hb.2

theorem isCut_jmin (sel : IDSelectorRange) (h : SortedIds n ids) (hn : 0 < n) :
    IsCut (fun j ↦ decide (sel.imin ≤ ids j)) n (sel.jmin n ids) := by
  have hrise := rising_of_sorted h sel.imin
  unfold jmin
  split
  · rename_i hle
    exact isCut_zero hrise (decide_eq_true hle)
  · rename_i hgt
    exact isCut_bisect hrise (by omega) hn le_rfl (decide_eq_false hgt) fun hlt ↦ absurd hlt (lt_irrefl n)

/-- From `jmin` on, `jmax` cuts where `imax` is reached. -/
theorem jmax_spec (sel : IDSelectorRange) (h : SortedIds n ids) {jmin : ℕ} (hjmin : jmin ≤ n) :
    jmin ≤ sel.jmax n ids jmin ∧ sel.jmax n ids jmin ≤ n ∧
      ∀ j, jmin ≤ j → j < n → (ids j < sel.imax ↔ j < sel.jmax n ids jmin) := by
  have hrise := rising_of_sorted h sel.imax
  unfold jmax
  split
  · rename_i hstop
    refine ⟨le_rfl, hjmin, fun j hj hjn ↦ iff_of_false ?_ (by omega)⟩
    rcases hstop with rfl | hle
    · omega
    · exact Int64.not_lt.mpr (Int64.le_trans hle (h jmin j hj hjn))
  · rename_i hgo
    rw [not_or] at hgo
    have hlt : jmin < n := by omega
    have hfuel : n ≤ jmin + 1 + n := by omega
    have hcut := isCut_bisect hrise hfuel hlt le_rfl (decide_eq_false hgo.2) fun hlt ↦
      absurd hlt (lt_irrefl n)
    refine ⟨?_, hcut.le, fun j hj hjn ↦ ?_⟩
    · by_contra hlt
      have := hcut.above jmin (by omega) (by omega)
      exact hgo.2 (of_decide_eq_true this)
    · rw [← not_iff_not, Int64.not_lt, Nat.not_lt, ← hcut.iff_le hjn, decide_eq_true_iff]

/-- In sorted ids, with repetitions or without, `find_sorted_ids_bounds` returns the bounds of the
ids of the range. -/
theorem findSortedIdsBounds_spec (sel : IDSelectorRange) (hsorted : sel.assumeSorted = true) (h : SortedIds n ids) :
    ∃ b, sel.findSortedIdsBounds n (some ids) = .ok b ∧ sel.Bounds n ids b := by
  unfold findSortedIdsBounds
  rw [hsorted, Fault.assert_true]
  obtain rfl | hn := Nat.eq_zero_or_pos n
  · exact ⟨(0, 0), rfl, bounds_zero fun j hj ↦ absurd hj (Nat.not_lt_zero j)⟩
  · rw [if_neg hn.ne']
    by_cases hout : sel.imax ≤ ids 0 ∨ ids (n - 1) < sel.imin
    · refine ⟨(0, 0), if_pos hout, bounds_zero fun j hj ↦ ?_⟩
      rw [isMember, Bool.and_eq_false_iff, decide_eq_false_iff_not, decide_eq_false_iff_not]
      rcases hout with hle | hlt
      · exact Or.inr (Int64.not_lt.mpr (Int64.le_trans hle (h 0 j (Nat.zero_le j) hj)))
      · exact Or.inl (Int64.not_le.mpr (Int64.lt_of_le_of_lt (h j (n - 1) (by omega) (by omega)) hlt))
    · have hmin := sel.isCut_jmin h hn
      obtain ⟨hle, hlen, hmax⟩ := sel.jmax_spec h hmin.le
      refine ⟨(sel.jmin n ids, sel.jmax n ids (sel.jmin n ids)), if_neg hout, hle, hlen,
        fun j hj ↦ ?_⟩
      have hge := hmin.iff_le hj
      rw [decide_eq_true_iff] at hge
      rw [isMember, Bool.and_eq_true, decide_eq_true_iff, decide_eq_true_iff, hge]
      constructor
      · exact fun hb ↦ ⟨hb.1, (hmax j hb.1 hj).mp hb.2⟩
      · exact fun hb ↦ ⟨hb.1, (hmax j hb.1 hj).mpr hb.2⟩

end IDSelectorRange

end FaissNavix
