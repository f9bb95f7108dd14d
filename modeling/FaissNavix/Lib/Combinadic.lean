import Mathlib.Data.Nat.Choose.Basic

/-!
# The combinatorial number system

A selection among some slots is a list of bits, the bit of the last slot first.  Selections of the same number of
slots are numbered: a slot that is selected, with `m` slots before it, counts for the selections of as many slots
among these `m` as it is the last one of.
-/

namespace Lib

def rankOf : List Bool → ℕ
  | [] => 0
  | b :: bs => (if b then bs.length.choose ((b :: bs).count true) else 0) + rankOf bs

/-- The selection of `k` of `n` slots that has a number. -/
def ofRank : ℕ → ℕ → ℕ → List Bool
  | 0, _, _ => []
  | n + 1, k, r => if n.choose k ≤ r then true :: ofRank n (k - 1) (r - n.choose k) else false :: ofRank n k r

/-- The number of a selection whose first slot comes first, behind `m` slots of which `k` are selected. -/
def rankUp : ℕ → ℕ → List Bool → ℕ
  | _, _, [] => 0
  | m, k, true :: bs => m.choose (k + 1) + rankUp (m + 1) (k + 1) bs
  | m, k, false :: bs => rankUp (m + 1) k bs

variable {n k r : ℕ} {bs : List Bool}

theorem rankOf_true (bs : List Bool) : rankOf (true :: bs) = bs.length.choose (bs.count true + 1) + rankOf bs := by
  rw [rankOf, if_pos rfl, List.count_cons_self]

theorem rankOf_false (bs : List Bool) : rankOf (false :: bs) = rankOf bs := by
  rw [rankOf, if_neg Bool.false_ne_true, Nat.zero_add]

/-- A number is one of those of the selections of as many slots. -/
theorem rankOf_lt (bs : List Bool) : rankOf bs < bs.length.choose (bs.count true) := by
  induction bs with
  | nil => exact Nat.zero_lt_one
  | cons b bs ih =>
      rw [List.length_cons]
      cases b with
      | true =>
          rw [rankOf_true, List.count_cons_self, Nat.choose_succ_succ, Nat.add_comm]
          exact Nat.add_lt_add_right ih _
      | false =>
          rw [rankOf_false, List.count_cons_of_ne Bool.false_ne_true]
          exact ih.trans_le (Nat.choose_le_choose _ (Nat.le_succ _))

theorem ofRank_rankOf (bs : List Bool) : ofRank bs.length (bs.count true) (rankOf bs) = bs := by
  induction bs with
  | nil => rfl
  | cons b bs ih =>
      rw [List.length_cons, ofRank]
      cases b with
      | true =>
          rw [rankOf_true, List.count_cons_self, if_pos (Nat.le_add_right _ _), Nat.add_sub_cancel_left,
            Nat.add_sub_cancel, ih]
      | false =>
          rw [rankOf_false, List.count_cons_of_ne Bool.false_ne_true, if_neg (not_le.mpr (rankOf_lt bs)), ih]

theorem length_ofRank (n k r : ℕ) : (ofRank n k r).length = n := by
  induction n generalizing k r with
  | zero => rfl
  | succ n ih =>
      rw [ofRank]
      split
      · rw [List.length_cons, ih]
      · rw [List.length_cons, ih]

theorem sub_lt_choose (h : r < (n + 1).choose k) (hle : n.choose k ≤ r) :
    ∃ j, k = j + 1 ∧ r - n.choose k < n.choose j := by
  cases k with
  | zero =>
      rw [Nat.choose_zero_right] at h hle
      exact absurd h (not_lt.mpr hle)
  | succ j =>
      rw [Nat.choose_succ_succ'] at h
      exact ⟨j, rfl, by omega⟩

theorem count_ofRank (h : r < n.choose k) : (ofRank n k r).count true = k := by
  induction n generalizing k r with
  | zero =>
      cases k with
      | zero => rfl
      | succ k =>
          rw [Nat.choose_zero_succ] at h
          exact absurd h (Nat.not_lt_zero r)
  | succ n ih =>
      rw [ofRank]
      split
      · next hle =>
          obtain ⟨j, rfl, hlt⟩ := sub_lt_choose h hle
          rw [List.count_cons_self, Nat.add_sub_cancel, ih hlt]
      · next hlt => rw [List.count_cons_of_ne Bool.false_ne_true, ih (not_le.mp hlt)]

/-- The number of the selection that has a number. -/
theorem rankOf_ofRank (h : r < n.choose k) : rankOf (ofRank n k r) = r := by
  induction n generalizing k r with
  | zero =>
      cases k with
      | zero => exact (Nat.lt_one_iff.mp h).symm
      | succ k =>
          rw [Nat.choose_zero_succ] at h
          exact absurd h (Nat.not_lt_zero r)
  | succ n ih =>
      rw [ofRank]
      split
      · next hle =>
          obtain ⟨j, rfl, hlt⟩ := sub_lt_choose h hle
          rw [rankOf_true, Nat.add_sub_cancel, ih hlt, length_ofRank, count_ofRank hlt, Nat.add_sub_of_le hle]
      · next hlt => rw [rankOf_false, ih (not_le.mp hlt)]

/-! ## From the first slot on -/

theorem rankOf_reverse_append (bs before : List Bool) :
    rankOf (bs.reverse ++ before) = rankUp before.length (before.count true) bs + rankOf before := by
  induction bs generalizing before with
  | nil => exact (Nat.zero_add _).symm
  | cons b bs ih =>
      rw [List.reverse_cons, List.append_assoc, List.singleton_append, ih, List.length_cons]
      cases b with
      | true =>
          rw [rankOf_true, List.count_cons_self, rankUp]
          omega
      | false => rw [rankOf_false, List.count_cons_of_ne Bool.false_ne_true, rankUp]

theorem rankUp_zero (bs : List Bool) : rankUp 0 0 bs = rankOf bs.reverse := by
  have h := rankOf_reverse_append bs []
  rw [List.append_nil] at h
  exact h.symm

theorem rankUp_of_count_eq_zero (h : bs.count true = 0) (m k : ℕ) : rankUp m k bs = 0 := by
  induction bs generalizing m with
  | nil => rfl
  | cons b bs ih =>
      cases b with
      | true =>
          rw [List.count_cons_self] at h
          exact absurd h (Nat.succ_ne_zero _)
      | false =>
          rw [List.count_cons_of_ne Bool.false_ne_true] at h
          exact ih h _

end Lib
