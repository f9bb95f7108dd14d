import Mathlib.Algebra.BigOperators.Intervals
import Mathlib.Data.List.Count

/-!
# Counting into buckets

The counts of the values of a list, and the sums of the counts up to a bucket: how many values come
before those of the next bucket.
-/

namespace Lib

open Function

/-- `f[i]++` -/
def bump (f : ℕ → ℕ) (i : ℕ) : ℕ → ℕ :=
  update f i (f i + 1)

@[simp] theorem bump_self (f : ℕ → ℕ) (i : ℕ) : bump f i i = f i + 1 :=
  update_self i _ f

theorem bump_of_ne {f : ℕ → ℕ} {i j : ℕ} (h : j ≠ i) : bump f i j = f j :=
  update_of_ne h _ f

section
variable (xs : List ℕ) (n : ℕ) (f : ℕ → ℕ) (b : ℕ)

theorem le_bump (i j : ℕ) : f j ≤ bump f i j := by
  by_cases h : j = i
  · rw [h, bump_self]
    exact Nat.le_succ _
  · rw [bump_of_ne h]

def tally : ℕ → ℕ :=
  xs.foldl bump fun _ ↦ 0

/-- The loop `for (i < n) f[i + 1] += f[i]`. -/
def cumulate : ℕ → ℕ :=
  (List.range n).foldl (fun f i ↦ update f (i + 1) (f (i + 1) + f i)) f

theorem tally_apply : tally xs b = xs.count b := by
  induction xs using List.reverseRecOn with
  | nil => rfl
  | append_singleton xs x ih =>
      unfold tally at ih ⊢
      rw [List.foldl_append, List.foldl_cons, List.foldl_nil, List.count_append]
      by_cases h : b = x
      · rw [h, bump_self, ← h, ih, List.count_singleton_self]
      · rw [bump_of_ne h, ih, List.count_singleton, if_neg (by simpa using Ne.symm h), Nat.add_zero]

/-- The sums up to `n`, and what comes behind. -/
theorem cumulate_apply :
    cumulate n f b = if b ≤ n then ∑ j ∈ Finset.range (b + 1), f j else f b := by
  induction n generalizing b with
  | zero =>
      by_cases hb : b ≤ 0
      · obtain rfl := Nat.le_zero.mp hb
        simp [cumulate]
      · rw [if_neg hb]
        rfl
  | succ n ih =>
      have hstep : cumulate (n + 1) f =
          update (cumulate n f) (n + 1) (cumulate n f (n + 1) + cumulate n f n) := by
        unfold cumulate
        rw [List.range_succ, List.foldl_append]
        rfl
      rw [hstep]
      by_cases hb : b = n + 1
      · rw [hb, update_self, ih, ih, if_neg (by omega), if_pos le_rfl, if_pos le_rfl,
          Finset.sum_range_succ f (n + 1), Nat.add_comm]
      · rw [update_of_ne hb, ih]
        exact if_congr (by omega) rfl rfl

/-- The values up to `b` are counted by the counts up to `b`. -/
theorem sum_count :
    ∑ j ∈ Finset.range (b + 1), xs.count j = xs.countP (· ≤ b) := by
  induction xs with
  | nil => simp
  | cons x xs ih =>
      simp only [List.count_cons, List.countP_cons, Finset.sum_add_distrib, ih, beq_iff_eq,
        Finset.sum_ite_eq, Finset.mem_range, Nat.lt_succ_iff, decide_eq_true_eq]

end

theorem cumulate_tally (n : ℕ) (xs : List ℕ) {b : ℕ} (hb : b ≤ n) :
    cumulate n (tally xs) b = xs.countP (· ≤ b) := by
  rw [cumulate_apply, if_pos hb, ← sum_count]
  exact Finset.sum_congr rfl fun j _ ↦ tally_apply xs j

end Lib
