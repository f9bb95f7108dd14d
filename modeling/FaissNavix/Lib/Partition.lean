import Mathlib.Algebra.BigOperators.Group.Finset.Basic
import Mathlib.Algebra.BigOperators.Ring.Finset
import Mathlib.Data.List.Perm.Basic
import Mathlib.Order.Lattice

/-!
# Cutting a list into pieces

Two ways to cut a list: by predicates of which every element satisfies one, and by positions.  Cut
points in increasing order give intervals that meet.
-/

namespace Lib

universe u v

variable {α : Type u} {κ : Type v}

/-! ## By predicates -/

/-- What the predicates of `cs` select, counted. -/
theorem count_flatMap_filter [DecidableEq α] (P : κ → α → Bool) (cs : List κ) (xs : List α)
    (x : α) :
    (cs.flatMap fun c ↦ xs.filter (P c)).count x = cs.countP (P · x) * xs.count x := by
  induction cs with
  | nil => simp
  | cons c cs ih =>
      rw [List.flatMap_cons, List.count_append, ih, List.countP_cons]
      cases h : P c x with
      | true => rw [List.count_filter h, if_pos rfl, Nat.add_one_mul, Nat.add_comm]
      | false =>
          rw [List.count_eq_zero_of_not_mem fun hx ↦ by simp [h] at hx, Nat.zero_add]
          rfl

theorem flatMap_filter_perm {P : κ → α → Bool} {cs : List κ} {xs : List α}
    (h : ∀ x ∈ xs, cs.countP (P · x) = 1) : (cs.flatMap fun c ↦ xs.filter (P c)).Perm xs := by
  classical
  refine List.perm_iff_count.2 fun x ↦ ?_
  rw [count_flatMap_filter]
  by_cases hx : x ∈ xs
  · rw [h x hx, Nat.one_mul]
  · rw [List.count_eq_zero_of_not_mem hx, Nat.mul_zero]

/-- Predicates of which the elements that pass a test satisfy exactly one, and the others none. -/
theorem flatMap_filter_perm_filter {P : κ → α → Bool} {Q : α → Bool} {cs : List κ} {xs : List α}
    (h : ∀ x ∈ xs, cs.countP (P · x) = if Q x then 1 else 0) :
    (cs.flatMap fun c ↦ xs.filter (P c)).Perm (xs.filter Q) := by
  classical
  refine List.perm_iff_count.2 fun x ↦ ?_
  rw [count_flatMap_filter]
  by_cases hx : x ∈ xs
  · rw [h x hx]
    cases hQ : Q x with
    | true => rw [if_pos rfl, Nat.one_mul, List.count_filter hQ]
    | false =>
        have hnot : x ∉ xs.filter Q := fun hin ↦
          Bool.false_ne_true (hQ.symm.trans (List.mem_filter.mp hin).2)
        rw [List.count_eq_zero_of_not_mem hnot, if_neg Bool.false_ne_true, Nat.zero_mul]
  · rw [List.count_eq_zero_of_not_mem hx, Nat.mul_zero,
      List.count_eq_zero_of_not_mem fun hin ↦ hx (List.mem_of_mem_filter hin)]

/-! ## By cut points -/

def intervals (cuts : List α) : List (α × α) :=
  cuts.zip cuts.tail

@[simp] theorem intervals_cons_cons (a b : α) (cuts : List α) :
    intervals (a :: b :: cuts) = (a, b) :: intervals (b :: cuts) := rfl

theorem mem_of_mem_intervals {cuts : List α} {p : α × α} (h : p ∈ intervals cuts) :
    p.1 ∈ cuts ∧ p.2 ∈ cuts :=
  ⟨(List.of_mem_zip h).1, List.mem_of_mem_tail (List.of_mem_zip h).2⟩

theorem intervals_eq_map (cuts : List α) (d : α) :
    intervals cuts =
      (List.range (cuts.length - 1)).map fun k ↦ (cuts.getD k d, cuts.getD (k + 1) d) := by
  induction cuts with
  | nil => rfl
  | cons a cuts ih =>
      cases cuts with
      | nil => rfl
      | cons b cuts =>
          have hlen : (a :: b :: cuts).length - 1 = (b :: cuts).length - 1 + 1 := rfl
          rw [intervals_cons_cons, ih, hlen, List.range_succ_eq_map, List.map_cons, List.map_map]
          rfl

/-- A point between the first cut point and the last one is in exactly one interval. -/
theorem countP_intervals {β : Type*} [LinearOrder β] (f : α → β) {cuts : List α}
    (hcuts : cuts.Pairwise fun c d ↦ f c ≤ f d) {a b : α} {x : β} (hfirst : cuts.head? = some a)
    (hlast : cuts.getLast? = some b) (hax : f a ≤ x) (hxb : x < f b) :
    (intervals cuts).countP (fun p ↦ f p.1 ≤ x ∧ x < f p.2) = 1 := by
  induction cuts generalizing a with
  | nil => cases hfirst
  | cons c cuts ih =>
      cases hfirst
      cases cuts with
      | nil =>
          cases hlast
          exact absurd hxb hax.not_gt
      | cons d cuts =>
          rw [intervals_cons_cons, List.countP_cons]
          rw [List.pairwise_cons] at hcuts
          by_cases hd : x < f d
          · -- the later intervals start at `d` or after it
            have hrest : (intervals (d :: cuts)).countP (fun p ↦ f p.1 ≤ x ∧ x < f p.2) = 0 := by
              refine List.countP_eq_zero.2 fun p hp ↦ ?_
              have hdp : f d ≤ f p.1 := by
                obtain heq | hmem := List.mem_cons.1 (mem_of_mem_intervals hp).1
                · exact (congrArg f heq).ge
                · exact List.rel_of_pairwise_cons hcuts.2 hmem
              simp [(hd.trans_le hdp).not_ge]
            rw [hrest]
            simp [hax, hd]
          · rw [ih hcuts.2 rfl (by simpa using hlast) (not_lt.1 hd)]
            simp [hd]

/-! ## By positions -/

/-- The elements at the positions from `lo` to `hi`. -/
def slice (xs : List α) (lo hi : ℕ) : List α :=
  (xs.drop lo).take (hi - lo)

theorem length_slice {xs : List α} {lo hi : ℕ} (h : hi ≤ lo ∨ hi ≤ xs.length) :
    (slice xs lo hi).length = hi - lo := by
  rw [slice, List.length_take, List.length_drop]
  omega

theorem le_of_rises {q : ℕ → ℕ} {m : ℕ} (hq : ∀ k < m, q k ≤ q (k + 1)) {i k : ℕ} (hik : i ≤ k)
    (hk : k ≤ m) : q i ≤ q k := by
  induction hik with
  | refl => exact le_rfl
  | @step k _ ih => exact (ih ((Nat.le_succ k).trans hk)).trans (hq k hk)

theorem flatMap_slice (xs : List α) {q : ℕ → ℕ} (hzero : q 0 = 0) {m : ℕ}
    (hq : ∀ k < m, q k ≤ q (k + 1)) :
    ((List.range m).flatMap fun k ↦ slice xs (q k) (q (k + 1))) = xs.take (q m) := by
  induction m with
  | zero => rw [hzero, List.range_zero, List.flatMap_nil, List.take_zero]
  | succ m ih =>
      rw [List.range_succ, List.flatMap_append, ih fun k hk ↦ hq k (Nat.lt_succ_of_lt hk),
        List.flatMap_cons, List.flatMap_nil, List.append_nil, slice, ← List.take_add,
        Nat.add_sub_cancel' (hq m (Nat.lt_succ_self m))]

theorem sum_rises (q : ℕ → ℕ) (hzero : q 0 = 0) (m : ℕ) :
    ∑ k ∈ Finset.range m, (q (k + 1) - q k) = q m + ∑ k ∈ Finset.range m, (q k - q (k + 1)) := by
  induction m with
  | zero => rw [Finset.sum_range_zero, Finset.sum_range_zero, hzero, Nat.add_zero]
  | succ m ih =>
      rw [Finset.sum_range_succ, Finset.sum_range_succ, ih]
      omega

theorem length_flatMap_slice {xs : List α} {q : ℕ → ℕ} {m : ℕ}
    (hq : ∀ k < m, q (k + 1) ≤ q k ∨ q (k + 1) ≤ xs.length) :
    ((List.range m).flatMap fun k ↦ slice xs (q k) (q (k + 1))).length =
      ∑ k ∈ Finset.range m, (q (k + 1) - q k) := by
  induction m with
  | zero => rfl
  | succ m ih =>
      rw [List.range_succ, List.flatMap_append, List.length_append,
        ih fun k hk ↦ hq k (Nat.lt_succ_of_lt hk), Finset.sum_range_succ, List.flatMap_cons,
        List.flatMap_nil, List.append_nil, length_slice (hq m (Nat.lt_succ_self m))]

end Lib
