import FaissNavix.Lib.Region
import FaissNavix.MetricType
import Mathlib.Data.List.Sort
import Mathlib.Data.List.TakeWhile

/-!
# Exact brute-force indexes

Lower is better for a distance metric, and higher for a similarity metric.  A brute-force index
returns the best of its vectors, the best one first, and fills up with the worst value and `-1`.  Which
of several equally good vectors it prefers is left open.
-/

namespace FaissNavix

open Lib

namespace MetricType

def cost (metricType : MetricType) (d : F32) : ℤ :=
  if metricType.isSimilarity then -d.key else d.key

def worst (metricType : MetricType) : F32 :=
  if metricType.isSimilarity then F32.lowest else F32.max

/-- The values that can be among the results: NaN cannot. -/
def better (metricType : MetricType) (d : F32) : Bool :=
  if metricType.isSimilarity then decide (F32.lowest < d) else decide (d < F32.max)

theorem comparable_of_better {metricType : MetricType} {d : F32} (h : metricType.better d = true) :
    d.Comparable := by
  unfold better at h
  split at h
  · exact (F32.lt_iff.mp (of_decide_eq_true h)).2.1
  · exact (F32.lt_iff.mp (of_decide_eq_true h)).1

theorem comparable_worst (metricType : MetricType) : metricType.worst.Comparable := by
  unfold worst
  split
  · exact F32.comparable_lowest
  · exact F32.comparable_max

theorem key_eq_of_cost_eq {metricType : MetricType} {a b : F32}
    (h : metricType.cost a = metricType.cost b) : a.key = b.key := by
  unfold cost at h
  split at h
  · exact neg_injective h
  · exact h

end MetricType

variable {metricType : MetricType} {k : ℕ}

def candidates (metricType : MetricType) (scored : List (F32 × ℤ)) : List (F32 × ℤ) :=
  scored.filter fun x ↦ metricType.better x.1

/-- The row of results has the `k` best values, the best one first, and is filled up. -/
def BestRow (metricType : MetricType) (k : ℕ) (scored row : List (F32 × ℤ)) : Prop :=
  ∃ L : List (F32 × ℤ),
    KSmallest (fun x : F32 × ℤ ↦ metricType.cost x.1) k ↑(candidates metricType scored) ↑L ∧
    L.Pairwise (fun x y ↦ metricType.cost x.1 ≤ metricType.cost y.1) ∧
    row = L ++ List.replicate (k - L.length) (metricType.worst, -1)

/-- The vectors of an index with their labels, scored for a query. -/
def scores {V : Type} (dis : V → F32) (xs : List (V × ℤ)) : List (F32 × ℤ) :=
  xs.map fun x ↦ (dis x.1, x.2)

/-- An exact brute-force index: a search for `n` queries fills a table with `n` rows of `k`
results. -/
structure BruteForce {Q V : Type} (metricType : MetricType) (dis : Q → V → F32) where
  search : List (V × ℤ) → ℕ → (ℕ → Q) → ℕ → ℕ → F32 × ℤ
  exact : ∀ xs n x k i, i < n →
    BestRow metricType k (scores (dis (x i)) xs) (Lib.read (search xs n x k) (i * k) k)

/-! ## Rows -/

theorem comparable_of_mem_candidates {scored : List (F32 × ℤ)} {x : F32 × ℤ}
    (hx : x ∈ candidates metricType scored) : x.1.Comparable :=
  MetricType.comparable_of_better (List.mem_filter.mp hx).2

/-- Two rows of the best values have the same values. -/
theorem BestRow.feq {scored row row' : List (F32 × ℤ)} (h : BestRow metricType k scored row)
    (h' : BestRow metricType k scored row') : List.Forall₂ (fun x y ↦ x.1.feq y.1 = true) row row' := by
  obtain ⟨L, hL, hsorted, rfl⟩ := h
  obtain ⟨L', hL', hsorted', rfl⟩ := h'
  -- the costs are determined, in their order
  have hperm : (L.map fun x ↦ metricType.cost x.1).Perm (L'.map fun x ↦ metricType.cost x.1) := by
    have hmap := hL.map_eq hL'
    rwa [Multiset.map_coe, Multiset.map_coe, Multiset.coe_eq_coe] at hmap
  have hcosts : (L.map fun x ↦ metricType.cost x.1) = L'.map fun x ↦ metricType.cost x.1 :=
    hperm.eq_of_pairwise (fun a b _ _ ↦ le_antisymm) (List.pairwise_map.mpr hsorted)
      (List.pairwise_map.mpr hsorted')
  have hlen : L.length = L'.length := by
    simpa using congrArg List.length hcosts
  rw [hlen]
  refine List.rel_append ?_ ?_
  · rw [List.forall₂_iff_get]
    refine ⟨hlen, fun i hi hi' ↦ F32.feq_iff.mpr ⟨?_, ?_, ?_⟩⟩
    · exact comparable_of_mem_candidates (Multiset.mem_of_le hL.sub (List.get_mem L ⟨i, hi⟩))
    · exact comparable_of_mem_candidates (Multiset.mem_of_le hL'.sub (List.get_mem L' ⟨i, hi'⟩))
    · have hcost : metricType.cost (L.get ⟨i, hi⟩).1 = metricType.cost (L'.get ⟨i, hi'⟩).1 := by
        have hget := congrArg (fun l ↦ l[i]?) hcosts
        simpa [hi, hi'] using hget
      exact MetricType.key_eq_of_cost_eq hcost
  · refine List.forall₂_same.mpr fun x hx ↦ ?_
    rw [(List.mem_replicate.mp hx).2]
    exact F32.feq_iff.mpr ⟨metricType.comparable_worst, metricType.comparable_worst, rfl⟩

section
variable (metricType : MetricType) (k : ℕ) (scored : List (F32 × ℤ))

def AtLeastAsGood (x y : F32 × ℤ) : Prop :=
  metricType.cost x.1 ≤ metricType.cost y.1

instance (metricType : MetricType) : DecidableRel (AtLeastAsGood metricType) :=
  fun _ _ ↦ inferInstanceAs (Decidable (_ ≤ _))

instance (metricType : MetricType) : Std.Total (AtLeastAsGood metricType) :=
  ⟨fun _ _ ↦ le_total _ _⟩

instance (metricType : MetricType) : IsTrans (F32 × ℤ) (AtLeastAsGood metricType) :=
  ⟨fun _ _ _ h h' ↦ Int.le_trans h h'⟩

/-- The best values, by sorting all. -/
def bestRow : List (F32 × ℤ) :=
  let L := ((candidates metricType scored).insertionSort (AtLeastAsGood metricType)).take k
  L ++ List.replicate (k - L.length) (metricType.worst, -1)

theorem bestRow_best :
    BestRow metricType k scored (bestRow metricType k scored) := by
  unfold bestRow
  have hperm := List.perm_insertionSort (AtLeastAsGood metricType) (candidates metricType scored)
  have hsorted := List.pairwise_insertionSort (AtLeastAsGood metricType)
    (candidates metricType scored)
  generalize (candidates metricType scored).insertionSort (AtLeastAsGood metricType) = sorted
    at hperm hsorted ⊢
  refine ⟨sorted.take k, ⟨↑(sorted.drop k), ?_, ?_, fun h0 ↦ ?_, fun x hx y hy ↦ ?_⟩,
    hsorted.sublist (List.take_sublist k sorted), rfl⟩
  · rw [Multiset.coe_add, List.take_append_drop]
    exact Multiset.coe_eq_coe.mpr hperm.symm
  · rw [Multiset.coe_card, List.length_take]
    exact min_le_left _ _
  · have hlt : k < sorted.length := by
      by_contra hle
      exact h0 (by rw [List.drop_eq_nil_of_le (not_lt.mp hle), Multiset.coe_nil])
    rw [Multiset.coe_card, List.length_take, min_eq_left hlt.le]
  · rw [← List.take_append_drop k sorted, List.pairwise_append] at hsorted
    exact hsorted.2.2 x (Multiset.mem_coe.mp hx) y (Multiset.mem_coe.mp hy)

end

theorem BestRow.length_eq {scored row : List (F32 × ℤ)} (h : BestRow metricType k scored row) :
    row.length = k := by
  obtain ⟨L, hL, -, rfl⟩ := h
  have hle := hL.card_le
  rw [Multiset.coe_card] at hle
  rw [List.length_append, List.length_replicate]
  omega

/-- The index that sorts all vectors. -/
def BruteForce.sorting {Q V : Type} (metricType : MetricType) (dis : Q → V → F32) :
    BruteForce metricType dis where
  search xs _ x k a :=
    (bestRow metricType k (scores (dis (x (a / k))) xs)).getD (a % k) (metricType.worst, -1)
  exact xs n x k i _ := by
    have hbest := bestRow_best metricType k (scores (dis (x i)) xs)
    have hread : Lib.read (fun a ↦ (bestRow metricType k (scores (dis (x (a / k))) xs)).getD (a % k)
        (metricType.worst, -1)) (i * k) k = bestRow metricType k (scores (dis (x i)) xs) := by
      refine List.ext_getElem? fun p ↦ ?_
      unfold Lib.read
      by_cases hp : p < k
      · have hdiv : (i * k + p) / k = i := by
          rw [Nat.mul_comm, Nat.mul_add_div (by omega), Nat.div_eq_of_lt hp, Nat.add_zero]
        have hmod : (i * k + p) % k = p := by
          rw [Nat.mul_comm, Nat.mul_add_mod, Nat.mod_eq_of_lt hp]
        have hp' : p < (bestRow metricType k (scores (dis (x i)) xs)).length := by
          rwa [hbest.length_eq]
        rw [List.getElem?_map, List.getElem?_range hp, Option.map_some]
        dsimp only
        rw [hdiv, hmod, List.getD_eq_getElem _ _ hp', List.getElem?_eq_getElem hp']
      · rw [List.getElem?_eq_none (by rw [List.length_map, List.length_range]; omega),
          List.getElem?_eq_none (by rw [hbest.length_eq]; omega)]
    rwa [hread]

end FaissNavix
