import FaissNavix.Lib.IntervalCost
import Mathlib.Algebra.BigOperators.Intervals
import Mathlib.Algebra.BigOperators.Ring.Finset
import Mathlib.Tactic.LinearCombination
import Mathlib.Tactic.Positivity
import Mathlib.Tactic.Ring

/-!
# Clusters of points on a line

The sum of the squared distances of the points of an interval to their mean is a cost of the interval
(`intervalCost_sse`): it is the least sum of squared distances to any centre.  For points in order it
satisfies the quadrangle inequality, and the least cost of a cut into `k + 1` intervals is a lower bound of
the sum of the squared distances to the nearest of any `k + 1` centres (`minCost_le_error`).
-/

namespace Lib

open Finset

variable {K : Type*} [Field K] [LinearOrder K] [IsStrictOrderedRing K] {a : ℕ → K} {n i j p q : ℕ} {c : K}

/-- The mean of the points from `i` on and before `p`. -/
def mean (a : ℕ → K) (i p : ℕ) : K := (∑ t ∈ Ico i p, a t) / ((p - i : ℕ) : K)

def sqDist (a : ℕ → K) (c : K) (i p : ℕ) : K := ∑ t ∈ Ico i p, (a t - c) ^ 2

def sse (a : ℕ → K) (i p : ℕ) : K := sqDist a (mean a i p) i p

omit [LinearOrder K] [IsStrictOrderedRing K] in
theorem sqDist_of_le (h : p ≤ i) : sqDist a c i p = 0 := by
  rw [sqDist, Ico_eq_empty_of_le h, sum_empty]

omit [LinearOrder K] [IsStrictOrderedRing K] in
theorem sqDist_add (hij : i ≤ j) (hjp : j ≤ p) : sqDist a c i j + sqDist a c j p = sqDist a c i p :=
  sum_Ico_consecutive _ hij hjp

theorem sqDist_nonneg : 0 ≤ sqDist a c i p := sum_nonneg fun _ _ ↦ sq_nonneg _

theorem mean_mul (h : i < p) : mean a i p * ((p - i : ℕ) : K) = ∑ t ∈ Ico i p, a t := by
  have hne : ((p - i : ℕ) : K) ≠ 0 := Nat.cast_ne_zero.mpr (by omega)
  rw [mean, div_mul_cancel₀ _ hne]

omit [LinearOrder K] [IsStrictOrderedRing K] in
theorem sqDist_eq_moments (a : ℕ → K) (c : K) (i p : ℕ) :
    sqDist a c i p = ∑ t ∈ Ico i p, a t ^ 2 + ((p - i : ℕ) : K) * c ^ 2 -
      2 * c * ∑ t ∈ Ico i p, a t := by
  have hterm : ∀ t, (a t - c) ^ 2 = a t ^ 2 + c ^ 2 - 2 * c * a t := fun t ↦ by ring
  simp only [sqDist, hterm, sum_sub_distrib, sum_add_distrib, sum_const, Nat.card_Ico, nsmul_eq_mul,
    mul_sum]

theorem sqDist_eq (h : i < p) :
    sqDist a c i p = sse a i p + ((p - i : ℕ) : K) * (c - mean a i p) ^ 2 := by
  have hmean := mean_mul (a := a) h
  rw [sse, sqDist_eq_moments, sqDist_eq_moments]
  linear_combination (2 * c - 2 * mean a i p) * hmean

theorem sse_le (a : ℕ → K) (c : K) (i p : ℕ) : sse a i p ≤ sqDist a c i p := by
  rcases Nat.lt_or_ge i p with h | h
  · rw [sqDist_eq h]
    exact le_add_of_nonneg_right (by positivity)
  · rw [sse, sqDist_of_le h, sqDist_of_le h]

theorem le_mean (h : i < p) (hc : ∀ t, i ≤ t → t < p → c ≤ a t) : c ≤ mean a i p := by
  have hpos : (0 : K) < ((p - i : ℕ) : K) := Nat.cast_pos.mpr (by omega)
  rw [mean, le_div_iff₀ hpos, mul_comm, ← nsmul_eq_mul, ← Nat.card_Ico]
  exact card_nsmul_le_sum _ _ _ fun t ht ↦ hc t (mem_Ico.mp ht).1 (mem_Ico.mp ht).2

theorem mean_le (h : i < p) (hc : ∀ t, i ≤ t → t < p → a t ≤ c) : mean a i p ≤ c := by
  have hpos : (0 : K) < ((p - i : ℕ) : K) := Nat.cast_pos.mpr (by omega)
  rw [mean, div_le_iff₀ hpos, mul_comm, ← nsmul_eq_mul, ← Nat.card_Ico]
  exact sum_le_card_nsmul _ _ _ fun t ht ↦ hc t (mem_Ico.mp ht).1 (mem_Ico.mp ht).2

theorem sqDist_le_sqDist {c' : K}
    (h : ∀ t, i ≤ t → t < p → a t ≤ c ∧ c ≤ c' ∨ c' ≤ c ∧ c ≤ a t) :
    sqDist a c i p ≤ sqDist a c' i p := by
  refine sum_le_sum fun t ht ↦ sq_le_sq.mpr ?_
  obtain ⟨hi, hp⟩ := mem_Ico.mp ht
  rcases h t hi hp with ⟨h1, h2⟩ | ⟨h1, h2⟩
  · rw [abs_of_nonpos (sub_nonpos.mpr h1), abs_of_nonpos (sub_nonpos.mpr (h1.trans h2))]
    linarith
  · rw [abs_of_nonneg (sub_nonneg.mpr h2), abs_of_nonneg (sub_nonneg.mpr (h1.trans h2))]
    linarith

theorem sse_add_le (hij : i ≤ j) (hjp : j ≤ p) : sse a i j + sse a j p ≤ sse a i p := by
  change _ ≤ sqDist a (mean a i p) i p
  rw [← sqDist_add hij hjp]
  exact add_le_add (sse_le a _ i j) (sse_le a _ j p)

/-- The first `n` points are in order. -/
def Ascending (a : ℕ → K) (n : ℕ) : Prop := ∀ s t, s ≤ t → t < n → a s ≤ a t

/-- Of two overlapping intervals and of their union and intersection, the former cost less. -/
theorem sse_quadrangle (ha : Ascending a n) (hij : i ≤ j) (hjp : j ≤ p) (hpq : p ≤ q) (hq : q ≤ n) :
    sse a i p + sse a j q ≤ sse a i q + sse a j p := by
  rcases hjp.lt_or_eq with hjp' | rfl
  · have hunion : sse a i q = sqDist a (mean a i q) i j + sqDist a (mean a i q) j p +
        sqDist a (mean a i q) p q := by
      rw [sqDist_add hij hjp, sqDist_add (hij.trans hjp) hpq]
      rfl
    have hinter : sse a j p = sqDist a (mean a j p) j p := rfl
    rcases le_total (mean a j p) (mean a i q) with hle | hle
    · have hleft := sse_le a (mean a j p) i p
      have hright := sse_le a (mean a i q) j q
      rw [← sqDist_add hij hjp] at hleft
      rw [← sqDist_add hjp hpq] at hright
      have hlow : sqDist a (mean a j p) i j ≤ sqDist a (mean a i q) i j := by
        refine sqDist_le_sqDist fun t _ ht ↦ .inl ⟨?_, hle⟩
        exact le_mean hjp' fun s hs hsp ↦ ha t s (ht.le.trans hs) (by omega)
      linarith
    · have hleft := sse_le a (mean a i q) i p
      have hright := sse_le a (mean a j p) j q
      rw [← sqDist_add hij hjp] at hleft
      rw [← sqDist_add hjp hpq] at hright
      have hhigh : sqDist a (mean a j p) p q ≤ sqDist a (mean a i q) p q := by
        refine sqDist_le_sqDist fun t ht htq ↦ .inr ⟨hle, ?_⟩
        exact mean_le hjp' fun s _ hsp ↦ ha s t (hsp.le.trans ht) (by omega)
      linarith
  · have hadd := sse_add_le (a := a) hij hpq
    have hempty : sse a j j = 0 := sqDist_of_le le_rfl
    linarith

theorem intervalCost_sse (ha : Ascending a n) : IntervalCost (sse a) n where
  nonneg _ _ := sqDist_nonneg
  empty _ _ h := sqDist_of_le h
  single i := by
    refine le_antisymm ((sse_le a (a i) i (i + 1)).trans_eq ?_) sqDist_nonneg
    rw [sqDist, Nat.Ico_succ_singleton, sum_singleton, sub_self, zero_pow two_ne_zero]
  add_le _ _ _ := sse_add_le
  quadrangle _ _ _ _ := sse_quadrangle ha

/-! ## Different points -/

def distinct (a : ℕ → K) (p : ℕ) : ℕ := ((range p).image a).card

theorem sse_eq_zero_iff : sse a i p = 0 ↔ ∀ t, i ≤ t → t < p → a t = a i := by
  constructor
  · intro h t hi hp
    have hall := (sum_eq_zero_iff_of_nonneg (s := Ico i p) fun t _ ↦ sq_nonneg (a t - mean a i p)).mp h
    have hmean : ∀ t, i ≤ t → t < p → a t = mean a i p := fun t hi hp ↦
      sub_eq_zero.mp (pow_eq_zero_iff two_ne_zero |>.mp (hall t (mem_Ico.mpr ⟨hi, hp⟩)))
    rw [hmean t hi hp, hmean i le_rfl (hi.trans_lt hp)]
  · intro h
    refine le_antisymm ((sse_le a (a i) i p).trans_eq (sum_eq_zero fun t ht ↦ ?_)) sqDist_nonneg
    rw [h t (mem_Ico.mp ht).1 (mem_Ico.mp ht).2, sub_self, zero_pow two_ne_zero]

/-- Without its first point, an interval of points that are not all equal costs less. -/
theorem sse_succ_lt (ha : Ascending a n) (hp : p ≤ n) (hip : i < p) (h : sse a i p ≠ 0) :
    sse a (i + 1) p < sse a i p := by
  have hsplit : sse a i p = (a i - mean a i p) ^ 2 + sqDist a (mean a i p) (i + 1) p := by
    rw [sse, sqDist, sum_eq_sum_Ico_succ_bot hip]
    rfl
  have hle := sse_le a (mean a i p) (i + 1) p
  have hne : a i ≠ mean a i p := by
    intro heq
    refine h (sse_eq_zero_iff.mpr fun t hi ht ↦ ?_)
    -- the points are at least the first one, and their mean is the first one
    have hsum : ∑ t ∈ Ico i p, (a t - a i) = 0 := by
      rw [sum_sub_distrib, sum_const, Nat.card_Ico, nsmul_eq_mul, ← mean_mul hip, ← heq, mul_comm,
        sub_self]
    have hall := (sum_eq_zero_iff_of_nonneg fun t ht ↦ sub_nonneg.mpr
      (ha i t (mem_Ico.mp ht).1 ((mem_Ico.mp ht).2.trans_le hp))).mp hsum
    exact sub_eq_zero.mp (hall t (mem_Ico.mpr ⟨hi, ht⟩))
  have hpos : 0 < (a i - mean a i p) ^ 2 := by
    have := sub_ne_zero.mpr hne
    positivity
  linarith

omit [Field K] [IsStrictOrderedRing K] in
theorem distinct_mono (a : ℕ → K) (h : p ≤ q) : distinct a p ≤ distinct a q :=
  card_le_card (image_subset_image (range_subset_range.mpr h))

omit [Field K] [IsStrictOrderedRing K] in
theorem distinct_succ_le (a : ℕ → K) (p : ℕ) : distinct a (p + 1) ≤ distinct a p + 1 := by
  rw [distinct, range_add_one, image_insert]
  exact card_insert_le _ _

omit [Field K] [IsStrictOrderedRing K] in
theorem distinct_le_of_constant (h : ∀ t, i ≤ t → t < p → a t = c) :
    distinct a p ≤ distinct a i + 1 := by
  have hsub : (range p).image a ⊆ insert c ((range i).image a) := by
    intro x hx
    obtain ⟨t, ht, rfl⟩ := mem_image.mp hx
    rcases Nat.lt_or_ge t i with hti | hti
    · exact mem_insert_of_mem (mem_image_of_mem a (mem_range.mpr hti))
    · rw [h t hti (mem_range.mp ht)]
      exact mem_insert_self c _
  exact (card_le_card hsub).trans (card_insert_le _ _)

omit [Field K] [IsStrictOrderedRing K] in
/-- The last points that are equal. -/
theorem exists_last_run (ha : Ascending a n) (hp : 0 < p) (hpn : p ≤ n) :
    ∃ i < p, (∀ t, i ≤ t → t < p → a t = a i) ∧ distinct a i + 1 ≤ distinct a p := by
  have hex : ∃ i, ∀ t, i ≤ t → t < p → a t = a (p - 1) :=
    ⟨p - 1, fun t hle hlt ↦ by rw [show t = p - 1 by omega]⟩
  have hspec := Nat.find_spec hex
  have hmin : Nat.find hex ≤ p - 1 :=
    Nat.find_min' hex fun t hle hlt ↦ by rw [show t = p - 1 by omega]
  refine ⟨Nat.find hex, by omega, fun t hle hlt ↦ ?_, ?_⟩
  · rw [hspec t hle hlt, hspec _ le_rfl (by omega)]
  · have hnot : a (p - 1) ∉ (range (Nat.find hex)).image a := by
      intro hmem
      obtain ⟨t, ht, heq⟩ := mem_image.mp hmem
      refine Nat.find_min hex (mem_range.mp ht) fun s hts hsp ↦ le_antisymm ?_ ?_
      · exact ha s (p - 1) (by omega) (by omega)
      · rw [← heq]
        exact ha t s hts (by omega)
    have hsub : insert (a (p - 1)) ((range (Nat.find hex)).image a) ⊆ (range p).image a := by
      refine insert_subset (mem_image_of_mem a (mem_range.mpr (by omega))) ?_
      exact image_subset_image (range_subset_range.mpr (by omega))
    have hcard := card_le_card hsub
    rwa [card_insert_of_notMem hnot] at hcard

/-- As many clusters as different points cost nothing. -/
theorem minCost_eq_zero (ha : Ascending a n) {k : ℕ} (hp : p ≤ n) (h : distinct a p ≤ k + 1) :
    minCost (sse a) k p = 0 := by
  have hw := intervalCost_sse ha
  induction k generalizing p with
  | zero =>
      refine sse_eq_zero_iff.mpr fun t _ ht ↦ ?_
      have hmem : ∀ s < p, a s ∈ (range p).image a := fun s hs ↦ mem_image_of_mem a (mem_range.mpr hs)
      exact card_le_one.mp h _ (hmem t ht) _ (hmem 0 (by omega))
  | succ k ih =>
      rcases Nat.eq_zero_or_pos p with rfl | hpos
      · exact hw.minCost_zero_right _
      · obtain ⟨i, hi, hrun, hdistinct⟩ := exists_last_run ha hpos hp
        refine le_antisymm ?_ (hw.minCost_nonneg _ p)
        have hcut := minCost_succ_le (sse a) k hi.le
        rwa [ih (by omega) (by omega), sse_eq_zero_iff.mpr hrun, add_zero] at hcut

section
variable (ha : Ascending a n) {k m : ℕ} (hp : 0 < p) (hpn : p ≤ n)
  (hm : FirstMin (cutCost (sse a) k p) (List.range n) m)
include ha hp hpn hm

/-- With at least `k + 2` different points, at least `k + 1` of them lie before the first best last
cut. -/
theorem le_distinct_of_firstMin (h : k + 2 ≤ distinct a p) :
    k + 1 ≤ distinct a m := by
  have hw := intervalCost_sse ha
  obtain ⟨hmp, hself, -⟩ := hw.firstMin_cutCost hp hpn hm
  by_contra hlt
  -- one more point could be left to the clusters before
  have hsucc : distinct a (m + 1) ≤ k + 1 := (distinct_succ_le a m).trans (by omega)
  have hmp' : m + 1 < p := by
    by_contra hle
    rw [show m + 1 = p by omega] at hsucc
    omega
  have hne : sse a m p ≠ 0 := fun hzero ↦ by
    have hle := distinct_le_of_constant (sse_eq_zero_iff.mp hzero)
    omega
  have hstrict := sse_succ_lt ha hpn hmp hne
  have hle := hm.le (m + 1) (List.mem_range.mpr (by omega))
  rw [hself, cutCost, min_eq_right hmp'.le, minCost_eq_zero ha (by omega) hsucc,
    minCost_eq_zero ha (by omega) ((distinct_mono a (Nat.le_succ m)).trans hsucc)] at hle
  linarith

/-- With at most `k + 1` different points, at most `k` of them lie before the first best last cut. -/
theorem distinct_le_of_firstMin (h : distinct a p ≤ k + 1) :
    distinct a m ≤ k := by
  have hw := intervalCost_sse ha
  obtain ⟨hmp, hself, hleast⟩ := hw.firstMin_cutCost hp hpn hm
  obtain ⟨i, hi, hrun, hdistinct⟩ := exists_last_run ha hp hpn
  have hmi : m ≤ i := by
    by_contra hlt
    have hfirst := hm.lt i (List.mem_range.mpr (by omega)) (Nat.lt_of_not_le hlt)
    rw [hleast, minCost_eq_zero ha hpn (by omega), cutCost, min_eq_right hi.le,
      minCost_eq_zero ha (by omega) (by omega), sse_eq_zero_iff.mpr hrun, add_zero] at hfirst
    exact lt_irrefl _ hfirst
  have hmono := distinct_mono a hmi
  omega

end

/-! ## Centres -/

/-- The squared distance to the nearest centre. -/
def nearestSq : List K → K → K
  | [], _ => 0
  | [c], x => (x - c) ^ 2
  | c :: cs, x => min ((x - c) ^ 2) (nearestSq cs x)

omit [IsStrictOrderedRing K] in
theorem nearestSq_le {cs : List K} (hc : c ∈ cs) (x : K) : nearestSq cs x ≤ (x - c) ^ 2 := by
  induction cs with
  | nil => exact absurd hc List.not_mem_nil
  | cons d cs ih =>
      cases cs with
      | nil =>
          rw [List.mem_singleton.mp hc]
          exact le_rfl
      | cons e cs =>
          rw [nearestSq]
          · rcases List.mem_cons.mp hc with rfl | hc
            · exact min_le_left _ _
            · exact (min_le_right _ _).trans (ih hc)
          · exact List.cons_ne_nil e cs

omit [IsStrictOrderedRing K] in
theorem exists_nearestSq {cs : List K} (h : cs ≠ []) (x : K) : ∃ c ∈ cs, nearestSq cs x = (x - c) ^ 2 := by
  induction cs with
  | nil => exact absurd rfl h
  | cons d cs ih =>
      cases cs with
      | nil => exact ⟨d, List.mem_singleton.mpr rfl, rfl⟩
      | cons e cs =>
          obtain ⟨c, hc, heq⟩ := ih (List.cons_ne_nil e cs)
          rw [nearestSq]
          · rcases min_choice ((x - d) ^ 2) (nearestSq (e :: cs) x) with hmin | hmin
            · exact ⟨d, List.mem_cons_self, hmin⟩
            · exact ⟨c, List.mem_cons_of_mem d hc, hmin.trans heq⟩
          · exact List.cons_ne_nil e cs

theorem nearestSq_nonneg (cs : List K) (x : K) : 0 ≤ nearestSq cs x := by
  by_cases h : cs = []
  · rw [h, nearestSq]
  · obtain ⟨c, -, heq⟩ := exists_nearestSq h x
    rw [heq]
    exact sq_nonneg _

theorem exists_threshold {P : ℕ → Prop} (p : ℕ) (h : ∀ s t, s ≤ t → t < p → P s → P t) :
    ∃ i ≤ p, (∀ t < i, ¬ P t) ∧ ∀ t, i ≤ t → t < p → P t := by
  classical
  by_cases hex : ∃ i, i < p ∧ P i
  · obtain ⟨hlt, hP⟩ := Nat.find_spec hex
    refine ⟨Nat.find hex, hlt.le, fun t ht hPt ↦ ?_, fun t hle htp ↦ h _ t hle htp hP⟩
    exact Nat.find_min hex ht ⟨ht.trans hlt, hPt⟩
  · exact ⟨p, le_rfl, fun t ht hPt ↦ hex ⟨t, ht, hPt⟩, fun t hle hlt ↦ by omega⟩

theorem nearest_mono {x y c' : K} (hxy : x ≤ y) (hc : c' ≤ c) (h : (x - c) ^ 2 ≤ (x - c') ^ 2) :
    (y - c) ^ 2 ≤ (y - c') ^ 2 := by
  nlinarith [mul_nonneg (sub_nonneg.mpr hxy) (sub_nonneg.mpr hc)]

/-- No `k + 1` centres are better than the best cut into `k + 1` intervals. -/
theorem minCost_le_error (ha : Ascending a n) {k : ℕ} {cs : List K} (hcs : cs.length = k + 1)
    (hp : p ≤ n) : minCost (sse a) k p ≤ ∑ t ∈ range p, nearestSq cs (a t) := by
  induction k generalizing cs p with
  | zero =>
      obtain ⟨c, rfl⟩ := List.length_eq_one_iff.mp hcs
      rw [range_eq_Ico]
      exact sse_le a c 0 p
  | succ k ih =>
      have hne : cs ≠ [] := List.ne_nil_of_length_pos (by omega)
      obtain ⟨c, hc, hmax⟩ : ∃ c ∈ cs, ∀ d ∈ cs, d ≤ c := by
        obtain ⟨c, hc, hmax⟩ := cs.toFinset.exists_max_image id
          ((List.exists_mem_of_ne_nil cs hne).imp fun _ ↦ List.mem_toFinset.mpr)
        exact ⟨c, List.mem_toFinset.mp hc, fun d hd ↦ hmax d (List.mem_toFinset.mpr hd)⟩
      have hrestlen : (cs.erase c).length = k + 1 := by
        rw [List.length_erase_of_mem hc, hcs, Nat.add_sub_cancel]
      -- the points that the largest centre is nearest to are the last ones
      obtain ⟨i, hip, hbefore, hafter⟩ := exists_threshold (P := fun t ↦ ∀ d ∈ cs,
        (a t - c) ^ 2 ≤ (a t - d) ^ 2) p fun s t hst htp hs d hd ↦
          nearest_mono (ha s t hst (by omega)) (hmax d hd) (hs d hd)
      have hlow : ∀ t ∈ range i, nearestSq (cs.erase c) (a t) ≤ nearestSq cs (a t) := by
        intro t ht
        obtain ⟨d, hd, heq⟩ := exists_nearestSq hne (a t)
        have hdc : d ≠ c := by
          rintro rfl
          refine hbefore t (mem_range.mp ht) fun e he ↦ ?_
          rw [← heq]
          exact nearestSq_le he (a t)
        rw [heq]
        exact nearestSq_le ((List.mem_erase_of_ne hdc).mpr hd) (a t)
      have hhigh : ∀ t ∈ Ico i p, (a t - c) ^ 2 ≤ nearestSq cs (a t) := by
        intro t ht
        obtain ⟨d, hd, heq⟩ := exists_nearestSq hne (a t)
        rw [heq]
        exact hafter t (mem_Ico.mp ht).1 (mem_Ico.mp ht).2 d hd
      calc minCost (sse a) (k + 1) p ≤ minCost (sse a) k i + sse a i p := minCost_succ_le _ k hip
        _ ≤ ∑ t ∈ range i, nearestSq (cs.erase c) (a t) + ∑ t ∈ Ico i p, (a t - c) ^ 2 :=
          add_le_add (ih hrestlen (hip.trans hp)) (sse_le a c i p)
        _ ≤ ∑ t ∈ range i, nearestSq cs (a t) + ∑ t ∈ Ico i p, nearestSq cs (a t) :=
          add_le_add (sum_le_sum hlow) (sum_le_sum hhigh)
        _ = ∑ t ∈ range p, nearestSq cs (a t) := sum_range_add_sum_Ico _ hip

end Lib
