import FaissNavix.BinaryIVF.HeapSearch

/-!
# The binary search with counters

The counter of a query has, for each distance up to the threshold, the ids that were found at it.  The
threshold is lowered as soon as there are `k` ids at smaller distances, so that the ids up to it, in
the order of their distances, begin with the `k` nearest ones.
-/

namespace FaissNavix

open Function
open Lib

/-! ## Ids by their distances -/

/-- The ids at the distances below `n`, in the order of the distances. -/
def byDistance (bucket : ℕ → List ℤ) (n : ℕ) : List (ℤ × ℤ) :=
  (List.range n).flatMap fun b ↦ (bucket b).map fun id ↦ ((b : ℤ), id)

variable {bucket : ℕ → List ℤ} {n m b k : ℕ} {id : ℤ}

@[simp] theorem byDistance_zero (bucket : ℕ → List ℤ) : byDistance bucket 0 = [] := rfl

theorem byDistance_succ (bucket : ℕ → List ℤ) (n : ℕ) :
    byDistance bucket (n + 1) = byDistance bucket n ++ (bucket n).map fun id ↦ ((n : ℤ), id) := by
  unfold byDistance
  rw [List.range_succ, List.flatMap_append, List.flatMap_singleton]

theorem lt_of_mem_byDistance {y : ℤ × ℤ} (h : y ∈ byDistance bucket n) : y.1 < n := by
  obtain ⟨b, hb, hy⟩ := List.mem_flatMap.mp h
  obtain ⟨id, -, rfl⟩ := List.mem_map.mp hy
  exact Int.ofNat_lt.mpr (List.mem_range.mp hb)

theorem byDistance_sorted (bucket : ℕ → List ℤ) (n : ℕ) :
    (byDistance bucket n).Pairwise fun x y ↦ x.1 ≤ y.1 := by
  induction n with
  | zero => exact List.Pairwise.nil
  | succ n ih =>
      rw [byDistance_succ]
      refine List.pairwise_append.mpr ⟨ih, ?_, fun x hx y hy ↦ ?_⟩
      · exact List.pairwise_map.mpr (List.pairwise_of_forall fun _ _ ↦ le_rfl)
      · obtain ⟨id, -, rfl⟩ := List.mem_map.mp hy
        exact (lt_of_mem_byDistance hx).le

theorem byDistance_isPrefix_of_le (bucket : ℕ → List ℤ) (h : n ≤ m) :
    byDistance bucket n <+: byDistance bucket m := by
  induction m with
  | zero =>
      obtain rfl := Nat.le_zero.mp h
      exact List.prefix_rfl
  | succ m ih =>
      rcases Nat.le_succ_iff.mp h with h | rfl
      · rw [byDistance_succ]
        exact (ih h).trans (List.prefix_append _ _)
      · exact List.prefix_rfl

theorem byDistance_next (bucket : ℕ → List ℤ) (h : n < m) : ∃ rest,
    byDistance bucket (min (n + 1 + 1) m) = byDistance bucket (n + 1) ++ rest ∧ ∀ y ∈ rest, (n : ℤ) < y.1 := by
  by_cases hlast : n + 1 = m
  · refine ⟨[], ?_, fun y hy ↦ absurd hy List.not_mem_nil⟩
    rw [List.append_nil, hlast, min_eq_right (Nat.le_succ m)]
  · refine ⟨_, by rw [min_eq_left (by omega), byDistance_succ], fun y hy ↦ ?_⟩
    obtain ⟨id, -, rfl⟩ := List.mem_map.mp hy
    exact Int.ofNat_lt.mpr (Nat.lt_succ_self n)

theorem length_le_byDistance (h : b < n) : (bucket b).length ≤ (byDistance bucket n).length := by
  have hahead := (byDistance_isPrefix_of_le bucket (Nat.succ_le_of_lt h)).length_le
  rw [byDistance_succ, List.length_append, List.length_map] at hahead
  exact (Nat.le_add_left _ _).trans hahead

theorem byDistance_update (bucket : ℕ → List ℤ) (b n : ℕ) (id : ℤ) :
    (↑(byDistance (update bucket b (bucket b ++ [id])) n) : Multiset (ℤ × ℤ)) =
      if b < n then ((b : ℤ), id) ::ₘ ↑(byDistance bucket n) else ↑(byDistance bucket n) := by
  induction n with
  | zero => rw [if_neg (Nat.not_lt_zero b)]; rfl
  | succ n ih =>
      rw [byDistance_succ, byDistance_succ, ← Multiset.coe_add, ih, ← Multiset.coe_add]
      by_cases hb : b = n
      · rw [if_neg (by omega), if_pos (by omega), hb, update_self, List.map_append, ← Multiset.coe_add,
          ← Multiset.add_cons]
        refine congrArg _ ?_
        rw [List.map_singleton, Multiset.coe_singleton, add_comm, Multiset.singleton_add]
      · rw [update_of_ne (Ne.symm hb)]
        by_cases hlt : b < n
        · rw [if_pos hlt, if_pos (by omega), Multiset.cons_add]
        · rw [if_neg hlt, if_neg (by omega)]

/-! ## The counters -/

/-- The ids in memory, of which there is room for `k` at each distance. -/
structure Counts (nBuckets k : ℕ) (bucket : ℕ → List ℤ) (counters : ℕ → ℕ) (idsPerDis : ℕ → ℤ) : Prop where
  counters_eq : ∀ b < nBuckets, counters b = (bucket b).length
  length_le : ∀ b < nBuckets, (bucket b).length ≤ k
  id_eq : ∀ b < nBuckets, ∀ l < (bucket b).length, idsPerDis (b * k + l) = (bucket b).getD l 0

theorem eq_of_slot {b' l l' : ℕ} (hl : l < k) (hl' : l' < k) (h : b * k + l = b' * k + l') : b = b' ∧ l = l' := by
  have hb : (b * k + l) / k = b := by
    rw [Nat.mul_comm, Nat.mul_add_div (by omega), Nat.div_eq_of_lt hl, Nat.add_zero]
  have hb' : (b' * k + l') / k = b' := by
    rw [Nat.mul_comm, Nat.mul_add_div (by omega), Nat.div_eq_of_lt hl', Nat.add_zero]
  have heq : b = b' := by rw [← hb, h, hb']
  subst heq
  exact ⟨rfl, Nat.add_left_cancel h⟩

/-- An id is written behind those at its distance. -/
theorem Counts.push {nBuckets : ℕ} {counters : ℕ → ℕ} {idsPerDis : ℕ → ℤ}
    (h : Counts nBuckets k bucket counters idsPerDis) (hb : b < nBuckets) (hroom : (bucket b).length < k) (id : ℤ) :
    Counts nBuckets k (update bucket b (bucket b ++ [id])) (bump counters b)
      (update idsPerDis (b * k + (bucket b).length) id) where
  counters_eq b' hb' := by
    by_cases heq : b' = b
    · rw [heq, bump_self, update_self, List.length_append, List.length_singleton, h.counters_eq b hb]
    · rw [bump_of_ne heq, update_of_ne heq, h.counters_eq b' hb']
  length_le b' hb' := by
    by_cases heq : b' = b
    · rw [heq, update_self, List.length_append]
      exact hroom
    · rw [update_of_ne heq]
      exact h.length_le b' hb'
  id_eq b' hb' l hl := by
    by_cases heq : b' = b
    · subst heq
      rw [update_self, List.length_append, List.length_singleton] at hl
      rw [update_self]
      by_cases hlast : l = (bucket b').length
      · rw [hlast, update_self, List.getD_append_right _ _ _ _ le_rfl, Nat.sub_self]
        rfl
      · rw [update_of_ne (by omega), h.id_eq b' hb' l (by omega), List.getD_append _ _ _ _ (by omega)]
    · rw [update_of_ne heq] at hl ⊢
      rw [update_of_ne fun hslot ↦ heq (eq_of_slot (hl.trans_le (h.length_le b' hb')) hroom hslot).1]
      exact h.id_eq b' hb' l hl

namespace HCounterState

/-- What has been counted up to the threshold, and what is not needed any more, is all that there was.
There may be `k` ids below the threshold only while it is lowered. -/
structure Holds (nBuckets k : ℕ) (bucket : ℕ → List ℤ) (D S : Multiset (ℤ × ℤ)) (thres : ℕ)
    (countLt countEq : ℤ) : Prop where
  thres_le : thres ≤ nBuckets
  countLt_eq : countLt = (byDistance bucket thres).length
  countLt_le : countLt ≤ k
  countEq_eq : thres < nBuckets → countEq = (bucket thres).length ∧ k ≤ countLt + countEq
  split : S = ↑(byDistance bucket (min (thres + 1) nBuckets)) + D
  dropped : ∀ y ∈ D, (thres : ℤ) ≤ y.1

/-- The state of a counter that was given `S`. -/
def Has (nBuckets k : ℕ) (S : Multiset (ℤ × ℤ)) (s : HCounterState) : Prop :=
  ∃ bucket D, Counts nBuckets k bucket s.counters s.idsPerDis ∧
    Holds nBuckets k bucket D S s.thres s.countLt s.countEq ∧ s.countLt < k

theorem has_new (d : ℕ) (hk : 1 ≤ k) (idsPerDis : ℕ → ℤ) : (new d idsPerDis).Has (d + 1) k 0 := by
  have hnone : ∀ n, byDistance (fun _ ↦ []) n = [] := fun n ↦ by simp [byDistance]
  refine ⟨fun _ ↦ [], 0, ⟨fun _ _ ↦ rfl, fun _ _ ↦ Nat.zero_le k, fun _ _ l hl ↦ absurd hl (Nat.not_lt_zero l)⟩,
    ⟨le_rfl, ?_, Int.natCast_nonneg k, fun hlt ↦ absurd hlt (Nat.lt_irrefl _), ?_,
      fun _ hy ↦ absurd hy (Multiset.notMem_zero _)⟩, ?_⟩
  · rw [hnone]
    rfl
  · rw [hnone]
    rfl
  · exact Int.ofNat_lt.mpr hk

/-- Lowering the threshold. -/
theorem Holds.lower {nBuckets : ℕ} {counters : ℕ → ℕ} {idsPerDis : ℕ → ℤ} (hk : 1 ≤ k)
    (hcounts : Counts nBuckets k bucket counters idsPerDis) {D S : Multiset (ℤ × ℤ)} {thres : ℕ}
    {countLt countEq : ℤ} (h : Holds nBuckets k bucket D S thres countLt countEq) :
    ∃ D', Holds nBuckets k bucket D' S (HCounterState.lower k counters thres countLt countEq).1
        (HCounterState.lower k counters thres countLt countEq).2.1
        (HCounterState.lower k counters thres countLt countEq).2.2 ∧
      (HCounterState.lower k counters thres countLt countEq).2.1 < k := by
  induction thres generalizing countLt countEq D with
  | zero =>
      refine ⟨D, h, ?_⟩
      have hzero := h.countLt_eq
      change countLt < k
      rw [hzero, byDistance_zero]
      exact Int.ofNat_lt.mpr hk
  | succ thres ih =>
      unfold HCounterState.lower
      split
      · rename_i hfull
        have hlt : thres < nBuckets := h.thres_le
        have hsum := h.countLt_eq
        rw [byDistance_succ, List.length_append, List.length_map] at hsum
        have hcount := hcounts.counters_eq thres hlt
        have hmin : min (thres + 1) nBuckets = thres + 1 := min_eq_left hlt
        have hsplit := h.split
        -- the ids at the former threshold are not needed any more
        obtain ⟨rest, hrest, hbehind⟩ := byDistance_next bucket hlt
        refine ih (D := ↑rest + D) ⟨hlt.le, ?_, ?_, fun _ ↦ ⟨?_, ?_⟩, ?_, fun y hy ↦ ?_⟩
        · rw [hcount]
          omega
        · omega
        · rw [hcount]
        · omega
        · rw [hmin, hsplit, hrest, ← Multiset.coe_add, add_assoc]
        · rcases Multiset.mem_add.mp hy with hy | hy
          · exact (hbehind y hy).le
          · exact le_trans (by omega) (h.dropped y hy)
      · rename_i hroom
        exact ⟨D, h, lt_of_le_of_ne h.countLt_le hroom⟩

/-- One more distance and id. -/
theorem Has.updateCounter {d : ℕ} (hk : 1 ≤ k) {S : Multiset (ℤ × ℤ)} {s : HCounterState}
    (h : s.Has (d + 1) k S) {dis : ℕ} (hdis : dis ≤ d) (id : ℤ) :
    ∃ s', s.updateCounter (d + 1) k dis id = some s' ∧ s'.Has (d + 1) k (((dis : ℤ), id) ::ₘ S) := by
  obtain ⟨bucket, D, hcounts, hholds, hlt⟩ := h
  have hbucket : dis < d + 1 := Nat.lt_succ_of_le hdis
  have hslot : ∀ c < k, ¬ (d + 1 ≤ dis ∨ (d + 1) * k ≤ dis * k + c) := fun c hc hout ↦ by
    rcases hout with hout | hout
    · omega
    · have hnext : (dis + 1) * k ≤ (d + 1) * k := Nat.mul_le_mul_right k hbucket
      rw [Nat.add_mul, Nat.one_mul] at hnext
      omega
  -- what is not below the threshold is not needed
  have hdrop : s.thres ≤ dis → s.Has (d + 1) k (((dis : ℤ), id) ::ₘ S) := fun hge ↦ by
    refine ⟨bucket, ((dis : ℤ), id) ::ₘ D, hcounts, ⟨hholds.thres_le, hholds.countLt_eq, hholds.countLt_le,
      hholds.countEq_eq, ?_, fun y hy ↦ ?_⟩, hlt⟩
    · rw [hholds.split, Multiset.add_cons]
    · rcases Multiset.mem_cons.mp hy with rfl | hy
      · exact Int.ofNat_le.mpr hge
      · exact hholds.dropped y hy
  have hcounter := hcounts.counters_eq dis hbucket
  unfold HCounterState.updateCounter
  by_cases hle : dis ≤ s.thres
  · rw [if_pos hle]
    by_cases hbelow : dis < s.thres
    · have hroom : (bucket dis).length < k := by
        have hlength : (bucket dis).length ≤ _ := length_le_byDistance hbelow
        have hsum := hholds.countLt_eq
        omega
      rw [if_pos hbelow, if_neg (hslot _ (hcounter ▸ hroom))]
      have hcounts' := hcounts.push hbucket hroom id
      rw [← hcounter] at hcounts'
      have hpushed : Holds (d + 1) k (update bucket dis (bucket dis ++ [id])) D (((dis : ℤ), id) ::ₘ S) s.thres
          (s.countLt + 1) s.countEq := by
        refine ⟨hholds.thres_le, ?_, by omega, fun hthres ↦ ?_, ?_, hholds.dropped⟩
        · have hcard := congrArg Multiset.card (byDistance_update bucket dis s.thres id)
          rw [if_pos hbelow, Multiset.card_cons, Multiset.coe_card, Multiset.coe_card] at hcard
          rw [hcard, hholds.countLt_eq]
          rfl
        · rw [update_of_ne (by omega)]
          have := hholds.countEq_eq hthres
          omega
        · rw [byDistance_update, if_pos (by omega), Multiset.cons_add, hholds.split]
      obtain ⟨D', hlowered, hlt'⟩ := hpushed.lower hk hcounts'
      exact ⟨_, rfl, _, D', hcounts', hlowered, hlt'⟩
    · obtain rfl : dis = s.thres := by omega
      obtain ⟨hcountEq, hfull⟩ := hholds.countEq_eq hbucket
      rw [if_neg hbelow]
      by_cases hroom : s.countEq < k
      · have hroom' : (bucket s.thres).length < k := by omega
        rw [if_pos hroom, if_neg (hslot _ (by omega))]
        have hcounts' := hcounts.push hbucket hroom' id
        have hbump : update s.counters s.thres (s.countEq + 1).toNat = bump s.counters s.thres := by
          unfold bump
          rw [hcountEq, hcounter]
          rfl
        refine ⟨_, rfl, update bucket s.thres (bucket s.thres ++ [id]), D, ?_, ⟨hholds.thres_le, ?_,
          hholds.countLt_le, fun _ ↦ ?_, ?_, hholds.dropped⟩, hlt⟩
        · change Counts _ _ _ (update s.counters s.thres (s.countEq + 1).toNat)
            (update s.idsPerDis (s.thres * k + s.countEq.toNat) id)
          rw [hbump, hcountEq, Int.toNat_natCast]
          exact hcounts'
        · have hcard := congrArg Multiset.card (byDistance_update bucket s.thres s.thres id)
          rw [if_neg hbelow, Multiset.coe_card, Multiset.coe_card] at hcard
          change s.countLt = _
          rw [hcard]
          exact hholds.countLt_eq
        · rw [update_self, List.length_append, List.length_singleton]
          change s.countEq + 1 = _ ∧ _ ≤ s.countLt + (s.countEq + 1)
          omega
        · change _ = ↑(byDistance _ (min (s.thres + 1) (d + 1))) + D
          rw [byDistance_update, if_pos (by omega), Multiset.cons_add, hholds.split]
      · rw [if_neg hroom]
        exact ⟨s, rfl, hdrop le_rfl⟩
  · rw [if_neg hle]
    exact ⟨s, rfl, hdrop (by omega)⟩

/-! ## The results -/

theorem foldl_room {α : Type} (k : ℕ) (ys row : List α) (hrow : row.length ≤ k) :
    ys.foldl (fun row y ↦ if row.length < k then row ++ [y] else row) row = (row ++ ys).take k := by
  induction ys generalizing row with
  | nil => rw [List.append_nil, List.take_of_length_le hrow]; rfl
  | cons y ys ih =>
      rw [List.foldl_cons]
      split
      · rename_i hroom
        rw [ih _ (by rw [List.length_append]; exact hroom), List.append_assoc]
        rfl
      · rename_i hfull
        rw [ih row hrow, List.take_append_of_le_length (by omega), List.take_append_of_le_length (by omega)]

/-- The results are the first ids in the order of their distances. -/
theorem results_eq {nBuckets : ℕ} {s : HCounterState} (h : Counts nBuckets k bucket s.counters s.idsPerDis) :
    s.results nBuckets k = (byDistance bucket nBuckets).take k ++
      List.replicate (k - ((byDistance bucket nBuckets).take k).length) (intMax, -1) := by
  have hrow : ∀ n ≤ nBuckets, (List.range n).foldl (fun row b ↦
      (List.range (s.counters b)).foldl (fun row l ↦
        if row.length < k then row ++ [((b : ℤ), s.idsPerDis (b * k + l))] else row) row) [] =
          (byDistance bucket n).take k := by
    intro n hn
    induction n with
    | zero => exact (List.take_nil).symm
    | succ n ih =>
        have hslots : ((List.range (s.counters n)).map fun l ↦ ((n : ℤ), s.idsPerDis (n * k + l))) =
            (bucket n).map fun id ↦ ((n : ℤ), id) := by
          rw [h.counters_eq n hn]
          refine List.ext_getElem (by simp) fun l hl _ ↦ ?_
          rw [List.length_map, List.length_range] at hl
          rw [List.getElem_map, List.getElem_map, List.getElem_range, h.id_eq n hn l hl,
            List.getD_eq_getElem _ _ hl]
        rw [List.range_succ, List.foldl_append, ih (by omega), List.foldl_cons, List.foldl_nil,
          ← List.foldl_map (f := fun l ↦ ((n : ℤ), s.idsPerDis (n * k + l)))
            (g := fun row y ↦ if row.length < k then row ++ [y] else row), hslots,
          foldl_room k _ _ (List.length_take_le _ _), byDistance_succ, List.take_append, List.take_append,
          List.take_take, min_self, List.length_take,
          show k - min k (byDistance bucket n).length = k - (byDistance bucket n).length by omega]
  unfold results
  dsimp only
  rw [hrow nBuckets le_rfl]

section
variable {d : ℕ} {S : Multiset (ℤ × ℤ)} {s : HCounterState} (h : s.Has (d + 1) k S)
  (hS : ∀ y ∈ S, y.1 ≤ d)
include h hS

/-- The first ids, in the order of their distances, are the nearest ones of what was counted. -/
theorem Has.nearest : ∃ bucket, Counts (d + 1) k bucket s.counters s.idsPerDis ∧
      (s.thres ≤ d + 1 ∧ s.countLt = (byDistance bucket s.thres).length ∧ s.countLt < k) ∧
      KSmallest Prod.fst k S ↑((byDistance bucket (d + 1)).take k) := by
  obtain ⟨bucket, D, hcounts, hholds, hlt⟩ := h
  refine ⟨bucket, hcounts, ⟨hholds.thres_le, hholds.countLt_eq, hlt⟩, ?_⟩
  generalize hm : min (s.thres + 1) (d + 1) = m at hholds
  have hsplit := hholds.split
  rw [hm] at hsplit
  have hahead := byDistance_isPrefix_of_le bucket (show m ≤ d + 1 by omega)
  -- either all that counts is up to the threshold, or there is nothing else
  have hcases : k ≤ (byDistance bucket m).length ∨ (m = d + 1 ∧ D = 0) := by
    by_cases hthres : s.thres < d + 1
    · refine Or.inl ?_
      obtain ⟨hcountEq, hfull⟩ := hholds.countEq_eq hthres
      have hcountLt := hholds.countLt_eq
      rw [← hm, min_eq_left hthres, byDistance_succ, List.length_append, List.length_map]
      omega
    · refine Or.inr ⟨by omega, Multiset.eq_zero_of_forall_notMem fun y hy ↦ ?_⟩
      have hlow := hholds.dropped y hy
      have hhigh := hS y (by rw [hsplit]; exact Multiset.mem_add.mpr (Or.inr hy))
      omega
  have htake : (byDistance bucket (d + 1)).take k = (byDistance bucket m).take k := by
    rcases hcases with hfull | ⟨rfl, -⟩
    · obtain ⟨rest, hrest⟩ := hahead
      rw [← hrest, List.take_append_of_le_length hfull]
    · rfl
  rw [htake]
  refine ⟨↑((byDistance bucket m).drop k) + D, ?_, ?_, fun hne ↦ ?_, fun x hx y hy ↦ ?_⟩
  · rw [← add_assoc, Multiset.coe_add, List.take_append_drop, hsplit]
  · exact List.length_take_le _ _
  · rw [Multiset.coe_card, List.length_take]
    rcases hcases with hfull | ⟨-, rfl⟩
    · exact min_eq_left hfull
    · rw [add_zero] at hne
      refine min_eq_left (Nat.not_lt.mp fun hlt ↦ hne ?_)
      rw [List.drop_of_length_le hlt.le]
      rfl
  · have hx := Multiset.mem_coe.mp hx
    rcases Multiset.mem_add.mp hy with hy | hy
    · have hsorted := byDistance_sorted bucket m
      rw [← List.take_append_drop k (byDistance bucket m)] at hsorted
      exact (List.pairwise_append.mp hsorted).2.2 x hx y (Multiset.mem_coe.mp hy)
    · have hlow := hholds.dropped y hy
      have hhigh := lt_of_mem_byDistance (List.mem_of_mem_take hx)
      omega

theorem Has.selects : RowSelects k S (s.results (d + 1) k) := by
  obtain ⟨bucket, hcounts, -, hnearest⟩ := h.nearest hS
  exact ⟨_, hnearest, (byDistance_sorted bucket (d + 1)).sublist (List.take_sublist k _), results_eq hcounts⟩

end

theorem Has.foldlM {d : ℕ} (hk : 1 ≤ k) {S : Multiset (ℤ × ℤ)} {s : HCounterState} (h : s.Has (d + 1) k S)
    {ys : List (ℤ × ℤ)} (hys : ∀ y ∈ ys, 0 ≤ y.1 ∧ y.1 ≤ d) :
    ∃ s', ys.foldlM (fun (s : HCounterState) (y : ℤ × ℤ) ↦ s.updateCounter (d + 1) k y.1.toNat y.2) s = some s' ∧
      s'.Has (d + 1) k (↑ys + S) := by
  induction ys generalizing s S with
  | nil => exact ⟨s, rfl, by rw [Multiset.coe_nil, zero_add]; exact h⟩
  | cons y ys ih =>
      have hy := hys y List.mem_cons_self
      obtain ⟨s', hs', hhas⟩ := h.updateCounter hk (show y.1.toNat ≤ d by omega) y.2
      rw [Int.toNat_of_nonneg hy.1] at hhas
      obtain ⟨s'', hs'', hhas'⟩ := ih hhas fun z hz ↦ hys z (List.mem_cons_of_mem y hz)
      refine ⟨s'', ?_, ?_⟩
      · rw [List.foldlM_cons, hs']
        exact hs''
      · rw [← Multiset.cons_coe, Multiset.cons_add, ← Multiset.add_cons]
        exact hhas'

end HCounterState

namespace IndexBinaryIVF

variable {QP : Type} {ivf : IndexBinaryIVF} {params : Option (IVFSearchParameters QP)}

theorem foldlM_has (ivf : IndexBinaryIVF) (hk : 1 ≤ k) (x : ℕ → UInt8) (i : ℕ) (ls : List ℕ)
    (storePairs : Bool) {S : Multiset (ℤ × ℤ)} {s : HCounterState} (h : s.Has (8 * ivf.codeSize + 1) k S) :
    ∃ s', ls.foldlM (fun s l ↦ (ivf.offersOf storePairs x i l).foldlM (fun (s : HCounterState) (y : ℤ × ℤ) ↦
        s.updateCounter (8 * ivf.codeSize + 1) k y.1.toNat y.2) s) s = some s' ∧
      s'.Has (8 * ivf.codeSize + 1) k (↑(ls.flatMap (ivf.offersOf storePairs x i)) + S) := by
  induction ls generalizing s S with
  | nil => exact ⟨s, rfl, by rw [List.flatMap_nil, Multiset.coe_nil, zero_add]; exact h⟩
  | cons l ls ih =>
      obtain ⟨s', hs', hhas⟩ := h.foldlM hk (show ∀ y ∈ ivf.offersOf storePairs x i l,
          0 ≤ y.1 ∧ y.1 ≤ (8 * ivf.codeSize : ℕ) from fun y hy ↦ by
        obtain ⟨j, e, -, rfl⟩ := exists_of_mem_offersOf hy
        exact ⟨(ivf.distance_bounds x i e).1, by
          have := (ivf.distance_bounds x i e).2.1
          push_cast
          omega⟩)
      obtain ⟨s'', hs'', hhas'⟩ := ih hhas
      refine ⟨s'', ?_, ?_⟩
      · rw [List.foldlM_cons, hs']
        exact hs''
      · rw [List.flatMap_cons, ← Multiset.coe_add,
          add_comm (ivf.offersOf storePairs x i l : Multiset (ℤ × ℤ)), add_assoc]
        exact hhas'

/-- The search with counters returns what is to be selected. -/
theorem searchKnnHammingCount_selects {n : ℕ} {keys : ℕ → ℤ} (hk : 1 ≤ k) (x : ℕ → UInt8)
    (allIdsPerDis : ℕ → ℤ) (hcodes : ivf.maxCodesOf params = 0)
    (hkeys : ∀ p < n * ivf.nprobeOf params, keys p < ivf.nlist) :
    ∃ rows : ℕ → List (ℤ × ℤ),
      ivf.searchKnnHammingCount params n x keys k allIdsPerDis false = some ((List.range n).map rows) ∧
      ∀ i < n, RowSelects k ↑(ivf.candidates x i (keysOf (ivf.nprobeOf params) keys i)) (rows i) := by
  have hreturns := fun i ↦ ivf.foldlM_has hk x i (probedLists (keysOf (ivf.nprobeOf params) keys i)) false
    (HCounterState.has_new (8 * ivf.codeSize) hk fun p ↦ allIdsPerDis (i * (8 * ivf.codeSize + 1) * k + p))
  choose csi hcsi hhas using hreturns
  refine ⟨fun i ↦ (csi i).results (8 * ivf.codeSize + 1) k, mapM_eq_some_map fun i hi ↦ ?_, fun i hi ↦ ?_⟩
  · rw [hcodes, scanProbes_eq _ (keysOf_lt hkeys (List.mem_range.mp hi)), hcsi i]
    rfl
  · have hselects := (hhas i).selects fun y hy ↦ by
      rw [add_zero] at hy
      obtain ⟨l, -, e, -, rfl⟩ := real_candidates hy
      have := (ivf.distance_bounds x i e).2.1
      push_cast
      omega
    rw [add_zero] at hselects
    exact hselects

end IndexBinaryIVF

end FaissNavix
