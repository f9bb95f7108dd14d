import FaissNavix.BinaryIVF.CountSearch

/-!
# Runs of a counter

`HCounterState` of `faiss/utils/hamming-inl.h` alone, given any stream of distances and ids.  It keeps the ids that
are needed for the `k` nearest ones.  The place of an id in `ids_per_dis` is computed as an `int`, which is enough
exactly if all places are below `2 ^ 31` (`keepsNearest_iff`).
-/

namespace FaissNavix.HCounterState

open Function
open Lib

/-! ## The code -/

/-- The place in `ids_per_dis` that an update writes to. -/
def slotOf (k dis : ℕ) (s : HCounterState) : Option ℕ :=
  if dis < s.thres then some (dis * k + s.counters dis)
  else if dis = s.thres ∧ s.countEq < k then some (dis * k + s.countEq.toNat)
  else none

/-- `update_counter`, where the place is an `int`. -/
def updateCounterInt (nBuckets k dis : ℕ) (id : ℤ) (s : HCounterState) : Option HCounterState :=
  if ∃ slot ∈ s.slotOf k dis, 2 ^ 31 ≤ slot then none else s.updateCounter nBuckets k dis id

def countStream (d k : ℕ) (idsPerDis : ℕ → ℤ) (ys : List (ℤ × ℤ)) : Option HCounterState :=
  ys.foldlM (fun s y ↦ s.updateCounterInt (d + 1) k y.1.toNat y.2) (new d idsPerDis)

/-- The buckets, read in the order of the distances. -/
def readBuckets (d k : ℕ) (s : HCounterState) : List (ℤ × ℤ) :=
  (List.range (d + 1)).flatMap fun b ↦ (List.range (s.counters b)).map fun l ↦ ((b : ℤ), s.idsPerDis (b * k + l))

/-- What is to hold of a counter that was given a stream: the first entries that are read are entries of the
stream, each at its own position, and no other one is nearer. -/
structure KeepsNearest (d k : ℕ) (ys : List (ℤ × ℤ)) (s : HCounterState) : Prop where
  counters_le : ∀ b ≤ d, s.counters b ≤ k
  countLt_eq : s.countLt = ∑ b ∈ Finset.range s.thres, (s.counters b : ℤ)
  countLt_lt : s.countLt < k ∨ s.thres = 0
  nearest : ∃ rest, ((s.readBuckets d k).take (min k ys.length) ++ rest).Perm ys ∧
    ((s.readBuckets d k).take (min k ys.length)).length = min k ys.length ∧
    ((s.readBuckets d k).take (min k ys.length)).Pairwise (fun x y ↦ x.1 ≤ y.1) ∧
    ∀ x ∈ (s.readBuckets d k).take (min k ys.length), ∀ y ∈ rest, x.1 ≤ y.1

/-! ## Runs -/

variable {d k dis : ℕ} {id : ℤ} {s s' : HCounterState} {S : Multiset (ℤ × ℤ)} {ys : List (ℤ × ℤ)}

/-- An update that returns writes to a place that is there. -/
theorem slotOf_lt (h : s.updateCounter (d + 1) k dis id = some s') : ∀ slot ∈ s.slotOf k dis, slot < (d + 1) * k := by
  intro slot hslot
  rw [slotOf] at hslot
  rw [updateCounter] at h
  by_cases hlt : dis < s.thres
  · rw [if_pos hlt] at hslot
    rw [if_pos hlt.le, if_pos hlt] at h
    obtain rfl := Option.some.inj hslot
    by_contra hge
    rw [if_pos (.inr (Nat.le_of_not_lt hge))] at h
    exact absurd h (Option.some_ne_none s').symm
  · rw [if_neg hlt] at hslot
    by_cases hat : dis = s.thres ∧ s.countEq < k
    · rw [if_pos hat] at hslot
      obtain rfl := Option.some.inj hslot
      rw [if_pos hat.1.le, if_neg hlt, if_pos hat.2] at h
      by_contra hge
      rw [if_pos (.inr (Nat.le_of_not_lt hge))] at h
      exact absurd h (Option.some_ne_none s').symm
    · rw [if_neg hat] at hslot
      exact absurd hslot (Option.not_mem_none slot)

theorem updateCounterInt_eq (hsize : (d + 1) * k ≤ 2 ^ 31)
    (h : s.updateCounter (d + 1) k dis id = some s') : s.updateCounterInt (d + 1) k dis id = some s' := by
  rw [updateCounterInt, if_neg, h]
  rintro ⟨slot, hslot, hge⟩
  have := slotOf_lt h slot hslot
  omega

theorem exists_countStream (hk : 1 ≤ k) (hsize : (d + 1) * k ≤ 2 ^ 31) (idsPerDis : ℕ → ℤ)
    (hys : ∀ y ∈ ys, 0 ≤ y.1 ∧ y.1 ≤ d) :
    ∃ s, countStream d k idsPerDis ys = some s ∧ s.Has (d + 1) k ↑ys := by
  induction ys using List.reverseRecOn with
  | nil => exact ⟨_, rfl, has_new d hk idsPerDis⟩
  | append_singleton ys y ih =>
      obtain ⟨s, hs, hhas⟩ := ih fun x hx ↦ hys x (List.mem_append_left _ hx)
      have hy := hys y (List.mem_append_right ys (List.mem_singleton.mpr rfl))
      obtain ⟨s', hs', hhas'⟩ := hhas.updateCounter hk (show y.1.toNat ≤ d by omega) y.2
      rw [Int.toNat_of_nonneg hy.1] at hhas'
      refine ⟨s', ?_, ?_⟩
      · rw [countStream] at hs ⊢
        rw [foldlM_concat, hs]
        exact updateCounterInt_eq hsize hs'
      · rwa [← Multiset.coe_add, Multiset.coe_singleton, add_comm (ys : Multiset (ℤ × ℤ)), Multiset.singleton_add]

theorem readBuckets_eq {bucket : ℕ → List ℤ} (h : Counts (d + 1) k bucket s.counters s.idsPerDis) :
    s.readBuckets d k = byDistance bucket (d + 1) := by
  rw [readBuckets, byDistance]
  refine List.flatMap_congr fun b hb ↦ ?_
  have hb' := List.mem_range.mp hb
  rw [h.counters_eq b hb']
  refine List.ext_getElem (by simp only [List.length_map, List.length_range]) fun l hl _ ↦ ?_
  rw [List.length_map, List.length_range] at hl
  rw [List.getElem_map, List.getElem_map, List.getElem_range, h.id_eq b hb' l hl, List.getD_eq_getElem _ _ hl]

theorem length_byDistance {bucket : ℕ → List ℤ} (h : Counts (d + 1) k bucket s.counters s.idsPerDis) {n : ℕ}
    (hn : n ≤ d + 1) : ((byDistance bucket n).length : ℤ) = ∑ b ∈ Finset.range n, (s.counters b : ℤ) := by
  induction n with
  | zero => rfl
  | succ n ih =>
      rw [byDistance_succ, List.length_append, List.length_map, Finset.sum_range_succ, ← ih (by omega),
        h.counters_eq n hn, Nat.cast_add]

theorem Has.keepsNearest (h : s.Has (d + 1) k ↑ys) (hys : ∀ y ∈ ys, y.1 ≤ d) :
    KeepsNearest d k ys s := by
  obtain ⟨bucket, hcounts, ⟨hthres, hcountLt, hlt⟩, R, hsplit, hkeeps⟩ :=
    h.nearest fun y hy ↦ hys y (Multiset.mem_coe.mp hy)
  have hlen : ((byDistance bucket (d + 1)).take k).length = min k ys.length := by
    have hcard := congrArg Multiset.card hsplit
    rw [Multiset.card_add, Multiset.coe_card, Multiset.coe_card] at hcard
    have hle : ((byDistance bucket (d + 1)).take k).length ≤ k := hkeeps.card_le
    by_cases hR : R = 0
    · rw [hR, Multiset.card_zero] at hcard
      omega
    · have hfull : ((byDistance bucket (d + 1)).take k).length = k := hkeeps.full hR
      omega
  have hread : (s.readBuckets d k).take (min k ys.length) = (byDistance bucket (d + 1)).take k := by
    rw [readBuckets_eq hcounts, ← hlen, List.length_take, List.take_eq_take_min,
      Nat.min_assoc, Nat.min_self, ← List.take_eq_take_min]
  have hsorted : ((byDistance bucket (d + 1)).take k).Pairwise fun x y ↦ x.1 ≤ y.1 :=
    (byDistance_sorted bucket (d + 1)).sublist (List.take_sublist k _)
  obtain ⟨rest, rfl⟩ := Quot.exists_rep R
  refine ⟨fun b hb ↦ ?_, ?_, .inl hlt, rest, ?_, ?_, ?_, ?_⟩
  · rw [hcounts.counters_eq b (Nat.lt_succ_of_le hb)]
    exact hcounts.length_le b (Nat.lt_succ_of_le hb)
  · rw [hcountLt, length_byDistance hcounts hthres]
  · rw [hread]
    exact Multiset.coe_eq_coe.mp hsplit.symm
  · rw [hread, hlen]
  · rwa [hread]
  · rw [hread]
    exact hkeeps.le

/-- While there are less than `k` ids, all of them at the largest distance, the threshold stays behind it. -/
theorem countStream_replicate {idsPerDis : ℕ → ℤ} {n : ℕ} (hn : n < k)
    (h : countStream d k idsPerDis (List.replicate n ((d : ℤ), 0)) = some s) :
    s.thres = d + 1 ∧ s.counters d = n ∧ s.countLt = n := by
  induction n generalizing s with
  | zero =>
      obtain rfl := Option.some.inj h
      exact ⟨rfl, rfl, rfl⟩
  | succ n ih =>
      rw [countStream, List.replicate_succ', foldlM_concat] at h
      obtain ⟨t, ht, hlast⟩ := Option.bind_eq_some_iff.mp h
      obtain ⟨hthres, hcounter, hcountLt⟩ := ih (by omega) ht
      rw [updateCounterInt] at hlast
      split_ifs at hlast with hlarge
      rw [updateCounter, Int.toNat_natCast, if_pos (by omega), if_pos (by omega)] at hlast
      split_ifs at hlast with hout
      obtain rfl := Option.some.inj hlast
      have hlower : lower k (bump t.counters d) t.thres (t.countLt + 1) t.countEq =
          (t.thres, t.countLt + 1, t.countEq) := by
        rw [hthres, lower, if_neg (by omega)]
      dsimp only
      rw [hlower, bump_self, hcounter]
      refine ⟨hthres, rfl, ?_⟩
      rw [hcountLt, Nat.cast_succ]

/-- The counters keep the nearest ones of every stream, exactly if all places in `ids_per_dis` are `int`s. -/
theorem keepsNearest_iff (d k : ℕ) (hk : 1 ≤ k) :
    (∀ (idsPerDis : ℕ → ℤ) (ys : List (ℤ × ℤ)), (∀ y ∈ ys, 0 ≤ y.1 ∧ y.1 ≤ d) →
      ∃ s, countStream d k idsPerDis ys = some s ∧ KeepsNearest d k ys s) ↔ (d + 1) * k ≤ 2 ^ 31 := by
  constructor
  · intro h
    by_contra hlarge
    obtain ⟨n, rfl⟩ := Nat.exists_eq_add_of_le' hk
    have hfar : ∀ y ∈ List.replicate (n + 1) ((d : ℤ), (0 : ℤ)), 0 ≤ y.1 ∧ y.1 ≤ d := fun y hy ↦ by
      rw [List.eq_of_mem_replicate hy]
      exact ⟨Int.natCast_nonneg d, le_rfl⟩
    obtain ⟨s, hs, -⟩ := h (fun _ ↦ 0) _ hfar
    rw [countStream, List.replicate_succ', foldlM_concat] at hs
    obtain ⟨t, ht, hlast⟩ := Option.bind_eq_some_iff.mp hs
    obtain ⟨hthres, hcounter, -⟩ := countStream_replicate (Nat.lt_succ_self n) ht
    have hslot : t.slotOf (n + 1) (d : ℤ).toNat = some (d * (n + 1) + n) := by
      rw [slotOf, Int.toNat_natCast, if_pos (by omega), hcounter]
    rw [Nat.succ_mul] at hlarge
    rw [updateCounterInt, if_pos ⟨_, hslot, by omega⟩] at hlast
    exact absurd hlast (Option.some_ne_none s).symm
  · intro hsize idsPerDis ys hys
    obtain ⟨s, hs, hhas⟩ := exists_countStream hk hsize idsPerDis hys
    exact ⟨s, hs, hhas.keepsNearest fun y hy ↦ (hys y hy).2⟩

/-- The two nearest ones of three. -/
theorem keepsNearest_iff_two : ∃ s, countStream 8 2 (fun _ ↦ 0) [(3, 0), (1, 1), (5, 2)] = some s ∧
    KeepsNearest 8 2 [(3, 0), (1, 1), (5, 2)] s :=
  (keepsNearest_iff 8 2 (by decide)).mpr (by decide) _ _ (by decide)

/-- With `k = 2 ^ 28`, the first id at distance 8 has no place. -/
theorem not_keepsNearest_far : ¬ ∃ s, countStream 8 (2 ^ 28) (fun _ ↦ 0) [(8, 0)] = some s ∧
    KeepsNearest 8 (2 ^ 28) [(8, 0)] s := by
  rintro ⟨s, hs, -⟩
  have hslot : (new 8 fun _ ↦ 0).slotOf (2 ^ 28) 8 = some (8 * 2 ^ 28 + 0) := rfl
  have hnone : (new 8 fun _ ↦ 0).updateCounterInt (8 + 1) (2 ^ 28) 8 0 = none :=
    if_pos ⟨_, hslot, by norm_num⟩
  have hrun : countStream 8 (2 ^ 28) (fun _ ↦ 0) [(8, 0)] =
      (new 8 fun _ ↦ 0).updateCounterInt (8 + 1) (2 ^ 28) 8 0 >>= fun s ↦ some s := rfl
  rw [hrun, hnone] at hs
  exact absurd hs (Option.some_ne_none s).symm

end FaissNavix.HCounterState
