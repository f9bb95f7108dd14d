import FaissNavix.Clustering
import FaissNavix.Lib.Halving
import Mathlib.Algebra.BigOperators.Ring.Finset
import Mathlib.Algebra.Order.BigOperators.Group.Finset
import Mathlib.Data.Rat.Floor

/-!
# Splitting empty clusters

The numbers of points of `compute_centroids` and `split_clusters` of `faiss/Clustering.cpp`, in an
arithmetic that is a parameter.  With that of floats they are those of the loops on centroids
(`computeCentroids_counts`, `splitCluster_counts`).

In exact arithmetic, the search for a cluster to be split ends only if there is one with more than one
point, and each split halves such a number.  How often this can be done does not depend on the choices
(`Lib.sum_halvings_split`).  So every search has an end exactly if the points of the clusters that are
not frozen can be halved as often as there are empty clusters (`splits_well_iff`).
-/

namespace FaissNavix

open Finset (range range_zero range_add_one filter_empty filter_insert card_empty card_insert_of_notMem
  notMem_range_self mem_filter sum_congr)
open Lib (halvings)

/-- The arithmetic on numbers of points. -/
structure CountArith (F : Type) where
  zero : F
  one : F
  add : F → F → F
  sub : F → F → F
  half : F → F
  /-- `(hassign - 1.0) / (float)n` -/
  splitProbability : F → ℕ → F
  lt : F → F → Bool
  isZero : F → Bool

/-- That of floats. -/
def FloatArith.counts (arith : FloatArith) : CountArith F32 where
  zero := .zero
  one := arith.one
  add := arith.add
  sub := arith.sub
  half := arith.half
  splitProbability := arith.splitProbability
  lt := fun a b ↦ decide (a < b)
  isZero := fun a ↦ a.feq .zero

/-- Exact arithmetic. -/
def exactCounts : CountArith ℚ where
  zero := 0
  one := 1
  add := (· + ·)
  sub := (· - ·)
  half := fun x ↦ x / 2
  splitProbability := fun h n ↦ (h - 1) / n
  lt := fun a b ↦ decide (a < b)
  isZero := fun a ↦ decide (a = 0)

section Steps

variable {F : Type} (ar : CountArith F)

/-- What a vector adds. -/
def weightOf (weights : Option (ℕ → F)) (i : ℕ) : F :=
  match weights with
  | some weights => weights i
  | none => ar.one

/-- What a thread of `compute_centroids` does with `hassign` for a vector. -/
def countVector (kFrozen c0 c1 : ℕ) (assign : ℕ → ℤ) (weights : Option (ℕ → F)) (hassign : List F)
    (i : ℕ) : List F :=
  let ci := assign i - kFrozen
  if c0 ≤ ci ∧ ci < c1 then
    hassign.set ci.toNat (ar.add (hassign.getD ci.toNat ar.zero) (weightOf ar weights i))
  else hassign

/-- What `compute_centroids` makes of `hassign`, unless an assertion fails. -/
def countVectors (k n kFrozen threads : ℕ) (assign : ℕ → ℤ) (weights : Option (ℕ → F))
    (hassign : List F) : Option (List F) :=
  if (List.range n).all fun i ↦ decide (0 ≤ assign i ∧ assign i < k) then
    let k := k - kFrozen
    some ((List.range threads).foldl (fun hassign rank ↦ (List.range n).foldl
      (countVector ar kFrozen (k * rank / threads) (k * (rank + 1) / threads) assign weights)
      hassign) hassign)
  else none

/-- The loop over `cj`, which may be endless: the cluster to be split, and the number of random floats
drawn. -/
def pickDonor (k n : ℕ) (uniform : ℕ → F) (hassign : List F) : ℕ → ℕ → ℕ → Option (ℕ × ℕ)
  | 0, _, _ => none
  | turns + 1, cj, drawn =>
    if ar.lt (uniform drawn) (ar.splitProbability (hassign.getD cj ar.zero) (n - k)) then
      some (cj, drawn + 1)
    else pickDonor k n uniform hassign turns ((cj + 1) % k) (drawn + 1)

/-- What `split_clusters` keeps account of. -/
structure SplitCounts (F : Type) where
  hassign : List F
  drawn : ℕ
  nsplit : ℕ

/-- A turn of the loop of `split_clusters`. -/
def splitTurn (k n : ℕ) (uniform : ℕ → F) (turns : ℕ) (s : SplitCounts F) (ci : ℕ) :
    Option (SplitCounts F) :=
  if ar.isZero (s.hassign.getD ci ar.zero) then do
    let (cj, drawn) ← pickDonor ar k n uniform s.hassign turns 0 s.drawn
    let half := ar.half (s.hassign.getD cj ar.zero)
    let hassign := s.hassign.set ci half
    some ⟨hassign.set cj (ar.sub (hassign.getD cj ar.zero) half), drawn, s.nsplit + 1⟩
  else some s

/-- The first `ci` turns of the loop of `split_clusters`, which are all of them if `ci = k - kFrozen`. -/
def splitTurns (k n kFrozen : ℕ) (uniform : ℕ → F) (turns : ℕ) (hassign : List F) (ci : ℕ) :
    Option (SplitCounts F) :=
  (List.range ci).foldlM (splitTurn ar (k - kFrozen) n uniform turns) ⟨hassign, 0, 0⟩

end Steps

theorem splitTurns_succ {F : Type} (ar : CountArith F) (k n kFrozen : ℕ) (uniform : ℕ → F)
    (turns : ℕ) (hassign : List F) (ci : ℕ) :
    splitTurns ar k n kFrozen uniform turns hassign (ci + 1) =
      (splitTurns ar k n kFrozen uniform turns hassign ci).bind
        fun s ↦ splitTurn ar (k - kFrozen) n uniform turns s ci := by
  rw [splitTurns, List.range_succ, Lib.foldlM_concat]
  rfl

/-! ## The loops on centroids -/

section Centroids

variable (arith : FloatArith) (d : ℕ)

theorem accumulate_counts (kFrozen c0 c1 : ℕ) (assign : ℕ → ℤ) (vector : ℕ → List F32)
    (weights : Option (ℕ → F32)) (s : List F32 × List F32) (i : ℕ) :
    (accumulate arith d kFrozen c0 c1 assign vector weights s i).1 =
      countVector arith.counts kFrozen c0 c1 assign weights s.1 i := by
  unfold accumulate countVector
  dsimp only
  split
  · cases weights <;> rfl
  · rfl

theorem pickDonor_counts (k n : ℕ) (uniform : ℕ → F32) (hassign : List F32) (turns cj drawn : ℕ) :
    pickDonor arith.counts k n uniform hassign turns cj drawn =
      pickCluster arith k n uniform hassign turns cj drawn := by
  induction turns generalizing cj drawn with
  | zero => rfl
  | succ turns ih =>
      rw [pickDonor, pickCluster, ih]
      exact if_congr decide_eq_true_iff rfl rfl

/-- A turn of `split_clusters` splits counts as if there were no centroids. -/
theorem splitCluster_counts (k n kFrozen : ℕ) (around : Surroundings) (s : Splitting) (ci nsplit : ℕ) :
    (splitCluster arith d k n kFrozen around s ci).map (fun s ↦ (s.hassign, s.drawn)) =
      (splitTurn arith.counts k n around.uniform around.turns ⟨s.hassign, s.drawn, nsplit⟩ ci).map
        fun s ↦ (s.hassign, s.drawn) := by
  unfold splitCluster splitTurn
  dsimp only
  rw [pickDonor_counts]
  change Option.map _ (if (s.hassign.getD ci .zero).feq .zero = true then _ else _) =
    Option.map _ (if (s.hassign.getD ci .zero).feq .zero = true then _ else _)
  split
  · cases pickCluster arith k n around.uniform s.hassign around.turns 0 s.drawn <;> rfl
  · rfl

theorem foldlM_splitCluster_counts (k n kFrozen : ℕ) (around : Surroundings) (cis : List ℕ) (s : Splitting)
    (nsplit : ℕ) : (cis.foldlM (splitCluster arith d k n kFrozen around) s).map Splitting.hassign =
      (cis.foldlM (splitTurn arith.counts k n around.uniform around.turns)
        ⟨s.hassign, s.drawn, nsplit⟩).map SplitCounts.hassign := by
  induction cis generalizing s nsplit with
  | nil => rfl
  | cons ci cis ih =>
      have hstep := splitCluster_counts arith d k n kFrozen around s ci nsplit
      rw [List.foldlM_cons, List.foldlM_cons]
      cases hs : splitCluster arith d k n kFrozen around s ci <;>
        cases hc : splitTurn arith.counts k n around.uniform around.turns ⟨s.hassign, s.drawn, nsplit⟩ ci <;>
        rw [hs, hc] at hstep
      · rfl
      · cases hstep
      · cases hstep
      · next s' c =>
          obtain ⟨hassign, drawn, nsplit'⟩ := c
          obtain ⟨rfl, rfl⟩ := Prod.mk.inj (Option.some.inj hstep)
          exact ih s' nsplit'

end Centroids

/-! ## Counting -/

section Counting

variable {k n kFrozen threads : ℕ} {assign : ℕ → ℤ} {weights : Option (ℕ → ℚ)} {hassign : List ℚ}

/-- The number of vectors that are assigned to the cluster `ci` of those that are not frozen. -/
def assigned (n kFrozen : ℕ) (assign : ℕ → ℤ) (ci : ℕ) : ℕ :=
  ((range n).filter fun i ↦ assign i = (kFrozen + ci : ℕ)).card

/-- All vectors have weight 1. -/
def UnitWeights (n : ℕ) (weights : Option (ℕ → ℚ)) : Prop := ∀ w ∈ weights, ∀ i < n, w i = 1

theorem assigned_succ (i kFrozen : ℕ) (assign : ℕ → ℤ) (ci : ℕ) :
    assigned (i + 1) kFrozen assign ci =
      assigned i kFrozen assign ci + if assign i = (kFrozen + ci : ℕ) then 1 else 0 := by
  rw [assigned, assigned, range_add_one, filter_insert]
  split
  · exact card_insert_of_notMem fun hmem ↦ notMem_range_self (mem_filter.mp hmem).1
  · rfl

/-- A vector is counted by the thread that takes care of its cluster. -/
theorem getD_countVector (hw : UnitWeights n weights) {c0 c1 i : ℕ} (hi : i < n)
    (hc1 : c1 ≤ hassign.length) (ci : ℕ) :
    (countVector exactCounts kFrozen c0 c1 assign weights hassign i).getD ci 0 =
      hassign.getD ci 0 + if (c0 ≤ ci ∧ ci < c1) ∧ assign i = (kFrozen + ci : ℕ) then 1 else 0 := by
  have hone : weightOf exactCounts weights i = 1 := by
    cases weights with
    | none => rfl
    | some w => exact hw w rfl i hi
  unfold countVector
  dsimp only
  rw [hone]
  by_cases hmine : (c0 : ℤ) ≤ assign i - kFrozen ∧ assign i - kFrozen < c1
  · rw [if_pos hmine, Lib.getD_set]
    by_cases hci : (assign i - kFrozen).toNat = ci
    · subst hci
      rw [if_pos ⟨rfl, by omega⟩, if_pos ⟨by omega, by omega⟩]
      rfl
    · rw [if_neg fun h ↦ hci h.1, if_neg fun h ↦ hci (by omega), add_zero]
  · rw [if_neg hmine, if_neg fun h ↦ hmine (by omega), add_zero]

/-- A thread counts the vectors of its clusters. -/
theorem getD_countRows (hw : UnitWeights n weights) (kFrozen c0 : ℕ) (assign : ℕ → ℤ) {c1 : ℕ}
    (hc1 : c1 ≤ hassign.length) (ci : ℕ) :
    let r := (List.range n).foldl (countVector exactCounts kFrozen c0 c1 assign weights) hassign
    r.length = hassign.length ∧ r.getD ci 0 =
      hassign.getD ci 0 + if c0 ≤ ci ∧ ci < c1 then (assigned n kFrozen assign ci : ℚ) else 0 := by
  intro r
  refine Lib.foldl_range_invariant (fun m (t : List ℚ) ↦ t.length = hassign.length ∧
    t.getD ci 0 = hassign.getD ci 0 +
      if c0 ≤ ci ∧ ci < c1 then (assigned m kFrozen assign ci : ℚ) else 0) ⟨rfl, ?_⟩
    fun i hi t ⟨hlen, hget⟩ ↦ ⟨?_, ?_⟩
  · rw [assigned, range_zero, filter_empty, card_empty, Nat.cast_zero, ite_self, add_zero]
  · rw [← hlen, countVector]
    split
    · exact List.length_set
    · rfl
  · rw [getD_countVector hw hi (by omega), hget, assigned_succ]
    by_cases hmine : c0 ≤ ci ∧ ci < c1
    · rw [if_pos hmine, if_pos hmine, add_assoc]
      by_cases heq : assign i = (kFrozen + ci : ℕ)
      · rw [if_pos ⟨hmine, heq⟩, if_pos heq, Nat.cast_add, Nat.cast_one]
      · rw [if_neg fun h ↦ heq h.2, if_neg heq, add_zero, Nat.add_zero]
    · rw [if_neg hmine, if_neg hmine, if_neg fun h ↦ hmine h.1, add_zero]

theorem sum_mine (K threads ci : ℕ) (hci : ci < K) (ht : 0 < threads) (x : ℚ) :
    ∑ rank ∈ range threads,
      (if K * rank / threads ≤ ci ∧ ci < K * (rank + 1) / threads then x else 0) = x := by
  have hterm : ∀ rank ∈ range threads,
      (if K * rank / threads ≤ ci ∧ ci < K * (rank + 1) / threads then x else 0) =
        (if ci < K * (rank + 1) / threads then x else 0) -
          if ci < K * rank / threads then x else 0 := fun rank _ ↦ by
    have hmono : K * rank / threads ≤ K * (rank + 1) / threads :=
      Nat.div_le_div_right (Nat.mul_le_mul_left K (Nat.le_succ rank))
    by_cases hlt : ci < K * rank / threads
    · rw [if_neg fun h ↦ by omega, if_pos (by omega), if_pos hlt, sub_self]
    · rw [if_neg hlt, sub_zero]
      exact if_congr ⟨fun h ↦ h.2, fun h ↦ ⟨by omega, h⟩⟩ rfl rfl
  rw [sum_congr rfl hterm, Finset.sum_range_sub (fun rank ↦ if ci < K * rank / threads then x else 0),
    Nat.mul_div_cancel _ ht, if_pos hci, Nat.mul_zero, Nat.zero_div, if_neg (Nat.not_lt_zero ci),
    sub_zero]

/-- `compute_centroids` counts the vectors of each cluster that is not frozen. -/
theorem countVectors_eq (ht : 0 < threads)
    (hassign : ∀ i < n, 0 ≤ assign i ∧ assign i < k) (hw : UnitWeights n weights) :
    ∃ r, countVectors exactCounts k n kFrozen threads assign weights (List.replicate k 0) = some r ∧
      r.length = k ∧ ∀ ci < k - kFrozen, r.getD ci 0 = assigned n kFrozen assign ci := by
  have hrank : ∀ rank, (k - kFrozen) * (rank + 1) / threads ≤ k ∨ threads ≤ rank := fun rank ↦ by
    rcases Nat.lt_or_ge rank threads with hlt | hge
    · left
      calc (k - kFrozen) * (rank + 1) / threads
          ≤ (k - kFrozen) * threads / threads :=
            Nat.div_le_div_right (Nat.mul_le_mul_left _ hlt)
        _ = k - kFrozen := Nat.mul_div_cancel _ ht
        _ ≤ k := Nat.sub_le k kFrozen
    · exact Or.inr hge
  have hzero : ∀ ci, (List.replicate k (0 : ℚ)).getD ci 0 = 0 := fun ci ↦ by
    rw [List.getD_eq_getElem?_getD, List.getElem?_getD_replicate_default_eq]
  have hall : (List.range n).all (fun i ↦ decide (0 ≤ assign i ∧ assign i < k)) = true :=
    List.all_eq_true.mpr fun i hi ↦ decide_eq_true (hassign i (List.mem_range.mp hi))
  have hrun := fun ci ↦ Lib.foldl_range_invariant (n := threads)
    (s := List.replicate k (0 : ℚ))
    (f := fun t rank ↦ (List.range n).foldl (countVector exactCounts kFrozen
      ((k - kFrozen) * rank / threads) ((k - kFrozen) * (rank + 1) / threads) assign weights) t)
    (fun m (t : List ℚ) ↦ t.length = k ∧ t.getD ci 0 = ∑ rank ∈ range m,
      if (k - kFrozen) * rank / threads ≤ ci ∧ ci < (k - kFrozen) * (rank + 1) / threads then
        (assigned n kFrozen assign ci : ℚ) else 0)
    ⟨List.length_replicate, by rw [range_zero, Finset.sum_empty, hzero]⟩
    fun rank hr t ⟨hlen, hget⟩ ↦ by
      have hroom : (k - kFrozen) * (rank + 1) / threads ≤ t.length :=
        ((hrank rank).resolve_right (Nat.not_le_of_lt hr)).trans_eq hlen.symm
      obtain ⟨hlen', hget'⟩ := getD_countRows hw kFrozen ((k - kFrozen) * rank / threads) assign
        hroom ci
      exact ⟨hlen'.trans hlen, by rw [hget', hget, Finset.sum_range_succ]⟩
  refine ⟨_, if_pos hall, (hrun 0).1, fun ci hci ↦ ?_⟩
  exact (hrun ci).2.trans (sum_mine (k - kFrozen) threads ci hci ht _)

end Counting

/-! ## Splitting -/

/-- In every run of `split_clusters` on `hassign`, whatever the random floats are: each time a donor is
looked for, there is a cluster with more than one point; and on return all numbers are positive, their
sum is what it was, and the number of empty clusters is returned. -/
def SplitsWell (k n kFrozen : ℕ) (hassign : List ℚ) : Prop :=
  ∀ uniform : ℕ → ℚ, (∀ i, 0 ≤ uniform i ∧ uniform i ≤ 1) → ∀ turns,
    (∀ ci < k - kFrozen, ∀ s, splitTurns exactCounts k n kFrozen uniform turns hassign ci = some s →
      s.hassign.getD ci 0 = 0 → ∃ cj < k - kFrozen, 1 < s.hassign.getD cj 0) ∧
    ∀ s, splitTurns exactCounts k n kFrozen uniform turns hassign (k - kFrozen) = some s →
      (∀ ci < k - kFrozen, 0 < s.hassign.getD ci 0) ∧
      ∑ ci ∈ range (k - kFrozen), s.hassign.getD ci 0 =
        ∑ ci ∈ range (k - kFrozen), hassign.getD ci 0 ∧
      s.nsplit = ((range (k - kFrozen)).filter fun ci ↦ hassign.getD ci 0 = 0).card

section Splitting

variable {K n : ℕ} {uniform : ℕ → ℚ} {hassign : List ℚ}

theorem one_lt_of_pickDonor (hn : K < n) (huniform : ∀ i, 0 ≤ uniform i) {turns cj drawn c drawn' : ℕ}
    (hcj : cj < K) (h : pickDonor exactCounts K n uniform hassign turns cj drawn = some (c, drawn')) :
    c < K ∧ 1 < hassign.getD c 0 := by
  induction turns generalizing cj drawn with
  | zero => exact absurd h.symm (Option.some_ne_none _)
  | succ turns ih =>
      rw [pickDonor] at h
      split at h
      · rename_i hlt
        obtain ⟨rfl, -⟩ := Prod.mk.inj (Option.some.inj h)
        have hpos : (0 : ℚ) < ((n - K : ℕ) : ℚ) := Nat.cast_pos.mpr (Nat.sub_pos_of_lt hn)
        have hp : 0 < (hassign.getD cj 0 - 1) / ((n - K : ℕ) : ℚ) :=
          (huniform drawn).trans_lt (of_decide_eq_true hlt)
        exact ⟨hcj, by linarith [(div_pos_iff_of_pos_right hpos).mp hp]⟩
      · exact ih (Nat.mod_lt _ (by omega)) h

/-- With random floats that are 0, the first cluster with more than one point is picked. -/
theorem pickDonor_isSome (hn : K < n) {c cj : ℕ} (hle : cj ≤ c) (hc : c < K)
    (hmany : 1 < hassign.getD c 0) {turns : ℕ} (hturns : c - cj < turns) (drawn : ℕ) :
    (pickDonor exactCounts K n (fun _ ↦ 0) hassign turns cj drawn).isSome := by
  induction turns generalizing cj drawn with
  | zero => omega
  | succ turns ih =>
      rw [pickDonor]
      split
      · rfl
      · rename_i hnot
        have hne : cj ≠ c := by
          rintro rfl
          refine hnot (decide_eq_true ?_)
          exact div_pos (sub_pos.mpr hmany) (Nat.cast_pos.mpr (Nat.sub_pos_of_lt hn))
        rw [Nat.mod_eq_of_lt (by omega)]
        exact ih (by omega) (by omega) _

/-- What `ci` turns of the loop leave behind. -/
structure SplitCounts.At (K : ℕ) (hassign : List ℚ) (ci : ℕ) (s : SplitCounts ℚ) : Prop where
  length : K ≤ s.hassign.length
  nonneg : ∀ j < K, 0 ≤ s.hassign.getD j 0
  filled : ∀ j < ci, 0 < s.hassign.getD j 0
  rest : ∀ j < K, ci ≤ j → (s.hassign.getD j 0 = 0 ↔ hassign.getD j 0 = 0)
  sum : ∑ j ∈ range K, s.hassign.getD j 0 = ∑ j ∈ range K, hassign.getD j 0
  halvings : ∑ j ∈ range K, halvings (s.hassign.getD j 0) + s.nsplit =
    ∑ j ∈ range K, halvings (hassign.getD j 0)
  nsplit : s.nsplit = ((range ci).filter fun j ↦ hassign.getD j 0 = 0).card

variable {s s' : SplitCounts ℚ} {ci : ℕ}

theorem SplitCounts.at_zero (hlen : K ≤ hassign.length) (hnonneg : ∀ j < K, 0 ≤ hassign.getD j 0) :
    At K hassign 0 ⟨hassign, 0, 0⟩ :=
  ⟨hlen, hnonneg, fun j hj ↦ absurd hj (Nat.not_lt_zero j), fun _ _ _ ↦ Iff.rfl, rfl, rfl, rfl⟩

theorem getD_split {h : List ℚ} {ci cj : ℕ} (hci : ci < h.length) (hcj : cj < h.length)
    (hne : ci ≠ cj) (j : ℕ) :
    ((h.set ci (h.getD cj 0 / 2)).set cj
        ((h.set ci (h.getD cj 0 / 2)).getD cj 0 - h.getD cj 0 / 2)).getD j 0 =
      Lib.split (fun j ↦ h.getD j 0) ci cj (h.getD cj 0 / 2) j := by
  have hdonor : (h.set ci (h.getD cj 0 / 2)).getD cj 0 = h.getD cj 0 := by
    rw [Lib.getD_set, if_neg fun heq ↦ hne heq.1]
  rw [hdonor, Lib.split, Lib.getD_set, Lib.getD_set, List.length_set]
  by_cases hj : cj = j
  · subst hj
    rw [if_pos ⟨rfl, hcj⟩, Function.update_self]
  · rw [if_neg fun h ↦ hj h.1, Function.update_of_ne (Ne.symm hj)]
    by_cases hi : ci = j
    · subst hi
      rw [if_pos ⟨rfl, hci⟩, Function.update_self]
    · rw [if_neg fun h ↦ hi h.1, Function.update_of_ne (Ne.symm hi)]

theorem SplitCounts.At.splitTurn (h : s.At K hassign ci) (hci : ci < K) (hn : K < n)
    (huniform : ∀ i, 0 ≤ uniform i) {turns : ℕ}
    (hs : FaissNavix.splitTurn exactCounts K n uniform turns s ci = some s') :
    s'.At K hassign (ci + 1) := by
  have hcount : ((range (ci + 1)).filter fun j ↦ hassign.getD j 0 = 0).card =
      ((range ci).filter fun j ↦ hassign.getD j 0 = 0).card +
        if hassign.getD ci 0 = 0 then 1 else 0 := by
    rw [range_add_one, filter_insert]
    split
    · exact card_insert_of_notMem fun hmem ↦ notMem_range_self (mem_filter.mp hmem).1
    · rfl
  unfold FaissNavix.splitTurn at hs
  split at hs
  · rename_i hzero
    replace hzero : s.hassign.getD ci 0 = 0 := of_decide_eq_true hzero
    obtain ⟨⟨cj, drawn⟩, hpick, hs⟩ := Option.bind_eq_some_iff.mp hs
    obtain rfl := Option.some.inj hs
    obtain ⟨hcj, hmany⟩ := one_lt_of_pickDonor hn huniform (Nat.zero_lt_of_lt hci) hpick
    have hne : ci ≠ cj := by
      rintro rfl
      rw [hzero] at hmany
      exact absurd hmany (by norm_num)
    have hget := getD_split (hci.trans_le h.length) (hcj.trans_le h.length) hne
    have hsplit : ∀ j, j ≠ ci → j ≠ cj →
        Lib.split (fun j ↦ s.hassign.getD j 0) ci cj (s.hassign.getD cj 0 / 2) j =
          s.hassign.getD j 0 := fun j hi hj ↦ by
      rw [Lib.split, Function.update_of_ne hj, Function.update_of_ne hi]
    have hhalf : ∀ j, j = ci ∨ j = cj →
        Lib.split (fun j ↦ s.hassign.getD j 0) ci cj (s.hassign.getD cj 0 / 2) j =
          s.hassign.getD cj 0 / 2 := by
      rintro j (rfl | rfl)
      · rw [Lib.split, Function.update_of_ne hne, Function.update_self]
      · rw [Lib.split, Function.update_self, sub_half]
    have hpos : 0 < s.hassign.getD cj 0 / 2 := by linarith
    have hkeep : ∀ j, 0 < s.hassign.getD j 0 →
        0 < Lib.split (fun j ↦ s.hassign.getD j 0) ci cj (s.hassign.getD cj 0 / 2) j := fun j hj ↦ by
      by_cases hor : j = ci ∨ j = cj
      · rwa [hhalf j hor]
      · rw [not_or] at hor
        rwa [hsplit j hor.1 hor.2]
    have hmem : ∀ {j}, j < K → j ∈ range K := fun hj ↦ Finset.mem_range.mpr hj
    refine ⟨?_, fun j hj ↦ ?_, fun j hj ↦ ?_, fun j hj hle ↦ ?_, ?_, ?_, ?_⟩
    · exact h.length.trans_eq (by rw [List.length_set, List.length_set])
    · refine (hget j).symm ▸ ?_
      by_cases hor : j = ci ∨ j = cj
      · exact (hhalf j hor).symm ▸ hpos.le
      · rw [not_or] at hor
        exact (hsplit j hor.1 hor.2).symm ▸ h.nonneg j hj
    · refine (hget j).symm ▸ ?_
      rcases Nat.lt_succ_iff_lt_or_eq.mp hj with hj | rfl
      · exact hkeep j (h.filled j hj)
      · exact (hhalf j (Or.inl rfl)).symm ▸ hpos
    · rw [← h.rest j hj (by omega)]
      refine (hget j).symm ▸ ?_
      by_cases heq : j = cj
      · subst heq
        exact iff_of_false (hkeep j (by linarith)).ne' (by linarith)
      · rw [hsplit j (by omega) heq]
    · rw [← h.sum, ← Lib.sum_split (g := fun j ↦ s.hassign.getD j 0) (hmem hci) (hmem hcj) hne hzero]
      exact sum_congr rfl fun j _ ↦ hget j
    · rw [← h.halvings, ← Lib.sum_halvings_split (g := fun j ↦ s.hassign.getD j 0) (hmem hci)
        (hmem hcj) hne hzero hmany, Nat.add_assoc, Nat.add_comm 1]
      exact congrArg (· + (s.nsplit + 1)) (sum_congr rfl fun j _ ↦ congrArg Lib.halvings (hget j))
    · rw [hcount, if_pos ((h.rest ci hci le_rfl).mp hzero), ← h.nsplit]
  · rename_i hnot
    obtain rfl := Option.some.inj hs
    have hpos : 0 < s.hassign.getD ci 0 :=
      lt_of_le_of_ne (h.nonneg ci hci) fun h0 ↦ hnot (decide_eq_true h0.symm)
    refine ⟨h.length, h.nonneg, fun j hj ↦ ?_, fun j hj hle ↦ h.rest j hj (by omega), h.sum,
      h.halvings, ?_⟩
    · rcases Nat.lt_succ_iff_lt_or_eq.mp hj with hj | rfl
      · exact h.filled j hj
      · exact hpos
    · rw [hcount, if_neg fun h0 ↦ hpos.ne' ((h.rest ci hci le_rfl).mpr h0), h.nsplit, Nat.add_zero]

theorem SplitCounts.at_splitTurns {k kFrozen turns : ℕ} (hn : k - kFrozen < n)
    (huniform : ∀ i, 0 ≤ uniform i) (hlen : k - kFrozen ≤ hassign.length)
    (hnonneg : ∀ j < k - kFrozen, 0 ≤ hassign.getD j 0) (hci : ci ≤ k - kFrozen)
    (hs : splitTurns exactCounts k n kFrozen uniform turns hassign ci = some s) :
    s.At (k - kFrozen) hassign ci := by
  induction ci generalizing s with
  | zero =>
      obtain rfl := Option.some.inj hs
      exact at_zero hlen hnonneg
  | succ ci ih =>
      rw [splitTurns_succ] at hs
      obtain ⟨s₁, hs₁, hs⟩ := Option.bind_eq_some_iff.mp hs
      exact (ih (by omega) hs₁).splitTurn (by omega) hn huniform hs

/-- Every search ends, and all that is said of what is returned holds, exactly if the numbers of points
can be halved as often as one of them is 0. -/
theorem splitsWell_iff_halvings {k kFrozen : ℕ} (hn : k - kFrozen < n)
    (hlen : k - kFrozen ≤ hassign.length) (hnonneg : ∀ j < k - kFrozen, 0 ≤ hassign.getD j 0) :
    SplitsWell k n kFrozen hassign ↔
      ((range (k - kFrozen)).filter fun ci ↦ hassign.getD ci 0 = 0).card ≤
        ∑ ci ∈ range (k - kFrozen), halvings (hassign.getD ci 0) := by
  constructor
  · intro hwell
    obtain ⟨hdonor, -⟩ := hwell (fun _ ↦ 0) (fun _ ↦ ⟨le_rfl, zero_le_one⟩) (k - kFrozen)
    have hrun : ∀ ci ≤ k - kFrozen, ∃ s,
        splitTurns exactCounts k n kFrozen (fun _ ↦ 0) (k - kFrozen) hassign ci = some s := by
      intro ci hci
      induction ci with
      | zero => exact ⟨_, rfl⟩
      | succ ci ih =>
          obtain ⟨s, hs⟩ := ih (by omega)
          have hstep : ∃ s', splitTurn exactCounts (k - kFrozen) n (fun _ ↦ 0) (k - kFrozen) s ci =
              some s' := by
            unfold splitTurn
            split
            · rename_i hzero
              obtain ⟨cj, hcj, hmany⟩ := hdonor ci (by omega) s hs (of_decide_eq_true hzero)
              obtain ⟨r, hr⟩ := Option.isSome_iff_exists.mp
                (pickDonor_isSome hn (Nat.zero_le cj) hcj hmany (by omega) s.drawn)
              rw [hr]
              exact ⟨_, rfl⟩
            · exact ⟨s, rfl⟩
          rwa [splitTurns_succ, hs]
    obtain ⟨s, hs⟩ := hrun (k - kFrozen) le_rfl
    have hend := SplitCounts.at_splitTurns hn (fun _ ↦ le_rfl) hlen hnonneg le_rfl hs
    rw [← hend.nsplit, ← hend.halvings]
    exact Nat.le_add_left _ _
  · intro hle uniform huniform turns
    refine ⟨fun ci hci s hs hzero ↦ ?_, fun s hs ↦ ?_⟩
    · -- this cluster is not among those that the halvings so far were for
      have h := SplitCounts.at_splitTurns hn (fun i ↦ (huniform i).1) hlen hnonneg hci.le hs
      have hmore : s.nsplit < ((range (k - kFrozen)).filter fun ci ↦ hassign.getD ci 0 = 0).card := by
        rw [h.nsplit]
        refine Finset.card_lt_card ⟨fun j hj ↦ ?_, fun hsub ↦ ?_⟩
        · obtain ⟨hj, h0⟩ := mem_filter.mp hj
          exact mem_filter.mpr ⟨Finset.mem_range.mpr ((Finset.mem_range.mp hj).trans hci), h0⟩
        · exact absurd (mem_filter.mp (hsub (mem_filter.mpr ⟨Finset.mem_range.mpr hci,
            (h.rest ci hci le_rfl).mp hzero⟩))).1 notMem_range_self
      by_contra hnone
      have hsum : ∑ j ∈ range (k - kFrozen), halvings (s.hassign.getD j 0) = 0 :=
        Finset.sum_eq_zero fun j hj ↦ Lib.halvings_of_le_one
          (not_lt.mp fun hmany ↦ hnone ⟨j, Finset.mem_range.mp hj, hmany⟩)
      have := h.halvings
      omega
    · have h := SplitCounts.at_splitTurns hn (fun i ↦ (huniform i).1) hlen hnonneg le_rfl hs
      exact ⟨h.filled, h.sum, h.nsplit⟩

theorem halvings_natCast (a : ℕ) : halvings (a : ℚ) = 2 ^ Nat.clog 2 a - 1 := by
  rw [halvings, Nat.ceil_natCast]

end Splitting

/-- All vectors are assigned to some cluster, so that without frozen centroids, there are halvings
enough. -/
theorem card_empty_le_of_not_frozen {k n : ℕ} (hn : k < n) {assign : ℕ → ℤ}
    (hassign : ∀ i < n, 0 ≤ assign i ∧ assign i < k) :
    ((range k).filter fun ci ↦ assigned n 0 assign ci = 0).card ≤
      ∑ ci ∈ range k, (2 ^ Nat.clog 2 (assigned n 0 assign ci) - 1) := by
  have htotal : ∑ ci ∈ range k, assigned n 0 assign ci = n := by
    have hmaps : ∀ i ∈ range n, (assign i).toNat ∈ range k := fun i hi ↦ by
      have := hassign i (Finset.mem_range.mp hi)
      exact Finset.mem_range.mpr (by omega)
    have hfibers := Finset.card_eq_sum_card_fiberwise hmaps
    rw [Finset.card_range] at hfibers
    refine Eq.trans (sum_congr rfl fun ci _ ↦ ?_) hfibers.symm
    refine congrArg Finset.card (Finset.filter_congr fun i hi ↦ ?_)
    have := hassign i (Finset.mem_range.mp hi)
    omega
  have hcard : ((range k).filter fun ci ↦ assigned n 0 assign ci = 0).card =
      ∑ ci ∈ range k, if assigned n 0 assign ci = 0 then 1 else 0 := Finset.card_filter _ _
  have hterm : ∀ ci ∈ range k, assigned n 0 assign ci + (if assigned n 0 assign ci = 0 then 1 else 0) ≤
      2 ^ Nat.clog 2 (assigned n 0 assign ci) - 1 + 1 := fun ci _ ↦ by
    have hpow := Nat.le_pow_clog Nat.one_lt_two (assigned n 0 assign ci)
    have hpos : 1 ≤ 2 ^ Nat.clog 2 (assigned n 0 assign ci) := Nat.one_le_two_pow
    split <;> omega
  have hsum := Finset.sum_le_sum hterm
  rw [Finset.sum_add_distrib, Finset.sum_add_distrib, htotal, ← hcard, ← Finset.card_eq_sum_ones,
    Finset.card_range] at hsum
  omega

/-- After `compute_centroids` with unit weights, `split_clusters` finds a donor whenever it looks for
one, and returns what it should, exactly if there are no more empty clusters than there are halvings of
the numbers of points of the clusters that are not frozen: `2 ^ ⌈log₂ a⌉ - 1` for `a` points. -/
theorem splits_well_iff (k n kFrozen threads : ℕ) (assign : ℕ → ℤ) (weights : Option (ℕ → ℚ))
    (hn : k < n) (ht : 0 < threads) (hassign : ∀ i < n, 0 ≤ assign i ∧ assign i < k)
    (hw : UnitWeights n weights) :
    ∃ r, countVectors exactCounts k n kFrozen threads assign weights (List.replicate k 0) = some r ∧
      (SplitsWell k n kFrozen r ↔
        ((range (k - kFrozen)).filter fun ci ↦ assigned n kFrozen assign ci = 0).card ≤
          ∑ ci ∈ range (k - kFrozen), (2 ^ Nat.clog 2 (assigned n kFrozen assign ci) - 1)) := by
  obtain ⟨r, hrun, hlen, hget⟩ := countVectors_eq ht hassign hw
  refine ⟨r, hrun, ?_⟩
  have hle : k - kFrozen ≤ r.length := (Nat.sub_le k kFrozen).trans_eq hlen.symm
  rw [splitsWell_iff_halvings ((Nat.sub_le k kFrozen).trans_lt hn) hle fun j hj ↦ by
    rw [hget j hj]
    exact Nat.cast_nonneg _]
  have hempty : ((range (k - kFrozen)).filter fun ci ↦ r.getD ci 0 = 0) =
      (range (k - kFrozen)).filter fun ci ↦ assigned n kFrozen assign ci = 0 :=
    Finset.filter_congr fun ci hci ↦ by rw [hget ci (Finset.mem_range.mp hci), Nat.cast_eq_zero]
  rw [hempty, sum_congr rfl fun ci hci ↦ by rw [hget ci (Finset.mem_range.mp hci), halvings_natCast]]

/-- Three vectors in one of two clusters, none of them frozen. -/
theorem splits_well_iff_two : ∃ r,
    countVectors exactCounts 2 3 0 1 (fun _ ↦ 0) none (List.replicate 2 0) = some r ∧
      SplitsWell 2 3 0 r := by
  have hassign : ∀ i < 3, 0 ≤ (fun _ ↦ 0 : ℕ → ℤ) i ∧ (fun _ ↦ 0 : ℕ → ℤ) i < (2 : ℕ) :=
    fun _ _ ↦ ⟨le_rfl, Int.natCast_pos.mpr two_pos⟩
  obtain ⟨r, hr, hiff⟩ := splits_well_iff 2 3 0 1 (fun _ ↦ 0) none (by decide) one_pos hassign
    fun w hw ↦ absurd hw (Option.not_mem_none w)
  exact ⟨r, hr, hiff.mpr (card_empty_le_of_not_frozen (by decide) hassign)⟩

/-- Three vectors in a frozen cluster: there is none that can be split for the other one. -/
theorem not_splitsWell_frozen : ∃ r,
    countVectors exactCounts 2 3 1 1 (fun _ ↦ 0) none (List.replicate 2 0) = some r ∧
      ¬SplitsWell 2 3 1 r := by
  refine ⟨[0, 0], rfl, fun h ↦ ?_⟩
  obtain ⟨hdonor, -⟩ := h (fun _ ↦ 0) (fun _ ↦ ⟨le_rfl, zero_le_one⟩) 1
  obtain ⟨cj, hcj, hmany⟩ := hdonor 0 one_pos _ rfl rfl
  obtain rfl : cj = 0 := Nat.lt_one_iff.mp hcj
  exact absurd hmany (by decide)

end FaissNavix
