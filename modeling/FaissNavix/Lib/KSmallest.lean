import Mathlib.Algebra.BigOperators.Group.Finset.Basic
import Mathlib.Data.Multiset.Sort

/-!
# The `k` smallest elements of a multiset

`KSmallest w k S T` says that `T` is made of `k` elements of `S` of smallest weight, or of all of
`S` when there are fewer than `k`.  Ties may be broken in any way, so that `T` is not determined
by `S`; its weights are (`KSmallest.map_eq`).

The lemmas on `x ::ₘ S` are the steps of an online selection: an element is kept while there is
room, dropped if it is no lighter than what is kept, and takes the place of a heaviest kept
element otherwise.
-/

namespace Lib

variable {α β : Type*} [LinearOrder β]

/-- `T` is what a selection of at most `k` elements keeps when it drops `R`. -/
structure Keeps (w : α → β) (k : ℕ) (T R : Multiset α) : Prop where
  card_le : T.card ≤ k
  full : R ≠ 0 → T.card = k
  le : ∀ x ∈ T, ∀ y ∈ R, w x ≤ w y

/-- `T` consists of `k` lightest elements of `S`, or of all of them. -/
def KSmallest (w : α → β) (k : ℕ) (S T : Multiset α) : Prop :=
  ∃ R, S = T + R ∧ Keeps w k T R

namespace KSmallest

variable {w : α → β} {k l : ℕ} {S T T' U : Multiset α} {x t : α}

theorem self (h : S.card ≤ k) : KSmallest w k S S :=
  ⟨0, by simp, h, fun h0 ↦ absurd rfl h0, fun _ _ _ hy ↦ absurd hy (Multiset.notMem_zero _)⟩

theorem sub (h : KSmallest w k S T) : T ≤ S := by
  obtain ⟨R, rfl, -⟩ := h
  exact Multiset.le_add_right T R

theorem card_le (h : KSmallest w k S T) : T.card ≤ k := by
  obtain ⟨R, -, hR⟩ := h
  exact hR.card_le

theorem card_eq (h : KSmallest w k S T) : T.card = min k S.card := by
  obtain ⟨R, rfl, hR⟩ := h
  rw [Multiset.card_add]
  by_cases h0 : R = 0
  · rw [h0, Multiset.card_zero, add_zero, min_eq_right hR.card_le]
  · rw [hR.full h0, min_eq_left (Nat.le_add_right _ _)]

theorem eq_of_card_le (h : KSmallest w k S T) (hk : S.card ≤ k) : T = S :=
  Multiset.eq_of_le_of_card_le h.sub (by rw [h.card_eq, min_eq_right hk])

theorem cons_of_card_lt (h : KSmallest w k S T) (hk : S.card < k) :
    KSmallest w k (x ::ₘ S) (x ::ₘ T) := by
  rw [h.eq_of_card_le hk.le]
  exact self (by rw [Multiset.card_cons]; exact hk)

theorem cons_of_le (h : KSmallest w k S T) (hk : T.card = k) (hx : ∀ y ∈ T, w y ≤ w x) :
    KSmallest w k (x ::ₘ S) T := by
  obtain ⟨R, rfl, hR⟩ := h
  refine ⟨x ::ₘ R, by rw [Multiset.add_cons], hR.card_le, fun _ ↦ hk, ?_⟩
  intro y hy z hz
  rcases Multiset.mem_cons.mp hz with rfl | hz
  · exact hx y hy
  · exact hR.le y hy z hz

/-- A lighter element takes the place of a heaviest one. -/
theorem cons_replace (h : KSmallest w k S (t ::ₘ T)) (hk : (t ::ₘ T).card = k)
    (hmax : ∀ y ∈ T, w y ≤ w t) (hx : w x ≤ w t) : KSmallest w k (x ::ₘ S) (x ::ₘ T) := by
  obtain ⟨R, rfl, hR⟩ := h
  rw [Multiset.card_cons] at hk
  refine ⟨t ::ₘ R, ?_, ?_, fun _ ↦ ?_, ?_⟩
  · rw [Multiset.cons_add, Multiset.cons_add, Multiset.add_cons]
  · rw [Multiset.card_cons, hk]
  · rw [Multiset.card_cons, hk]
  · intro y hy z hz
    have hyt : w y ≤ w t := by
      rcases Multiset.mem_cons.mp hy with rfl | hy
      · exact hx
      · exact hmax y hy
    rcases Multiset.mem_cons.mp hz with rfl | hz
    · exact hyt
    · exact hyt.trans (hR.le t (Multiset.mem_cons_self _ _) z hz)

theorem cons_drop [DecidableEq α] (h : KSmallest w k S T) (hk : T.card = k)
    (hT : x ::ₘ T = t ::ₘ T') (hmax : ∀ y ∈ x ::ₘ T, w y ≤ w t) :
    KSmallest w k (x ::ₘ S) T' := by
  rcases Multiset.cons_eq_cons.mp hT with ⟨rfl, rfl⟩ | ⟨-, U, rfl, rfl⟩
  · exact h.cons_of_le hk fun y hy ↦ hmax y (Multiset.mem_cons_of_mem hy)
  · refine h.cons_replace hk (fun y hy ↦ hmax y ?_) (hmax x (Multiset.mem_cons_self _ _))
    exact Multiset.mem_cons_of_mem (Multiset.mem_cons_of_mem hy)

/-- Selecting twice, first more and then fewer, is selecting once. -/
theorem trans (h : KSmallest w l S T) (h' : KSmallest w k T U) (hkl : k ≤ l) :
    KSmallest w k S U := by
  obtain ⟨R, rfl, hR⟩ := h
  obtain ⟨R', rfl, hR'⟩ := h'
  refine ⟨R' + R, by rw [add_assoc], hR'.card_le, fun h0 ↦ ?_, ?_⟩
  · by_cases h1 : R' = 0
    · have hlen := hR.full (by simpa [h1] using h0)
      rw [h1, add_zero] at hlen
      have := hR'.card_le
      omega
    · exact hR'.full h1
  · intro x hx y hy
    rcases Multiset.mem_add.mp hy with hy | hy
    · exact hR'.le x hx y hy
    · exact hR.le x (Multiset.mem_add.mpr (Or.inl hx)) y hy

/-- A multiset of images that falls in two parts comes from two parts. -/
theorem exists_add_of_map_eq_add {γ : Type*} {f : γ → α} {S : Multiset γ} (h : S.map f = T + U) :
    ∃ T' U', S = T' + U' ∧ T'.map f = T ∧ U'.map f = U := by
  classical
  induction T using Multiset.induction_on generalizing S with
  | empty => exact ⟨0, S, by simp, rfl, by simpa using h⟩
  | cons a T ih =>
      rw [Multiset.cons_add] at h
      obtain ⟨c, hc, rfl, herase⟩ := (Multiset.map_eq_cons f S (T + U) a).mpr h
      obtain ⟨T', U', hS, hT, hU⟩ := ih herase
      refine ⟨c ::ₘ T', U', ?_, by rw [Multiset.map_cons, hT], hU⟩
      rw [Multiset.cons_add, ← hS, Multiset.cons_erase hc]

theorem of_map {γ : Type*} {f : γ → α} {S : Multiset γ} (h : KSmallest w k (S.map f) T) :
    ∃ T', KSmallest (fun x ↦ w (f x)) k S T' ∧ T'.map f = T := by
  obtain ⟨R, hS, hR⟩ := h
  obtain ⟨T', R', rfl, rfl, rfl⟩ := exists_add_of_map_eq_add hS
  refine ⟨T', ⟨R', rfl, by simpa using hR.card_le, fun h0 ↦ ?_, fun x hx y hy ↦ ?_⟩, rfl⟩
  · simpa using hR.full (by simpa using h0)
  · exact hR.le _ (Multiset.mem_map_of_mem f hx) _ (Multiset.mem_map_of_mem f hy)

/-- How many of the kept elements pass a test that a lighter element passes as well. -/
theorem countP_eq (h : KSmallest w k S T) (p : β → Prop) [DecidablePred p]
    (hp : ∀ a b, a ≤ b → p b → p a) :
    T.countP (fun x ↦ p (w x)) = min k (S.countP fun x ↦ p (w x)) := by
  obtain ⟨R, rfl, hR⟩ := h
  have hle : T.countP (fun x ↦ p (w x)) ≤ T.card := Multiset.countP_le_card _ _
  rw [Multiset.countP_add]
  by_cases hex : ∃ y ∈ R, p (w y)
  · obtain ⟨y, hy, hpy⟩ := hex
    have hall : T.countP (fun x ↦ p (w x)) = T.card :=
      Multiset.countP_eq_card.mpr fun x hx ↦ hp _ _ (hR.le x hx y hy) hpy
    have hk := hR.full (fun h0 ↦ by rw [h0] at hy; exact Multiset.notMem_zero _ hy)
    rw [hall, hk, min_eq_left (Nat.le_add_right _ _)]
  · have hnone : R.countP (fun x ↦ p (w x)) = 0 :=
      Multiset.countP_eq_zero.mpr fun y hy hpy ↦ hex ⟨y, hy, hpy⟩
    rw [hnone, add_zero, min_eq_right (hle.trans hR.card_le)]

/-- Elements that `k` elements are as light as do not change a selection. -/
theorem add_of_le_countP {D : Multiset α} (h : KSmallest w k S T)
    (hD : ∀ y ∈ D, k ≤ S.countP fun x ↦ w x ≤ w y) : KSmallest w k (S + D) T := by
  have hlight : ∀ y ∈ D, T.card = k ∧ ∀ x ∈ T, w x ≤ w y := by
    intro y hy
    have hc := h.countP_eq (· ≤ w y) fun _ _ ↦ le_trans
    rw [min_eq_left (hD y hy)] at hc
    have hle : T.countP (fun x ↦ w x ≤ w y) ≤ T.card := Multiset.countP_le_card _ _
    have hcard : T.card = k := le_antisymm h.card_le (hc ▸ hle)
    exact ⟨hcard, Multiset.countP_eq_card.mp (hc.trans hcard.symm)⟩
  obtain ⟨R, rfl, hR⟩ := h
  refine ⟨R + D, by rw [add_assoc], hR.card_le, fun h0 ↦ ?_, fun x hx y hy ↦ ?_⟩
  · by_cases h1 : R = 0
    · obtain ⟨y, hy⟩ := Multiset.exists_mem_of_ne_zero (show D ≠ 0 by simpa [h1] using h0)
      exact (hlight y hy).1
    · exact hR.full h1
  · rcases Multiset.mem_add.mp hy with hy | hy
    · exact hR.le x hx y hy
    · exact (hlight y hy).2 x hx

/-- Selecting from `S` and from what was selected from `U` is selecting from both. -/
theorem add_smallest {U' : Multiset α} (h : KSmallest w k (S + U') T) (hU : KSmallest w k U U') :
    KSmallest w k (S + U) T := by
  obtain ⟨R, rfl, hR⟩ := hU
  rw [← add_assoc]
  refine h.add_of_le_countP fun y hy ↦ ?_
  have hcard : U'.card = k := hR.full fun h0 ↦ by
    rw [h0] at hy
    exact Multiset.notMem_zero y hy
  have hall : U'.countP (fun x ↦ w x ≤ w y) = U'.card :=
    Multiset.countP_eq_card.mpr fun x hx ↦ hR.le x hx y hy
  rw [Multiset.countP_add, hall, hcard]
  exact Nat.le_add_left _ _

/-- An element that at most `k` elements are as light as is kept. -/
theorem mem_of_countP_le (h : KSmallest w k S T) (hx : x ∈ S)
    (hk : S.countP (fun y ↦ w y ≤ w x) ≤ k) : x ∈ T := by
  have hc := h.countP_eq (· ≤ w x) fun _ _ ↦ le_trans
  obtain ⟨R, rfl, -⟩ := h
  rw [min_eq_right hk, Multiset.countP_add] at hc
  have hR : R.countP (fun y ↦ w y ≤ w x) = 0 := by omega
  exact (Multiset.mem_add.mp hx).resolve_right fun hxR ↦ Multiset.countP_eq_zero.mp hR x hxR le_rfl

/-- The weights of the `k` smallest elements do not depend on how ties are broken. -/
theorem map_eq (h : KSmallest w k S T) (h' : KSmallest w k S T') : T.map w = T'.map w := by
  have key : ∀ {M : Multiset α} (b : β),
      (M.map w).count b + M.countP (fun x ↦ w x < b) = M.countP fun x ↦ w x ≤ b := by
    intro M b
    rw [Multiset.count_map, ← Multiset.countP_eq_card_filter]
    induction M using Multiset.induction_on with
    | empty => simp
    | cons x M ih =>
        simp only [Multiset.countP_cons]
        rcases lt_trichotomy (w x) b with hx | hx | hx
        · simp only [hx, hx.le, hx.ne', if_true, if_false]; omega
        · simp only [hx, lt_irrefl, le_refl, if_true, if_false]; omega
        · simp only [hx.not_gt, hx.not_ge, hx.ne, if_false]; omega
  ext b
  have h1 := key (M := T) b
  have h2 := key (M := T') b
  rw [h.countP_eq (· < b) fun _ _ h1 h2 ↦ lt_of_le_of_lt h1 h2,
    h.countP_eq (· ≤ b) fun _ _ ↦ le_trans] at h1
  rw [h'.countP_eq (· < b) fun _ _ h1 h2 ↦ lt_of_le_of_lt h1 h2,
    h'.countP_eq (· ≤ b) fun _ _ ↦ le_trans] at h2
  omega

/-- There is a selection, in order. -/
theorem exists_sorted (k : ℕ) (S : Multiset β) :
    ∃ T : List β, KSmallest id k S ↑T ∧ T.Pairwise (· ≤ ·) := by
  have hsorted : (S.sort (· ≤ ·)).Pairwise (· ≤ ·) := Multiset.pairwise_sort S _
  have hsplit := List.take_append_drop k (S.sort (· ≤ ·))
  refine ⟨(S.sort (· ≤ ·)).take k, ⟨↑((S.sort (· ≤ ·)).drop k), ?_, ?_, fun hne ↦ ?_, ?_⟩, ?_⟩
  · rw [Multiset.coe_add, hsplit, Multiset.sort_eq]
  · rw [Multiset.coe_card, List.length_take]
    exact min_le_left _ _
  · rw [Multiset.coe_card, List.length_take]
    refine min_eq_left (le_of_lt (Nat.lt_of_not_le fun hle ↦ hne ?_))
    rw [List.drop_eq_nil_of_le hle]
    rfl
  · intro x hx y hy
    rw [← hsplit] at hsorted
    exact (List.pairwise_append.mp hsorted).2.2 x hx y hy
  · exact hsorted.sublist (List.take_sublist _ _)

theorem sorted_unique {S : Multiset β} {T T' : List β} (h : KSmallest id k S ↑T)
    (h' : KSmallest id k S ↑T') (hT : T.Pairwise (· ≤ ·)) (hT' : T'.Pairwise (· ≤ ·)) : T = T' := by
  have hmap := h.map_eq h'
  rw [Multiset.map_id, Multiset.map_id] at hmap
  exact (Multiset.coe_eq_coe.mp hmap).eq_of_pairwise' hT hT'

theorem map_id (h : KSmallest w k S T) : KSmallest id k (S.map w) (T.map w) := by
  obtain ⟨R, rfl, hR⟩ := h
  refine ⟨R.map w, Multiset.map_add _ _ _, ?_, fun hne ↦ ?_, fun x hx y hy ↦ ?_⟩
  · rw [Multiset.card_map]
    exact hR.card_le
  · rw [Multiset.card_map]
    exact hR.full fun h0 ↦ hne (by rw [h0, Multiset.map_zero])
  · obtain ⟨a, ha, rfl⟩ := Multiset.mem_map.mp hx
    obtain ⟨b, hb, rfl⟩ := Multiset.mem_map.mp hy
    exact hR.le a ha b hb

/-- Of the elements that are lighter than some kept one, all are kept; and so are all elements while
there is room. -/
theorem filter_eq (h : KSmallest w k S T) {b : β} (hb : T.card < k ∨ ∃ x ∈ T, b < w x) :
    T.filter (fun x ↦ w x = b) = S.filter fun x ↦ w x = b := by
  obtain ⟨R, rfl, hR⟩ := h
  have hnone : R.filter (fun x ↦ w x = b) = 0 := by
    refine Multiset.filter_eq_nil.mpr fun y hy hyb ↦ ?_
    rcases hb with hlt | ⟨x, hx, hbx⟩
    · have hfull := hR.full fun h0 ↦ by
        rw [h0] at hy
        exact Multiset.notMem_zero y hy
      exact hlt.ne hfull
    · exact (hbx.trans_le (hR.le x hx y hy)).ne hyb.symm
  rw [Multiset.filter_add, hnone, add_zero]

/-- When no two elements weigh the same, there is only one selection. -/
theorem unique (h : KSmallest w k S T) (h' : KSmallest w k S T')
    (hw : Set.InjOn w {x | x ∈ S}) : T = T' := by
  classical
  have hmem : ∀ {U V : Multiset α}, U ≤ S → V ≤ S → U.map w = V.map w → ∀ x ∈ U, x ∈ V := by
    intro U V hU hV hUV x hx
    have hwx : w x ∈ V.map w := by rw [← hUV]; exact Multiset.mem_map_of_mem w hx
    obtain ⟨y, hy, hyx⟩ := Multiset.mem_map.mp hwx
    obtain rfl := hw (Multiset.mem_of_le hV hy) (Multiset.mem_of_le hU hx) hyx
    exact hy
  have hmap := h.map_eq h'
  ext x
  by_cases hx : x ∈ T
  · rw [← Multiset.count_map_eq_count w T (hw.mono fun y hy ↦ Multiset.mem_of_le h.sub hy) x hx,
      hmap, Multiset.count_map_eq_count w T' (hw.mono fun y hy ↦ Multiset.mem_of_le h'.sub hy) x
        (hmem h.sub h'.sub hmap x hx)]
  · have hx' : x ∉ T' := fun hx' ↦ hx (hmem h'.sub h.sub hmap.symm x hx')
    rw [Multiset.count_eq_zero_of_notMem hx, Multiset.count_eq_zero_of_notMem hx']

/-- The heaviest kept element is heavier than `b` exactly when fewer than `k` elements weigh at
most `b`. -/
theorem lt_heaviest_iff (h : KSmallest w k S (t ::ₘ T)) (hk : (t ::ₘ T).card = k)
    (hmax : ∀ y ∈ T, w y ≤ w t) (b : β) :
    b < w t ↔ S.countP (fun x ↦ w x ≤ b) < k := by
  have hc := h.countP_eq (· ≤ b) fun _ _ ↦ le_trans
  constructor
  · intro hb
    have : (t ::ₘ T).countP (fun x ↦ w x ≤ b) < k := by
      have hneg : ¬ w t ≤ b := not_le.mpr hb
      have hle : T.countP (fun x ↦ w x ≤ b) ≤ T.card := Multiset.countP_le_card _ _
      rw [Multiset.countP_cons, if_neg hneg, ← hk, Multiset.card_cons]
      omega
    omega
  · intro hb
    by_contra hle
    rw [not_lt] at hle
    have : (t ::ₘ T).countP (fun x ↦ w x ≤ b) = (t ::ₘ T).card :=
      Multiset.countP_eq_card.mpr fun x hx ↦ by
        rcases Multiset.mem_cons.mp hx with rfl | hx
        · exact hle
        · exact (hmax x hx).trans hle
    omega

end KSmallest

end Lib

/-!
# Merging several runs

The elements of several runs are taken off one by one, each time one that is lightest among the first
elements of all runs, until enough have been taken or the runs are empty.  If the runs are sorted, then
what is taken is sorted, and a selection of lightest elements of all runs together.
-/

namespace Lib

open Function

variable {ι α β : Type*} [DecidableEq ι] [LinearOrder β]

/-- At most `n` elements are taken off the runs, a lightest first element each time. -/
inductive Merges (w : α → β) : ℕ → (ι → List α) → List α → Prop where
  /-- Enough elements have been taken. -/
  | full (runs : ι → List α) : Merges w 0 runs []
  /-- There is no element left. -/
  | empty (n : ℕ) {runs : ι → List α} (h : ∀ i, runs i = []) : Merges w n runs []
  /-- A lightest first element is taken. -/
  | take {n : ℕ} {runs : ι → List α} {i : ι} {x : α} {l out : List α} (hi : runs i = x :: l)
      (hx : ∀ j y l', runs j = y :: l' → w x ≤ w y) (h : Merges w n (update runs i l) out) :
      Merges w (n + 1) runs (x :: out)

theorem sum_update_exchange {M : Type*} [AddCommMonoid M] {γ : Type*} {s : Finset ι} {i : ι} (hi : i ∈ s)
    (g : ι → γ → M) (f : ι → γ) (y : γ) :
    (∑ j ∈ s, g j (update f i y j)) + g i (f i) = (∑ j ∈ s, g j (f j)) + g i y := by
  rw [← Finset.sum_erase_add s _ hi, ← Finset.sum_erase_add s (fun j ↦ g j (f j)) hi, update_self,
    Finset.sum_congr rfl fun j hj ↦ by rw [update_of_ne (Finset.ne_of_mem_erase hj)],
    add_assoc, add_assoc, add_comm (g i y)]

section Selection

variable {w : α → β} {k : ℕ} {S T U : Multiset α}

namespace KSmallest

theorem cons_lightest {x : α} (h : KSmallest w k S T) (hx : ∀ y ∈ S, w x ≤ w y) :
    KSmallest w (k + 1) (x ::ₘ S) (x ::ₘ T) := by
  obtain ⟨R, rfl, hR⟩ := h
  refine ⟨R, (Multiset.cons_add x T R).symm, ?_, fun h0 ↦ ?_, fun y hy z hz ↦ ?_⟩
  · rw [Multiset.card_cons]
    exact Nat.succ_le_succ hR.card_le
  · rw [Multiset.card_cons, hR.full h0]
  · rcases Multiset.mem_cons.mp hy with rfl | hy
    · exact hx z (Multiset.mem_add.mpr (Or.inr hz))
    · exact hR.le y hy z hz

/-- Elements may be exchanged for others of the same weight. -/
theorem map {γ : Type*} {f : α → γ} {w' : γ → β} (h : KSmallest w k S T)
    (hf : ∀ x ∈ S, w' (f x) = w x) : KSmallest w' k (S.map f) (T.map f) := by
  obtain ⟨R, rfl, hR⟩ := h
  refine ⟨R.map f, Multiset.map_add f T R, ?_, fun h0 ↦ ?_, fun y hy z hz ↦ ?_⟩
  · rw [Multiset.card_map]
    exact hR.card_le
  · rw [Multiset.card_map]
    exact hR.full fun hR0 ↦ h0 (by rw [hR0, Multiset.map_zero])
  · obtain ⟨y, hy', rfl⟩ := Multiset.mem_map.mp hy
    obtain ⟨z, hz', rfl⟩ := Multiset.mem_map.mp hz
    rw [hf y (Multiset.mem_add.mpr (Or.inl hy')), hf z (Multiset.mem_add.mpr (Or.inr hz'))]
    exact hR.le y hy' z hz'

/-- Selecting from what was selected from each part is selecting from all parts. -/
theorem sum_smallest {s : Finset ι} {S' T' : ι → Multiset α}
    (h : KSmallest w k (U + ∑ i ∈ s, T' i) T) (hs : ∀ i ∈ s, KSmallest w k (S' i) (T' i)) :
    KSmallest w k (U + ∑ i ∈ s, S' i) T := by
  induction s using Finset.induction_on generalizing U with
  | empty => exact h
  | insert i s hi ih =>
      rw [Finset.sum_insert hi, ← add_assoc]
      refine ih ?_ fun j hj ↦ hs j (Finset.mem_insert_of_mem hj)
      rw [add_right_comm]
      refine KSmallest.add_smallest ?_ (hs i (Finset.mem_insert_self i s))
      rw [add_right_comm, add_assoc, ← Finset.sum_insert hi]
      exact h

end KSmallest

end Selection

namespace Merges

variable {w : α → β} {n : ℕ} {runs : ι → List α} {out : List α}

section
variable {s : Finset ι} {i : ι} {x : α} {l : List α} (hs : ∀ j ∉ s, runs j = [])
  (hi : runs i = x :: l)
include x hs hi

theorem sum_eq_cons :
    (∑ j ∈ s, (↑(runs j) : Multiset α)) = x ::ₘ ∑ j ∈ s, (↑(update runs i l j) : Multiset α) := by
  have hmem : i ∈ s := by
    by_contra hi'
    rw [hs i hi'] at hi
    cases hi
  have h := sum_update_exchange hmem (fun _ (l : List α) ↦ (↑l : Multiset α)) runs l
  rw [hi, ← Multiset.cons_coe, Multiset.add_cons, ← Multiset.cons_add] at h
  exact (add_right_cancel h).symm

theorem update_eq_nil : ∀ j ∉ s, update runs i l j = [] := by
  intro j hj
  have hji : j ≠ i := by
    rintro rfl
    rw [hs j hj] at hi
    cases hi
  rw [update_of_ne hji]
  exact hs j hj

end

theorem le_sum (h : Merges w n runs out) {s : Finset ι} (hs : ∀ i ∉ s, runs i = []) :
    (↑out : Multiset α) ≤ ∑ i ∈ s, (↑(runs i) : Multiset α) := by
  induction h with
  | full runs => exact Multiset.zero_le _
  | empty n h => exact Multiset.zero_le _
  | take hi hx h ih =>
      rw [sum_eq_cons hs hi, ← Multiset.cons_coe]
      exact Multiset.cons_le_cons _ (ih (update_eq_nil hs hi))

/-- What is taken off sorted runs is sorted, and made of lightest elements. -/
theorem kSmallest (h : Merges w n runs out) {s : Finset ι} (hs : ∀ i ∉ s, runs i = [])
    (hsorted : ∀ i, (runs i).Pairwise fun x y ↦ w x ≤ w y) :
    KSmallest w n (∑ i ∈ s, (↑(runs i) : Multiset α)) ↑out ∧
      out.Pairwise fun x y ↦ w x ≤ w y := by
  induction h with
  | full runs =>
      refine ⟨⟨_, (zero_add _).symm, le_rfl, fun _ ↦ rfl, fun x hx ↦ ?_⟩, List.Pairwise.nil⟩
      exact absurd hx (Multiset.notMem_zero x)
  | @empty n runs h =>
      have hsum : ∑ i ∈ s, (↑(runs i) : Multiset α) = 0 :=
        Finset.sum_eq_zero fun i _ ↦ by rw [h i]; rfl
      rw [hsum]
      exact ⟨.self (Nat.zero_le n), List.Pairwise.nil⟩
  | @take n runs i x l out hi hx h ih =>
      have hsorted' : ∀ j, (update runs i l j).Pairwise fun x y ↦ w x ≤ w y := by
        intro j
        by_cases hj : j = i
        · subst hj
          rw [update_self]
          exact (List.pairwise_cons.mp (hi ▸ hsorted j)).2
        · rw [update_of_ne hj]
          exact hsorted j
      obtain ⟨hsmall, hout⟩ := ih (update_eq_nil hs hi) hsorted'
      -- a run is sorted, so that no element is lighter than the first one of its run
      have hlight : ∀ y ∈ ∑ j ∈ s, (↑(update runs i l j) : Multiset α), w x ≤ w y := by
        intro y hy
        have hy' : y ∈ ∑ j ∈ s, (↑(runs j) : Multiset α) := by
          rw [sum_eq_cons hs hi]
          exact Multiset.mem_cons_of_mem hy
        obtain ⟨j, -, hj⟩ := Multiset.mem_sum.mp hy'
        cases hr : runs j with
        | nil =>
            rw [hr] at hj
            exact absurd hj List.not_mem_nil
        | cons z l' =>
            have hz := List.pairwise_cons.mp (hr ▸ hsorted j)
            rw [hr, Multiset.mem_coe] at hj
            rcases List.mem_cons.mp hj with rfl | hj
            · exact hx j _ l' hr
            · exact (hx j z l' hr).trans (hz.1 y hj)
      rw [sum_eq_cons hs hi, ← Multiset.cons_coe]
      refine ⟨hsmall.cons_lightest hlight, List.pairwise_cons.mpr ⟨fun y hy ↦ hlight y ?_, hout⟩⟩
      exact Multiset.mem_of_le hsmall.sub (Multiset.mem_coe.mpr hy)

end Merges

end Lib
