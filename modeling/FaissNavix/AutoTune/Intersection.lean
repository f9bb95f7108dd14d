import FaissNavix.Lib.Loop
import FaissNavix.Lib.Segments
import Mathlib.Data.Finset.Card
import Mathlib.Data.Int.Bitwise
import Mathlib.Data.List.Sort

/-!
# Common results

`ranklist_intersection_size` of `faiss/utils/utils.cpp`, which `IntersectionCriterion::evaluate` counts
the common labels of two lists with.  The shorter list is sorted and freed of repeated labels and of
-1, and then each label of the longer one is looked up in it by bisection, whose hit is flagged with a
high bit.

Where nothing but -1 was in the shorter list, there is nothing left to look up, and the loop compares
to what the array begins with: with -1 if the list was not empty, and with memory that it does not own
if it was (`ranklistIntersectionSize_iff`).
-/

namespace FaissNavix

open Lib

/-! ## The code -/

/-- `int64_t{1} << 60` -/
def seenFlag : ℤ := 2 ^ 60

/-- The variables of the loop that removes repeated labels. -/
structure DedupLoop where
  v2 : List ℤ
  prev : ℤ
  wp : ℕ

def DedupLoop.turn (s : DedupLoop) (i : ℕ) : DedupLoop :=
  let x := s.v2.getD i 0
  if x ≠ s.prev then { v2 := s.v2.set s.wp x, prev := x, wp := s.wp + 1 } else s

section
variable (v1 v2 v2In : List ℤ) {n k : ℕ}

/-- `de-dup v2` -/
def dedupV2 : DedupLoop :=
  (List.range v2.length).foldl DedupLoop.turn { v2, prev := -1, wp := 0 }

/-- A turn of the bisection for `q`.  The flag is not looked at. -/
def bisectTurn (q : ℤ) (s : ℕ × ℕ) : Turn (ℕ × ℕ) :=
  if s.1 + 1 < s.2 then
    let imed := (s.2 + s.1) / 2
    let piv := Int.land (v2.getD imed 0) (Int.lnot seenFlag)
    if piv ≤ q then .next (imed, s.2) else .next (s.1, imed)
  else .done s

/-- A turn of the loop over the longer list, which gives nothing when it reads past the end. -/
def lookUp (k2 : ℕ) (s : List ℤ × ℕ) (q : ℤ) : Option (List ℤ × ℕ) := do
  let (i0, _) ← iterate (bisectTurn s.1 q) (k2 + 1) (0, k2)
  let x ← s.1[i0]?
  return if x = q then (s.1.set i0 (Int.lor x seenFlag), s.2 + 1) else s

/-- `ranklist_intersection_size` with `k2 ≤ k1`. -/
def intersectionWithShorter : Option ℕ := do
  let s := dedupV2 (v2In.insertionSort (· ≤ ·))
  let (_, count) ← v1.foldlM (lookUp s.wp) (s.v2, 0)
  return count

/-- `ranklist_intersection_size`, which calls itself with the lists exchanged if the second one is
longer. -/
def ranklistIntersectionSize : Option ℕ :=
  if v1.length < v2In.length then intersectionWithShorter v2In v1
  else intersectionWithShorter v1 v2In

/-! ## What is counted -/

/-- The different labels in both lists, without those for "no result". -/
def commonLabels : Finset ℤ := (v1.toFinset ∩ v2.toFinset).filter (0 ≤ ·)

theorem commonLabels_comm : commonLabels v1 v2 = commonLabels v2 v1 := by
  rw [commonLabels, Finset.inter_comm]
  rfl

def IsLabel (x : ℤ) : Prop := -1 ≤ x ∧ x < seenFlag

instance (x : ℤ) : Decidable (IsLabel x) := inferInstanceAs (Decidable (_ ∧ _))

/-- The loop has something to look up, or nothing to look for, or looks for nothing that it takes for
found. -/
def Searchable (long short : List ℤ) : Prop :=
  long = [] ∨ (∃ x ∈ short, 0 ≤ x) ∨ (short ≠ [] ∧ -1 ∉ long)

def SearchableCall : Prop :=
  if v1.length < v2.length then Searchable v2 v1 else Searchable v1 v2

/-! ## The flag -/

theorem seenFlag_eq : seenFlag = ((2 ^ 60 : ℕ) : ℤ) := by
  rw [seenFlag, Nat.cast_pow]
  rfl

theorem ldiff_add_two_pow (h : n < 2 ^ k) : Nat.ldiff (n + 2 ^ k) (2 ^ k) = n := by
  refine Nat.eq_of_testBit_eq fun i ↦ ?_
  rw [Nat.testBit_ldiff, ← Nat.or_two_pow_eq_add_of_lt h, Nat.testBit_or, Nat.testBit_two_pow]
  by_cases hi : k = i
  · subst hi
    rw [Nat.testBit_lt_two_pow h]
    simp
  · simp [hi]

theorem ldiff_two_pow (h : n < 2 ^ k) : Nat.ldiff n (2 ^ k) = n := by
  refine Nat.eq_of_testBit_eq fun i ↦ ?_
  rw [Nat.testBit_ldiff, Nat.testBit_two_pow]
  by_cases hi : k = i
  · subst hi
    rw [Nat.testBit_lt_two_pow h]
    rfl
  · simp [hi]

end

variable {x : ℤ}

theorem land_lnot_seenFlag (h0 : 0 ≤ x) (h : x < seenFlag) :
    Int.land x (Int.lnot seenFlag) = x := by
  lift x to ℕ using h0
  rw [seenFlag_eq] at h ⊢
  exact congrArg Int.ofNat (ldiff_two_pow (Int.ofNat_lt.mp h))

theorem lor_seenFlag (h0 : 0 ≤ x) (h : x < seenFlag) : Int.lor x seenFlag = x + seenFlag := by
  lift x to ℕ using h0
  rw [seenFlag_eq] at h ⊢
  exact congrArg Int.ofNat (Nat.or_two_pow_eq_add_of_lt (Int.ofNat_lt.mp h))

theorem land_lnot_seenFlag_add (h0 : 0 ≤ x) (h : x < seenFlag) :
    Int.land (x + seenFlag) (Int.lnot seenFlag) = x := by
  lift x to ℕ using h0
  rw [seenFlag_eq] at h ⊢
  exact congrArg Int.ofNat (ldiff_add_two_pow (Int.ofNat_lt.mp h))

theorem lor_neg_one (y : ℕ) : Int.lor (-1) (y : ℤ) = -1 := by
  refine congrArg Int.negSucc (Nat.eq_of_testBit_eq fun i ↦ ?_)
  rw [Nat.testBit_ldiff, Nat.zero_testBit]
  rfl

/-! ## The labels that are looked up -/

/-- What `i` turns of the loop over the sorted labels `xs` leave behind. -/
structure DedupLoop.At (xs : List ℤ) (i : ℕ) (s : DedupLoop) : Prop where
  length : s.v2.length = xs.length
  wp_le : s.wp ≤ i
  rest : ∀ j, i ≤ j → s.v2.getD j 0 = xs.getD j 0
  sorted : (s.v2.take s.wp).Pairwise (· < ·)
  mem : ∀ x, x ∈ s.v2.take s.wp ↔ x ∈ xs.take i ∧ x ≠ -1
  le_prev : ∀ x ∈ s.v2.take s.wp, x ≤ s.prev
  prev : s.prev = -1 ∧ s.wp = 0 ∨ s.prev ∈ s.v2.take s.wp
  untouched : s.wp = 0 → s.v2 = xs

variable {xs : List ℤ} {i : ℕ} {s : DedupLoop}

theorem DedupLoop.at_zero (xs : List ℤ) : At xs 0 { v2 := xs, prev := -1, wp := 0 } where
  length := rfl
  wp_le := le_rfl
  rest := fun _ _ ↦ rfl
  sorted := List.Pairwise.nil
  mem := fun x ↦ by rw [List.take_zero]; exact iff_of_false List.not_mem_nil fun h ↦ List.not_mem_nil h.1
  le_prev := fun x hx ↦ absurd hx List.not_mem_nil
  prev := Or.inl ⟨rfl, rfl⟩
  untouched := fun _ ↦ rfl

theorem DedupLoop.At.turn (h : s.At xs i) (hi : i < xs.length) (hsorted : xs.Pairwise (· ≤ ·))
    (hlow : ∀ x ∈ xs, -1 ≤ x) : (s.turn i).At xs (i + 1) := by
  have htake : xs.take (i + 1) = xs.take i ++ [xs.getD i 0] := by
    rw [List.take_succ_eq_append_getElem hi, List.getD_eq_getElem _ _ hi]
  have hmem : ∀ x, x ∈ xs.take (i + 1) ↔ x ∈ xs.take i ∨ x = xs.getD i 0 := fun x ↦ by
    rw [htake, List.mem_append, List.mem_singleton]
  have hbefore : ∀ x ∈ xs.take i, x ≤ xs.getD i 0 := by
    have hpair := hsorted.sublist (List.take_sublist (i + 1) xs)
    rw [htake] at hpair
    exact fun x hx ↦ (List.pairwise_append.mp hpair).2.2 x hx _ (List.mem_singleton_self _)
  have hxlow : -1 ≤ xs.getD i 0 :=
    hlow _ (by rw [List.getD_eq_getElem _ _ hi]; exact List.getElem_mem hi)
  have hprevLe : s.prev ≤ xs.getD i 0 := by
    rcases h.prev with ⟨hprev, -⟩ | hprev
    · exact hprev.trans_le hxlow
    · exact hbefore _ ((h.mem _).mp hprev).1
  rw [DedupLoop.turn, h.rest i le_rfl]
  generalize xs.getD i 0 = x at hmem hbefore hxlow hprevLe
  by_cases hx : x = s.prev
  · rw [if_neg (not_not.mpr hx)]
    have hsame : ∀ y, y ∈ xs.take (i + 1) ∧ y ≠ -1 ↔ y ∈ xs.take i ∧ y ≠ -1 := fun y ↦ by
      rw [hmem]
      refine ⟨fun ⟨hy, hne⟩ ↦ ⟨hy.elim id ?_, hne⟩, fun ⟨hy, hne⟩ ↦ ⟨Or.inl hy, hne⟩⟩
      rintro rfl
      rcases h.prev with ⟨hprev, -⟩ | hprev
      · exact absurd (hx.trans hprev) hne
      · exact ((h.mem _).mp (hx ▸ hprev)).1
    exact ⟨h.length, h.wp_le.trans (Nat.le_succ i), fun j hj ↦ h.rest j (by omega), h.sorted,
      fun y ↦ (h.mem y).trans (hsame y).symm, h.le_prev, h.prev, h.untouched⟩
  · rw [if_pos hx]
    have hlt : s.prev < x := lt_of_le_of_ne hprevLe (Ne.symm hx)
    have hwp : s.wp < s.v2.length := by rw [h.length]; exact h.wp_le.trans_lt hi
    have hnew : (s.v2.set s.wp x).take (s.wp + 1) = s.v2.take s.wp ++ [x] := by
      rw [List.take_succ_eq_append_getElem (by rw [List.length_set]; exact hwp),
        List.getElem_set_self, List.take_set_of_le le_rfl]
    have hne : x ≠ -1 := by
      rcases h.prev with ⟨hprev, -⟩ | hprev
      · exact fun h1 ↦ hx (h1.trans hprev.symm)
      · have := hlow _ (List.mem_of_mem_take ((h.mem _).mp hprev).1)
        omega
    refine ⟨?_, Nat.succ_le_succ h.wp_le, fun j hj ↦ ?_, ?_, fun y ↦ ?_, ?_, Or.inr ?_,
      fun h0 ↦ absurd h0 (Nat.succ_ne_zero _)⟩
    · rw [List.length_set, h.length]
    · have := h.wp_le
      rw [← h.rest j (by omega)]
      rw [getD_set, if_neg fun hij ↦ by omega]
    · rw [hnew, List.pairwise_append]
      exact ⟨h.sorted, List.pairwise_singleton _ _, fun y hy z hz ↦
        (List.mem_singleton.mp hz) ▸ (h.le_prev y hy).trans_lt hlt⟩
    · rw [hnew, List.mem_append, List.mem_singleton, h.mem, hmem]
      constructor
      · rintro (⟨hy, hy1⟩ | rfl)
        · exact ⟨Or.inl hy, hy1⟩
        · exact ⟨Or.inr rfl, hne⟩
      · rintro ⟨hy | rfl, hy1⟩
        · exact Or.inl ⟨hy, hy1⟩
        · exact Or.inr rfl
    · rw [hnew]
      rintro y hy
      rcases List.mem_append.mp hy with hy | hy
      · exact (h.le_prev y hy).trans hlt.le
      · exact (List.mem_singleton.mp hy).le
    · rw [hnew]
      exact List.mem_append_right _ (List.mem_singleton_self x)

theorem dedupV2_spec (hsorted : xs.Pairwise (· ≤ ·)) (hlow : ∀ x ∈ xs, -1 ≤ x) :
    (dedupV2 xs).At xs xs.length :=
  foldl_range_invariant (fun i (s : DedupLoop) ↦ s.At xs i) (DedupLoop.at_zero xs)
    fun _ hi _ hs ↦ hs.turn hi hsorted hlow

/-! ## Looking up -/

/-- A label, flagged if it is among those that were seen. -/
def markSeen (seen : List ℤ) (x : ℤ) : ℤ := if x ∈ seen then x + seenFlag else x

/-- The array begins with the labels `u`, of which those that were seen are flagged. -/
def Marked (u seen v : List ℤ) : Prop :=
  u.length ≤ v.length ∧ ∀ j < u.length, v.getD j 0 = markSeen seen (u.getD j 0)

/-- Labels in order, each of them once. -/
structure IsLookup (u : List ℤ) : Prop where
  sorted : u.Pairwise (· < ·)
  label : ∀ x ∈ u, 0 ≤ x ∧ x < seenFlag

variable {u seen v : List ℤ} {q : ℤ} {count : ℕ}

theorem getD_mem {j : ℕ} (hj : j < u.length) : u.getD j 0 ∈ u := by
  rw [List.getD_eq_getElem _ _ hj]
  exact List.getElem_mem hj

theorem IsLookup.getD_lt (hu : IsLookup u) {j k : ℕ} (hjk : j < k) (hk : k < u.length) :
    u.getD j 0 < u.getD k 0 := by
  rw [List.getD_eq_getElem _ _ (hjk.trans hk), List.getD_eq_getElem _ _ hk]
  exact List.pairwise_iff_getElem.mp hu.sorted j k (hjk.trans hk) hk hjk

theorem Marked.piv (h : Marked u seen v) (hu : IsLookup u) {j : ℕ} (hj : j < u.length) :
    Int.land (v.getD j 0) (Int.lnot seenFlag) = u.getD j 0 := by
  obtain ⟨h0, hlt⟩ := hu.label _ (getD_mem hj)
  rw [h.2 j hj, markSeen]
  split
  · exact land_lnot_seenFlag_add h0 hlt
  · exact land_lnot_seenFlag h0 hlt

/-- The bisection ends at the only place where `q` can be. -/
theorem Marked.bisect (h : Marked u seen v) (hu : IsLookup u) (hne : u ≠ []) (q : ℤ) :
    ∃ s, iterate (bisectTurn v q) (u.length + 1) (0, u.length) = some s ∧ s.1 < u.length ∧
      ∀ j < u.length, u.getD j 0 = q → j = s.1 := by
  have hpos := List.length_pos_of_ne_nil hne
  -- the labels from the upper end on are greater than `q`, and that at the lower end is not
  have hturn : ∀ s : ℕ × ℕ, (s.1 < s.2 ∧ s.2 ≤ u.length ∧ (∀ j < u.length, s.2 ≤ j → q < u.getD j 0) ∧
        (s.1 = 0 ∨ u.getD s.1 0 ≤ q)) →
      (∃ s', bisectTurn v q s = .done s' ∧ s'.1 < u.length ∧
        ∀ j < u.length, u.getD j 0 = q → j = s'.1) ∨
      ∃ s', bisectTurn v q s = .next s' ∧ (s'.1 < s'.2 ∧ s'.2 ≤ u.length ∧
        (∀ j < u.length, s'.2 ≤ j → q < u.getD j 0) ∧ (s'.1 = 0 ∨ u.getD s'.1 0 ≤ q)) ∧
        s'.2 - s'.1 < s.2 - s.1 := by
    rintro ⟨i0, i1⟩ ⟨hlt, hle, habove, hbelow⟩
    dsimp only at hlt hle habove hbelow
    rw [bisectTurn]
    by_cases hgap : i0 + 1 < i1
    · rw [if_pos hgap]
      have hmed : (i1 + i0) / 2 < u.length := by omega
      dsimp only
      rw [h.piv hu hmed]
      by_cases hpiv : u.getD ((i1 + i0) / 2) 0 ≤ q
      · rw [if_pos hpiv]
        exact Or.inr ⟨_, rfl, ⟨by omega, hle, habove, Or.inr hpiv⟩, by dsimp only; omega⟩
      · rw [if_neg hpiv]
        refine Or.inr ⟨_, rfl, ⟨by dsimp only; omega, hmed.le, fun j hj hij ↦ ?_, hbelow⟩, by dsimp only; omega⟩
        rcases hij.lt_or_eq with hij | rfl
        · exact (not_le.mp hpiv).trans (hu.getD_lt hij hj)
        · exact not_le.mp hpiv
    · rw [if_neg hgap]
      refine Or.inl ⟨_, rfl, hlt.trans_le hle, fun j hj hjq ↦ ?_⟩
      have hj1 : j < i1 := by
        by_contra hge
        exact (habove j hj (Nat.le_of_not_lt hge)).ne' hjq
      by_contra hne
      have hji : j < i0 := by
        change j ≠ i0 at hne
        omega
      rcases hbelow with h0 | hq
      · omega
      · exact absurd (hu.getD_lt hji (hlt.trans_le hle)) (by rw [hjq]; exact not_lt.mpr hq)
  exact iterate_total (fun s : ℕ × ℕ ↦ s.2 - s.1) hturn _ _
    ⟨hpos, le_rfl, fun j hj hle ↦ absurd hle (Nat.not_le_of_lt hj), Or.inl rfl⟩ (Nat.lt_succ_self _)

/-- A label is counted when it is found for the first time. -/
theorem Marked.lookUp (h : Marked u seen v) (hu : IsLookup u) (hne : u ≠ []) (hq : IsLabel q) :
    ∃ v', lookUp u.length (v, (seen.toFinset ∩ u.toFinset).card) q =
        some (v', ((q :: seen).toFinset ∩ u.toFinset).card) ∧ Marked u (q :: seen) v' := by
  obtain ⟨⟨i0, i1⟩, hrun, hi0, hplace⟩ := h.bisect hu hne q
  dsimp only at hi0 hplace
  have hread : v[i0]? = some (markSeen seen (u.getD i0 0)) := by
    rw [← h.2 i0 hi0, List.getD_eq_getElem _ _ (hi0.trans_le h.1)]
    exact List.getElem?_eq_getElem _
  obtain ⟨hlow, hhigh⟩ := hu.label _ (getD_mem hi0)
  have hrest : ∀ j < u.length, j ≠ i0 → markSeen (q :: seen) (u.getD j 0) = markSeen seen (u.getD j 0) := by
    intro j hj hji
    have hne : u.getD j 0 ≠ q := fun hjq ↦ hji (hplace j hj hjq)
    rw [markSeen, markSeen]
    exact if_congr (by rw [List.mem_cons, or_iff_right hne]) rfl rfl
  rw [FaissNavix.lookUp, hrun, Option.bind_eq_bind, Option.bind_some]
  dsimp only
  rw [hread, Option.bind_eq_bind, Option.bind_some]
  by_cases hfound : markSeen seen (u.getD i0 0) = q
  · -- the label of the query, not seen before
    have hnot : u.getD i0 0 ∉ seen := by
      intro hmem
      rw [markSeen, if_pos hmem] at hfound
      have := hq.2
      omega
    have heq : u.getD i0 0 = q := by rwa [markSeen, if_neg hnot] at hfound
    rw [if_pos hfound, hfound]
    refine ⟨v.set i0 (Int.lor q seenFlag), ?_, ?_, fun j hj ↦ ?_⟩
    · rw [List.toFinset_cons, Finset.insert_inter_of_mem
          (List.mem_toFinset.mpr (heq ▸ getD_mem hi0)), Finset.card_insert_of_notMem]
      · rfl
      · exact fun hmem ↦ hnot (heq ▸ List.mem_toFinset.mp (Finset.mem_inter.mp hmem).1)
    · rw [List.length_set]
      exact h.1
    · rw [getD_set]
      by_cases hji : i0 = j
      · subst hji
        rw [if_pos ⟨rfl, hi0.trans_le h.1⟩, heq, markSeen, if_pos List.mem_cons_self,
          lor_seenFlag (heq ▸ hlow) (heq ▸ hhigh)]
      · rw [if_neg fun hj ↦ hji hj.1, h.2 j hj, hrest j hj (Ne.symm hji)]
  · -- seen before, or not in the list
    rw [if_neg hfound]
    have hold : q ∈ u → q ∈ seen := by
      intro hmem
      obtain ⟨j, hj, hjq⟩ := List.mem_iff_getElem.mp hmem
      have hjq' : u.getD j 0 = q := by rw [List.getD_eq_getElem _ _ hj, hjq]
      obtain rfl := hplace j hj hjq'
      by_contra hnot
      rw [hjq', markSeen, if_neg hnot] at hfound
      exact hfound rfl
    have hmark : ∀ x ∈ u, markSeen (q :: seen) x = markSeen seen x := by
      intro x hx
      rw [markSeen, markSeen]
      refine if_congr ?_ rfl rfl
      rw [List.mem_cons, or_iff_right_of_imp]
      rintro rfl
      exact hold hx
    refine ⟨v, ?_, h.1, fun j hj ↦ by rw [h.2 j hj, hmark _ (getD_mem hj)]⟩
    rw [List.toFinset_cons]
    by_cases hmem : q ∈ u
    · rw [Finset.insert_eq_of_mem (List.mem_toFinset.mpr (hold hmem))]
      rfl
    · rw [Finset.insert_inter_of_notMem fun hq ↦ hmem (List.mem_toFinset.mp hq)]
      rfl

theorem Marked.foldlM_lookUp (h : Marked u seen v) (hu : IsLookup u) (hne : u ≠ []) (v1 : List ℤ)
    (hv1 : ∀ q ∈ v1, IsLabel q) :
    ∃ v', v1.foldlM (FaissNavix.lookUp u.length) (v, (seen.toFinset ∩ u.toFinset).card) =
      some (v', ((seen.toFinset ∪ v1.toFinset) ∩ u.toFinset).card) := by
  induction v1 generalizing seen v with
  | nil => exact ⟨v, by rw [List.toFinset_nil, Finset.union_empty]; rfl⟩
  | cons q v1 ih =>
      obtain ⟨v₁, hstep, h₁⟩ := h.lookUp hu hne (hv1 q List.mem_cons_self)
      obtain ⟨v₂, hrun⟩ := ih h₁ fun q' hq' ↦ hv1 q' (List.mem_cons_of_mem q hq')
      refine ⟨v₂, ?_⟩
      rw [List.foldlM_cons, hstep, Option.bind_eq_bind, Option.bind_some, hrun, List.toFinset_cons,
        List.toFinset_cons, Finset.insert_union, Finset.union_insert]

/-! ## The result -/

section Cases

variable {v1 v2 : List ℤ}

theorem commonLabels_eq_empty (h : ¬∃ x ∈ v2, 0 ≤ x) : commonLabels v1 v2 = ∅ :=
  Finset.filter_eq_empty_iff.mpr fun x hx h0 ↦
    h ⟨x, List.mem_toFinset.mp (Finset.mem_inter.mp hx).2, h0⟩

theorem dedupV2_sorted (h2 : ∀ x ∈ v2, IsLabel x) :
    (dedupV2 (v2.insertionSort (· ≤ ·))).At (v2.insertionSort (· ≤ ·))
      (v2.insertionSort (· ≤ ·)).length :=
  dedupV2_spec (List.pairwise_insertionSort _ v2)
    fun x hx ↦ (h2 x ((List.perm_insertionSort _ v2).mem_iff.mp hx)).1

/-- With a label in the shorter list, the different labels in both lists are counted. -/
theorem intersectionWithShorter_of_label (h1 : ∀ q ∈ v1, IsLabel q) (h2 : ∀ x ∈ v2, IsLabel x)
    (hlabel : ∃ x ∈ v2, 0 ≤ x) :
    intersectionWithShorter v1 v2 = some (commonLabels v1 v2).card := by
  have hdedup := dedupV2_sorted h2
  rw [intersectionWithShorter]
  dsimp only
  generalize dedupV2 (v2.insertionSort (· ≤ ·)) = s at hdedup
  have hmem : ∀ x, x ∈ s.v2.take s.wp ↔ x ∈ v2 ∧ 0 ≤ x := fun x ↦ by
    rw [hdedup.mem, List.take_length, (List.perm_insertionSort _ v2).mem_iff]
    refine and_congr_right fun hx ↦ ?_
    have := (h2 x hx).1
    omega
  have hwp : s.wp ≤ s.v2.length := hdedup.wp_le.trans_eq hdedup.length.symm
  have hlength : (s.v2.take s.wp).length = s.wp := List.length_take_of_le hwp
  obtain ⟨x, hx, hx0⟩ := hlabel
  have hne : s.v2.take s.wp ≠ [] := List.ne_nil_of_mem ((hmem x).mpr ⟨hx, hx0⟩)
  have hu : IsLookup (s.v2.take s.wp) :=
    ⟨hdedup.sorted, fun y hy ↦ ⟨((hmem y).mp hy).2, (h2 y ((hmem y).mp hy).1).2⟩⟩
  have hstart : Marked (s.v2.take s.wp) [] s.v2 := by
    refine ⟨hlength.trans_le hwp, fun j hj ↦ ?_⟩
    rw [markSeen, if_neg List.not_mem_nil, List.getD_eq_getElem _ _ hj, List.getElem_take,
      List.getD_eq_getElem]
  obtain ⟨v', hrun⟩ := hstart.foldlM_lookUp hu hne v1 h1
  rw [hlength, List.toFinset_nil, Finset.empty_inter, Finset.card_empty, Finset.empty_union] at hrun
  rw [hrun, Option.bind_eq_bind, Option.bind_some]
  have hcommon : v1.toFinset ∩ (s.v2.take s.wp).toFinset = commonLabels v1 v2 := Finset.ext fun y ↦ ?_
  · exact congrArg (fun t : Finset ℤ ↦ some t.card) hcommon
  rw [commonLabels, Finset.mem_filter, Finset.mem_inter, Finset.mem_inter, List.mem_toFinset,
    List.mem_toFinset, List.mem_toFinset, hmem, and_assoc]

theorem lookUp_zero (v : List ℤ) (count : ℕ) (q : ℤ) :
    lookUp 0 (v, count) q = v[0]?.map fun x ↦
      if x = q then (v.set 0 (Int.lor x seenFlag), count + 1) else (v, count) := by
  rw [lookUp]
  cases v with
  | nil => rfl
  | cons x v => rfl

theorem foldlM_lookUp_neg_one (v : List ℤ) (count : ℕ) (v1 : List ℤ) :
    v1.foldlM (lookUp 0) (-1 :: v, count) = some (-1 :: v, count + v1.count (-1)) := by
  induction v1 generalizing count with
  | nil => rfl
  | cons q v1 ih =>
      rw [List.foldlM_cons, lookUp_zero, List.getElem?_cons_zero, Option.map_some,
        Option.bind_eq_bind, Option.bind_some]
      by_cases hq : -1 = q
      · subst hq
        have hlor : Int.lor (-1) seenFlag = -1 := by rw [seenFlag_eq, lor_neg_one]
        rw [if_pos rfl, List.set_cons_zero, hlor, ih, List.count_cons_self, Nat.add_assoc,
          Nat.add_comm 1]
      · rw [if_neg hq, ih, List.count_cons_of_ne (Ne.symm hq)]

/-- Where all of a shorter list is -1, the number of -1 in the longer one is returned. -/
theorem intersectionWithShorter_of_missing (h2 : ∀ x ∈ v2, IsLabel x) (hne : v2 ≠ [])
    (hnone : ¬∃ x ∈ v2, 0 ≤ x) : intersectionWithShorter v1 v2 = some (v1.count (-1)) := by
  have hall : ∀ x ∈ v2, x = -1 := fun x hx ↦ by
    have := (h2 x hx).1
    by_contra h1
    exact hnone ⟨x, hx, by omega⟩
  have hdedup := dedupV2_sorted h2
  have hperm := List.perm_insertionSort (· ≤ ·) v2
  rw [intersectionWithShorter]
  dsimp only
  generalize dedupV2 (v2.insertionSort (· ≤ ·)) = s at hdedup
  have hwp : s.wp = 0 := by
    by_contra hpos
    have hlt : 0 < (s.v2.take s.wp).length := by
      rw [List.length_take_of_le (hdedup.wp_le.trans_eq hdedup.length.symm)]
      exact Nat.pos_of_ne_zero hpos
    obtain ⟨x, hx⟩ := List.exists_mem_of_length_pos hlt
    obtain ⟨hx, h1⟩ := (hdedup.mem x).mp hx
    exact h1 (hall x (hperm.mem_iff.mp (List.mem_of_mem_take hx)))
  rw [hwp, hdedup.untouched hwp]
  obtain ⟨x, rest, hsorted⟩ := List.exists_cons_of_ne_nil
    (show v2.insertionSort (· ≤ ·) ≠ [] from fun hnil ↦ hne (List.Perm.nil_eq (hnil ▸ hperm)).symm)
  rw [hsorted] at hperm ⊢
  obtain rfl := hall x (hperm.mem_iff.mp List.mem_cons_self)
  rw [foldlM_lookUp_neg_one, Nat.zero_add]
  rfl

theorem intersectionWithShorter_nil (v1 : List ℤ) :
    intersectionWithShorter v1 [] = if v1 = [] then some 0 else none := by
  cases v1 with
  | nil => rfl
  | cons q v1 =>
      rw [if_neg (List.cons_ne_nil q v1), intersectionWithShorter]
      rfl

/-- When the labels in common with a shorter list are counted. -/
theorem intersectionWithShorter_iff (h1 : ∀ q ∈ v1, IsLabel q) (h2 : ∀ x ∈ v2, IsLabel x) :
    intersectionWithShorter v1 v2 = some (commonLabels v1 v2).card ↔ Searchable v1 v2 := by
  by_cases hlabel : ∃ x ∈ v2, 0 ≤ x
  · exact iff_of_true (intersectionWithShorter_of_label h1 h2 hlabel) (Or.inr (Or.inl hlabel))
  · rw [commonLabels_eq_empty hlabel, Finset.card_empty, Searchable, or_iff_right hlabel]
    by_cases hnil : v2 = []
    · subst hnil
      rw [intersectionWithShorter_nil, or_iff_left fun h ↦ h.1 rfl]
      by_cases hv1 : v1 = []
      · rw [if_pos hv1]
        exact iff_of_true rfl hv1
      · rw [if_neg hv1]
        exact iff_of_false (Option.some_ne_none 0).symm hv1
    · rw [intersectionWithShorter_of_missing h2 hnil hlabel, Option.some_inj, List.count_eq_zero]
      refine ⟨fun h ↦ Or.inr ⟨hnil, h⟩, fun h ↦ ?_⟩
      rcases h with rfl | ⟨-, h⟩
      · exact List.not_mem_nil
      · exact h

theorem ranklistIntersectionSize_eq_iff (h1 : ∀ q ∈ v1, IsLabel q) (h2 : ∀ x ∈ v2, IsLabel x) :
    ranklistIntersectionSize v1 v2 = some (commonLabels v1 v2).card ↔ SearchableCall v1 v2 := by
  rw [ranklistIntersectionSize, SearchableCall]
  split
  · rw [commonLabels_comm]
    exact intersectionWithShorter_iff h2 h1
  · exact intersectionWithShorter_iff h1 h2

end Cases

/-- The number of common labels is returned, whatever the order of the arguments, exactly if in both
calls the longer list is empty, the shorter one has a label, or the shorter one is not empty and the
longer one has no -1. -/
theorem ranklistIntersectionSize_iff (v1 v2 : List ℤ) (h1 : ∀ q ∈ v1, IsLabel q)
    (h2 : ∀ x ∈ v2, IsLabel x) :
    (ranklistIntersectionSize v1 v2 = some (commonLabels v1 v2).card ∧
        ranklistIntersectionSize v1 v2 = ranklistIntersectionSize v2 v1) ↔
      SearchableCall v1 v2 ∧ SearchableCall v2 v1 := by
  rw [← ranklistIntersectionSize_eq_iff h1 h2, ← ranklistIntersectionSize_eq_iff h2 h1,
    commonLabels_comm v2 v1]
  exact and_congr_right fun h ↦ by rw [h, eq_comm]

/-- Repeated labels and a missing result. -/
theorem ranklistIntersectionSize_iff_two :
    ranklistIntersectionSize [5, 3, -1, 5] [3, 7, 5] = some (commonLabels [5, 3, -1, 5] [3, 7, 5]).card ∧
      ranklistIntersectionSize [5, 3, -1, 5] [3, 7, 5] = ranklistIntersectionSize [3, 7, 5] [5, 3, -1, 5] :=
  (ranklistIntersectionSize_iff _ _
    (List.forall_mem_cons.mpr ⟨by decide, List.forall_mem_cons.mpr ⟨by decide,
      List.forall_mem_cons.mpr ⟨by decide, List.forall_mem_singleton.mpr (by decide)⟩⟩⟩)
    (List.forall_mem_cons.mpr ⟨by decide, List.forall_mem_cons.mpr ⟨by decide,
      List.forall_mem_singleton.mpr (by decide)⟩⟩)).mpr
    ⟨Or.inr (Or.inl ⟨3, List.mem_cons_self, by decide⟩),
      Or.inr (Or.inl ⟨3, List.mem_cons_self, by decide⟩)⟩

/-- Two queries without a result have one in common. -/
theorem not_commonLabels_missing :
    ranklistIntersectionSize [-1] [-1] ≠ some (commonLabels [-1] [-1]).card := by
  have hcard : (commonLabels [-1] [-1]).card = 0 := rfl
  rw [hcard]
  decide

end FaissNavix
