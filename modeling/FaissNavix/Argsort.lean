import FaissNavix.SortingTree

/-!
# When the parallel argsort sorts

The segments of the threads are sorted by `std::sort` and merged.  The result is sorted exactly if
in each merge of the tree that is shared by several threads the first part of the larger segment
reaches the smaller one.  Already sorted values are sorted wrongly.
-/

namespace FaissNavix

/-- A strict weak order, which `std::sort` asks for. -/
structure StrictWeakOrder (comp : ℕ → ℕ → Bool) : Prop where
  irrefl : ∀ a, comp a a = false
  trans : ∀ a b c, comp a b = true → comp b c = true → comp a c = true
  not_trans : ∀ a b c, comp a b = false → comp b c = false → comp a c = false

/-- What is promised of `std::sort`, which may put equivalent elements in any order. -/
structure IsStdSort (sort : (ℕ → ℕ → Bool) → List ℕ → List ℕ) : Prop where
  perm : ∀ comp xs, StrictWeakOrder comp → (sort comp xs).Perm xs
  sorted : ∀ comp xs, StrictWeakOrder comp →
    (sort comp xs).Pairwise fun a b ↦ comp b a = false

def keyAt (vals : List F32) (i : ℕ) : ℤ :=
  (vals.getD i ⟨0⟩).key

def AllComparable (vals : List F32) : Prop :=
  ∀ x ∈ vals, x.Comparable

instance (vals : List F32) : Decidable (AllComparable vals) :=
  inferInstanceAs (Decidable (∀ x ∈ vals, x.Comparable))

section
variable {vals : List F32} (h : AllComparable vals) (a b : ℕ)
include h

theorem comparable_getD (i : ℕ) :
    (vals.getD i ⟨0⟩).Comparable := by
  by_cases hi : i < vals.length
  · rw [List.getD_eq_getElem _ _ hi]
    exact h _ (List.getElem_mem hi)
  · rw [List.getD_eq_default _ _ (Nat.le_of_not_lt hi)]
    decide

theorem argsortComparator_iff :
    argsortComparator vals a b = true ↔ keyAt vals a < keyAt vals b := by
  rw [argsortComparator, decide_eq_true_iff]
  exact F32.lt_iff_key (comparable_getD h a) (comparable_getD h b)

theorem argsortComparator_eq_false :
    argsortComparator vals a b = false ↔ keyAt vals b ≤ keyAt vals a := by
  rw [← Bool.not_eq_true, argsortComparator_iff h, not_lt]

theorem strictWeakOrder_argsortComparator :
    StrictWeakOrder (argsortComparator vals) where
  irrefl a := (argsortComparator_eq_false h a a).2 le_rfl
  trans a b c := by
    simp only [argsortComparator_iff h]
    exact lt_trans
  not_trans a b c := by
    simp only [argsortComparator_eq_false h]
    exact fun hab hbc ↦ hbc.trans hab

end

/-! ## The segments -/

theorem tiles_range' {q : ℕ → ℕ} (hq : ∀ t, q t ≤ q (t + 1)) (k m : ℕ) :
    Tiles (q k) ((List.range' k m).map fun t ↦ ⟨q t, q (t + 1)⟩) (q (k + m)) := by
  induction m generalizing k with
  | zero => rfl
  | succ m ih =>
      rw [List.range'_succ, List.map_cons]
      refine ⟨rfl, hq k, ?_⟩
      rw [← Nat.add_assoc, Nat.add_right_comm]
      exact ih (k + 1)

theorem tiles_segments (n : ℕ) {nt : ℕ} (hnt : 0 < nt) : Tiles 0 (segments n nt) n := by
  have h := tiles_range' (q := fun t ↦ t * n / nt)
    (fun t ↦ Nat.div_le_div_right (Nat.mul_le_mul_right n (Nat.le_succ t))) 0 nt
  rw [Nat.zero_mul, Nat.zero_div, Nat.zero_add, Nat.mul_div_cancel_left n hnt] at h
  rw [segments, List.range_eq_range']
  exact h

/-- The independent sorts leave each segment with its own indices, in order. -/
theorem sortSegments_spec {w : ℕ → ℤ} (sort : List ℕ → List ℕ) (hperm : ∀ xs, (sort xs).Perm xs)
    (hsorted : ∀ xs, (sort xs).Pairwise fun a b ↦ w a ≤ w b) {segs : List SegmentS} {lo hi : ℕ}
    (htiles : Tiles lo segs hi) {m : ℕ → ℕ} (hm : ∀ x, lo ≤ x → x < hi → m x = x) :
    AllHold (sortSegments sort m segs) segs ∧ AllSorted w (sortSegments sort m segs) segs ∧
      ∀ x, x < lo ∨ hi ≤ x → sortSegments sort m segs x = m x := by
  induction segs generalizing lo m with
  | nil =>
      exact ⟨fun s hs ↦ absurd hs List.not_mem_nil, fun s hs ↦ absurd hs List.not_mem_nil,
        fun _ _ ↦ rfl⟩
  | cons s segs ih =>
      obtain ⟨rfl, hs, htiles⟩ := htiles
      have hs' : s.i0 ≤ s.i1 := hs
      have hle := htiles.le
      have hlen : (sort (s.run m)).length = s.len := by
        rw [(hperm _).length_eq, length_run]
      have hslen : s.len = s.i1 - s.i0 := rfl
      -- the sort of this segment leaves the others as they were
      have hnext : ∀ x, s.i1 ≤ x → x < hi → Lib.write m s.i0 (sort (s.run m)) x = x := by
        intro x hx hx'
        rw [Lib.write_of_outside (by omega)]
        exact hm x (hs'.trans hx) hx'
      obtain ⟨hhold, hall, hout⟩ := ih htiles hnext
      have hrun : s.run (sortSegments sort m (s :: segs)) = sort (s.run m) :=
        (run_eq_of_outside hout le_rfl).trans (run_write m hlen)
      have hindices : s.run m = s.indices := by
        rw [SegmentS.run, SegmentS.indices, List.range'_eq_map_range, Lib.read]
        refine List.map_congr_left fun i hi ↦ hm _ (Nat.le_add_right _ _) ?_
        have hi := List.mem_range.1 hi
        omega
      refine ⟨fun t ht ↦ ?_, fun t ht ↦ ?_, fun x hx ↦ ?_⟩
      · obtain rfl | ht := List.mem_cons.1 ht
        · rw [HoldsIndices, hrun, ← hindices]
          exact hperm _
        · exact hhold t ht
      · obtain rfl | ht := List.mem_cons.1 ht
        · rw [SortedRun, hrun]
          exact hsorted _
        · exact hall t ht
      · refine (hout x (by omega)).trans (Lib.write_of_outside (by omega))

/-! ## The result -/

theorem write_range (m : ℕ → ℕ) {n x : ℕ} (hx : x < n) :
    Lib.write m 0 (List.range n) x = x := by
  have hlen : x < (List.range n).length := by rwa [List.length_range]
  have h := Lib.write_of_inside (m := m) (o := 0) hlen
  rwa [Nat.zero_add, List.get_eq_getElem, List.getElem_range] at h

/-- A permutation of the indices by which the values are in order is returned. -/
def Argsorts (sort : (ℕ → ℕ → Bool) → List ℕ → List ℕ) (vals : List F32) (nt : ℕ)
    (perm perm2 : ℕ → ℕ) : Prop :=
  ∃ p, fvecArgsortParallel sort vals nt perm perm2 = some p ∧ p.Perm (List.range vals.length) ∧
    p.Pairwise fun i j ↦ vals.getD i ⟨0⟩ ≤ vals.getD j ⟨0⟩

/-- In each merge of the tree with several threads, no more than the first part of the values of the
larger segment are below all values of the smaller one. -/
def FirstPartsReach (vals : List F32) (nt : ℕ) : Prop :=
  TreeOk (keyAt vals) nt nt (segments vals.length nt)

theorem argsorts_iff_keyAt {sort : (ℕ → ℕ → Bool) → List ℕ → List ℕ} {vals : List F32}
    (hvals : AllComparable vals) {nt : ℕ} {perm perm2 : ℕ → ℕ} :
    Argsorts sort vals nt perm perm2 ↔
      ∃ p, fvecArgsortParallel sort vals nt perm perm2 = some p ∧
        p.Perm (List.range vals.length) ∧ p.Pairwise fun i j ↦ keyAt vals i ≤ keyAt vals j := by
  have hle : ∀ i j, vals.getD i ⟨0⟩ ≤ vals.getD j ⟨0⟩ ↔ keyAt vals i ≤ keyAt vals j := fun i j ↦
    F32.le_iff_key (comparable_getD hvals i) (comparable_getD hvals j)
  rw [Argsorts]
  simp only [hle]

/-- By the keys, the result is right exactly if all first parts reach the smaller segments. -/
theorem fvecArgsortParallel_iff {sort : (ℕ → ℕ → Bool) → List ℕ → List ℕ} (hsort : IsStdSort sort)
    {vals : List F32} (hvals : AllComparable vals) {nt : ℕ} (hnt : 0 < nt)
    (perm perm2 : ℕ → ℕ) :
    (∃ p, fvecArgsortParallel sort vals nt perm perm2 = some p ∧
      p.Perm (List.range vals.length) ∧ p.Pairwise fun i j ↦ keyAt vals i ≤ keyAt vals j) ↔
        FirstPartsReach vals nt := by
  have hcomp := argsortComparator_iff hvals
  have hweak := strictWeakOrder_argsortComparator hvals
  have htiles := tiles_segments vals.length hnt
  have hlen : (segments vals.length nt).length = nt := by
    rw [segments, List.length_map, List.length_range]
  -- the segments after the independent sorts
  obtain ⟨hhold, hsorted, -⟩ := sortSegments_spec (w := keyAt vals)
    (sort (argsortComparator vals)) (fun xs ↦ hsort.perm _ xs hweak)
    (fun xs ↦ (hsort.sorted _ xs hweak).imp fun h ↦ (argsortComparator_eq_false hvals _ _).1 h)
    htiles (m := Lib.write (if startsInPerm nt nt true then perm else perm2) 0
      (List.range vals.length)) fun x _ hx ↦ write_range _ hx
  have hperm : startsInPerm nt (segments vals.length nt).length (startsInPerm nt nt true) =
      true := by
    rw [hlen]
    exact startsInPerm_startsInPerm nt nt
  have hlevels := mergeLevels_sorted_iff hcomp (hlen.symm ▸ hnt) hlen.le hlen.le htiles hhold hperm
    (if startsInPerm nt nt true then perm2 else perm)
  rw [FirstPartsReach, ← and_iff_right (b := TreeOk _ _ _ _) hsorted, hlevels]
  simp only [fvecArgsortParallel, Option.bind_eq_bind, Option.bind_eq_some_iff]
  constructor
  · rintro ⟨p, ⟨m, hm, ⟨⟩⟩, hres⟩
    exact ⟨m, hm, hres⟩
  · rintro ⟨m, hm, hres⟩
    exact ⟨_, ⟨m, hm, rfl⟩, hres⟩

/-- The result is right exactly if all first parts reach the smaller segments. -/
theorem argsorts_iff {sort : (ℕ → ℕ → Bool) → List ℕ → List ℕ} (hsort : IsStdSort sort)
    {vals : List F32} (hvals : AllComparable vals) {nt : ℕ} (hnt : 0 < nt)
    (perm perm2 : ℕ → ℕ) :
    Argsorts sort vals nt perm perm2 ↔ FirstPartsReach vals nt :=
  (argsorts_iff_keyAt hvals).trans (fvecArgsortParallel_iff hsort hvals hnt perm perm2)

def insertionSort (comp : ℕ → ℕ → Bool) : List ℕ → List ℕ :=
  List.insertionSort fun a b ↦ comp b a = false

theorem isStdSort_insertionSort : IsStdSort insertionSort where
  perm comp xs _ := List.perm_insertionSort _ xs
  sorted comp xs h := by
    have htotal : Std.Total fun a b ↦ comp b a = false := by
      refine ⟨fun a b ↦ ?_⟩
      by_contra hboth
      rw [not_or, Bool.not_eq_false, Bool.not_eq_false] at hboth
      have hself := h.trans a b a hboth.2 hboth.1
      rw [h.irrefl a] at hself
      cases hself
    have htrans : IsTrans ℕ fun a b ↦ comp b a = false :=
      ⟨fun a b c hab hbc ↦ h.not_trans c b a hbc hab⟩
    exact List.pairwise_insertionSort _ xs

theorem argsorts_iff_three :
    Argsorts insertionSort [⟨3⟩, ⟨1⟩, ⟨2⟩] 2 id id ↔ FirstPartsReach [⟨3⟩, ⟨1⟩, ⟨2⟩] 2 :=
  argsorts_iff isStdSort_insertionSort (by decide) Nat.two_pos id id

/-- Two threads put the larger of two values before the smaller one, although it comes last. -/
theorem not_forall_argsorts :
    ¬ ∀ (sort : (ℕ → ℕ → Bool) → List ℕ → List ℕ) (vals : List F32) (nt : ℕ)
      (perm perm2 : ℕ → ℕ), IsStdSort sort → AllComparable vals → 0 < nt →
        Argsorts sort vals nt perm perm2 := by
  intro h
  have hvals : AllComparable [⟨1⟩, ⟨2⟩] := by decide
  have hsorts := h insertionSort _ 2 id id isStdSort_insertionSort hvals Nat.two_pos
  have hreach := (fvecArgsortParallel_iff isStdSort_insertionSort hvals Nat.two_pos id id).1
    ((argsorts_iff_keyAt hvals).1 hsorts)
  have hpair : PairOk (keyAt [⟨1⟩, ⟨2⟩]) ⟨0, 1⟩ ⟨1, 2⟩ 2 := (hreach (by decide)).1.1
  rw [PairOk, if_neg (by decide)] at hpair
  have hfew := hpair (by decide) (by decide)
  revert hfew
  decide

end FaissNavix
