import FaissNavix.BinaryHash.FlipEnumerator
import FaissNavix.Hamming
import FaissNavix.HeapBlock
import FaissNavix.Lib.RoundEven
import FaissNavix.Serialize.BinaryHash
import Mathlib.Data.Int.ConditionallyCompleteOrder

/-!
# Searching in binary hash indexes

`range_search` and `search` of `IndexBinaryHash` and of `IndexBinaryMultiHash`, with what they collect
their results in, and resetting the two.  A distance is handed over as a `float`.
-/

namespace FaissNavix

open Lib (bitAt DefaultMap)

/-! ## Results -/

/-- An `int` as a `float`, which has 24 bits; its value is an integer again. -/
def floatOfInt : ℤ → ℤ
  | .ofNat n => Lib.roundTo 24 n
  | .negSucc n => -Lib.roundTo 24 (n + 1)

/-- `RangeSearchResults::add` -/
def rangeAdd (radius : ℤ) (qres : List (ℤ × ℤ)) (dis id : ℤ) : List (ℤ × ℤ) :=
  if dis < floatOfInt radius then qres ++ [(dis, id)] else qres

/-- `KnnSearchResults::add` -/
def knnAdd (k : ℕ) (heap : ℕ → ℤ × ℤ) (dis id : ℤ) : ℕ → ℤ × ℤ :=
  if dis < floatOfInt (heap 0).1 then heapReplaceTop CMaxInt k heap dis id else heap

/-- The loop over the queries of `range_search`. -/
def rangeSearchRows (n codeSize : ℕ) (x : ℕ → UInt8) (radius : ℤ)
    (searchOne : (ℕ → UInt8) → (List (ℤ × ℤ) → ℤ → ℤ → List (ℤ × ℤ)) → List (ℤ × ℤ) →
      Option (List (ℤ × ℤ))) : Option (List (List (ℤ × ℤ))) :=
  (List.range n).mapM fun i ↦ searchOne (fun j ↦ x (i * codeSize + j)) (rangeAdd radius) []

/-- The loop over the queries of `search`, which writes to `k` entries of the tables for each of them. -/
def searchRows (n codeSize : ℕ) (x : ℕ → UInt8) (k : ℕ) (tab : ℕ → ℤ × ℤ)
    (searchOne : (ℕ → UInt8) → ((ℕ → ℤ × ℤ) → ℤ → ℤ → ℕ → ℤ × ℤ) → (ℕ → ℤ × ℤ) →
      Option (ℕ → ℤ × ℤ)) : Option (List (List (ℤ × ℤ))) :=
  if 0 < k then
    (List.range n).mapM fun i ↦ do
      let heap ← searchOne (fun j ↦ x (i * codeSize + j)) (knnAdd k)
        (heapHeapify CMaxInt k fun j ↦ tab (k * i + j))
      return firstEntries k (heapReorder CMaxInt k heap).2
  else none

/-! ## One hash -/

namespace IndexBinaryHash

/-- `reset` -/
def reset (idx : IndexBinaryHash) : IndexBinaryHash :=
  { idx with
    invlists := ∅
    ntotal := 0 }

/-- The loop over an inverted list. -/
def scanList {R : Type} (codeSize : ℕ) (q : ℕ → UInt8) (add : R → ℤ → ℤ → R)
    (il : BinaryInvertedList) (res : R) : R :=
  (List.range il.ids.length).foldl (fun res i ↦
    let dis := hamming codeSize q fun j ↦ il.vecs.getD (i * codeSize + j) 0
    add res (floatOfInt dis) (il.ids.getD i 0).toInt) res

/-- `search_single_query` -/
def searchSingleQuery {R : Type} (idx : IndexBinaryHash) (nflip : ℕ) (q : ℕ → UInt8)
    (add : R → ℤ → ℤ → R) (res : R) : Option R := do
  let qhash := loadUint64 q 0 &&& 2 ^ idx.b - 1
  let masks ← flips idx.b nflip
  return masks.foldl (fun res x ↦
    match idx.invlists.lookup (qhash ^^^ x) with
    | none => res
    | some il => scanList idx.codeSize q add il res) res

/-- `range_search` -/
def rangeSearch (idx : IndexBinaryHash) (nflip n : ℕ) (x : ℕ → UInt8) (radius : ℤ) :
    Option (List (List (ℤ × ℤ))) :=
  rangeSearchRows n idx.codeSize x radius fun q ↦ idx.searchSingleQuery nflip q

/-- `search` -/
def search (idx : IndexBinaryHash) (nflip n : ℕ) (x : ℕ → UInt8) (k : ℕ) (tab : ℕ → ℤ × ℤ) :
    Option (List (List (ℤ × ℤ))) :=
  searchRows n idx.codeSize x k tab fun q ↦ idx.searchSingleQuery nflip q

end IndexBinaryHash

/-! ## Several hashes -/

/-- `IndexBinaryFlat` -/
structure IndexBinaryFlat where
  xb : List UInt8
  ntotal : ℕ
deriving DecidableEq, Repr

namespace IndexBinaryFlat

/-- `add` -/
def add (storage : IndexBinaryFlat) (codeSize : ℕ) (batch : BinaryVectors) : IndexBinaryFlat where
  xb := storage.xb ++ Lib.read batch.x 0 (batch.n * codeSize)
  ntotal := storage.ntotal + batch.n

/-- `reset` -/
def reset (_ : IndexBinaryFlat) : IndexBinaryFlat where
  xb := []
  ntotal := 0

end IndexBinaryFlat

/-- `IndexBinaryMultiHash`, with its storage. -/
structure StoredMultiHash extends IndexBinaryMultiHash where
  storage : IndexBinaryFlat
  nflip : ℕ

/-- The order in which an `unordered_set` goes through what was inserted into it. -/
structure SetOrder where
  toFun : List ℕ → List ℕ
  perm : ∀ inserted, (toFun inserted).Perm inserted.dedup

namespace StoredMultiHash

/-- The constructor. -/
def new (codeSize nhash b nflip : ℕ) : StoredMultiHash where
  toIndexBinaryMultiHash := .new codeSize nhash b
  storage := ⟨[], 0⟩
  nflip := nflip

/-- `add` -/
def add (idx : StoredMultiHash) (batch : BinaryVectors) : StoredMultiHash :=
  { idx with
    toIndexBinaryMultiHash := idx.toIndexBinaryMultiHash.add batch
    storage := idx.storage.add idx.codeSize batch }

/-- `reset`: what is cleared are copies of the maps. -/
def reset (idx : StoredMultiHash) : StoredMultiHash :=
  { idx with
    storage := idx.storage.reset
    ntotal := 0 }

/-- The ids that are inserted into the short list for a map. -/
def shortlistOf (idx : StoredMultiHash) (q : ℕ → UInt8) (h : ℕ) (map : DefaultMap (List ℕ)) :
    Option (List ℕ) := do
  let ho := h * idx.b
  let qhash := loadUint64 q (ho / 8) >>> (ho % 8) &&& 2 ^ idx.b - 1
  let masks ← flips idx.b idx.nflip
  return masks.foldl (fun shortlist x ↦
    match map.lookup (qhash ^^^ x) with
    | none => shortlist
    | some v => shortlist ++ v) []

section
variable {R : Type} (idx : StoredMultiHash) (order : SetOrder) (q : ℕ → UInt8) (add : R → ℤ → ℤ → R)

/-- `verify_shortlist`, which is to read vectors that are there. -/
def verifyShortlist (shortlist : List ℕ) (res : R) : Option R :=
  shortlist.foldlM (fun res i ↦
    if i * idx.codeSize + idx.codeSize ≤ idx.storage.xb.length then
      let dis := hamming idx.codeSize q fun j ↦ idx.storage.xb.getD (i * idx.codeSize + j) 0
      some (add res (floatOfInt dis) i)
    else none) res

/-- `search_1_query_multihash` -/
def searchOneQuery (res : R) : Option R := do
  let inserted ← (idx.maps.mapIdx fun h map ↦ (h, map)).mapM fun e ↦ idx.shortlistOf q e.1 e.2
  idx.verifyShortlist q add (order.toFun inserted.flatten) res

/-- `range_search` -/
def rangeSearch (n : ℕ) (x : ℕ → UInt8) (radius : ℤ) :
    Option (List (List (ℤ × ℤ))) :=
  rangeSearchRows n idx.codeSize x radius fun q ↦ idx.searchOneQuery order q

end

/-- `search` -/
def search (idx : StoredMultiHash) (order : SetOrder) (n : ℕ) (x : ℕ → UInt8) (k : ℕ)
    (tab : ℕ → ℤ × ℤ) : Option (List (List (ℤ × ℤ))) :=
  searchRows n idx.codeSize x k tab fun q ↦ idx.searchOneQuery order q

end StoredMultiHash

end FaissNavix

/-!
# What is left of the vectors that are found

Both kinds of results get the distance as a float.  Below `2 ^ 24` nothing changes; above, a distance
may become that of the radius, or another one.
-/

namespace FaissNavix

open Lib (KSmallest)

/-! ## Integers as floats -/

theorem floatOfInt_mono : Monotone floatOfInt := by
  intro a b h
  cases a with
  | ofNat n =>
      cases b with
      | ofNat m => exact Int.ofNat_le.mpr (Lib.roundTo_mono (by decide) (Int.ofNat_le.mp h))
      | negSucc m =>
          exact absurd h (Int.not_le.mpr ((Int.negSucc_lt_zero m).trans_le (Int.natCast_nonneg n)))
  | negSucc n =>
      cases b with
      | ofNat m => exact (Int.neg_nonpos_of_nonneg (Int.natCast_nonneg _)).trans (Int.natCast_nonneg _)
      | negSucc m =>
          refine Int.neg_le_neg (Int.ofNat_le.mpr (Lib.roundTo_mono (by decide) ?_))
          omega

theorem floatOfInt_floatOfInt {a : ℤ} (ha : 0 ≤ a) : floatOfInt (floatOfInt a) = floatOfInt a := by
  obtain ⟨n, rfl⟩ := Int.eq_ofNat_of_zero_le ha
  exact congrArg Int.ofNat (Lib.roundTo_roundTo (by decide) n)

theorem floatOfInt_intMax : floatOfInt intMax = 2 ^ 31 := by
  decide

variable {k : ℕ} {row : List (ℤ × ℤ)}

/-- To be smaller than a distance in the heap, and smaller than it as a float. -/
theorem lt_floatOfInt_iff {a top : ℤ} (ha : 0 ≤ a) (htop : floatOfInt top = top ∨ top = intMax) :
    floatOfInt a < floatOfInt top ↔ floatOfInt a < top := by
  rcases htop with htop | rfl
  · rw [htop]
  · rw [floatOfInt_intMax]
    refine ⟨fun h ↦ ?_, fun h ↦ h.trans (by decide)⟩
    -- the largest `int` itself is not a float
    have hne : floatOfInt a ≠ intMax := fun heq ↦ by
      have hself := floatOfInt_floatOfInt ha
      rw [heq, floatOfInt_intMax] at hself
      exact absurd hself (by decide)
    have hmax : intMax = 2 ^ 31 - 1 := rfl
    omega

/-! ## The vectors within a radius -/

/-- A row has the vectors found at a distance below the radius, with their distances as floats. -/
def HasWithin (radius : ℤ) (found row : List (ℤ × ℤ)) : Prop :=
  row.Perm ((found.filter fun e ↦ e.1 < radius).map fun e ↦ (floatOfInt e.1, e.2))

theorem foldl_rangeAdd (radius : ℤ) (found row : List (ℤ × ℤ)) :
    found.foldl (fun row e ↦ rangeAdd radius row (floatOfInt e.1) e.2) row =
      row ++ (found.filter fun e ↦ floatOfInt e.1 < floatOfInt radius).map
        fun e ↦ (floatOfInt e.1, e.2) := by
  induction found generalizing row with
  | nil => rw [List.foldl_nil, List.filter_nil, List.map_nil, List.append_nil]
  | cons e found ih =>
      rw [List.foldl_cons, ih, List.filter_cons, rangeAdd]
      by_cases he : floatOfInt e.1 < floatOfInt radius
      · rw [if_pos he, if_pos (decide_eq_true he), List.map_cons, List.append_assoc]
        rfl
      · rw [if_neg he, if_neg (by rwa [decide_eq_true_eq])]

/-- These are all of them exactly if none of them is at the radius as a float. -/
theorem hasWithin_iff {radius : ℤ} {found visited : List (ℤ × ℤ)} (hperm : visited.Perm found) :
    HasWithin radius found
        (visited.foldl (fun row e ↦ rangeAdd radius row (floatOfInt e.1) e.2) []) ↔
      ∀ e ∈ found, e.1 < radius → floatOfInt e.1 ≠ floatOfInt radius := by
  have hsub : ∀ e : ℤ × ℤ, floatOfInt e.1 < floatOfInt radius → e.1 < radius := fun e he ↦
    floatOfInt_mono.reflect_lt he
  have hrow : ((found.filter fun e ↦ floatOfInt e.1 < floatOfInt radius).map fun e ↦
      (floatOfInt e.1, e.2)).Perm (visited.foldl (fun row e ↦
        rangeAdd radius row (floatOfInt e.1) e.2) []) := by
    rw [foldl_rangeAdd, List.nil_append]
    exact ((hperm.filter _).map _).symm
  have hfilter : (found.filter fun e ↦ floatOfInt e.1 < floatOfInt radius) =
      (found.filter fun e ↦ e.1 < radius).filter fun e ↦ floatOfInt e.1 < floatOfInt radius := by
    rw [List.filter_filter]
    refine List.filter_congr fun e _ ↦ ?_
    by_cases he : floatOfInt e.1 < floatOfInt radius
    · rw [decide_eq_true he, decide_eq_true (hsub e he)]
      rfl
    · rw [decide_eq_false he]
      rfl
  constructor
  · intro h e he hlt
    have hlength := (hrow.trans h).length_eq
    rw [List.length_map, List.length_map, hfilter, List.length_filter_eq_length_iff] at hlength
    have hin := hlength e (List.mem_filter.mpr ⟨he, decide_eq_true hlt⟩)
    exact (of_decide_eq_true hin).ne
  · intro h
    refine hrow.symm.trans (List.Perm.of_eq ?_)
    rw [hfilter, List.filter_eq_self.mpr]
    intro e he
    obtain ⟨he, hlt⟩ := List.mem_filter.mp he
    have hlt := of_decide_eq_true hlt
    exact decide_eq_true (lt_of_le_of_ne (floatOfInt_mono hlt.le) (h e he hlt))

/-! ## The nearest vectors -/

def FloatHeap (k : ℕ) (heap : ℕ → ℤ × ℤ) : Prop :=
  ∀ x ∈ entries k heap, floatOfInt x.1 = x.1 ∨ x.1 = intMax

/-- Adding floats to the heap is offering them. -/
theorem foldl_knnAdd (hk : 1 ≤ k) {found : List (ℤ × ℤ)} (hfound : ∀ e ∈ found, 0 ≤ e.1)
    {heap : ℕ → ℤ × ℤ} (hheap : FloatHeap k heap) :
    TopK.addResults CMaxInt ⟨k, heap, (heap 0).1⟩ (found.map fun e ↦ (floatOfInt e.1, e.2)) =
      let heap' := found.foldl (fun heap e ↦ knnAdd k heap (floatOfInt e.1) e.2) heap
      ⟨k, heap', (heap' 0).1⟩ := by
  induction found generalizing heap with
  | nil => rfl
  | cons e found ih =>
      have htop := hheap _ (mem_entries.mpr ⟨0, hk, rfl⟩)
      have hiff := lt_floatOfInt_iff (hfound e List.mem_cons_self) htop
      have hstep : TopK.addResult CMaxInt ⟨k, heap, (heap 0).1⟩ (floatOfInt e.1) e.2 =
          (⟨k, knnAdd k heap (floatOfInt e.1) e.2, (knnAdd k heap (floatOfInt e.1) e.2 0).1⟩,
            decide (floatOfInt e.1 < (heap 0).1)) := by
        unfold TopK.addResult knnAdd
        by_cases hlt : floatOfInt e.1 < (heap 0).1
        · rw [if_pos (hiff.mpr hlt), decide_eq_true hlt, if_pos (show CMaxInt.cmp (heap 0).1
            (floatOfInt e.1) = true from decide_eq_true hlt)]
        · rw [if_neg (mt hiff.mp hlt), decide_eq_false hlt, if_neg (show ¬ CMaxInt.cmp (heap 0).1
            (floatOfInt e.1) = true from fun h ↦ hlt (of_decide_eq_true h))]
      have hnext : FloatHeap k (knnAdd k heap (floatOfInt e.1) e.2) := by
        unfold knnAdd
        split
        · intro x hx
          have hmem : x ∈ heap 0 ::ₘ entries k (heapReplaceTop CMaxInt k heap (floatOfInt e.1) e.2) :=
            Multiset.mem_cons_of_mem hx
          rw [cons_entries_heapReplaceTop hk] at hmem
          rcases Multiset.mem_cons.mp hmem with rfl | hx
          · exact .inl (floatOfInt_floatOfInt (hfound e List.mem_cons_self))
          · exact hheap x hx
        · exact hheap
      rw [List.map_cons, TopK.addResults, List.foldl_cons, hstep]
      exact ih (fun e he ↦ hfound e (List.mem_cons_of_mem _ he)) hnext

/-- The distances are the smallest ones exactly if the smallest ones are floats. -/
theorem hasSmallest_rounded_iff {D : Multiset ℤ} (hD : ∀ d ∈ D, 0 ≤ d ∧ d < intMax)
    (hrow : HasSmallest k ((D.map floatOfInt).filter (· < intMax)) row) :
    HasSmallest k D row ↔ ∀ d ∈ D, D.countP (· < d) < k → floatOfInt d = d := by
  constructor
  · rintro ⟨T, hT, hsorted, hdistances⟩ d hd hcount
    obtain ⟨T', hT', -, hdistances'⟩ := hrow
    -- what is less than the filling is the same in both
    have hT'd : d ∈ T → d ∈ T' := by
      intro hdT
      have hin : d ∈ T' ++ List.replicate (k - T'.length) intMax := by
        rw [← hdistances', hdistances]
        exact List.mem_append_left _ hdT
      rcases List.mem_append.mp hin with hin | hin
      · exact hin
      · exact absurd (List.eq_of_mem_replicate hin) (hD d hd).2.ne
    have hdT : d ∈ T := by
      by_contra hnot
      have hcountT : T.countP (· < d) = T.length := by
        obtain ⟨R, hsum, hkeep⟩ := hT
        have hdR : d ∈ R := by
          rw [hsum] at hd
          exact (Multiset.mem_add.mp hd).resolve_left hnot
        exact List.countP_eq_length.mpr fun t ht ↦
          decide_eq_true (lt_of_le_of_ne (hkeep.le t ht d hdR) fun heq ↦ hnot (heq ▸ ht))
      have hfull : T.length = k := by
        obtain ⟨R, hsum, hkeep⟩ := hT
        refine hkeep.full fun h0 ↦ hnot ?_
        rw [hsum, h0, add_zero] at hd
        exact hd
      have hle : T.countP (· < d) ≤ D.countP (· < d) := by
        rw [← Multiset.coe_countP]
        exact Multiset.countP_le_of_le _ hT.sub
      omega
    obtain ⟨a, ha, rfl⟩ := Multiset.mem_map.mp
      (Multiset.mem_of_mem_filter (Multiset.mem_of_le hT'.sub (Multiset.mem_coe.mpr (hT'd hdT))))
    exact floatOfInt_floatOfInt (hD a ha).1
  · intro hfloat
    obtain ⟨T, hT, hsorted⟩ := KSmallest.exists_sorted k D
    have hkept : ∀ d ∈ T, floatOfInt d = d := by
      intro d hd
      refine hfloat d (Multiset.mem_of_le hT.sub hd) ?_
      have hc := hT.countP_eq (· < d) fun _ _ h1 h2 ↦ lt_of_le_of_lt h1 h2
      have hlt : T.countP (· < d) < T.length := by
        refine lt_of_le_of_ne List.countP_le_length fun heq ↦ ?_
        exact lt_irrefl d (of_decide_eq_true (List.countP_eq_length.mp heq d hd))
      have hle := hT.card_le
      rw [Multiset.coe_card] at hle
      simp only [id_eq, Multiset.coe_countP] at hc
      omega
    have hT' : KSmallest id k ((D.map floatOfInt).filter (· < intMax)) ↑T := by
      obtain ⟨R, hsum, hkeep⟩ := hT
      refine ⟨(R.map floatOfInt).filter (· < intMax), ?_, hkeep.card_le, fun hne ↦ ?_, ?_⟩
      · rw [hsum, Multiset.map_add, Multiset.filter_add]
        congr 1
        rw [Multiset.map_congr rfl hkept, Multiset.map_id']
        exact Multiset.filter_eq_self.mpr fun d hd ↦
          (hD d (hsum ▸ Multiset.mem_add.mpr (.inl hd))).2
      · exact hkeep.full fun h0 ↦ hne (by rw [h0, Multiset.map_zero, Multiset.filter_zero])
      · intro t ht r hr
        obtain ⟨r, hrR, rfl⟩ := Multiset.mem_map.mp (Multiset.mem_of_mem_filter hr)
        rw [id_eq, id_eq, ← hkept t ht]
        exact floatOfInt_mono (hkeep.le t ht r hrR)
    refine ⟨T, hT, hsorted, ?_⟩
    obtain ⟨T', hT'', hsorted', hdistances⟩ := hrow
    rw [hdistances, hT'.sorted_unique hT'' hsorted hsorted']

end FaissNavix
