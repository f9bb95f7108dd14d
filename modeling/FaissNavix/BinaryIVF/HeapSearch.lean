import FaissNavix.BucketSort
import FaissNavix.Hamming
import FaissNavix.IVF.Search

/-!
# Searching a binary inverted file

`IndexBinaryIVF::search_preassigned` of `faiss/IndexBinaryIVF.cpp` with its three algorithms: a heap for
each query, a counter for each query and distance, and a search list by list of the queries that probe
the list.  The `Fault` of a call that throws, or that reads or writes outside of an array, is not kept:
such a call has no result, as one that does not end.
-/

namespace FaissNavix

open Function

/-- What a search reads of an `IndexBinaryIVF`, whose metric is always `METRIC_L2`.  The dimension is an
`int`, and no entry has the id `-1` that stands for missing results. -/
structure IndexBinaryIVF where
  codeSize : ℕ
  nlist : ℕ
  nprobe : ℕ
  maxCodes : ℕ
  useHeap : Bool
  perInvlistSearch : Bool
  list : ℕ → List Entry
  codeSize_lt : 8 * codeSize < 2 ^ 31
  id_ne : ∀ l, ∀ e ∈ list l, e.id.toInt ≠ -1

namespace IndexBinaryIVF

variable {QP : Type} (ivf : IndexBinaryIVF) (params : Option (IVFSearchParameters QP))

/-- `nprobe`, of the parameters or of the index, and at most `nlist`. -/
def nprobeOf : ℕ :=
  min ivf.nlist ((params.map IVFSearchParameters.nprobe).getD ivf.nprobe)

/-- `max_codes`, of the parameters or of the index. -/
def maxCodesOf : ℕ :=
  (params.map IVFSearchParameters.maxCodes).getD ivf.maxCodes

/-- `hc.hamming`, for the Hamming computer of query `i`. -/
def distance (x : ℕ → UInt8) (i : ℕ) (e : Entry) : ℤ :=
  hamming ivf.codeSize (fun p ↦ x (i * ivf.codeSize + p)) fun p ↦ e.code.getD p 0

/-- The id that is reported for an entry of the list `l`. -/
def idOf (storePairs : Bool) (l : ℕ) (e : Entry) (j : ℕ) : ℤ :=
  if storePairs then (loOf l j).toInt else e.id.toInt

/-- The distance to query `i` and the id of each entry of the list `l`. -/
def offersOf (storePairs : Bool) (x : ℕ → UInt8) (i l : ℕ) : List (ℤ × ℤ) :=
  (ivf.list l).zipIdx.map fun e ↦ (ivf.distance x i e.1, idOf storePairs l e.1 e.2)

/-- The keys of query `i`. -/
def keysOf (nprobe : ℕ) (keys : ℕ → ℤ) (i : ℕ) : List ℤ :=
  (List.range nprobe).map fun ik ↦ keys (i * nprobe + ik)

/-- The loop over the probes of a query, the same with a heap as with counters.  It throws for a key from
`nlist` on. -/
def scanProbes {S : Type} (maxCodes : ℕ) (scan : ℕ → S → Option S) : List ℤ → ℕ → S → Option S
  | [], _, s => some s
  | key :: keys, nscan, s =>
    if key < 0 then scanProbes maxCodes scan keys nscan s
    else if ivf.nlist ≤ key then none
    else do
      let s ← scan key.toNat s
      let nscan := nscan + (ivf.list key.toNat).length
      if maxCodes ≠ 0 ∧ maxCodes ≤ nscan then some s
      else scanProbes maxCodes scan keys nscan s

/-! ## A heap for each query -/

/-- `search_knn_hamming_heap` -/
def searchKnnHammingHeap (n : ℕ) (x : ℕ → UInt8) (k : ℕ) (keys : ℕ → ℤ) (tab : ℕ → ℤ × ℤ)
    (storePairs : Bool) : Option (List (List (ℤ × ℤ))) :=
  (List.range n).mapM fun i ↦ do
    let heap ← ivf.scanProbes (ivf.maxCodesOf params)
      (fun l heap ↦ some (heapOffers CMaxInt k heap (ivf.offersOf storePairs x i l)))
      (keysOf (ivf.nprobeOf params) keys i) 0 (heapHeapify CMaxInt k fun j ↦ tab (k * i + j))
    return firstEntries k (heapReorder CMaxInt k heap).2

end IndexBinaryIVF

/-! ## Counters for each query -/

/-- `HCounterState`, without the query.  The ids at distance `b` are at `idsPerDis[b * k]`. -/
structure HCounterState where
  counters : ℕ → ℕ
  idsPerDis : ℕ → ℤ
  thres : ℕ
  countLt : ℤ
  countEq : ℤ

namespace HCounterState

/-- The constructor, for memory that is not initialised. -/
def new (d : ℕ) (idsPerDis : ℕ → ℤ) : HCounterState :=
  ⟨fun _ ↦ 0, idsPerDis, d + 1, 0, 0⟩

/-- The loop `while (count_lt == k && thres > 0)`. -/
def lower (k : ℕ) (counters : ℕ → ℕ) : ℕ → ℤ → ℤ → ℕ × ℤ × ℤ
  | 0, countLt, countEq => (0, countLt, countEq)
  | thres + 1, countLt, countEq =>
    if countLt = k then lower k counters thres (countLt - counters thres) (counters thres)
    else (thres + 1, countLt, countEq)

/-- `update_counter`, with `ids_per_dis` for `nBuckets` distances. -/
def updateCounter (nBuckets k : ℕ) (dis : ℕ) (id : ℤ) (s : HCounterState) : Option HCounterState :=
  if dis ≤ s.thres then
    if dis < s.thres then
      if nBuckets ≤ dis ∨ nBuckets * k ≤ dis * k + s.counters dis then none
      else
        let idsPerDis := update s.idsPerDis (dis * k + s.counters dis) id
        let counters := Lib.bump s.counters dis
        let lowered := lower k counters s.thres (s.countLt + 1) s.countEq
        some ⟨counters, idsPerDis, lowered.1, lowered.2.1, lowered.2.2⟩
    else if s.countEq < k then
      if nBuckets ≤ dis ∨ nBuckets * k ≤ dis * k + s.countEq.toNat then none
      else some { s with
        idsPerDis := update s.idsPerDis (dis * k + s.countEq.toNat) id
        counters := update s.counters dis (s.countEq + 1).toNat
        countEq := s.countEq + 1 }
    else some s
  else some s

/-- The loops that write the results: the first `k` of the counted ones, by their distances. -/
def results (nBuckets k : ℕ) (s : HCounterState) : List (ℤ × ℤ) :=
  let row := (List.range nBuckets).foldl (fun row b ↦
    (List.range (s.counters b)).foldl (fun row l ↦
      if row.length < k then row ++ [((b : ℤ), s.idsPerDis (b * k + l))] else row) row) []
  row ++ List.replicate (k - row.length) (intMax, -1)

end HCounterState

namespace IndexBinaryIVF

variable {QP : Type} (ivf : IndexBinaryIVF) (params : Option (IVFSearchParameters QP))

/-- `search_knn_hamming_count`, with the content that `all_ids_per_dis` has at first. -/
def searchKnnHammingCount (n : ℕ) (x : ℕ → UInt8) (keys : ℕ → ℤ) (k : ℕ) (allIdsPerDis : ℕ → ℤ)
    (storePairs : Bool) : Option (List (List (ℤ × ℤ))) :=
  let nBuckets := 8 * ivf.codeSize + 1
  (List.range n).mapM fun i ↦ do
    let csi ← ivf.scanProbes (ivf.maxCodesOf params)
      (fun l csi ↦ (ivf.offersOf storePairs x i l).foldlM (fun (csi : HCounterState) (y : ℤ × ℤ) ↦
        csi.updateCounter nBuckets k y.1.toNat y.2) csi)
      (keysOf (ivf.nprobeOf params) keys i) 0
      (HCounterState.new (8 * ivf.codeSize) fun p ↦ allIdsPerDis (i * nBuckets * k + p))
    return csi.results nBuckets k

/-! ## List by list -/

/-- `add_bcode` of a `BlockSearch`, the same for every `K`: the rows of results, and the queries of the
block with the tops that it keeps of their heaps. -/
def addBcode (k : ℕ) (dis : ℕ → ℤ) (id : ℤ) : List (ℕ × ℤ) → (ℕ → ℕ → ℤ × ℤ) →
    (ℕ → ℕ → ℤ × ℤ) × List (ℕ × ℤ)
  | [], rows => (rows, [])
  | (q, heapTop) :: block, rows =>
    if dis q < heapTop then
      let heap := heapReplaceTop CMaxInt k (rows q) (dis q) id
      let rest := addBcode k dis id block (update rows q heap)
      (rest.1, (q, (heap 0).1) :: rest.2)
    else
      let rest := addBcode k dis id block rows
      (rest.1, (q, heapTop) :: rest.2)

/-- A `BlockSearch` for some queries, over the entries of the list `l`. -/
def blockSearch (k : ℕ) (x : ℕ → UInt8) (l : ℕ) (rows : ℕ → ℕ → ℤ × ℤ) (queries : List ℕ) :
    ℕ → ℕ → ℤ × ℤ :=
  ((ivf.list l).foldl (fun s e ↦ addBcode k (ivf.distance x · e) e.id.toInt s.2 s.1)
    (rows, queries.map fun q ↦ (q, (rows q 0).1))).1

/-- The loop over the entries of the list `l` for one query, of those that are left over. -/
def leftover (k : ℕ) (x : ℕ → UInt8) (l : ℕ) (rows : ℕ → ℕ → ℤ × ℤ) (q : ℕ) : ℕ → ℕ → ℤ × ℤ :=
  update rows q ((ivf.list l).foldl (fun (s : (ℕ → ℤ × ℤ) × ℤ) e ↦
    if ivf.distance x q e < s.2 then
      let heap := heapReplaceTop CMaxInt k s.1 (ivf.distance x q e) e.id.toInt
      (heap, (heap 0).1)
    else s) (rows q, (rows q 0).1)).1

/-- The queries of a list, as many as possible by blocks of four. -/
def searchList (k : ℕ) (x : ℕ → UInt8) (l : ℕ) : List ℕ → (ℕ → ℕ → ℤ × ℤ) → ℕ → ℕ → ℤ × ℤ
  | q₀ :: q₁ :: q₂ :: q₃ :: queries, rows =>
    searchList k x l queries (ivf.blockSearch k x l rows [q₀, q₁, q₂, q₃])
  | queries, rows => queries.foldl (ivf.leftover k x l) rows

variable (assertions : Bool) (turns n : ℕ) (x : ℕ → UInt8) (k : ℕ) (keys : ℕ → ℤ) (tab : ℕ → ℤ × ℤ)

/-- `search_knn_hamming_per_invlist` -/
def searchKnnHammingPerInvlist (storePairs : Bool) : Option (List (List (ℤ × ℤ))) :=
  if ivf.maxCodesOf params ≠ 0 then none
  else if storePairs then none
  else do
    let (keys, lims) ←
      bucketSortInplaceRef assertions turns n (ivf.nprobeOf params) keys ivf.nlist (n + 1)
    let rows := (List.range ivf.nlist).foldl (fun rows l ↦
      let l0 := lims l
      let nq := lims (l + 1) - l0
      ivf.searchList k x l ((List.range' l0 nq).map fun p ↦ (keys p).toNat) rows)
        fun i ↦ heapHeapify CMaxInt k fun j ↦ tab (k * i + j)
    return (List.range n).map fun i ↦ firstEntries k (heapReorder CMaxInt k (rows i)).2

/-! ## The search -/

/-- `search_preassigned` -/
def searchPreassigned (allIdsPerDis : ℕ → ℤ) (storePairs : Bool) : Option (List (List (ℤ × ℤ))) :=
  if ivf.perInvlistSearch then
    ivf.searchKnnHammingPerInvlist params assertions turns n x k keys tab storePairs
  else if ivf.useHeap then ivf.searchKnnHammingHeap params n x k keys tab storePairs
  else ivf.searchKnnHammingCount params n x keys k allIdsPerDis storePairs

end IndexBinaryIVF

end FaissNavix

/-!
# The binary search with heaps

The row of a query has the `k` smallest of the distances to the entries of the lists that it probes, each
with the id of its entry.  `RowSelects` is what is to be shown of the three algorithms.
-/

namespace FaissNavix

open Function
open Lib (KSmallest)
open TopK (ofHeap)

/-- The row has the `k` smallest of some results, in order, and then the missing ones. -/
def RowSelects (k : ℕ) (S : Multiset (ℤ × ℤ)) (row : List (ℤ × ℤ)) : Prop :=
  ∃ L : List (ℤ × ℤ), KSmallest Prod.fst k S ↑L ∧ L.Pairwise (fun x y ↦ x.1 ≤ y.1) ∧
    row = L ++ List.replicate (k - L.length) (intMax, -1)

section
variable {k : ℕ} {S : Multiset (ℤ × ℤ)} {row : List (ℤ × ℤ)}

theorem RowSelects.unique {row' : List (ℤ × ℤ)} (h : RowSelects k S row)
    (h' : RowSelects k S row') : row.map Prod.fst = row'.map Prod.fst := by
  obtain ⟨L, hL, hsorted, rfl⟩ := h
  obtain ⟨L', hL', hsorted', rfl⟩ := h'
  have hfst : L.map Prod.fst = L'.map Prod.fst := by
    refine hL.map_id.sorted_unique hL'.map_id ?_ ?_
    · exact List.pairwise_map.mpr hsorted
    · exact List.pairwise_map.mpr hsorted'
  have hlength : L.length = L'.length := by
    rw [← List.length_map (f := Prod.fst), hfst, List.length_map]
  rw [List.map_append, List.map_append, hfst, hlength]

theorem RowSelects.length_eq (h : RowSelects k S row) :
    row.length = k := by
  obtain ⟨L, hL, -, rfl⟩ := h
  have hle := hL.card_le
  rw [Multiset.coe_card] at hle
  rw [List.length_append, List.length_replicate]
  omega

theorem RowSelects.mem (h : RowSelects k S row) {y : ℤ × ℤ}
    (hy : y ∈ row) : y ∈ S ∨ y.2 = -1 := by
  obtain ⟨L, hL, -, rfl⟩ := h
  rcases List.mem_append.mp hy with hy | hy
  · exact Or.inl (Multiset.mem_of_le hL.sub (Multiset.mem_coe.mpr hy))
  · exact Or.inr (congrArg Prod.snd (List.eq_of_mem_replicate hy))

theorem RowSelects.head_mem (h : RowSelects k S row)
    (hk : 1 ≤ k) (hS : S ≠ 0) : ∃ y ∈ S, row.head? = some y := by
  obtain ⟨L, hL, -, rfl⟩ := h
  have hcard := hL.card_eq
  have hpos := Multiset.card_pos.mpr hS
  rw [Multiset.coe_card] at hcard
  obtain ⟨y, L, rfl⟩ := List.exists_cons_of_length_pos (show 0 < L.length by omega)
  exact ⟨y, Multiset.mem_of_le hL.sub (Multiset.mem_coe.mpr List.mem_cons_self), rfl⟩

end

theorem selects_of_holds {k : ℕ} {heap : ℕ → ℤ × ℤ} {S : Multiset (ℤ × ℤ)}
    (h : (ofHeap k heap).Holds CMaxInt id S) : RowSelects k S (firstEntries k (heapReorder CMaxInt k heap).2) :=
  h.results CMaxInt_keyed

namespace IndexBinaryIVF

variable {QP : Type} {ivf : IndexBinaryIVF} {params : Option (IVFSearchParameters QP)}

def probedLists (keys : List ℤ) : List ℕ :=
  (keys.filter fun key ↦ 0 ≤ key).map Int.toNat

def candidates (ivf : IndexBinaryIVF) (x : ℕ → UInt8) (i : ℕ) (keys : List ℤ) : List (ℤ × ℤ) :=
  (probedLists keys).flatMap (ivf.offersOf false x i)

theorem distance_bounds (ivf : IndexBinaryIVF) (x : ℕ → UInt8) (i : ℕ) (e : Entry) :
    0 ≤ ivf.distance x i e ∧ ivf.distance x i e ≤ 8 * ivf.codeSize ∧ ivf.distance x i e < intMax := by
  have hle := differing_le (8 * ivf.codeSize) (memBit fun p ↦ x (i * ivf.codeSize + p))
    (memBit fun p ↦ e.code.getD p 0)
  have hlt := ivf.codeSize_lt
  rw [distance, hamming_eq, intMax]
  omega

theorem exists_of_mem_offersOf {storePairs : Bool} {x : ℕ → UInt8} {i l : ℕ} {y : ℤ × ℤ}
    (hy : y ∈ ivf.offersOf storePairs x i l) :
    ∃ j e, (ivf.list l)[j]? = some e ∧ y = (ivf.distance x i e, idOf storePairs l e j) := by
  obtain ⟨⟨e, j⟩, he, rfl⟩ := List.mem_map.mp hy
  exact ⟨j, e, List.mk_mem_zipIdx_iff_getElem?.mp he, rfl⟩

theorem real_offersOf (ivf : IndexBinaryIVF) (x : ℕ → UInt8) (i l : ℕ) :
    ∀ y ∈ ivf.offersOf false x i l, y.2 ≠ -1 := by
  intro y hy
  obtain ⟨j, e, he, rfl⟩ := exists_of_mem_offersOf hy
  exact ivf.id_ne l e (List.mem_of_getElem? he)

theorem mem_offersOf {x : ℕ → UInt8} {i l : ℕ} {y : ℤ × ℤ} :
    y ∈ ivf.offersOf false x i l ↔ ∃ e ∈ ivf.list l, y = (ivf.distance x i e, e.id.toInt) := by
  constructor
  · intro hy
    obtain ⟨e, he, rfl⟩ := List.mem_map.mp hy
    exact ⟨e.1, List.fst_mem_of_mem_zipIdx he, rfl⟩
  · rintro ⟨e, he, rfl⟩
    obtain ⟨j, hj, rfl⟩ := List.mem_iff_getElem.mp he
    exact List.mem_map.mpr ⟨(_, j), List.mk_mem_zipIdx_iff_getElem?.mpr (List.getElem?_eq_getElem hj), rfl⟩

theorem offersOf_false (x : ℕ → UInt8) (i l : ℕ) : ivf.offersOf false x i l =
    (ivf.list l).map fun e ↦ (ivf.distance x i e, e.id.toInt) := by
  have hmap : ivf.offersOf false x i l = ((ivf.list l).zipIdx.map Prod.fst).map
      fun e ↦ (ivf.distance x i e, e.id.toInt) := by
    rw [List.map_map]
    rfl
  rw [hmap, List.zipIdx_map_fst]

/-- Where no number of codes is set, and the keys are in range, the loop goes through all lists. -/
theorem scanProbes_eq {S : Type} (scan : ℕ → S → Option S) {keys : List ℤ} (h : ∀ key ∈ keys, key < ivf.nlist)
    (nscan : ℕ) (s : S) : ivf.scanProbes 0 scan keys nscan s =
      (probedLists keys).foldlM (fun s l ↦ scan l s) s := by
  induction keys generalizing nscan s with
  | nil => rfl
  | cons key keys ih =>
      have hrest := fun key hkey ↦ h key (List.mem_cons_of_mem _ hkey)
      unfold scanProbes probedLists
      rw [List.filter_cons]
      by_cases hkey : key < 0
      · rw [if_pos hkey, if_neg (by simpa using hkey)]
        exact ih hrest nscan s
      · rw [if_neg hkey, if_neg (Int.not_le.mpr (h key List.mem_cons_self)), if_pos (by simpa using hkey),
          List.map_cons, List.foldlM_cons]
        refine congrArg _ (funext fun s ↦ ?_)
        rw [if_neg fun h ↦ h.1 rfl]
        exact ih hrest _ s

theorem real_candidates {x : ℕ → UInt8} {i : ℕ} {keys : List ℤ} {y : ℤ × ℤ}
    (hy : y ∈ ivf.candidates x i keys) : ∃ l ∈ probedLists keys, ∃ e ∈ ivf.list l,
      y = (ivf.distance x i e, e.id.toInt) := by
  obtain ⟨l, hl, hy⟩ := List.mem_flatMap.mp hy
  exact ⟨l, hl, mem_offersOf.mp hy⟩

theorem holds_offers {k : ℕ} {heap : ℕ → ℤ × ℤ} {S : Multiset (ℤ × ℤ)} {storePairs : Bool}
    (h : (ofHeap k heap).Holds CMaxInt id S) {x : ℕ → UInt8} {i l : ℕ}
    (hreal : ∀ y ∈ ivf.offersOf storePairs x i l, y.2 ≠ -1) :
    (ofHeap k (heapOffers CMaxInt k heap (ivf.offersOf storePairs x i l))).Holds CMaxInt id
      (↑(ivf.offersOf storePairs x i l) + S) := by
  have hbelow : (ivf.offersOf storePairs x i l).filter (fun y ↦ CMaxInt.cmp CMaxInt.neutral y.1) =
      ivf.offersOf storePairs x i l := by
    refine List.filter_eq_self.mpr fun y hy ↦ ?_
    obtain ⟨j, e, -, rfl⟩ := exists_of_mem_offersOf hy
    exact CMaxInt_keyed.cmp_iff.mpr ⟨trivial, trivial, (ivf.distance_bounds x i e).2.2⟩
  have hoffers := h.heapOffers CMaxInt_keyed hreal
  rwa [hbelow] at hoffers

theorem foldl_holds (ivf : IndexBinaryIVF) {k : ℕ} {heap : ℕ → ℤ × ℤ} {S : Multiset (ℤ × ℤ)}
    {storePairs : Bool} (h : (ofHeap k heap).Holds CMaxInt id S) (x : ℕ → UInt8) (i : ℕ) (ls : List ℕ)
    (hreal : ∀ l ∈ ls, ∀ y ∈ ivf.offersOf storePairs x i l, y.2 ≠ -1) :
    (ofHeap k (ls.foldl (fun heap l ↦ heapOffers CMaxInt k heap (ivf.offersOf storePairs x i l)) heap)).Holds
      CMaxInt id (↑(ls.flatMap (ivf.offersOf storePairs x i)) + S) := by
  induction ls generalizing heap S with
  | nil =>
      rw [List.flatMap_nil, Multiset.coe_nil, zero_add]
      exact h
  | cons l ls ih =>
      rw [List.flatMap_cons, List.foldl_cons, ← Multiset.coe_add,
        add_comm (ivf.offersOf storePairs x i l : Multiset (ℤ × ℤ)), add_assoc]
      exact ih (holds_offers h (hreal l List.mem_cons_self)) fun l' hl' ↦
        hreal l' (List.mem_cons_of_mem l hl')

theorem keysOf_lt {n nprobe i : ℕ} {keys : ℕ → ℤ} {b : ℤ} (h : ∀ p < n * nprobe, keys p < b) (hi : i < n) :
    ∀ key ∈ keysOf nprobe keys i, key < b := by
  intro key hkey
  obtain ⟨ik, hik, rfl⟩ := List.mem_map.mp hkey
  have hik := List.mem_range.mp hik
  refine h _ ?_
  calc i * nprobe + ik < (i + 1) * nprobe := by rw [Nat.add_mul, Nat.one_mul]; omega
    _ ≤ n * nprobe := Nat.mul_le_mul_right _ hi

/-- The search with heaps returns what is to be selected. -/
theorem searchKnnHammingHeap_selects {n k : ℕ} {keys : ℕ → ℤ} (hk : 1 ≤ k) (x : ℕ → UInt8)
    (tab : ℕ → ℤ × ℤ) (hcodes : ivf.maxCodesOf params = 0)
    (hkeys : ∀ p < n * ivf.nprobeOf params, keys p < ivf.nlist) :
    ∃ rows : ℕ → List (ℤ × ℤ),
      ivf.searchKnnHammingHeap params n x k keys tab false = some ((List.range n).map rows) ∧
      ∀ i < n, RowSelects k ↑(ivf.candidates x i (keysOf (ivf.nprobeOf params) keys i)) (rows i) := by
  have hreturns : ∀ i ∈ List.range n, ivf.scanProbes (ivf.maxCodesOf params)
      (fun l heap ↦ some (heapOffers CMaxInt k heap (ivf.offersOf false x i l)))
      (keysOf (ivf.nprobeOf params) keys i) 0 (heapHeapify CMaxInt k fun j ↦ tab (k * i + j)) =
        some ((probedLists (keysOf (ivf.nprobeOf params) keys i)).foldl
          (fun heap l ↦ heapOffers CMaxInt k heap (ivf.offersOf false x i l))
          (heapHeapify CMaxInt k fun j ↦ tab (k * i + j))) := fun i hi ↦ by
    rw [hcodes, scanProbes_eq _ (keysOf_lt hkeys (List.mem_range.mp hi))]
    exact List.foldlM_pure
  refine ⟨fun i ↦ firstEntries k (heapReorder CMaxInt k
    ((probedLists (keysOf (ivf.nprobeOf params) keys i)).foldl
      (fun heap l ↦ heapOffers CMaxInt k heap (ivf.offersOf false x i l))
      (heapHeapify CMaxInt k fun j ↦ tab (k * i + j)))).2, Lib.mapM_eq_some_map fun i hi ↦ ?_, fun i hi ↦ ?_⟩
  · rw [hreturns i hi]
    rfl
  · have hholds := ivf.foldl_holds (TopK.holds_heapHeapify hk fun j ↦ tab (k * i + j)) x i
      (probedLists (keysOf (ivf.nprobeOf params) keys i)) fun l _ ↦ ivf.real_offersOf x i l
    rw [add_zero] at hholds
    exact selects_of_holds hholds

end IndexBinaryIVF

end FaissNavix
