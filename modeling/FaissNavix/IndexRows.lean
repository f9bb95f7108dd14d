import FaissNavix.HNSW.Flags
import FaissNavix.IndexHNSW
import FaissNavix.Lib.Updates

/-!
# The rows of a call

A call for many queries gives every row what the search for its query alone gives, from a new
visited table: the results of a search depend on the flags of the table only, `advance` clears them
between the rows of a thread, and the rows are disjoint.  So neither the blocks nor the threads
matter (`search_rows`, `navixSearch_rows`), and a call for one query gives the same
(`singleSearch_row`, `navixSingleSearch_row`), up to the signs that the former reverts.
-/

namespace FaissNavix

open Lib (Writes foldlM_writes)

/-! ## The tables -/

namespace Tables

variable {k i j : ℕ} {tab : Tables} {r : ℕ → F32 × ℤ}

theorem results_setRow_self : (tab.setRow k i r).results k i = firstEntries k r := by
  refine List.map_congr_left fun j hj ↦ ?_
  have hj := List.mem_range.mp hj
  rw [row, if_pos hj, setRow, if_pos (by omega), Nat.add_sub_cancel_left]

theorem results_setRow_of_ne (h : j ≠ i) : (tab.setRow k i r).results k j = tab.results k j := by
  refine List.map_congr_left fun l hl ↦ ?_
  have hl := List.mem_range.mp hl
  rw [row, row, if_pos hl, if_pos hl, setRow, if_neg]
  rintro ⟨h1, h2⟩
  rcases lt_or_gt_of_ne h with hlt | hlt
  · have := Nat.mul_le_mul_right k (show j + 1 ≤ i from hlt)
    rw [Nat.succ_mul] at this
    omega
  · have := Nat.mul_le_mul_right k (show i + 1 ≤ j from hlt)
    rw [Nat.succ_mul] at this
    omega

theorem results_negated {n : ℕ} (hi : i < n) :
    (tab.negated (k * n)).results k i = (tab.results k i).map fun x ↦ (x.1.neg, x.2) := by
  rw [results, results, firstEntries, firstEntries, List.map_map]
  refine List.map_congr_left fun j hj ↦ ?_
  have hj := List.mem_range.mp hj
  have hlt : i * k + j < k * n :=
    calc i * k + j < (i + 1) * k := by rw [Nat.succ_mul]; omega
      _ ≤ n * k := Nat.mul_le_mul_right _ hi
      _ = k * n := Nat.mul_comm _ _
  rw [Function.comp_apply, row, row, if_pos hj, if_pos hj, negated, if_pos hlt]

end Tables

/-- The handler of a query before its first result, whatever the tables hold. -/
def HeapHandler.fresh (k : ℕ) : HeapHandler := begin k fun _ ↦ (F32.max, -1)

theorem HeapHandler.begin_row (k i : ℕ) (tab : Tables) : begin k (tab.row k i) = fresh k := by
  have h : heapHeapify CMax k (tab.row k i) = heapHeapify CMax k fun _ ↦ (F32.max, -1) := by
    funext j
    rw [heapHeapify, heapHeapify, Tables.row]
    split <;> rfl
  rw [fresh, begin, begin, h]

/-! ## The schedule -/

theorem Runtime.getPeriodHint_pos (rt : Runtime) (flops : ℤ) : 1 ≤ rt.getPeriodHint flops := by
  unfold getPeriodHint
  split
  · exact le_max_right _ _
  · exact Nat.one_le_two_pow

/-- The threads of all blocks take the rows of all queries. -/
theorem mem_threads (rt : Runtime) {n period i : ℕ} (hp : 1 ≤ period) :
    (∃ rows ∈ threads rt n period, i ∈ rows) ↔ i < n := by
  have hblock : ∀ b, (∃ rows ∈ rt.share b (blockRows n period b), i ∈ rows) ↔
      i ∈ blockRows n period b := fun b ↦ by
    rw [← (rt.perm b _).mem_iff, List.mem_flatten]
  calc (∃ rows ∈ threads rt n period, i ∈ rows)
      ↔ ∃ b ∈ List.range ((n + period - 1) / period), i ∈ blockRows n period b := by
        simp only [threads, List.mem_flatMap, ← hblock]
        tauto
    _ ↔ i < n := by
        simp only [blockRows, List.mem_range'_1, List.mem_range]
        constructor
        · rintro ⟨b, -, hle, hlt⟩
          omega
        · intro hi
          have h1 := Nat.div_mul_le_self i period
          have h2 := Nat.lt_div_mul_add (a := i) hp
          refine ⟨i / period, ?_, h1, by omega⟩
          rw [Nat.lt_iff_add_one_le, Nat.le_div_iff_mul_le hp, Nat.succ_mul]
          omega

/-! ## One query -/

/-- The results of a search depend on the flags of the visited table only, and a table that was
ready for it is ready for the next one. -/
def Steady {H : Type} (ntotal : ℕ) (one : H → VisitedTable → Option (SearchOne H)) (res : H) :
    Prop :=
  ∀ vt vt' : VisitedTable, vt.Ready ntotal → vt'.Clean ntotal →
    ∃ r r', one res vt = some r ∧ one res vt' = some r' ∧ r.res = r'.res ∧ r.vt.Ready ntotal

/-- The results of a search for one query from a new visited table. -/
def soloResults (k ntotal : ℕ) (one : HeapHandler → VisitedTable → Option (SearchOne HeapHandler)) :
    List (F32 × ℤ) :=
  ((one (HeapHandler.fresh k) (VisitedTable.new ntotal)).map fun r ↦
    firstEntries k r.res.end).getD []

variable {k ntotal : ℕ}

theorem Steady.soloResults {one : HeapHandler → VisitedTable → Option (SearchOne HeapHandler)}
    (hone : Steady ntotal one (HeapHandler.fresh k)) {vt : VisitedTable} (hvt : vt.Clean ntotal) :
    ∃ r, one (HeapHandler.fresh k) vt = some r ∧
      firstEntries k r.res.end = soloResults k ntotal one ∧
      (vt.Ready ntotal → r.vt.Ready ntotal) := by
  obtain ⟨r₀, r, hr₀, hr, hres, -⟩ := hone _ vt (VisitedTable.ready_new ntotal) hvt
  refine ⟨r, hr, ?_, fun hready ↦ ?_⟩
  · rw [FaissNavix.soloResults, hr₀, Option.map_some, Option.getD_some, hres]
  · obtain ⟨r', -, hr', -, -, hready'⟩ := hone vt vt hready hvt
    rw [hr] at hr'
    obtain rfl := Option.some.inj hr'
    exact hready'

def rowResults (k : ℕ) (s : Searched Tables) (i : ℕ) : List (F32 × ℤ) := s.out.results k i

section Rows

variable {one : ℕ → HeapHandler → VisitedTable → Option (SearchOne HeapHandler)}

/-- One row, after which the results of the query are there and the others are as before. -/
theorem searchRow_writes
    (one : ℕ → HeapHandler → VisitedTable → Option (SearchOne HeapHandler)) {i : ℕ} (hone : Steady ntotal (one i) (HeapHandler.fresh k))
    (s : Searched Tables) {vt : VisitedTable} (hvt : vt.Clean ntotal) :
    ∃ s' vt', searchRow (heapBlockResultHandler k) one (s, vt) i = some (s', vt') ∧
      (vt.Ready ntotal → vt'.Ready ntotal) ∧
      Writes (rowResults k) (fun i ↦ soloResults k ntotal (one i)) {i} s s' := by
  obtain ⟨r, hr, hres, hready⟩ := hone.soloResults hvt
  have hrow : searchRow (heapBlockResultHandler k) one (s, vt) i =
      (one i (HeapHandler.fresh k) vt).map fun r ↦
        ({ out := s.out.setRow k i r.res.end
           stats := s.stats.combine r.stats
           overflow := s.overflow || r.overflow }, r.vt) := by
    rw [← HeapHandler.begin_row k i s.out]
    rfl
  refine ⟨_, r.vt, by rw [hrow, hr]; rfl, hready, fun j hj ↦ ?_, fun j hj ↦ ?_⟩
  · obtain rfl : j = i := hj
    exact Tables.results_setRow_self.trans hres
  · exact Tables.results_setRow_of_ne hj

theorem searchThread_writes (rows : List ℕ)
    (hone : ∀ i ∈ rows, Steady ntotal (one i) (HeapHandler.fresh k)) (s : Searched Tables) :
    ∃ s', searchThread (heapBlockResultHandler k) one ntotal s rows = some s' ∧
      Writes (rowResults k) (fun i ↦ soloResults k ntotal (one i)) {i | i ∈ rows} s s' := by
  obtain ⟨⟨s', vt'⟩, hrun, -, hw⟩ := foldlM_writes (fun s ↦ rowResults k s.1)
    (fun i ↦ soloResults k ntotal (one i)) (fun i ↦ {i})
    (fun s : Searched Tables × VisitedTable ↦ s.2.Ready ntotal) rows
    (fun i hi s hs ↦ by
      obtain ⟨s', vt', hrow, hready, hw⟩ := searchRow_writes one (hone i hi) s.1 hs.clean
      exact ⟨(s', vt'), hrow, hready hs, hw.eq, hw.frame⟩)
    (s := (s, VisitedTable.new ntotal)) (VisitedTable.ready_new ntotal)
  have hset : (⋃ i ∈ rows, ({i} : Set ℕ)) = {i | i ∈ rows} := by ext i; simp
  rw [hset] at hw
  exact ⟨s', by rw [searchThread, hrun]; rfl, hw.eq, hw.frame⟩

theorem searchBlocks_results {n period : ℕ} (rt : Runtime) (hp : 1 ≤ period)
    (hone : ∀ i < n, Steady ntotal (one i) (HeapHandler.fresh k)) (tab : Tables) :
    ∃ s, searchBlocks (heapBlockResultHandler k) one rt ntotal n period tab = .ok s ∧
      ∀ i < n, s.out.results k i = soloResults k ntotal (one i) := by
  obtain ⟨s, hrun, -, hw⟩ := foldlM_writes (rowResults k)
    (fun i ↦ soloResults k ntotal (one i)) (fun rows ↦ {i | i ∈ rows}) (fun _ ↦ True)
    (threads rt n period)
    (fun rows hrows s _ ↦ by
      obtain ⟨s', hthread, hw⟩ := searchThread_writes rows
        (fun i hi ↦ hone i ((mem_threads rt hp).mp ⟨rows, hrows, hi⟩)) s
      exact ⟨s', hthread, trivial, hw⟩)
    (s := { out := tab, stats := {}, overflow := false }) trivial
  refine ⟨s, by rw [searchBlocks, hrun], fun i hi ↦ hw.eq i ?_⟩
  obtain ⟨rows, hrows, hi⟩ := (mem_threads rt hp).mpr hi
  exact Set.mem_biUnion hrows hi

end Rows

/-! ## The calls -/

namespace IndexHNSW

/-- The graph is well formed and has the vertices that the index has. -/
structure WellFormed (index : IndexHNSW) : Prop where
  hnsw : index.hnsw.WellFormed
  ntotal_eq : index.ntotal = index.hnsw.ntotal

variable {index : IndexHNSW} {storage : Storage}

theorem WellFormed.steady_navixOne (h : index.WellFormed) (hk : 1 ≤ k) (query : ℕ → F32)
    (filterMask : ℕ → UInt8) :
    Steady index.ntotal (index.navixOne storage query filterMask) (HeapHandler.fresh k) := by
  intro vt vt' hvt hvt'
  rw [h.ntotal_eq] at hvt hvt' ⊢
  obtain ⟨a, s, s', hs, hs', hres, -, hready⟩ := navixHybridSearch_alike filterMask h.hnsw
    (HeapHandler.fresh k) (hk.trans (le_max_right _ _)) hvt hvt'
  exact ⟨_, _, by rw [navixOne, hs]; rfl, by rw [navixOne, hs']; rfl, hres, hready⟩

theorem WellFormed.steady_searchOne (h : index.WellFormed) (hk : 1 ≤ k) (query : ℕ → F32)
    (params : Option SearchParameters)
    (hq : index.hnsw.boundedQueueOf params = false →
      ∀ v < index.ntotal, (storageDistanceComputer storage query v).Comparable) :
    Steady index.ntotal (index.searchOne storage query params) (HeapHandler.fresh k) := by
  intro vt vt' hvt hvt'
  rw [h.ntotal_eq] at hq hvt hvt' ⊢
  obtain ⟨stats, res, vt₁, vt₁', hs, hs', hready⟩ := search_alike h.hnsw (HeapHandler.fresh k)
    params (hk.trans (le_max_right _ _)) hq hvt hvt'
  refine ⟨{ stats, res, vt := vt₁, overflow := false }, { stats, res, vt := vt₁', overflow := false },
    ?_, ?_, rfl, hready⟩
  · rw [searchOne, hs]
    rfl
  · rw [searchOne, hs']
    rfl

def reverted (index : IndexHNSW) (l : List (F32 × ℤ)) : List (F32 × ℤ) :=
  if isSimilarityMetric index.metricType then l.map fun x ↦ (x.1.neg, x.2) else l

theorem results_revert {n i : ℕ} (index : IndexHNSW) (s : Searched Tables) (hi : i < n) :
    (index.revert (k * n) s).out.results k i = index.reverted (s.out.results k i) := by
  rw [revert, reverted]
  split
  · exact Tables.results_negated hi
  · rfl

theorem checkPeriod_pos (index : IndexHNSW) (rt : Runtime) (params : Option SearchParameters) :
    1 ≤ index.checkPeriod rt params :=
  rt.getPeriodHint_pos _

theorem WellFormed.search_rows (h : index.WellFormed) (hst : index.storage = some storage)
    (rt : Runtime) {n : ℕ} {x : ℕ → F32} (hk : 1 ≤ k) (tab : Tables)
    (params : Option SearchParameters)
    (hq : index.hnsw.boundedQueueOf params = false → ∀ i < n, ∀ v < index.ntotal,
      (storageDistanceComputer storage (index.query x i) v).Comparable) :
    ∃ b, index.search rt n x k tab params = .ok b ∧ ∀ i < n,
      b.out.results k i = index.reverted
        (soloResults k index.ntotal (index.searchOne storage (index.query x i) params)) := by
  obtain ⟨s, hs, hrows⟩ := searchBlocks_results rt (index.checkPeriod_pos rt params)
    (fun i hi ↦ h.steady_searchOne hk (index.query x i) params fun hmode ↦ hq hmode i hi) tab
  refine ⟨index.revert (k * n) s, ?_, fun i hi ↦ ?_⟩
  · simp only [search, hnswSearch, hst, throwIfNot, throwIfNotMsg,
      decide_eq_true (show 0 < k from hk)]
    exact congrArg (fun r : Except Failure (Searched Tables) ↦ r.map (index.revert (k * n))) hs
  · rw [index.results_revert s hi, hrows i hi]

theorem WellFormed.navixSearch_rows (h : index.WellFormed) (hst : index.storage = some storage)
    (rt : Runtime) (n : ℕ) (x : ℕ → F32) (hk : 1 ≤ k) (tab : Tables) (filterMasks : ℕ → UInt8)
    (params : Option SearchParameters) :
    ∃ b, index.navixSearch rt n x k tab filterMasks params = .ok b ∧ ∀ i < n,
      b.out.results k i = index.reverted (soloResults k index.ntotal
        (index.navixOne storage (index.query x i) (index.filterMask filterMasks i))) := by
  obtain ⟨s, hs, hrows⟩ := searchBlocks_results rt (index.checkPeriod_pos rt params)
    (fun i _ ↦ h.steady_navixOne hk (index.query x i) (index.filterMask filterMasks i)) tab
  refine ⟨index.revert (k * n) s, ?_, fun i hi ↦ ?_⟩
  · simp only [navixSearch, hst, throwIfNot, throwIfNotMsg, decide_eq_true (show 0 < k from hk)]
    exact congrArg (fun r : Except Failure (Searched Tables) ↦ r.map (index.revert (k * n))) hs
  · rw [index.results_revert s hi, hrows i hi]

variable (h : index.WellFormed) (hst : index.storage = some storage) (query : ℕ → F32) (hk : 1 ≤ k)
  (tab : Tables) (filterMask : ℕ → UInt8) {vt : VisitedTable} (hvt : vt.Clean index.ntotal)
  (stats : HNSWStats)
include h hst hk hvt

theorem WellFormed.singleSearch_ready (hq : index.hnsw.searchBoundedQueue = false →
      ∀ v < index.ntotal, (storageDistanceComputer storage query v).Comparable) :
    ∃ s vt', index.singleSearch query k tab vt stats = .ok (s, vt') ∧
      s.out.results k 0 = soloResults k index.ntotal (index.searchOne storage query none) ∧
      (vt.Ready index.ntotal → vt'.Ready index.ntotal) := by
  obtain ⟨s, vt', hs, hready, hw⟩ := searchRow_writes (fun _ ↦ index.searchOne storage query none)
    (i := 0) (h.steady_searchOne hk query none hq) { out := tab, stats, overflow := false } hvt
  refine ⟨s, vt', ?_, hw.eq 0 rfl, hready⟩
  simp only [singleSearch, hst, hs]
  rfl

theorem WellFormed.singleSearch_row (hq : index.hnsw.searchBoundedQueue = false →
      ∀ v < index.ntotal, (storageDistanceComputer storage query v).Comparable) :
    ∃ s vt', index.singleSearch query k tab vt stats = .ok (s, vt') ∧
      s.out.results k 0 = soloResults k index.ntotal (index.searchOne storage query none) := by
  obtain ⟨s, vt', hs, hres, -⟩ := h.singleSearch_ready hst query hk tab hvt stats hq
  exact ⟨s, vt', hs, hres⟩

theorem WellFormed.navixSingleSearch_ready :
    ∃ s vt', index.navixSingleSearch query k tab filterMask vt stats = .ok (s, vt') ∧
      s.out.results k 0 =
        soloResults k index.ntotal (index.navixOne storage query filterMask) ∧
      (vt.Ready index.ntotal → vt'.Ready index.ntotal) := by
  obtain ⟨s, vt', hs, hready, hw⟩ :=
    searchRow_writes (fun _ ↦ index.navixOne storage query filterMask) (i := 0)
      (h.steady_navixOne hk query filterMask) { out := tab, stats, overflow := false } hvt
  refine ⟨s, vt', ?_, hw.eq 0 rfl, hready⟩
  simp only [navixSingleSearch, hst, hs]
  rfl

theorem WellFormed.navixSingleSearch_row :
    ∃ s vt', index.navixSingleSearch query k tab filterMask vt stats = .ok (s, vt') ∧
      s.out.results k 0 =
        soloResults k index.ntotal (index.navixOne storage query filterMask) := by
  obtain ⟨s, vt', hs, hres, -⟩ := h.navixSingleSearch_ready hst query hk tab filterMask hvt stats
  exact ⟨s, vt', hs, hres⟩

end IndexHNSW

end FaissNavix
