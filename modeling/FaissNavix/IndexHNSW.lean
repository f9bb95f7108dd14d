import FaissNavix.HNSW.Navix
import FaissNavix.MetricType

/-!
# The index

`faiss/IndexHNSW.cpp`: an index that searches its graph with the distances of another index, its
storage.  A call searches for many queries at a time (`search`, `navix_search`) or for one
(`single_search`, `navix_single_search`), and writes to tables of distances and labels that have
`k` entries for every query.

The queries of a call are cut into blocks, whose rows OpenMP shares among threads.  Every thread has
a visited table of its own and the rows are written to disjoint parts of the tables, so that the
threads of a block may as well run one after the other; how the rows are shared is up to the
`Runtime`.  That a callback may interrupt a call between two blocks is left out.
-/

namespace FaissNavix

/-! ## Metrics and the storage -/

/-- `is_similarity_metric`: whether larger is nearer. -/
def isSimilarityMetric (metricType : MetricType) : Bool :=
  decide (metricType = .innerProduct) || decide (metricType = .jaccard)

/-- The index that holds the vectors.  `distance` is what the computer that it makes for a query
says of each vector; a query is the floats at an address. -/
structure Storage where
  metricType : MetricType
  distance : (ℕ → F32) → ℕ → F32

/-- `storage_distance_computer`, with the query set. -/
def storageDistanceComputer (storage : Storage) (query : ℕ → F32) : ℕ → F32 :=
  if isSimilarityMetric storage.metricType then fun i ↦ (storage.distance query i).neg
  else storage.distance query

structure IndexHNSW where
  d : ℕ
  ntotal : ℕ
  metricType : MetricType
  storage : Option Storage
  hnsw : HNSW

/-! ## The tables of results -/

/-- The memory behind `distances` and `labels`. -/
abbrev Tables := ℕ → F32 × ℤ

namespace Tables

/-- The part of the tables that belongs to query `i`. -/
def row (k i : ℕ) (tab : Tables) : ℕ → F32 × ℤ :=
  fun j ↦ if j < k then tab (i * k + j) else (F32.max, -1)

/-- The tables with another part for query `i`. -/
def setRow (k i : ℕ) (r : ℕ → F32 × ℤ) (tab : Tables) : Tables :=
  fun p ↦ if i * k ≤ p ∧ p < i * k + k then r (p - i * k) else tab p

/-- The results of query `i`. -/
def results (k i : ℕ) (tab : Tables) : List (F32 × ℤ) := firstEntries k (tab.row k i)

/-- `distances[i] = -distances[i]` for the first `len` entries. -/
def negated (len : ℕ) (tab : Tables) : Tables :=
  fun p ↦ if p < len then ((tab p).1.neg, (tab p).2) else tab p

end Tables

/-- A block result handler, by what `begin` and `end` of its single-query handlers do. -/
structure BlockResultHandler (B H : Type) where
  begin : ℕ → B → H
  «end» : ℕ → H → B → B

/-- `HeapBlockResultHandler` -/
def heapBlockResultHandler (k : ℕ) : BlockResultHandler Tables HeapHandler where
  begin i tab := HeapHandler.begin k (tab.row k i)
  «end» i res tab := tab.setRow k i res.end

/-! ## Calls -/

/-- Why a call has no results. -/
inductive Failure where
  /-- An exception, with its message. -/
  | exception (msg : String)
  /-- A null pointer is read, which the source leaves undefined. -/
  | nullPointer
  /-- A search has not ended within the bound on its number of turns. -/
  | unfinished
deriving DecidableEq, Repr

/-- `FAISS_THROW_IF_NOT` -/
def throwIfNot (x : Bool) (expr : String) : Except Failure Unit :=
  if x then .ok () else .error (.exception ("Error: '" ++ expr ++ "' failed"))

/-- `FAISS_THROW_IF_NOT_MSG` -/
def throwIfNotMsg (x : Bool) (expr msg : String) : Except Failure Unit :=
  if x then .ok () else .error (.exception ("Error: '!(" ++ expr ++ ")' failed: " ++ msg))

def noStorageMsg : String :=
  "No storage index, please use IndexHNSWFlat (or variants) instead of IndexHNSW directly"

/-- What the search for one query leaves behind.  `overflow` is set by a write past the end of the
buffer of the Navix search. -/
structure SearchOne (H : Type) where
  stats : HNSWStats
  res : H
  vt : VisitedTable
  overflow : Bool

/-- What a call leaves behind. -/
structure Searched (B : Type) where
  out : B
  stats : HNSWStats
  overflow : Bool

/-- What a call does not decide itself: whether an interrupt callback is installed, and how the rows
of a block are shared among threads. -/
structure Runtime where
  callback : Bool
  share : ℕ → List ℕ → List (List ℕ)
  perm : ∀ b rows, (share b rows).flatten.Perm rows

/-- One thread. -/
def Runtime.sequential : Runtime where
  callback := false
  share _ rows := [rows]
  perm _ rows := by simp

/-- `InterruptCallback::get_period_hint`.  The product that it is handed is converted to an unsigned
number of 64 bits. -/
def Runtime.getPeriodHint (rt : Runtime) (flops : ℤ) : ℕ :=
  if rt.callback then max (10 * 10 * 1000 * 1000 / ((flops % 2 ^ 64).toNat + 1)) 1 else 2 ^ 30

/-- The rows of block `b`, which starts at `i0 = b * check_period`. -/
def blockRows (n checkPeriod b : ℕ) : List ℕ :=
  List.range' (b * checkPeriod) (min (b * checkPeriod + checkPeriod) n - b * checkPeriod)

section Rows

variable {B H : Type} (bres : BlockResultHandler B H)
  (one : ℕ → H → VisitedTable → Option (SearchOne H))

/-- The body of the loop over the rows. -/
def searchRow (s : Searched B × VisitedTable) (i : ℕ) : Option (Searched B × VisitedTable) :=
  (one i (bres.begin i s.1.out) s.2).map fun r ↦
    ({ out := bres.end i r.res s.1.out
       stats := s.1.stats.combine r.stats
       overflow := s.1.overflow || r.overflow }, r.vt)

def searchThread (ntotal : ℕ) (s : Searched B) (rows : List ℕ) : Option (Searched B) :=
  (rows.foldlM (searchRow bres one) (s, VisitedTable.new ntotal)).map Prod.fst

/-- The threads of all blocks, each with its rows. -/
def threads (rt : Runtime) (n checkPeriod : ℕ) : List (List ℕ) :=
  (List.range ((n + checkPeriod - 1) / checkPeriod)).flatMap fun b ↦
    rt.share b (blockRows n checkPeriod b)

/-- The loop over the blocks. -/
def searchBlocks (rt : Runtime) (ntotal n checkPeriod : ℕ) (out : B) :
    Except Failure (Searched B) :=
  match (threads rt n checkPeriod).foldlM (searchThread bres one ntotal)
      { out, stats := {}, overflow := false } with
  | some s => .ok s
  | none => .error .unfinished

end Rows

namespace IndexHNSW

variable (index : IndexHNSW)

/-- The query `x + i * d`. -/
def query (x : ℕ → F32) (i : ℕ) : ℕ → F32 := fun j ↦ x (i * index.d + j)

/-- The mask `filter_masks + i * ntotal`. -/
def filterMask (filterMasks : ℕ → UInt8) (i : ℕ) : ℕ → UInt8 :=
  fun v ↦ filterMasks (i * index.ntotal + v)

/-- `check_period`, which `efSearch` of the parameters enters. -/
def checkPeriod (rt : Runtime) (params : Option SearchParameters) : ℕ :=
  rt.getPeriodHint
    (index.hnsw.maxLevel * index.d * HNSW.override params (·.efSearch) index.hnsw.efSearch)

/-- `hnsw.search` for one query. -/
def searchOne {H : Type} [ResultHandler H] (storage : Storage) (query : ℕ → F32)
    (params : Option SearchParameters) (res : H) (vt : VisitedTable) : Option (SearchOne H) :=
  (index.hnsw.search (storageDistanceComputer storage query) res vt params).map fun r ↦
    { stats := r.1, res := r.2.1, vt := r.2.2, overflow := false }

/-- `hnsw.navix_hybrid_search` for one query and the lines after it. -/
def navixOne {H : Type} [ResultHandler H] (storage : Storage) (query : ℕ → F32)
    (filterMask : ℕ → UInt8) (res : H) (vt : VisitedTable) : Option (SearchOne H) :=
  (index.hnsw.navixHybridSearch (storageDistanceComputer storage query) filterMask res vt).map
    fun r ↦
      { stats := r.2.stats, res := r.2.res, vt := r.2.vt.advance, overflow := r.1.overflow }

/-- `hnsw_search` -/
def hnswSearch {B H : Type} [ResultHandler H] (rt : Runtime) (n : ℕ) (x : ℕ → F32)
    (bres : BlockResultHandler B H) (out : B) (params : Option SearchParameters) :
    Except Failure (Searched B) := do
  throwIfNotMsg index.storage.isSome "index->storage" noStorageMsg
  let some storage := index.storage | throw .nullPointer
  searchBlocks bres (fun i ↦ index.searchOne storage (index.query x i) params) rt index.ntotal n
    (index.checkPeriod rt params) out

variable (query : ℕ → F32) (rt : Runtime) (n : ℕ) (x : ℕ → F32) (k : ℕ) (tab : Tables)

/-- The last lines of `search` and `navix_search`. -/
def revert (len : ℕ) (s : Searched Tables) : Searched Tables :=
  if isSimilarityMetric index.metricType then { s with out := s.out.negated len } else s

/-- `search` -/
def search (params : Option SearchParameters) : Except Failure (Searched Tables) := do
  throwIfNot (decide (0 < k)) "k > 0"
  let s ← index.hnswSearch rt n x (heapBlockResultHandler k) tab params
  return index.revert (k * n) s

/-- `single_search` -/
def singleSearch (vt : VisitedTable)
    (stats : HNSWStats) : Except Failure (Searched Tables × VisitedTable) := do
  let some storage := index.storage | throw .nullPointer
  match searchRow (heapBlockResultHandler k) (fun _ ↦ index.searchOne storage query none)
      ({ out := tab, stats, overflow := false }, vt) 0 with
  | some s => return s
  | none => throw .unfinished

/-- `navix_search` -/
def navixSearch (filterMasks : ℕ → UInt8) (params : Option SearchParameters) :
    Except Failure (Searched Tables) := do
  throwIfNot (decide (0 < k)) "k > 0"
  throwIfNotMsg index.storage.isSome "storage" noStorageMsg
  let some storage := index.storage | throw .nullPointer
  let s ← searchBlocks (heapBlockResultHandler k)
    (fun i ↦ index.navixOne storage (index.query x i) (index.filterMask filterMasks i))
    rt index.ntotal n (index.checkPeriod rt params) tab
  return index.revert (k * n) s

/-- `navix_single_search` -/
def navixSingleSearch (filterMask : ℕ → UInt8)
    (vt : VisitedTable) (stats : HNSWStats) : Except Failure (Searched Tables × VisitedTable) := do
  let some storage := index.storage | throw .nullPointer
  match searchRow (heapBlockResultHandler k) (fun _ ↦ index.navixOne storage query filterMask)
      ({ out := tab, stats, overflow := false }, vt) 0 with
  | some s => return s
  | none => throw .unfinished

end IndexHNSW

end FaissNavix
