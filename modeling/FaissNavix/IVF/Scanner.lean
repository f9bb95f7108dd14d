import FaissNavix.IVF.Search

/-!
# Searching with any scanner

`IndexIVF::search_preassigned` and `IndexIVF::search` of `faiss/IndexIVF.cpp` once more, for what
`get_InvertedListScanner` of a derived index returns.  With the scanner of `faiss/IndexIVFFlat.cpp`,
they are the functions for an `IVFIndex` (`IVFIndex.searchWith_flatScanner`).
-/

namespace FaissNavix

open Function

/-- An `InvertedListScanner`: its functions after `set_query` and `set_list`. -/
structure InvertedListScanner (Q : Type) where
  scanCodes : Q → ℤ → F32 → ℕ → (ℕ → List UInt8) → Option (ℕ → Idx) → ResultHeap →
    Except Fault ResultHeap
  iterateCodes : Q → ℤ → F32 → List Entry → ResultHeap → Except Fault ResultHeap

namespace IVFIndex

variable {Q QP : Type} (ivf : IVFIndex Q QP) (ctx : SearchContext) (scanner : InvertedListScanner Q)

/-- The scanner of an `IndexIVFFlat`. -/
def flatScanner : InvertedListScanner Q where
  scanCodes query key coarseDis listSize codes ids heap :=
    .ok (ivf.scanCodes ctx query key coarseDis listSize codes ids heap)
  iterateCodes query key coarseDis entries heap :=
    .ok (ivf.iterateCodes ctx query key coarseDis entries heap)

/-- The scan of a list that is not empty and has no iterator. -/
def scanEntriesWith (query : Q) (key : ℤ) (coarseDis : F32) (entries : List Entry) (listSize : ℕ)
    (heap : ResultHeap) : Except Fault (ResultHeap × ℕ) :=
  let ids := if ctx.storePairs then none else some (idAt entries)
  match ctx.selr with
  | some selr => do
      let (jmin, jmax) ← selr.findSortedIdsBounds listSize ids
      if jmax - jmin = 0 then return (heap, 0)
      let heap ← scanner.scanCodes query key coarseDis (jmax - jmin)
        (fun j ↦ codeAt entries (jmin + j)) (ids.map fun ids j ↦ ids (jmin + j)) heap
      return (heap, jmax - jmin)
  | none => do
      let heap ← scanner.scanCodes query key coarseDis listSize (codeAt entries) ids heap
      return (heap, listSize)

/-- `scan_one_list` -/
def scanOneListWith (query : Q) (probe : ℤ × F32) (heap : ResultHeap) (listSizeMax : Option ℕ) :
    Except Fault (ResultHeap × ℕ) :=
  if probe.1 < 0 then .ok (heap, 0)
  else if ivf.nlist ≤ probe.1 then
    .error (.exception ("Error: 'key < (idx_t)nlist' failed: Invalid key=" ++ toString probe.1 ++
      " nlist=" ++ toString ivf.nlist ++ "\n"))
  else
    let entries := ivf.list probe.1.toNat
    if entries.isEmpty then .ok (heap, 0)
    else if ivf.useIterator then do
      let heap ← scanner.iterateCodes query probe.1 probe.2 entries heap
      return (heap, entries.length)
    else
      scanEntriesWith ctx scanner query probe.1 probe.2 entries
        (match listSizeMax with | none => entries.length | some m => min entries.length m) heap

/-- The loop over the probes of a query in modes 0 and 3. -/
def scanProbesWith (query : Q) : List (ℤ × F32) → ResultHeap → ℕ → Except Fault ResultHeap
  | [], heap, _ => .ok heap
  | probe :: probes, heap, nscan => do
      let (heap, n) ← ivf.scanOneListWith ctx scanner query probe heap (ctx.maxCodes.map (· - nscan))
      if ctx.maxCodes.any (· ≤ nscan + n) then return heap
      scanProbesWith query probes heap (nscan + n)

/-- `scan_one_list` where there is no limit, and the codes visited do not count. -/
def scanAllWith (query : Q) (probe : ℤ × F32) (heap : ResultHeap) : Except Fault ResultHeap :=
  Prod.fst <$> ivf.scanOneListWith ctx scanner query probe heap none

variable (schedule : Schedule) (x : ℕ → Q) (assign : ℕ → ℤ × F32)

section
variable (s : (ℕ → ResultHeap) × (ℕ → ResultHeap)) (i n : ℕ) (locals rows : ℕ → ResultHeap)
  (p : ℕ × ℕ)

/-- A turn of the loop over the queries in modes 0 and 3. -/
def searchRowWith (heap : ResultHeap) : Except Fault ResultHeap := do
  let heap ← ivf.scanProbesWith ctx scanner (x i) (probesOf ctx assign i) (ivf.initResult ctx heap) 0
  return ivf.reorderResult ctx heap

/-- The loop over the queries in modes 0 and 3. -/
def searchByQueryWith : Except Fault (ℕ → ResultHeap) :=
  schedule.queries.foldlM (fun rows i ↦ do
    let heap ← ivf.searchRowWith ctx scanner x assign i (rows i)
    return update rows i heap) rows

/-- A turn of the loop over the probes of query `i` in mode 1, on the heaps of the threads. -/
def scanProbeStepWith :
    Except Fault (ℕ → ResultHeap) := do
  let heap ← ivf.scanAllWith ctx scanner (x i) (assign (i * ctx.nprobe + p.2)) (locals p.1)
  return update locals p.1 heap

/-- A turn of the loop over the queries in mode 1, on the heaps of the threads and the rows. -/
def searchProbesStepWith :
    Except Fault ((ℕ → ResultHeap) × (ℕ → ResultHeap)) := do
  let locals ← (schedule.probes i).foldlM (ivf.scanProbeStepWith ctx scanner x assign i)
    fun t ↦ ivf.initResult ctx (s.1 t)
  let heap := ivf.mergeLocals ctx schedule i locals (ivf.initResult ctx (s.2 i))
  return (locals, update s.2 i (ivf.reorderResult ctx heap))

/-- Mode 1. -/
def searchByProbeWith : Except Fault (ℕ → ResultHeap) :=
  Prod.snd <$> (List.range n).foldlM (ivf.searchProbesStepWith ctx scanner schedule x assign)
    (locals, rows)

/-- A turn of the loop over queries and probes in mode 2, on the heaps of the threads and the
rows. -/
def scanPairStepWith :
    Except Fault ((ℕ → ResultHeap) × (ℕ → ResultHeap)) := do
  let i := p.2 / ctx.nprobe
  let heap ← ivf.scanAllWith ctx scanner (x i) (assign p.2) (ivf.initResult ctx (s.1 p.1))
  return (update s.1 p.1 heap, update s.2 i (ivf.addLocalResults ctx (s.2 i) heap))

/-- Mode 2. -/
def searchByPairWith : Except Fault (ℕ → ResultHeap) := do
  let s ← schedule.pairs.foldlM (ivf.scanPairStepWith ctx scanner x assign)
    (locals, fun i ↦ if i < n then ivf.initResult ctx (rows i) else rows i)
  return fun i ↦ if i < n then ivf.reorderResult ctx (s.2 i) else s.2 i

/-- The loops of the parallel section. -/
def searchLoopsWith : Except Fault (ℕ → ResultHeap) :=
  if ivf.pmode = 0 ∨ ivf.pmode = 3 then ivf.searchByQueryWith ctx scanner schedule x assign rows
  else if ivf.pmode = 1 then ivf.searchByProbeWith ctx scanner schedule x assign n zeroHeaps rows
  else if ivf.pmode = 2 then ivf.searchByPairWith ctx scanner schedule x assign n zeroHeaps rows
  else .error (.exception
    ("parallel_mode " ++ toString ivf.pmode.toInt ++ " not supported\n"))

end

/-- `search_preassigned`, where `getScanner` is `get_InvertedListScanner`. -/
def searchPreassignedWith (getScanner : SearchContext → InvertedListScanner Q) (n k : ℕ)
    (rows : ℕ → ResultHeap) (storePairs : Bool) (params : Option (IVFSearchParameters QP)) :
    Except Fault (ℕ → ResultHeap) := do
  ivf.checkSearch k storePairs params
  let ctx := ivf.context k storePairs params
  ivf.searchLoopsWith ctx (getScanner ctx) schedule x assign n rows

variable (getScanner : SearchContext → InvertedListScanner Q)

/-- `sub_search_func` -/
def subSearchWith (n k : ℕ) (params : Option (IVFSearchParameters QP)) (rows : ℕ → ResultHeap) :
    Except Fault (ℕ → ResultHeap) :=
  let assign := ivf.assignOf x (ivf.nprobeOf params) (params.bind IVFSearchParameters.quantizerParams)
  ivf.searchPreassignedWith schedule x assign getScanner n k rows false params

/-- One of `nt` slices of the queries in mode 0. -/
def searchSliceWith (schedules : ℕ → Schedule) (n k : ℕ) (params : Option (IVFSearchParameters QP))
    (nt : ℕ) (rows : ℕ → ResultHeap) (slice : ℕ) : Except Fault (ℕ → ResultHeap) :=
  let i0 := n * slice / nt
  let i1 := n * (slice + 1) / nt
  if i0 < i1 then do
    let part ← ivf.subSearchWith (schedules slice) (fun i ↦ x (i0 + i)) getScanner (i1 - i0) k params
      fun i ↦ rows (i0 + i)
    return fun i ↦ if i0 ≤ i ∧ i < i1 then part (i - i0) else rows i
  else .ok rows

/-- `search` -/
def searchWith (maxThreads : ℕ) (schedules : ℕ → Schedule) (n k : ℕ)
    (params : Option (IVFSearchParameters QP)) (rows : ℕ → ResultHeap) :
    Except Fault (ℕ → ResultHeap) := do
  Fault.throwIfNot (decide (0 < k)) "k > 0"
  Fault.throwIfNot (decide (0 < ivf.nprobeOf params)) "nprobe > 0"
  if ivf.pmode = 0 then
    let nt := min maxThreads n
    (List.range nt).foldlM (ivf.searchSliceWith x getScanner schedules n k params nt) rows
  else ivf.subSearchWith (schedules 0) x getScanner n k params rows

/-! ## The scanner of an `IndexIVFFlat` -/

variable {ivf ctx schedule x assign}

theorem scanEntriesWith_flatScanner : scanEntriesWith ctx (ivf.flatScanner ctx) =
    ivf.scanEntries ctx := by
  funext query key coarseDis entries listSize heap
  unfold scanEntriesWith scanEntries
  cases ctx.selr with
  | none => rfl
  | some selr => rfl

theorem scanOneListWith_flatScanner : ivf.scanOneListWith ctx (ivf.flatScanner ctx) =
    ivf.scanOneList ctx := by
  funext query probe heap listSizeMax
  unfold scanOneListWith scanOneList
  rw [scanEntriesWith_flatScanner]
  rfl

theorem scanProbesWith_flatScanner : ivf.scanProbesWith ctx (ivf.flatScanner ctx) =
    ivf.scanProbes ctx := by
  funext query probes
  induction probes with
  | nil => rfl
  | cons probe probes ih =>
      funext heap nscan
      rw [scanProbesWith, scanProbes, scanOneListWith_flatScanner, ih]

theorem searchLoopsWith_flatScanner :
    ivf.searchLoopsWith ctx (ivf.flatScanner ctx) = ivf.searchLoops ctx := by
  have hall : ivf.scanAllWith ctx (ivf.flatScanner ctx) = ivf.scanAll ctx := by
    funext query probe heap
    rw [scanAllWith, scanAll, scanOneListWith_flatScanner]
  funext schedule x assign n rows
  unfold searchLoopsWith searchLoops searchByQueryWith searchByQuery searchRowWith searchRow
    searchByProbeWith searchByProbe searchProbesStepWith searchProbesStep scanProbeStepWith
    scanProbeStep searchByPairWith searchByPair scanPairStepWith scanPairStep
  rw [scanProbesWith_flatScanner, hall]

/-- With the scanner of an `IndexIVFFlat`, the search is that of an `IVFIndex`. -/
theorem searchWith_flatScanner : ivf.searchWith x ivf.flatScanner = fun maxThreads schedules ↦
    ivf.search maxThreads schedules x := by
  have hsub : ∀ (schedule : Schedule) (x : ℕ → Q),
      ivf.subSearchWith schedule x ivf.flatScanner = ivf.subSearch schedule x := by
    intro schedule x
    funext n k params rows
    unfold subSearchWith subSearch searchPreassignedWith searchPreassigned
    dsimp only
    rw [searchLoopsWith_flatScanner]
  funext maxThreads schedules n k params rows
  unfold searchWith search searchSliceWith searchSlice
  simp only [hsub]

theorem searchWith_congr {getScanner getScanner' : SearchContext → InvertedListScanner Q} {k : ℕ}
    {params : Option (IVFSearchParameters QP)}
    (h : getScanner (ivf.context k false params) = getScanner' (ivf.context k false params))
    (maxThreads : ℕ) (schedules : ℕ → Schedule) (n : ℕ) (rows : ℕ → ResultHeap) :
    ivf.searchWith x getScanner maxThreads schedules n k params rows =
      ivf.searchWith x getScanner' maxThreads schedules n k params rows := by
  unfold searchWith searchSliceWith subSearchWith searchPreassignedWith
  simp only [h]

end IVFIndex

end FaissNavix
