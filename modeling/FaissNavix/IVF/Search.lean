import FaissNavix.HeapBlock
import FaissNavix.IDSelector
import FaissNavix.Lib.Updates
import FaissNavix.MetricType

/-!
# Searching an inverted file

`IndexIVF::search_preassigned` of `faiss/IndexIVF.cpp` in its parallel modes, with the scanner of
`faiss/IndexIVFFlat.cpp`.  For each query, `nprobe` lists are scanned, and each entry that the
selector has is offered to a heap of the `k` best results.

The iterations of a parallel loop are given to the threads by a `Schedule`, which also has the order
in which the threads get to the critical sections.  An iteration works on the heap of its thread and
on the row of its query, which no other iteration touches outside of a critical section.
-/

namespace FaissNavix

open Function

/-! ## What a search reads -/

/-- `IVFSearchParameters`, over the search parameters `QP` of the quantizer. -/
structure IVFSearchParameters (QP : Type) where
  nprobe : ℕ
  maxCodes : ℕ
  sel : Option IDSelector
  quantizerParams : Option QP

/-- What a search reads of an `IndexIVF`, for queries in `Q`. -/
structure IVFIndex (Q QP : Type) where
  nlist : ℕ
  nprobe : ℕ
  maxCodes : ℕ
  parallelMode : Int32
  metricType : MetricType
  /-- `quantizer->search` for a number of results: the key and the distance in each column of the
  row of a query. -/
  quantizer : Q → ℕ → Option QP → ℕ → ℤ × F32
  /-- `set_query`, `set_list` and `distance_to_code` of the scanner. -/
  distanceToCode : Q → ℤ → F32 → List UInt8 → F32
  /-- Whether `get_InvertedListScanner` takes a selector, or throws. -/
  takesSel : Bool
  /-- `invlists->use_iterator` -/
  useIterator : Bool
  /-- The entries of the lists. -/
  list : ℕ → List Entry

/-- What the local functions of `search_preassigned` capture.  A selector is taken care of by the
scanner (`sel`), or it is a range for which the ids are taken to be sorted (`selr`).  There is no
limit on the codes to visit where `maxCodes` is `none`. -/
structure SearchContext where
  k : ℕ
  nprobe : ℕ
  maxCodes : Option ℕ
  storePairs : Bool
  sel : Option IDSelector
  selr : Option IDSelectorRange
  doHeapInit : Bool

abbrev ResultHeap := ℕ → F32 × ℤ

namespace IVFIndex

variable {Q QP : Type} (ivf : IVFIndex Q QP) (ctx : SearchContext)

/-! ## The scanner -/

section
variable (query : Q) (key : ℤ) (coarseDis : F32) (entries : List Entry) (listSize j : ℕ)

/-- Whether the scanner skips an id. -/
def skips (sel : Option IDSelector) (id : Idx) : Bool :=
  match sel with
  | none => false
  | some sel => !sel.isMember id

/-- `scan_codes`.  The ids are not read if they are not needed, so that nothing depends on what
stands for those of a null pointer. -/
def scanCodes (codes : ℕ → List UInt8)
    (ids : Option (ℕ → Idx)) (heap : ResultHeap) : ResultHeap :=
  let ids := ids.getD fun _ ↦ 0
  (List.range listSize).foldl (fun heap j ↦
    if skips ctx.sel (ids j) then heap
    else
      let dis := ivf.distanceToCode query key coarseDis (codes j)
      let id := if ctx.storePairs then (loOf key j).toInt else (ids j).toInt
      heapOffer ivf.metricType.order ctx.k heap (dis, id)) heap

/-- `iterate_codes` -/
def iterateCodes (heap : ResultHeap) : ResultHeap :=
  entries.foldl (fun heap e ↦ heapOffer ivf.metricType.order ctx.k heap
    (ivf.distanceToCode query key coarseDis e.code, e.id.toInt)) heap

/-! ## `search_preassigned` -/

/-- `init_result` -/
def initResult (heap : ResultHeap) : ResultHeap :=
  if ctx.doHeapInit then heapHeapify ivf.metricType.order ctx.k heap else heap

/-- `add_local_results` -/
def addLocalResults (heap localHeap : ResultHeap) : ResultHeap :=
  heapAddn ivf.metricType.order ctx.k heap localHeap ctx.k

/-- `reorder_result` -/
def reorderResult (heap : ResultHeap) : ResultHeap :=
  if ctx.doHeapInit then (heapReorder ivf.metricType.order ctx.k heap).2 else heap

/-- The id of an entry, by its offset. -/
def idAt : Idx :=
  (entries[j]?.map Entry.id).getD 0

/-- The code of an entry, by its offset. -/
def codeAt : List UInt8 :=
  (entries[j]?.map Entry.code).getD []

/-- The scan of a list that is not empty and has no iterator. -/
def scanEntries (heap : ResultHeap) : Except Fault (ResultHeap × ℕ) :=
  let ids := if ctx.storePairs then none else some (idAt entries)
  match ctx.selr with
  | some selr => do
      let (jmin, jmax) ← selr.findSortedIdsBounds listSize ids
      if jmax - jmin = 0 then return (heap, 0)
      return (ivf.scanCodes ctx query key coarseDis (jmax - jmin)
        (fun j ↦ codeAt entries (jmin + j)) (ids.map fun ids j ↦ ids (jmin + j)) heap, jmax - jmin)
  | none => .ok (ivf.scanCodes ctx query key coarseDis listSize (codeAt entries) ids heap, listSize)

end

/-- `scan_one_list`: the heap and the number of codes visited. -/
def scanOneList (query : Q) (probe : ℤ × F32) (heap : ResultHeap) (listSizeMax : Option ℕ) :
    Except Fault (ResultHeap × ℕ) :=
  if probe.1 < 0 then .ok (heap, 0)
  else if ivf.nlist ≤ probe.1 then
    .error (.exception ("Error: 'key < (idx_t)nlist' failed: Invalid key=" ++ toString probe.1 ++
      " nlist=" ++ toString ivf.nlist ++ "\n"))
  else
    let entries := ivf.list probe.1.toNat
    if entries.isEmpty then .ok (heap, 0)
    else if ivf.useIterator then
      .ok (ivf.iterateCodes ctx query probe.1 probe.2 entries heap, entries.length)
    else
      ivf.scanEntries ctx query probe.1 probe.2 entries
        (match listSizeMax with | none => entries.length | some m => min entries.length m) heap

/-- The loop over the probes of a query in modes 0 and 3. -/
def scanProbes (query : Q) : List (ℤ × F32) → ResultHeap → ℕ → Except Fault ResultHeap
  | [], heap, _ => .ok heap
  | probe :: probes, heap, nscan => do
      let (heap, n) ← ivf.scanOneList ctx query probe heap (ctx.maxCodes.map (· - nscan))
      if ctx.maxCodes.any (· ≤ nscan + n) then return heap
      scanProbes query probes heap (nscan + n)

/-- `scan_one_list` where there is no limit, and the codes visited do not count. -/
def scanAll (query : Q) (probe : ℤ × F32) (heap : ResultHeap) : Except Fault ResultHeap :=
  Prod.fst <$> ivf.scanOneList ctx query probe heap none

/-- Who does what, and when, in a parallel section of some threads. -/
structure Schedule where
  threads : ℕ
  /-- The loop over the queries in modes 0 and 3. -/
  queries : List ℕ
  /-- The loop over the probes of a query in mode 1: the thread and the probe. -/
  probes : ℕ → List (ℕ × ℕ)
  /-- The critical sections of a query in mode 1: the thread. -/
  merges : ℕ → List ℕ
  /-- The loop over queries and probes in mode 2, in the order of the critical sections: the thread
  and the iteration. -/
  pairs : List (ℕ × ℕ)

variable (schedule : Schedule) (x : ℕ → Q) (assign : ℕ → ℤ × F32)

/-- The probes of query `i`, where `assign` has the keys and the coarse distances. -/
def probesOf (i : ℕ) : List (ℤ × F32) :=
  (List.range ctx.nprobe).map fun ik ↦ assign (i * ctx.nprobe + ik)

/-- A turn of the loop over the queries in modes 0 and 3. -/
def searchRow (i : ℕ) (heap : ResultHeap) : Except Fault ResultHeap := do
  let heap ← ivf.scanProbes ctx (x i) (probesOf ctx assign i) (ivf.initResult ctx heap) 0
  return ivf.reorderResult ctx heap

/-- The loop over the queries in modes 0 and 3. -/
def searchByQuery (rows : ℕ → ResultHeap) : Except Fault (ℕ → ResultHeap) :=
  schedule.queries.foldlM (fun rows i ↦ do
    let heap ← ivf.searchRow ctx x assign i (rows i)
    return update rows i heap) rows

/-- A turn of the loop over the probes of query `i` in mode 1, on the heaps of the threads. -/
def scanProbeStep (i : ℕ) (locals : ℕ → ResultHeap) (p : ℕ × ℕ) :
    Except Fault (ℕ → ResultHeap) := do
  let heap ← ivf.scanAll ctx (x i) (assign (i * ctx.nprobe + p.2)) (locals p.1)
  return update locals p.1 heap

section
variable (s : (ℕ → ResultHeap) × (ℕ → ResultHeap)) (params : Option (IVFSearchParameters QP))
  (i n : ℕ) (locals rows : ℕ → ResultHeap)

/-- The critical sections of query `i` in mode 1. -/
def mergeLocals (heap : ResultHeap) : ResultHeap :=
  (schedule.merges i).foldl (fun heap t ↦ ivf.addLocalResults ctx heap (locals t)) heap

/-- A turn of the loop over the queries in mode 1, on the heaps of the threads and the rows. -/
def searchProbesStep :
    Except Fault ((ℕ → ResultHeap) × (ℕ → ResultHeap)) := do
  let locals ← (schedule.probes i).foldlM (ivf.scanProbeStep ctx x assign i)
    fun t ↦ ivf.initResult ctx (s.1 t)
  let heap := ivf.mergeLocals ctx schedule i locals (ivf.initResult ctx (s.2 i))
  return (locals, update s.2 i (ivf.reorderResult ctx heap))

/-- Mode 1. -/
def searchByProbe : Except Fault (ℕ → ResultHeap) :=
  Prod.snd <$> (List.range n).foldlM (ivf.searchProbesStep ctx schedule x assign) (locals, rows)

/-- A turn of the loop over queries and probes in mode 2, on the heaps of the threads and the
rows. -/
def scanPairStep (p : ℕ × ℕ) :
    Except Fault ((ℕ → ResultHeap) × (ℕ → ResultHeap)) := do
  let i := p.2 / ctx.nprobe
  let heap ← ivf.scanAll ctx (x i) (assign p.2) (ivf.initResult ctx (s.1 p.1))
  return (update s.1 p.1 heap, update s.2 i (ivf.addLocalResults ctx (s.2 i) heap))

/-- Mode 2. -/
def searchByPair : Except Fault (ℕ → ResultHeap) := do
  let s ← schedule.pairs.foldlM (ivf.scanPairStep ctx x assign)
    (locals, fun i ↦ if i < n then ivf.initResult ctx (rows i) else rows i)
  return fun i ↦ if i < n then ivf.reorderResult ctx (s.2 i) else s.2 i

/-- `PARALLEL_MODE_NO_HEAP_INIT` -/
def noHeapInit : Int32 := 1024

def pmode : Int32 :=
  ivf.parallelMode &&& ~~~noHeapInit

/-- The selector for the scanner, and the range for which the ids are taken to be sorted. -/
def splitSel : Option IDSelector → Option IDSelector × Option IDSelectorRange
  | some (.range sel) => if sel.assumeSorted then (none, some sel) else (some (.range sel), none)
  | sel => (sel, none)

def nprobeOf : ℕ :=
  min ivf.nlist ((params.map IVFSearchParameters.nprobe).getD ivf.nprobe)

/-- The number of codes to visit, or 0. -/
def maxCodesOf : ℕ :=
  (params.map IVFSearchParameters.maxCodes).getD ivf.maxCodes

end

/-- The context that `search_preassigned` works in. -/
def context (k : ℕ) (storePairs : Bool) (params : Option (IVFSearchParameters QP)) :
    SearchContext where
  k := k
  nprobe := ivf.nprobeOf params
  maxCodes := if ivf.maxCodesOf params = 0 then none else some (ivf.maxCodesOf params)
  storePairs := storePairs
  sel := (splitSel (params.bind IVFSearchParameters.sel)).1
  selr := (splitSel (params.bind IVFSearchParameters.sel)).2
  doHeapInit := decide (ivf.parallelMode &&& noHeapInit = 0)

variable (n k : ℕ) (rows : ℕ → ResultHeap) (storePairs : Bool)
  (params : Option (IVFSearchParameters QP))

/-- The checks before the parallel section, and the one in `get_InvertedListScanner`. -/
def checkSearch :
    Except Fault Unit := do
  let sel := (splitSel (params.bind IVFSearchParameters.sel)).1
  Fault.throwIfNot (decide (0 < k)) "k > 0"
  Fault.throwIfNot (decide (0 < ivf.nprobeOf params)) "nprobe > 0"
  Fault.throwIfNotMsg (!(sel.isSome && storePairs)) "!(sel && store_pairs)"
    "selector and store_pairs cannot be combined"
  Fault.throwIfNotMsg (!ivf.useIterator || (decide (ivf.maxCodesOf params = 0) && !storePairs))
    "!invlists->use_iterator || (max_codes == 0 && store_pairs == false)"
    "iterable inverted lists don't support max_codes and store_pairs"
  Fault.throwIfNotMsg
    (decide (ivf.maxCodesOf params = 0) || decide (ivf.pmode = 0) || decide (ivf.pmode = 3))
    "max_codes == 0 || pmode == 0 || pmode == 3"
    "max_codes supported only for parallel_mode = 0 or 3"
  Fault.throwIfNot (sel.isNone || ivf.takesSel) "!sel"

/-- The heaps of the threads, before anything is put in them. -/
def zeroHeaps : ℕ → ResultHeap := fun _ _ ↦ (⟨0#32⟩, 0)

/-- The loops of the parallel section. -/
def searchLoops : Except Fault (ℕ → ResultHeap) :=
  if ivf.pmode = 0 ∨ ivf.pmode = 3 then ivf.searchByQuery ctx schedule x assign rows
  else if ivf.pmode = 1 then ivf.searchByProbe ctx schedule x assign n zeroHeaps rows
  else if ivf.pmode = 2 then ivf.searchByPair ctx schedule x assign n zeroHeaps rows
  else .error (.exception
    ("parallel_mode " ++ toString ivf.pmode.toInt ++ " not supported\n"))

/-- `search_preassigned`, on the rows of distances and labels. -/
def searchPreassigned : Except Fault (ℕ → ResultHeap) := do
  ivf.checkSearch k storePairs params
  ivf.searchLoops (ivf.context k storePairs params) schedule x assign n rows

end IVFIndex

end FaissNavix

/-!
# The search functions of an inverted file

`IndexIVF::search`, `search_and_reconstruct` and `search_and_return_codes` of `faiss/IndexIVF.cpp`.
All of them let the quantizer assign the queries to lists and call `search_preassigned`.
-/

namespace FaissNavix

open Lib

/-! ## Numbers of lists as bytes -/

/-- `coarse_code_size`, where `nl` is `nlist - 1`. -/
def coarseCodeSize (nl : ℕ) : ℕ :=
  if nl = 0 then 0 else coarseCodeSize (nl / 256) + 1

/-- `encode_listno`, where `nl` is `nlist - 1`. -/
def encodeListno (nl listNo : ℕ) : List UInt8 :=
  if nl = 0 then [] else .ofNat (listNo % 256) :: encodeListno (nl / 256) (listNo / 256)

/-- The loop of `decode_listno`. -/
def decodeListno (nl : ℕ) (code : ℕ → UInt8) : ℕ :=
  if nl = 0 then 0 else (code 0).toNat + 256 * decodeListno (nl / 256) fun i ↦ code (i + 1)

theorem length_encodeListno (nl listNo : ℕ) :
    (encodeListno nl listNo).length = coarseCodeSize nl := by
  induction nl using Nat.strong_induction_on generalizing listNo with
  | _ nl ih =>
      rw [encodeListno, coarseCodeSize]
      split
      · rfl
      · rw [List.length_cons, ih _ (Nat.div_lt_self (by omega) (by omega))]

/-- What was encoded is read back. -/
theorem decodeListno_encodeListno {nl listNo : ℕ} (h : listNo ≤ nl) (rest : List UInt8) :
    decodeListno nl (fun i ↦ (encodeListno nl listNo ++ rest).getD i 0) = listNo := by
  induction nl using Nat.strong_induction_on generalizing listNo with
  | _ nl ih =>
      rw [encodeListno, decodeListno]
      split
      · omega
      · have hbyte : (UInt8.ofNat (listNo % 256)).toNat = listNo % 256 := by
          rw [UInt8.toNat_ofNat']
          exact Nat.mod_mod _ _
        have hrest := ih (nl / 256) (Nat.div_lt_self (by omega) (by omega))
          (Nat.div_le_div_right (c := 256) h)
        change (UInt8.ofNat (listNo % 256)).toNat + 256 * decodeListno (nl / 256) (fun i ↦
          (encodeListno (nl / 256) (listNo / 256) ++ rest).getD i 0) = listNo
        rw [hbyte, hrest, Nat.mod_add_div]

namespace IVFIndex

variable {Q QP : Type} (ivf : IVFIndex Q QP)

/-- The keys and distances that the quantizer gives for `nprobe` lists, row after row. -/
def assignOf (x : ℕ → Q) (nprobe : ℕ) (quantizerParams : Option QP) (p : ℕ) : ℤ × F32 :=
  ivf.quantizer (x (p / nprobe)) nprobe quantizerParams (p % nprobe)

/-- `sub_search_func` -/
def subSearch (schedule : Schedule) (x : ℕ → Q) (n k : ℕ)
    (params : Option (IVFSearchParameters QP)) (rows : ℕ → ResultHeap) :
    Except Fault (ℕ → ResultHeap) :=
  let assign := ivf.assignOf x (ivf.nprobeOf params) (params.bind IVFSearchParameters.quantizerParams)
  ivf.searchPreassigned schedule x assign n k rows false params

/-- One of `nt` slices of the queries in mode 0, which has a schedule of its own. -/
def searchSlice (schedules : ℕ → Schedule) (x : ℕ → Q) (n k : ℕ)
    (params : Option (IVFSearchParameters QP)) (nt : ℕ) (rows : ℕ → ResultHeap) (slice : ℕ) :
    Except Fault (ℕ → ResultHeap) :=
  let i0 := n * slice / nt
  let i1 := n * (slice + 1) / nt
  if i0 < i1 then do
    let part ← ivf.subSearch (schedules slice) (fun i ↦ x (i0 + i)) (i1 - i0) k params
      fun i ↦ rows (i0 + i)
    return fun i ↦ if i0 ≤ i ∧ i < i1 then part (i - i0) else rows i
  else .ok rows

/-- `search`, where OpenMP has `maxThreads` threads. -/
def search (maxThreads : ℕ) (schedules : ℕ → Schedule) (x : ℕ → Q) (n k : ℕ)
    (params : Option (IVFSearchParameters QP)) (rows : ℕ → ResultHeap) :
    Except Fault (ℕ → ResultHeap) := do
  Fault.throwIfNot (decide (0 < k)) "k > 0"
  Fault.throwIfNot (decide (0 < ivf.nprobeOf params)) "nprobe > 0"
  if ivf.pmode = 0 then
    let nt := min maxThreads n
    (List.range nt).foldlM (ivf.searchSlice schedules x n k params nt) rows
  else ivf.subSearch (schedules 0) x n k params rows

/-! ## Searches that also return what is stored -/

/-- The entry that `get_single_id` and `get_single_code` read. -/
def entryAt (listNo offset : ℕ) : Except Fault Entry := do
  Fault.assert (decide (listNo < ivf.nlist)) "list_no < nlist"
  match (ivf.list listNo)[offset]? with
  | some e => .ok e
  | none => .error (.assertion "offset < list_size(list_no)")

/-- A word that is kept as an `int`, and then used as a `size_t`. -/
def asInt (w : UInt64) : ℕ :=
  (UInt64.ofInt (w.toUInt32.toInt32).toInt).toNat

/-- A turn of the loop over the labels: a result and what is returned beside it, which is `filler`
where there is no result, and what `view` makes of the number of the list and the code elsewhere. -/
def resolveLabel {V : Type} (filler : V) (view : ℕ → List UInt8 → V) (cell : (F32 × ℤ) × V) :
    Except Fault ((F32 × ℤ) × V) :=
  let key := cell.1.2
  if key < 0 then .ok (cell.1, filler)
  else do
    let listNo := asInt (loListno (.ofInt key))
    let offset := asInt (loOffset (.ofInt key))
    let e ← ivf.entryAt listNo offset
    return ((cell.1.1, e.id.toInt), view listNo e.code)

/-- What `search_and_reconstruct` and `search_and_return_codes` do alike, on a table with the
results of query `i` from `i * k` on. -/
def searchAndResolve {V : Type} (filler : V) (view : ℕ → List UInt8 → V) (schedule : Schedule)
    (x : ℕ → Q) (n k : ℕ) (params : Option (IVFSearchParameters QP)) (cells : ℕ → (F32 × ℤ) × V) :
    Except Fault (ℕ → (F32 × ℤ) × V) := do
  let nprobe := ivf.nprobeOf params
  Fault.throwIfNot (decide (0 < nprobe)) "nprobe > 0"
  let assign := ivf.assignOf x nprobe none
  let rows ← ivf.searchPreassigned schedule x assign n k (fun i j ↦ (cells (i * k + j)).1) true params
  (List.range (n * k)).foldlM (updateCell fun _ ↦ ivf.resolveLabel filler view)
    fun ij ↦ if ij < n * k then (rows (ij / k) (ij % k), (cells ij).2) else cells ij

/-- `search_and_reconstruct`, where `decode` is what `reconstruct_from_offset` makes of the code that
it reads, and `nans` is a vector of bytes `0xff`. -/
def searchAndReconstruct {V : Type} (nans : V) (decode : ℕ → List UInt8 → V) (schedule : Schedule)
    (x : ℕ → Q) (n k : ℕ) (params : Option (IVFSearchParameters QP)) (cells : ℕ → (F32 × ℤ) × V) :
    Except Fault (ℕ → (F32 × ℤ) × V) :=
  ivf.searchAndResolve nans decode schedule x n k params cells

/-- `search_and_return_codes` -/
def searchAndReturnCodes (codeSize : ℕ) (includeListno : Bool) (schedule : Schedule)
    (x : ℕ → Q) (n k : ℕ) (params : Option (IVFSearchParameters QP))
    (cells : ℕ → (F32 × ℤ) × List UInt8) : Except Fault (ℕ → (F32 × ℤ) × List UInt8) :=
  let codeSize1 := codeSize + if includeListno then coarseCodeSize (ivf.nlist - 1) else 0
  ivf.searchAndResolve (List.replicate codeSize1 0xff)
    (fun listNo code ↦ (if includeListno then encodeListno (ivf.nlist - 1) listNo else []) ++ code)
    schedule x n k params cells

end IVFIndex

end FaissNavix
