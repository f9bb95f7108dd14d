import FaissNavix.IVF.Scan

/-!
# A range of sorted ids

When the ids of every list are sorted, a search for the ids of a range finds the same results whether
it takes the ids to be sorted, and scans a section of every list, or asks for every id.  The entries
that are offered are the same ones in the same order, so that the heaps go through the same states.
-/

namespace FaissNavix

open Function
open Lib

namespace IVFIndex

variable {Q QP : Type} (ivf : IVFIndex Q QP)

/-- The inner loop of `check_ids_sorted`. -/
def countFlips (entries : List Entry) (nflip : ℕ) : ℕ :=
  (List.range (entries.length - 1)).foldl
    (fun nflip j ↦ if idAt entries (j + 1) < idAt entries j then nflip + 1 else nflip) nflip

/-- `check_ids_sorted` -/
def checkIdsSorted : Bool :=
  decide ((List.range ivf.nlist).foldl (fun nflip i ↦ countFlips (ivf.list i) nflip) 0 = 0)

variable {ivf}

theorem foldl_count_eq_zero {p : ℕ → Prop} [DecidablePred p] {l : List ℕ} {m : ℕ}
    (h : l.foldl (fun m j ↦ if p j then m + 1 else m) m = 0) : m = 0 ∧ ∀ j ∈ l, ¬ p j := by
  induction l generalizing m with
  | nil => exact ⟨h, fun j hj ↦ absurd hj List.not_mem_nil⟩
  | cons i l ih =>
      rw [List.foldl_cons] at h
      obtain ⟨hm, hl⟩ := ih h
      split at hm
      · exact absurd hm (Nat.succ_ne_zero m)
      · rename_i hi
        exact ⟨hm, List.forall_mem_cons.mpr ⟨hi, hl⟩⟩

theorem sortedIds_of_succ {m : ℕ} {ids : ℕ → Idx}
    (h : ∀ j, j + 1 < m → ids j ≤ ids (j + 1)) : SortedIds m ids := by
  intro i j hij
  induction j, hij using Nat.le_induction with
  | base => exact fun _ ↦ Int64.le_refl _
  | succ j hij ih => exact fun hj ↦ Int64.le_trans (ih (by omega)) (h j hj)

theorem sortedIds_of_countFlips {entries : List Entry} {nflip : ℕ}
    (h : countFlips entries nflip = 0) : nflip = 0 ∧ SortedIds entries.length (idAt entries) := by
  obtain ⟨hn, hflip⟩ := foldl_count_eq_zero h
  refine ⟨hn, sortedIds_of_succ fun j hj ↦ ?_⟩
  exact Int64.not_lt.mp (hflip j (List.mem_range.mpr (by omega)))

/-- `check_ids_sorted` finds the ids of every list sorted. -/
theorem sortedIds_of_check (h : ivf.checkIdsSorted = true) {i : ℕ} (hi : i < ivf.nlist) :
    SortedIds (ivf.list i).length (idAt (ivf.list i)) := by
  have hall : ∀ (l : List ℕ) (m : ℕ),
      l.foldl (fun nflip i ↦ countFlips (ivf.list i) nflip) m = 0 →
        m = 0 ∧ ∀ i ∈ l, SortedIds (ivf.list i).length (idAt (ivf.list i)) := by
    intro l
    induction l with
    | nil => exact fun m hm ↦ ⟨hm, fun i hi ↦ absurd hi List.not_mem_nil⟩
    | cons i l ih =>
        intro m hm
        obtain ⟨hm', hl⟩ := ih _ hm
        obtain ⟨hm0, hsorted⟩ := sortedIds_of_countFlips hm'
        exact ⟨hm0, List.forall_mem_cons.mpr ⟨hsorted, hl⟩⟩
  exact (hall _ _ (of_decide_eq_true h)).2 i (List.mem_range.mpr hi)

/-! ## The scans -/

theorem scanProbes_unlimited {ctx : SearchContext} (hmax : ctx.maxCodes = none) (query : Q)
    (probes : List (ℤ × F32)) (heap : ResultHeap) (nscan : ℕ) :
    ivf.scanProbes ctx query probes heap nscan =
      probes.foldlM (fun heap probe ↦ ivf.scanAll ctx query probe heap) heap := by
  induction probes generalizing heap nscan with
  | nil => rfl
  | cons probe probes ih =>
      rw [scanProbes, hmax, Option.map_none, List.foldlM_cons, scanAll]
      cases ivf.scanOneList ctx query probe heap none with
      | error e => rfl
      | ok s => exact ih s.1 (nscan + s.2)

/-- Two ways to select, in a context that has no limit. -/
structure SameScans (ivf : IVFIndex Q QP) (ctx ctx' : SearchContext) : Prop where
  k : ctx'.k = ctx.k
  nprobe : ctx'.nprobe = ctx.nprobe
  doHeapInit : ctx'.doHeapInit = ctx.doHeapInit
  maxCodes : ctx.maxCodes = none
  maxCodes' : ctx'.maxCodes = none
  scanAll : ∀ query probe heap,
    ivf.scanAll ctx' query probe heap = ivf.scanAll ctx query probe heap

/-- The loops of a search depend on the selection only through the scans. -/
theorem SameScans.searchLoops {ctx ctx' : SearchContext} (h : ivf.SameScans ctx ctx')
    (schedule : Schedule) (x : ℕ → Q) (assign : ℕ → ℤ × F32) (n : ℕ) (rows : ℕ → ResultHeap) :
    ivf.searchLoops ctx' schedule x assign n rows = ivf.searchLoops ctx schedule x assign n rows := by
  have hinit : ivf.initResult ctx' = ivf.initResult ctx := by
    funext heap
    rw [initResult, initResult, h.doHeapInit, h.k]
  have hreorder : ivf.reorderResult ctx' = ivf.reorderResult ctx := by
    funext heap
    rw [reorderResult, reorderResult, h.doHeapInit, h.k]
  have hadd : ivf.addLocalResults ctx' = ivf.addLocalResults ctx := by
    funext heap bh
    rw [addLocalResults, addLocalResults, h.k]
  have hrow : ivf.searchRow ctx' x assign = ivf.searchRow ctx x assign := by
    funext i heap
    rw [searchRow, searchRow, probesOf, probesOf, hinit, hreorder, h.nprobe,
      scanProbes_unlimited h.maxCodes, scanProbes_unlimited h.maxCodes']
    simp only [h.scanAll]
  have hprobe : ivf.scanProbeStep ctx' x assign = ivf.scanProbeStep ctx x assign := by
    funext i locals p
    rw [scanProbeStep, scanProbeStep, h.scanAll, h.nprobe]
  have hprobes : ivf.searchProbesStep ctx' schedule x assign =
      ivf.searchProbesStep ctx schedule x assign := by
    funext s i
    simp only [searchProbesStep, mergeLocals, hprobe, hinit, hreorder, hadd]
  have hpair : ivf.scanPairStep ctx' x assign = ivf.scanPairStep ctx x assign := by
    funext s p
    rw [scanPairStep, scanPairStep, h.scanAll, h.nprobe, hinit, hadd]
  simp only [IVFIndex.searchLoops, searchByQuery, searchByProbe, searchByPair, hrow, hprobes, hpair, hinit,
    hreorder]

/-! ## Both ways to select -/

def rangeParams (params : IVFSearchParameters QP) (imin imax : Idx) (assumeSorted : Bool) :
    IVFSearchParameters QP :=
  { params with sel := some (.range ⟨imin, imax, assumeSorted⟩) }

/-- In a list with sorted ids, the section of the range has the ids that are in the range. -/
theorem scanned_range {ctx ctx' : SearchContext} {imin imax : Idx} {entries : List Entry}
    (hselr : ctx.selr = some ⟨imin, imax, true⟩) (hselr' : ctx'.selr = none)
    (hsel' : ctx'.sel = some (.range ⟨imin, imax, false⟩))
    (hsorted : SortedIds entries.length (idAt entries)) :
    scanned ctx entries entries.length = scanned ctx' entries entries.length := by
  obtain ⟨b, hb, hbounds⟩ :=
    IDSelectorRange.findSortedIdsBounds_spec ⟨imin, imax, true⟩ rfl hsorted
  rw [scanned_of_some hselr hb, scanned_of_none hselr', hsel']
  refine (filter_range_eq (fun j hj ↦ ?_) hbounds.le hbounds.le_size).symm
  rw [← hbounds.isMember_iff j hj]
  change (!!IDSelectorRange.isMember ⟨imin, imax, false⟩ (idAt entries j)) = true ↔ _
  rw [Bool.not_not]
  rfl

theorem scanAll_range {ctx ctx' : SearchContext} {imin imax : Idx} (hk : ctx'.k = ctx.k)
    (hselr : ctx.selr = some ⟨imin, imax, true⟩) (hsel : ctx.sel = none)
    (hselr' : ctx'.selr = none) (hsel' : ctx'.sel = some (.range ⟨imin, imax, false⟩))
    (hpairs : ctx.storePairs = false) (hpairs' : ctx'.storePairs = false)
    (hsorted : ivf.checkIdsSorted = true) (query : Q) (probe : ℤ × F32) (heap : ResultHeap) :
    ivf.scanAll ctx' query probe heap = ivf.scanAll ctx query probe heap := by
  have hread : ctx.Readable :=
    ⟨fun _ ↦ hsel, fun selr h ↦ by
      rw [hselr, Option.some_inj] at h
      exact ⟨hpairs, hsel, h ▸ rfl⟩⟩
  have hread' : ctx'.Readable :=
    ⟨fun h ↦ absurd (hpairs'.symm.trans h) Bool.false_ne_true, fun selr h ↦ by
      rw [hselr'] at h
      cases h⟩
  by_cases hkey : probe.1 < ivf.nlist
  · cases hiter : ivf.useIterator with
    | true =>
        have hiterate : ivf.iterateCodes ctx' = ivf.iterateCodes ctx := by
          funext query key coarseDis entries heap
          rw [iterateCodes, iterateCodes, hk]
        have hscan : ivf.scanOneList ctx' query probe heap none =
            ivf.scanOneList ctx query probe heap none := by
          simp only [scanOneList, hiter, if_true, hiterate]
        rw [scanAll, scanAll, hscan]
    | false =>
        rw [scanAll_eq hread hiter hkey, scanAll_eq hread' hiter hkey, hk]
        refine congrArg (fun l ↦ Except.ok (heapOffers _ _ heap l)) ?_
        unfold offersOf scannedOf
        split
        · rfl
        · rename_i hneg
          have hscanned := scanned_range hselr hselr' hsel'
            (sortedIds_of_check hsorted (show probe.1.toNat < ivf.nlist by omega))
          refine Eq.trans (congrArg _ hscanned.symm) ?_
          refine List.map_congr_left fun j _ ↦ ?_
          rw [resultAt_of_ids hpairs, resultAt_of_ids hpairs']
  · have hneg : ¬ probe.1 < 0 := by omega
    have hscan : ivf.scanOneList ctx' query probe heap none =
        ivf.scanOneList ctx query probe heap none := by
      rw [scanOneList, scanOneList, if_neg hneg, if_pos (not_lt.mp hkey), if_neg hneg,
        if_pos (not_lt.mp hkey)]
    rw [scanAll, scanAll, hscan]

theorem checkSearch_range (htakes : ivf.takesSel = true) (k : ℕ) (params : IVFSearchParameters QP)
    (imin imax : Idx) :
    ivf.checkSearch k false (some (rangeParams params imin imax true)) =
      ivf.checkSearch k false (some (rangeParams params imin imax false)) := by
  simp only [checkSearch, Bool.and_false, htakes, Bool.or_true]
  rfl

theorem searchPreassigned_range (htakes : ivf.takesSel = true)
    (hsorted : ivf.checkIdsSorted = true) {params : IVFSearchParameters QP}
    (hmax : params.maxCodes = 0) (imin imax : Idx) (schedule : Schedule) (x : ℕ → Q)
    (assign : ℕ → ℤ × F32) (n k : ℕ) (rows : ℕ → ResultHeap) :
    ivf.searchPreassigned schedule x assign n k rows false
        (some (rangeParams params imin imax true)) =
      ivf.searchPreassigned schedule x assign n k rows false
        (some (rangeParams params imin imax false)) := by
  have hnone : ∀ assumeSorted,
      (ivf.context k false (some (rangeParams params imin imax assumeSorted))).maxCodes = none :=
    fun _ ↦ if_pos hmax
  have hsame : ivf.SameScans (ivf.context k false (some (rangeParams params imin imax true)))
      (ivf.context k false (some (rangeParams params imin imax false))) :=
    ⟨rfl, rfl, rfl, hnone true, hnone false,
      scanAll_range rfl rfl rfl rfl rfl rfl rfl hsorted⟩
  rw [searchPreassigned, searchPreassigned, checkSearch_range htakes, hsame.searchLoops]

/-- One list with the ids 3 and 5, for a scanner that may take selectors or not. -/
def sortedPair (takesSel : Bool) : IVFIndex Unit Unit where
  nlist := 1
  nprobe := 1
  maxCodes := 0
  parallelMode := 0
  metricType := .l2
  quantizer := fun _ _ _ _ ↦ (0, ⟨0#32⟩)
  distanceToCode := fun _ _ _ _ ↦ ⟨0#32⟩
  takesSel := takesSel
  useIterator := false
  list := fun _ ↦ [⟨3, []⟩, ⟨5, []⟩]

/-- One query, for one result. -/
def oneQuery : ℕ → Schedule := fun _ ↦ ⟨1, [0], fun _ ↦ [(0, 0)], fun _ ↦ [0], [(0, 0)]⟩

end IVFIndex

end FaissNavix
