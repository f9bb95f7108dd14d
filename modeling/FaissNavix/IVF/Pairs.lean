import FaissNavix.IVF.ParallelModes
import FaissNavix.IVF.SortedRange

/-!
# Searches that also return what is stored

`search_and_reconstruct` and `search_and_return_codes` scan the same places as `search`, for labels
that are made of the number of a list and an offset, and look the ids and the codes up in the end.
The labels take part in the order of the heaps where distances are equal.
-/

namespace FaissNavix

open Lib

namespace IVFIndex

/-! ## The words of the labels -/

theorem toNat_ofInt {m : ℕ} (h : m < 2 ^ 64) : (UInt64.ofInt m).toNat = m := by
  rw [UInt64.ofInt, Int.emod_eq_of_lt (by omega) (by omega), Int.toNat_natCast]
  exact Nat.mod_eq_of_lt (b := 2 ^ 64) h

theorem ofInt_toInt_loOf {l o : ℕ} (hl : l < 2 ^ 31) (ho : o < 2 ^ 32) :
    UInt64.ofInt (loOf l o).toInt = (loOf l o).toUInt64 := by
  apply UInt64.toNat_inj.mp
  have hword : ((2 ^ 32 * l + o : ℕ) : ℤ) = 2 ^ 32 * l + o := by norm_cast
  rw [toInt_loOf hl ho, toNat_loOf (by omega) ho, ← hword, toNat_ofInt (by omega)]

theorem asInt_of_lt {w : UInt64} (h : w.toNat < 2 ^ 31) : asInt w = w.toNat := by
  have h32 : w.toUInt32.toNat = w.toNat := by
    rw [UInt64.toNat_toUInt32]
    omega
  have hint : w.toUInt32.toInt32.toInt = w.toNat := by
    rw [← h32, ← Int32.toInt_toBitVec, BitVec.toInt_eq_toNat_of_lt]
    · rfl
    · change 2 * w.toUInt32.toNat < 2 ^ 32
      omega
  rw [asInt, hint, toNat_ofInt (by omega)]

variable {Q QP V : Type}

/-! ## `search` -/

/-- The probes of a query. -/
def queryProbes (ivf : IVFIndex Q QP) (params : Option (IVFSearchParameters QP))
    (quantizerParams : Option QP) (query : Q) : List (ℤ × F32) :=
  (List.range (ivf.nprobeOf params)).map
    (ivf.quantizer query (ivf.nprobeOf params) quantizerParams)

/-- Schedules for the parallel section of a search, or for those of its slices. -/
def ValidSchedules (ivf : IVFIndex Q QP) (maxThreads : ℕ) (schedules : ℕ → Schedule) (n nprobe : ℕ) :
    Prop :=
  if ivf.pmode = 0 then
    let nt := min maxThreads n
    ∀ slice < nt, (schedules slice).Valid (n * (slice + 1) / nt - n * slice / nt) nprobe
  else (schedules 0).Valid n nprobe

/-- What the searches that look up what is stored rely on: lists without iterators, no selector and
no parameters for the quantizer, heaps that are theirs to initialise, a quantizer that assigns
queries to lists of the index or to none, ids other than that of the filling, and numbers of lists
and offsets that an `int` can keep. -/
structure Pairable (ivf : IVFIndex Q QP) (params : Option (IVFSearchParameters QP)) : Prop where
  iterator : ivf.useIterator = false
  sel : params.bind IVFSearchParameters.sel = none
  quantizerParams : params.bind IVFSearchParameters.quantizerParams = none
  heapInit : ivf.parallelMode &&& noHeapInit = 0
  keys : ∀ query, ∀ column < ivf.nprobeOf params,
    (ivf.quantizer query (ivf.nprobeOf params) none column).1 < ivf.nlist
  ids : ∀ l < ivf.nlist, ∀ e ∈ ivf.list l, e.id ≠ -1
  nlist_le : ivf.nlist ≤ 2 ^ 31
  length_le : ∀ l < ivf.nlist, (ivf.list l).length ≤ 2 ^ 31

variable {ivf : IVFIndex Q QP} {params : Option (IVFSearchParameters QP)} {x : ℕ → Q} {n k : ℕ}
  {ctx : SearchContext}

theorem probesOf_assignOf (hctx : ctx.nprobe = ivf.nprobeOf params) (x : ℕ → Q)
    (quantizerParams : Option QP) (i : ℕ) :
    probesOf ctx (ivf.assignOf x (ivf.nprobeOf params) quantizerParams) i =
      ivf.queryProbes params quantizerParams (x i) := by
  rw [probesOf, queryProbes, hctx]
  refine List.map_congr_left fun ik hik ↦ ?_
  have hlt := List.mem_range.mp hik
  rw [assignOf, Nat.mul_comm, Nat.mul_add_div (by omega), Nat.div_eq_of_lt hlt, Nat.add_zero,
    Nat.mul_add_mod, Nat.mod_eq_of_lt hlt]

theorem Pairable.readable (h : ivf.Pairable params) (k : ℕ) (storePairs : Bool) :
    (ivf.context k storePairs params).Readable :=
  readable_context ivf.parallelMode fun _ ↦ h.sel

theorem Pairable.idAt_ne (h : ivf.Pairable params) {l j : ℕ} (hl : l < ivf.nlist)
    (hj : j < (ivf.list l).length) : (idAt (ivf.list l) j).toInt ≠ -1 := by
  have hid : idAt (ivf.list l) j = (ivf.list l)[j].id := by
    rw [idAt, List.getElem?_eq_getElem hj]
    rfl
  rw [hid]
  intro heq
  refine h.ids l hl _ (List.getElem_mem hj) (Int64.toInt_inj.mp ?_)
  rw [heq]
  rfl

theorem Pairable.assignOf_lt (h : ivf.Pairable params) (x : ℕ → Q) {p : ℕ}
    (hp : p < n * ivf.nprobeOf params) :
    (ivf.assignOf x (ivf.nprobeOf params) none p).1 < ivf.nlist := by
  have hnprobe : 0 < ivf.nprobeOf params := Nat.pos_of_ne_zero fun h0 ↦ by
    rw [h0, Nat.mul_zero] at hp
    exact Nat.not_lt_zero p hp
  exact h.keys _ _ (Nat.mod_lt p hnprobe)

/-- The searches with labels of either kind. -/
theorem Pairable.plain (h : ivf.Pairable params) (hk : 0 < k) (storePairs : Bool) (x : ℕ → Q)
    (n : ℕ) : ivf.Plain (ivf.context k storePairs params) x
      (ivf.assignOf x (ivf.nprobeOf params) none) n where
  pos := hk
  readable := h.readable k storePairs
  iterator := h.iterator
  heapInit := decide_eq_true h.heapInit
  keys := fun p hp ↦ h.assignOf_lt x hp
  real := by
    intro p hp hpos j hj
    have hkey := h.assignOf_lt x hp
    generalize ivf.assignOf x (ivf.nprobeOf params) none p = probe at hpos hj hkey
    have hlist : ((probe.1.toNat : ℕ) : ℤ) = probe.1 := Int.toNat_of_nonneg hpos
    have hl : probe.1.toNat < ivf.nlist := by omega
    have hlen := h.length_le _ hl
    have hnlist := h.nlist_le
    unfold label
    split
    · rw [← hlist]
      have := loOf_nonneg (l := probe.1.toNat) (o := j) (by omega) (by omega)
      omega
    · exact h.idAt_ne hl hj

theorem Pairable.checkSearch (h : ivf.Pairable params) (hk : 0 < k) (hnprobe : 0 < ivf.nprobeOf params)
    (hmode : ivf.pmode = 0 ∨ ivf.pmode = 3 ∨ (ivf.pmode = 1 ∨ ivf.pmode = 2) ∧
      (ivf.context k false params).maxCodes = none) (storePairs : Bool) :
    ivf.checkSearch k storePairs params = .ok () := by
  have hmax : (decide (ivf.maxCodesOf params = 0) || decide (ivf.pmode = 0) ||
      decide (ivf.pmode = 3)) = true := by
    rcases hmode with h0 | h3 | ⟨-, hnone⟩
    · rw [decide_eq_true h0, Bool.or_true, Bool.true_or]
    · rw [decide_eq_true h3, Bool.or_true]
    · have hzero : ivf.maxCodesOf params = 0 := by
        by_contra hne
        rw [show (ivf.context k false params).maxCodes = some (ivf.maxCodesOf params) from
          if_neg hne] at hnone
        cases hnone
      rw [decide_eq_true hzero, Bool.true_or, Bool.true_or]
  rw [IVFIndex.checkSearch, hmax, h.sel, h.iterator, decide_eq_true hk, decide_eq_true hnprobe]
  rfl

/-- What the row of query `i` is made of. -/
def HoldsQuery (ivf : IVFIndex Q QP) (ctx : SearchContext) (params : Option (IVFSearchParameters QP))
    (query : Q) (row : ResultHeap) : Prop :=
  ivf.RowHolds ctx (ivf.candidates ctx query (ivf.queryProbes params none query)) row

/-- A call of `search_preassigned` for labels of either kind. -/
theorem Pairable.searchPreassigned_holds (h : ivf.Pairable params) (hk : 0 < k)
    (hnprobe : 0 < ivf.nprobeOf params)
    (hmode : ivf.pmode = 0 ∨ ivf.pmode = 3 ∨ (ivf.pmode = 1 ∨ ivf.pmode = 2) ∧
      (ivf.context k false params).maxCodes = none) (storePairs : Bool) {schedule : Schedule}
    (hs : schedule.Valid n (ivf.nprobeOf params)) (x : ℕ → Q) (rows : ℕ → ResultHeap) :
    ∃ rows', ivf.searchPreassigned schedule x (ivf.assignOf x (ivf.nprobeOf params) none) n k rows
        storePairs params = .ok rows' ∧
      ∀ i < n, ivf.HoldsQuery (ivf.context k storePairs params) params (x i) (rows' i) := by
  obtain ⟨rows', hrun, hrows⟩ := IVFIndex.searchPreassigned_holds (h.plain hk storePairs x n) hs
    (h.checkSearch hk hnprobe hmode storePairs) hmode rows
  refine ⟨rows', hrun, fun i hi ↦ ?_⟩
  have hrow := hrows i hi
  rw [probesOf_assignOf rfl] at hrow
  exact hrow

/-- The slices of the queries, from the first one on. -/
theorem Pairable.searchSlices_holds (h : ivf.Pairable params) (hk : 0 < k)
    (hnprobe : 0 < ivf.nprobeOf params) (hmode : ivf.pmode = 0) {schedules : ℕ → Schedule} {nt : ℕ}
    (hs : ∀ slice < nt, (schedules slice).Valid (n * (slice + 1) / nt - n * slice / nt)
      (ivf.nprobeOf params)) (x : ℕ → Q) (rows : ℕ → ResultHeap) {m : ℕ} (hm : m ≤ nt) :
    ∃ rows', (List.range m).foldlM (ivf.searchSlice schedules x n k params nt) rows = .ok rows' ∧
      ∀ i < n * m / nt, ivf.HoldsQuery (ivf.context k false params) params (x i) (rows' i) := by
  induction m with
  | zero => exact ⟨rows, rfl, fun i hi ↦ by
      rw [Nat.mul_zero, Nat.zero_div] at hi
      exact absurd hi (Nat.not_lt_zero i)⟩
  | succ m ih =>
      obtain ⟨mid, hmid, hrows⟩ := ih (by omega)
      rw [List.range_succ, foldlM_concat, hmid]
      change ∃ rows', ivf.searchSlice schedules x n k params nt mid m = .ok rows' ∧ _
      unfold searchSlice
      generalize hi0 : n * m / nt = i0 at hrows
      generalize hi1 : n * (m + 1) / nt = i1
      by_cases hlt : i0 < i1
      · have hvalid := hs m (by omega)
        rw [hi0, hi1] at hvalid
        obtain ⟨part, hpart, hpartRows⟩ := h.searchPreassigned_holds hk hnprobe (Or.inl hmode) false
          hvalid (fun i ↦ x (i0 + i)) fun i ↦ mid (i0 + i)
        refine ⟨fun i ↦ if i0 ≤ i ∧ i < i1 then part (i - i0) else mid i, ?_, fun i hi ↦ ?_⟩
        · dsimp only
          rw [if_pos hlt, subSearch, h.quantizerParams, hpart]
          rfl
        · dsimp only
          by_cases hle : i0 ≤ i
          · rw [if_pos ⟨hle, hi⟩]
            have := hpartRows (i - i0) (by omega)
            rwa [Nat.add_sub_cancel' hle] at this
          · rw [if_neg fun hin ↦ hle hin.1]
            exact hrows i (by omega)
      · exact ⟨mid, if_neg hlt, fun i hi ↦ hrows i (by omega)⟩

/-- A search that returns has passed the checks. -/
theorem checks_of_search {maxThreads : ℕ} {schedules : ℕ → Schedule} {rows rows' : ℕ → ResultHeap}
    (hsearch : ivf.search maxThreads schedules x n k params rows = .ok rows') :
    0 < k ∧ 0 < ivf.nprobeOf params ∧ (ivf.pmode = 0 ∨ ivf.pmode = 3 ∨
      (ivf.pmode = 1 ∨ ivf.pmode = 2) ∧ (ivf.context k false params).maxCodes = none) := by
  obtain ⟨_, hk, hrest⟩ := Fault.bind_eq_ok.mp hsearch
  obtain ⟨_, hnprobe, hrest⟩ := Fault.bind_eq_ok.mp hrest
  refine ⟨of_decide_eq_true (Fault.throwIfNot_eq_ok.mp hk),
    of_decide_eq_true (Fault.throwIfNot_eq_ok.mp hnprobe), ?_⟩
  by_cases h0 : ivf.pmode = 0
  · exact Or.inl h0
  · rw [if_neg h0, subSearch] at hrest
    obtain ⟨_, hcheck, hloops⟩ := Fault.bind_eq_ok.mp hrest
    obtain ⟨_, -, hcheck⟩ := Fault.bind_eq_ok.mp hcheck
    obtain ⟨_, -, hcheck⟩ := Fault.bind_eq_ok.mp hcheck
    obtain ⟨_, -, hcheck⟩ := Fault.bind_eq_ok.mp hcheck
    obtain ⟨_, -, hcheck⟩ := Fault.bind_eq_ok.mp hcheck
    obtain ⟨_, hmax, -⟩ := Fault.bind_eq_ok.mp hcheck
    replace hmax := Fault.throwIfNotMsg_eq_ok.mp hmax
    rw [decide_eq_false h0, Bool.or_false] at hmax
    by_cases h3 : ivf.pmode = 3
    · exact Or.inr (Or.inl h3)
    · rw [decide_eq_false h3, Bool.or_false] at hmax
      refine Or.inr (Or.inr ⟨?_, if_pos (of_decide_eq_true hmax)⟩)
      by_contra h12
      rw [not_or] at h12
      rw [searchLoops, if_neg (not_or.mpr ⟨h0, h3⟩), if_neg h12.1, if_neg h12.2] at hloops
      cases hloops

/-- `search` makes every row of what is scanned for its query. -/
theorem Pairable.search_holds (h : ivf.Pairable params) {maxThreads : ℕ} (hthreads : 0 < maxThreads)
    {schedules : ℕ → Schedule} (hs : ivf.ValidSchedules maxThreads schedules n (ivf.nprobeOf params))
    {rows rows' : ℕ → ResultHeap}
    (hsearch : ivf.search maxThreads schedules x n k params rows = .ok rows') :
    ∀ i < n, ivf.HoldsQuery (ivf.context k false params) params (x i) (rows' i) := by
  obtain ⟨hk, hnprobe, hmode⟩ := checks_of_search hsearch
  have hrest : (if ivf.pmode = 0 then
      (List.range (min maxThreads n)).foldlM
        (ivf.searchSlice schedules x n k params (min maxThreads n)) rows
      else ivf.subSearch (schedules 0) x n k params rows) = .ok rows' := by
    rw [search, decide_eq_true hk, decide_eq_true hnprobe] at hsearch
    exact hsearch
  intro i hi
  unfold ValidSchedules at hs
  by_cases h0 : ivf.pmode = 0
  · rw [if_pos h0] at hrest hs
    have hnt : 0 < min maxThreads n := by omega
    obtain ⟨rows'', hrun, hrows⟩ := h.searchSlices_holds hk hnprobe h0 hs x rows le_rfl
    rw [hrest, Except.ok.injEq] at hrun
    rw [Nat.mul_div_cancel _ hnt] at hrows
    exact hrun ▸ hrows i hi
  · rw [if_neg h0] at hrest hs
    obtain ⟨rows'', hrun, hrows⟩ := h.searchPreassigned_holds hk hnprobe hmode false hs x rows
    rw [subSearch, h.quantizerParams, hrun, Except.ok.injEq] at hrest
    exact hrest ▸ hrows i hi

/-! ## Looking up what is stored -/

/-- The label of a place is that of its entry, and the code is the one that is stored. -/
theorem Pairable.resolveLabel_eq (h : ivf.Pairable params) (filler : V) (view : ℕ → List UInt8 → V)
    {query : Q} {probes : List (ℤ × F32)} {p : ℕ × ℕ} (hpos : 0 ≤ (probeAt probes p.1).1)
    (hkey : (probeAt probes p.1).1 < ivf.nlist)
    (hj : p.2 < (ivf.list (probeAt probes p.1).1.toNat).length) (v : V) :
    ivf.resolveLabel filler view (ivf.resultOf (ivf.context k true params) query probes p, v) =
      .ok (ivf.resultOf (ivf.context k false params) query probes p,
        view (probeAt probes p.1).1.toNat
          (codeAt (ivf.list (probeAt probes p.1).1.toNat) p.2)) := by
  obtain ⟨a, j⟩ := p
  unfold resultOf
  generalize probeAt probes a = probe at hpos hkey hj ⊢
  obtain ⟨key, dis⟩ := probe
  obtain ⟨l, rfl⟩ := Int.eq_ofNat_of_zero_le hpos
  have hl : l < ivf.nlist := Int.ofNat_lt.mp hkey
  change j < (ivf.list l).length at hj
  have hlen := h.length_le l hl
  have hnlist := h.nlist_le
  have hword := ofInt_toInt_loOf (l := l) (o := j) (by omega) (by omega)
  have hlistno : asInt (loListno (.ofInt (loOf l j).toInt)) = l := by
    rw [hword, asInt_of_lt (by rw [loListno_loOf (by omega) (by omega)]; omega),
      loListno_loOf (by omega) (by omega)]
  have hoffset : asInt (loOffset (.ofInt (loOf l j).toInt)) = j := by
    rw [hword, asInt_of_lt (by rw [loOffset_loOf (by omega) (by omega)]; omega),
      loOffset_loOf (by omega) (by omega)]
  have hentry : ivf.entryAt l j = .ok (ivf.list l)[j] := by
    rw [entryAt, decide_eq_true hl, List.getElem?_eq_getElem hj]
    rfl
  have hpositive : ¬ (loOf l j).toInt < 0 := not_lt.mpr (loOf_nonneg (by omega) (by omega))
  rw [resultAt_of_pairs rfl, resultAt_of_ids rfl, resolveLabel]
  dsimp only
  rw [if_neg hpositive, hlistno, hoffset, hentry, idAt, codeAt, Int.toNat_natCast,
    List.getElem?_eq_getElem hj]
  rfl

/-- The results of query `i` in a table. -/
def cellRow (cells : ℕ → (F32 × ℤ) × V) (k i : ℕ) : ResultHeap :=
  fun j ↦ (cells (i * k + j)).1

/-- What a search that looks up what is stored returns for a query, beside the row that `search`
returns.  Both rows report places, with the same distances.  The same places are reported among those
that are better than the last one of `k`, and everywhere if no two places have the same distance.
What is returned beside a result is what is stored at its place. -/
structure Agrees (ivf : IVFIndex Q QP) (ctx : SearchContext) (query : Q) (probes : List (ℤ × F32))
    (filler : V) (view : ℕ → List UInt8 → V) (row row' : ResultHeap) (beside : ℕ → V)
    (found found' : List (ℕ × ℕ)) : Prop where
  reports : ivf.Reports ctx query probes row found
  reports' : ivf.Reports ctx query probes row' found'
  distances : SameDistances (firstEntries ctx.k row) (firstEntries ctx.k row')
  better : ∀ d : F32, (found.length < ctx.k ∨
      ∃ p ∈ found, ivf.metricType.key d < ivf.metricType.key (ivf.distanceAt query probes p)) →
    (found.filter fun p ↦ ivf.metricType.key (ivf.distanceAt query probes p) =
        ivf.metricType.key d).Perm
      (found'.filter fun p ↦ ivf.metricType.key (ivf.distanceAt query probes p) =
        ivf.metricType.key d)
  distinct : Set.InjOn (fun p ↦ ivf.metricType.key (ivf.distanceAt query probes p))
      {p | p ∈ ivf.places ctx probes} → firstEntries ctx.k row = firstEntries ctx.k row'
  stored : ∀ j < ctx.k, beside j = match found'[j]? with
    | some p => view (probeAt probes p.1).1.toNat
        (codeAt (ivf.list (probeAt probes p.1).1.toNat) p.2)
    | none => filler

section
variable {query : Q} {probes : List (ℤ × F32)} {row : ResultHeap} {found : List (ℕ × ℕ)}

theorem Reports.length_le (h : ivf.Reports ctx query probes row found) : found.length ≤ ctx.k := by
  have := congrArg List.length h.results
  rw [firstEntries, List.length_map, List.length_range, List.length_append, List.length_map,
    List.length_replicate] at this
  omega

theorem Reports.apply_eq (h : ivf.Reports ctx query probes row found) {j : ℕ} (hj : j < ctx.k) :
    row j = match found[j]? with
      | some p => ivf.resultOf ctx query probes p
      | none => (ivf.metricType.order.neutral, -1) := by
  have hrow : (firstEntries ctx.k row)[j]? = some (row j) := by
    rw [firstEntries, List.getElem?_map, List.getElem?_range hj]
    rfl
  rw [h.results] at hrow
  by_cases hlt : j < found.length
  · rw [List.getElem?_append_left (by rwa [List.length_map]), List.getElem?_map,
      List.getElem?_eq_getElem hlt] at hrow
    rw [List.getElem?_eq_getElem hlt]
    exact (Option.some_inj.mp hrow).symm
  · rw [List.getElem?_append_right (by rw [List.length_map]; omega), List.length_map,
      List.getElem?_replicate_of_lt (by omega), Option.some_inj] at hrow
    rw [List.getElem?_eq_none (by omega)]
    exact hrow.symm

theorem firstEntries_of_apply (hlen : found.length ≤ k)
    (h : ∀ j < k, row j = match found[j]? with
      | some p => ivf.resultOf ctx query probes p
      | none => (ivf.metricType.order.neutral, -1)) :
    firstEntries k row = found.map (ivf.resultOf ctx query probes) ++
      List.replicate (k - found.length) (ivf.metricType.order.neutral, -1) := by
  refine List.ext_getElem ?_ fun j hj hj' ↦ ?_
  · rw [firstEntries, List.length_map, List.length_range, List.length_append, List.length_map,
      List.length_replicate]
    omega
  · rw [firstEntries, List.length_map, List.length_range] at hj
    have hrow : (firstEntries k row)[j] = row j := by
      simp only [firstEntries, List.getElem_map, List.getElem_range]
    rw [hrow, h j hj]
    by_cases hlt : j < found.length
    · rw [List.getElem?_eq_getElem hlt, List.getElem_append_left (by rwa [List.length_map]),
        List.getElem_map]
    · rw [List.getElem?_eq_none (by omega),
        List.getElem_append_right (by rw [List.length_map]; omega), List.getElem_replicate]

end

section
variable (h : ivf.Pairable params) (filler : V) (view : ℕ → List UInt8 → V) {query : Q}
  {row : ResultHeap}
include h

/-- The cell of a result, once its label is looked up. -/
theorem Pairable.resolveLabel_of_reports {found : List (ℕ × ℕ)}
    (hrow : ivf.Reports (ivf.context k true params) query (ivf.queryProbes params none query) row
      found) {j : ℕ} (hj : j < k) (v : V) :
    ivf.resolveLabel filler view (row j, v) = .ok (match found[j]? with
      | some p => (ivf.resultOf (ivf.context k false params) query
            (ivf.queryProbes params none query) p,
          view (probeAt (ivf.queryProbes params none query) p.1).1.toNat
            (codeAt (ivf.list (probeAt (ivf.queryProbes params none query) p.1).1.toNat) p.2))
      | none => ((ivf.metricType.order.neutral, -1), filler)) := by
  rw [hrow.apply_eq hj]
  cases hget : found[j]? with
  | none => rfl
  | some p =>
      obtain ⟨hlt, hpos, hoff⟩ := hrow.probed p (List.mem_of_getElem? hget)
      have hkey : (probeAt (ivf.queryProbes params none query) p.1).1 < ivf.nlist := by
        have hmem := probeAt_mem hlt
        generalize probeAt (ivf.queryProbes params none query) p.1 = probe at hmem
        obtain ⟨ik, hik, rfl⟩ := List.mem_map.mp hmem
        exact h.keys query ik (List.mem_range.mp hik)
      exact h.resolveLabel_eq filler view hpos hkey hoff v

/-- The row of a query and what is returned beside it, once the labels are looked up. -/
theorem Pairable.agrees {row₀ row' : ResultHeap} {beside : ℕ → V}
    (hrow : ivf.HoldsQuery (ivf.context k false params) params query row)
    (hrow₀ : ivf.HoldsQuery (ivf.context k true params) params query row₀)
    (hcells : ∀ j < k, ∃ v, ivf.resolveLabel filler view (row₀ j, v) = .ok (row' j, beside j)) :
    ∃ found found', ivf.Agrees (ivf.context k false params) query (ivf.queryProbes params none query)
      filler view row row' beside found found' := by
  obtain ⟨found, hreports, hbest⟩ := hrow.exists_found (h.readable k false)
  obtain ⟨found', hreports₀, hbest₀⟩ := hrow₀.exists_found (h.readable k true)
  have hplaces : ivf.places (ivf.context k true params) (ivf.queryProbes params none query) =
      ivf.places (ivf.context k false params) (ivf.queryProbes params none query) := by
    apply places_congr <;> rfl
  have hbest' : ivf.Best (ivf.context k false params) query (ivf.queryProbes params none query)
      found' := hbest₀.of_places rfl hplaces
  have hcell : ∀ j < k, row' j = (match found'[j]? with
        | some p => ivf.resultOf (ivf.context k false params) query
            (ivf.queryProbes params none query) p
        | none => (ivf.metricType.order.neutral, -1)) ∧
      beside j = match found'[j]? with
        | some p => view (probeAt (ivf.queryProbes params none query) p.1).1.toNat
            (codeAt (ivf.list (probeAt (ivf.queryProbes params none query) p.1).1.toNat) p.2)
        | none => filler := fun j hj ↦ by
    obtain ⟨v, hv⟩ := hcells j hj
    rw [h.resolveLabel_of_reports filler view hreports₀ hj, Except.ok.injEq] at hv
    cases hget : found'[j]? with
    | none =>
        rw [hget] at hv
        exact (Prod.mk.injEq .. ▸ hv).imp Eq.symm Eq.symm
    | some p =>
        rw [hget] at hv
        exact (Prod.mk.injEq .. ▸ hv).imp Eq.symm Eq.symm
  have hreports' : ivf.Reports (ivf.context k false params) query
      (ivf.queryProbes params none query) row' found' :=
    ⟨hreports₀.nodup, fun p hp ↦ hplaces ▸ hreports₀.scanned p hp, hreports₀.probed,
      firstEntries_of_apply hreports₀.length_le fun j hj ↦ (hcell j hj).1⟩
  refine ⟨found, found', hreports, hreports', hbest.sameDistances hbest' hreports hreports',
    fun d hd ↦ hbest.filter_perm hbest' hd, fun hinj ↦ ?_, fun j hj ↦ (hcell j hj).2⟩
  rw [hreports.results, hreports'.results, hbest.eq_of_injOn hbest' hinj]

end

/-- Whatever is looked up, it is that of the results of `search`. -/
theorem Pairable.searchAndResolve_agrees (h : ivf.Pairable params) {maxThreads : ℕ}
    (hthreads : 0 < maxThreads) {schedules : ℕ → Schedule}
    (hs : ivf.ValidSchedules maxThreads schedules n (ivf.nprobeOf params)) {rows rows' : ℕ → ResultHeap}
    (hsearch : ivf.search maxThreads schedules x n k params rows = .ok rows') {schedule : Schedule}
    (hs' : schedule.Valid n (ivf.nprobeOf params)) (filler : V) (view : ℕ → List UInt8 → V)
    (cells : ℕ → (F32 × ℤ) × V) :
    ∃ cells', ivf.searchAndResolve filler view schedule x n k params cells = .ok cells' ∧
      ∀ i < n, ∃ found found', ivf.Agrees (ivf.context k false params) (x i)
        (ivf.queryProbes params none (x i)) filler view (rows' i) (cellRow cells' k i)
        (fun j ↦ (cells' (i * k + j)).2) found found' := by
  obtain ⟨hk, hnprobe, hmode⟩ := checks_of_search hsearch
  obtain ⟨rows₀, hrun, hrows₀⟩ := h.searchPreassigned_holds hk hnprobe hmode true hs' x
    fun i j ↦ (cells (i * k + j)).1
  let table : ℕ → (F32 × ℤ) × V :=
    fun ij ↦ if ij < n * k then (rows₀ (ij / k) (ij % k), (cells ij).2) else cells ij
  have hcell : ∀ ij, ∃ cell, ij ∈ List.range (n * k) →
      ivf.resolveLabel filler view (table ij) = .ok cell := fun ij ↦ by
    by_cases hij : ij ∈ List.range (n * k)
    · have hlt := List.mem_range.mp hij
      have hi : ij / k < n := Nat.div_lt_of_lt_mul (by rwa [Nat.mul_comm])
      obtain ⟨found, hreports, -⟩ := (hrows₀ _ hi).exists_found (h.readable k true)
      have htable : table ij = (rows₀ (ij / k) (ij % k), (cells ij).2) := if_pos hlt
      rw [htable]
      exact ⟨_, fun _ ↦ h.resolveLabel_of_reports filler view hreports (Nat.mod_lt ij hk) _⟩
    · exact ⟨cells ij, fun hij' ↦ absurd hij' hij⟩
  choose g hg using hcell
  obtain ⟨cells', hloop, hcells', -⟩ := foldlM_updateCell_of_ok List.nodup_range hg
  refine ⟨cells', ?_, fun i hi ↦ ?_⟩
  · rw [searchAndResolve, decide_eq_true hnprobe]
    dsimp only
    rw [hrun]
    exact hloop
  · refine h.agrees filler view (h.search_holds hthreads hs hsearch i hi) (hrows₀ i hi) fun j hj ↦ ?_
    have hlt : i * k + j < n * k :=
      calc i * k + j < (i + 1) * k := by rw [Nat.add_mul, Nat.one_mul]; omega
        _ ≤ n * k := Nat.mul_le_mul_right _ hi
    have hmem := List.mem_range.mpr hlt
    refine ⟨(cells (i * k + j)).2, ?_⟩
    have hres := hg (i * k + j) hmem
    rw [← hcells' _ hmem] at hres
    have htable : table (i * k + j) = (rows₀ i j, (cells (i * k + j)).2) := by
      refine (if_pos hlt).trans ?_
      rw [Nat.mul_comm i k, Nat.mul_add_div hk, Nat.div_eq_of_lt hj, Nat.add_zero, Nat.mul_add_mod,
        Nat.mod_eq_of_lt hj]
    rw [htable] at hres
    exact hres

/-- `search_and_reconstruct` and `search_and_return_codes` find what `search` finds, and return what
is stored under each label. -/
theorem search_and_reconstruct_agrees (h : ivf.Pairable params) {maxThreads : ℕ}
    (hthreads : 0 < maxThreads) {schedules : ℕ → Schedule}
    (hs : ivf.ValidSchedules maxThreads schedules n (ivf.nprobeOf params)) {rows rows' : ℕ → ResultHeap}
    (hsearch : ivf.search maxThreads schedules x n k params rows = .ok rows') {schedule : Schedule}
    (hs' : schedule.Valid n (ivf.nprobeOf params)) :
    (∀ (nans : V) (decode : ℕ → List UInt8 → V) (cells : ℕ → (F32 × ℤ) × V),
      ∃ cells', ivf.searchAndReconstruct nans decode schedule x n k params cells = .ok cells' ∧
        ∀ i < n, ∃ found found', ivf.Agrees (ivf.context k false params) (x i)
          (ivf.queryProbes params none (x i)) nans decode (rows' i) (cellRow cells' k i)
          (fun j ↦ (cells' (i * k + j)).2) found found') ∧
    ∀ (codeSize : ℕ) (includeListno : Bool) (cells : ℕ → (F32 × ℤ) × List UInt8),
      ∃ cells', ivf.searchAndReturnCodes codeSize includeListno schedule x n k params cells =
          .ok cells' ∧
        ∀ i < n, ∃ found found', ivf.Agrees (ivf.context k false params) (x i)
          (ivf.queryProbes params none (x i))
          (List.replicate (codeSize + if includeListno then coarseCodeSize (ivf.nlist - 1) else 0) 0xff)
          (fun listNo code ↦
            (if includeListno then encodeListno (ivf.nlist - 1) listNo else []) ++ code)
          (rows' i) (cellRow cells' k i) (fun j ↦ (cells' (i * k + j)).2) found found' :=
  ⟨fun nans decode cells ↦ h.searchAndResolve_agrees hthreads hs hsearch hs' nans decode cells,
    fun _ _ cells ↦ h.searchAndResolve_agrees hthreads hs hsearch hs' _ _ cells⟩

/-- A query for two results, and for the codes beside them. -/
theorem search_and_reconstruct_agrees_two :
    let ivf := twoLists 7 5
    ∃ rows', ivf.search 1 (fun _ ↦ twoThreads) (fun _ ↦ ()) 1 2 none zeroHeaps = .ok rows' ∧
      (∀ (nans : Bool) (decode : ℕ → List UInt8 → Bool) (cells : ℕ → (F32 × ℤ) × Bool),
        ∃ cells', ivf.searchAndReconstruct nans decode twoThreads (fun _ ↦ ()) 1 2 none cells =
            .ok cells' ∧
          ∀ i < 1, ∃ found found', ivf.Agrees (ivf.context 2 false none) ()
            (ivf.queryProbes none none ()) nans decode (rows' i) (cellRow cells' 2 i)
            (fun j ↦ (cells' (i * 2 + j)).2) found found') ∧
      ∀ (codeSize : ℕ) (includeListno : Bool) (cells : ℕ → (F32 × ℤ) × List UInt8),
        ∃ cells', ivf.searchAndReturnCodes codeSize includeListno twoThreads (fun _ ↦ ()) 1 2 none
            cells = .ok cells' ∧
          ∀ i < 1, ∃ found found', ivf.Agrees (ivf.context 2 false none) ()
            (ivf.queryProbes none none ())
            (List.replicate (codeSize + if includeListno then coarseCodeSize (2 - 1) else 0) 0xff)
            (fun listNo code ↦ (if includeListno then encodeListno (2 - 1) listNo else []) ++ code)
            (rows' i) (cellRow cells' 2 i) (fun j ↦ (cells' (i * 2 + j)).2) found found' := by
  have hok : ((twoLists 7 5).search 1 (fun _ ↦ twoThreads) (fun _ ↦ ()) 1 2 none zeroHeaps).isOk =
      true := rfl
  intro ivf
  have h : ivf.Pairable none :=
    ⟨rfl, rfl, rfl, by decide, by decide, by decide, by decide, by decide⟩
  have hs : ivf.ValidSchedules 1 (fun _ ↦ twoThreads) 1 2 := by
    have hmode : ivf.pmode = 0 := by decide
    rw [ValidSchedules, if_pos hmode]
    intro nt slice hslice
    obtain rfl : slice = 0 := Nat.lt_one_iff.mp hslice
    have hn : 1 * (0 + 1) / nt - 1 * 0 / nt = 1 := by decide
    exact hn.symm ▸ twoThreads_valid
  cases hsearch : ivf.search 1 (fun _ ↦ twoThreads) (fun _ ↦ ()) 1 2 none zeroHeaps with
  | error e =>
      change (ivf.search 1 (fun _ ↦ twoThreads) (fun _ ↦ ()) 1 2 none zeroHeaps).isOk = true at hok
      rw [hsearch] at hok
      cases hok
  | ok rows' =>
      exact ⟨rows', rfl,
        search_and_reconstruct_agrees h Nat.one_pos hs hsearch twoThreads_valid⟩

/-- One list with the ids of two entries at the same distance. -/
def oneList (ids : List Idx) (parallelMode : Int32) (useIterator : Bool) : IVFIndex Unit Unit where
  nlist := 1
  nprobe := 1
  maxCodes := 0
  parallelMode := parallelMode
  metricType := .l2
  quantizer := fun _ _ _ _ ↦ (0, ⟨0#32⟩)
  distanceToCode := fun _ _ _ _ ↦ ⟨0x3f800000#32⟩
  takesSel := true
  useIterator := useIterator
  list := fun _ ↦ ids.map fun id ↦ ⟨id, []⟩

/-- The labels of `search` and `search_and_reconstruct`. -/
def bothLabels (ivf : IVFIndex Unit Unit) (k : ℕ) (params : Option (IVFSearchParameters Unit))
    (given : F32 × ℤ) : Except Fault (List ℤ) × Except Fault (List ℤ) :=
  ((ivf.search 1 oneQuery (fun _ ↦ ()) 1 k params fun _ _ ↦ given).map fun rows ↦
      (firstEntries k (rows 0)).map Prod.snd,
    (ivf.searchAndReconstruct () (fun _ _ ↦ ()) (oneQuery 0) (fun _ ↦ ()) 1 k params
      fun _ ↦ (given, ())).map fun cells ↦ (firstEntries k (cellRow cells k 0)).map Prod.snd)

/-- Entries at the same distance are in another order; a selector and iterators are not taken with
labels that are places; an entry with the id `-1` is no result of `search`; with
`PARALLEL_MODE_NO_HEAP_INIT` the labels that the caller provides are taken for places; and an offset
that does not fit into an `int` is not found. -/
theorem search_and_reconstruct_agrees_fails :
    bothLabels (oneList [5, 3] 0 false) 2 none (⟨0#32⟩, 0) = (.ok [3, 5], .ok [5, 3]) ∧
    bothLabels (oneList [5, 3] 0 false) 2 (some ⟨1, 0, some (.array [5]), none⟩) (⟨0#32⟩, 0) =
      (.ok [5, -1], .error (.exception ("Error: '!(!(sel && store_pairs))' failed: " ++
        "selector and store_pairs cannot be combined"))) ∧
    bothLabels (oneList [5, 3] 0 true) 2 none (⟨0#32⟩, 0) =
      (.ok [3, 5], .error (.exception
        ("Error: '!(!invlists->use_iterator || (max_codes == 0 && store_pairs == false))' failed: " ++
          "iterable inverted lists don't support max_codes and store_pairs"))) ∧
    bothLabels (oneList [-1, 3] 0 false) 2 none (⟨0#32⟩, 0) = (.ok [3, -1], .ok [-1, 3]) ∧
    bothLabels (oneList [5] 1024 false) 1 none (⟨0#32⟩, 9) =
      (.ok [9], .error (.assertion "offset < list_size(list_no)")) ∧
    (∀ ids : List Idx, ids.length ≤ 2 ^ 63 →
      (oneList ids 0 false).resolveLabel () (fun _ _ ↦ ()) ((⟨0#32⟩, (loOf 0 (2 ^ 31)).toInt), ()) =
        .error (.assertion "offset < list_size(list_no)")) := by
  refine ⟨rfl, rfl, rfl, rfl, rfl, fun ids hids ↦ ?_⟩
  have hoffset : asInt (loOffset (.ofInt (loOf 0 (2 ^ 31)).toInt)) = 2 ^ 64 - 2 ^ 31 := by decide
  have hlistno : asInt (loListno (.ofInt (loOf 0 (2 ^ 31)).toInt)) = 0 := by decide
  have hnone : ((oneList ids 0 false).list 0)[2 ^ 64 - 2 ^ 31]? = none :=
    List.getElem?_eq_none ((List.length_map _).trans_le (hids.trans (by decide)))
  have hpos : ¬ (loOf 0 (2 ^ 31)).toInt < 0 := by decide
  rw [resolveLabel]
  dsimp only
  rw [if_neg hpos, hoffset, hlistno, entryAt, hnone]
  rfl

end IVFIndex

end FaissNavix
