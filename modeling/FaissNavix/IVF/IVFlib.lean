import FaissNavix.IVF.Pairs
import FaissNavix.IVF.RangeSearch

/-!
# Searching with parameters

`search_with_parameters` and `range_search_with_parameters` of `faiss/IVFlib.cpp`, for an `IndexIVF`
that stands alone or in an `IndexPreTransform`.  They let the quantizer assign every query to as many
lists as the parameters say, while `search_preassigned` reads rows that are no longer than `nlist`.
-/

namespace FaissNavix

open Lib

namespace IVFlib

open IVFIndex

/-- An `IndexIVF`, or an `IndexPreTransform` over one. -/
inductive Index (Q QP : Type) where
  | ivf (index : IVFIndex Q QP)
  /-- The transforms of the chain are given by what they make of a vector. -/
  | preTransform (isTrained : Bool) (chain : List (Q → Q)) (index : IVFIndex Q QP)

namespace Index

variable {Q QP : Type}

def index : Index Q QP → IVFIndex Q QP
  | ivf index => index
  | preTransform _ _ index => index

def isTrained : Index Q QP → Bool
  | ivf _ => true
  | preTransform isTrained _ _ => isTrained

/-- `apply_chain` -/
def applyChain : Index Q QP → Q → Q
  | ivf _, x => x
  | preTransform _ chain _, x => chain.foldl (fun x transform ↦ transform x) x

/-- `search` -/
def search (self : Index Q QP) (maxThreads : ℕ) (schedules : ℕ → Schedule) (x : ℕ → Q) (n k : ℕ)
    (params : Option (IVFSearchParameters QP)) (rows : ℕ → ResultHeap) :
    Except Fault (ℕ → ResultHeap) :=
  match self with
  | ivf index => index.search maxThreads schedules x n k params rows
  | preTransform isTrained chain index => do
      Fault.throwIfNot (decide (0 < k)) "k > 0"
      Fault.throwIfNot isTrained "is_trained"
      let xt := fun i ↦ (preTransform isTrained chain index).applyChain (x i)
      index.search maxThreads schedules xt n k params rows

/-- `range_search` -/
def rangeSearch (self : Index Q QP) (schedule : Schedule) (x : ℕ → Q) (n : ℕ) (radius : F32)
    (params : Option (IVFSearchParameters QP)) : Except Fault (ℕ → List (F32 × ℤ)) :=
  match self with
  | ivf index => index.rangeSearch schedule x n radius params
  | preTransform isTrained chain index => do
      Fault.throwIfNot isTrained "is_trained"
      let xt := fun i ↦ (preTransform isTrained chain index).applyChain (x i)
      index.rangeSearch schedule xt n radius params

end Index

variable {Q QP : Type}

/-- `search_with_parameters` -/
def searchWithParameters (self : Index Q QP) (schedule : Schedule) (x : ℕ → Q) (n k : ℕ)
    (params : IVFSearchParameters QP) (rows : ℕ → ResultHeap) : Except Fault (ℕ → ResultHeap) :=
  let xt := fun i ↦ self.applyChain (x i)
  let assign := self.index.assignOf xt params.nprobe params.quantizerParams
  self.index.searchPreassigned schedule xt assign n k rows false (some params)

/-- `range_search_with_parameters` -/
def rangeSearchWithParameters (self : Index Q QP) (schedule : Schedule) (x : ℕ → Q) (n : ℕ)
    (radius : F32) (params : IVFSearchParameters QP) : Except Fault (ℕ → List (F32 × ℤ)) :=
  let xt := fun i ↦ self.applyChain (x i)
  let assign := self.index.assignOf xt params.nprobe none
  self.index.rangeSearchPreassigned schedule xt assign n radius false (some params)

end IVFlib

namespace IVFIndex

variable {Q QP : Type} {ivf : IVFIndex Q QP} {ctx : SearchContext} {schedule : Schedule}
  {x : ℕ → Q} {assign assign' : ℕ → ℤ × F32} {n k : ℕ} {params : Option (IVFSearchParameters QP)}
  {rows rows' : ℕ → ResultHeap}

/-! ## What is read of the assignment -/

/-- A parallel section reads no more than a row of `nprobe` lists for each query. -/
theorem searchLoops_congr (hs : schedule.Valid n ctx.nprobe)
    (h : ∀ p < n * ctx.nprobe, assign p = assign' p) (rows : ℕ → ResultHeap) :
    ivf.searchLoops ctx schedule x assign n rows = ivf.searchLoops ctx schedule x assign' n rows := by
  have hcell : ∀ i < n, ∀ ik < ctx.nprobe,
      assign (i * ctx.nprobe + ik) = assign' (i * ctx.nprobe + ik) :=
    fun i hi ik hik ↦ h _ (mul_add_lt hi hik)
  have hquery : ivf.searchByQuery ctx schedule x assign rows =
      ivf.searchByQuery ctx schedule x assign' rows := by
    refine foldlM_congr_mem (fun i hi s ↦ ?_) rows
    have hprobes : probesOf ctx assign i = probesOf ctx assign' i :=
      List.map_congr_left fun ik hik ↦
        hcell i (List.mem_range.mp (hs.queries.mem_iff.mp hi)) ik (List.mem_range.mp hik)
    rw [searchRow, searchRow, hprobes]
  have hprobe : ivf.searchByProbe ctx schedule x assign n zeroHeaps rows =
      ivf.searchByProbe ctx schedule x assign' n zeroHeaps rows := by
    refine congrArg (Prod.snd <$> ·) (foldlM_congr_mem (fun i hi s ↦ ?_) _)
    have hi := List.mem_range.mp hi
    refine congrArg (· >>= _) (foldlM_congr_mem (fun p hp locals ↦ ?_) _)
    have hik := List.mem_range.mp ((hs.probes i hi).mem_iff.mp (List.mem_map_of_mem hp))
    rw [scanProbeStep, scanProbeStep, hcell i hi p.2 hik]
  have hpair : ivf.searchByPair ctx schedule x assign n zeroHeaps rows =
      ivf.searchByPair ctx schedule x assign' n zeroHeaps rows := by
    refine congrArg (· >>= _) (foldlM_congr_mem (fun p hp s ↦ ?_) _)
    have hp := List.mem_range.mp (hs.pairs.mem_iff.mp (List.mem_map_of_mem hp))
    rw [scanPairStep, scanPairStep, h p.2 hp]
  rw [searchLoops, searchLoops, hquery, hprobe, hpair]

theorem searchPreassigned_congr (hs : schedule.Valid n (ivf.nprobeOf params))
    (h : ∀ p < n * ivf.nprobeOf params, assign p = assign' p) (storePairs : Bool) :
    ivf.searchPreassigned schedule x assign n k rows storePairs params =
      ivf.searchPreassigned schedule x assign' n k rows storePairs params := by
  rw [searchPreassigned, searchPreassigned, searchLoops_congr hs h]

/-! ## The slices of mode 0 -/

/-- What is done for a query in modes 0 and 3, with the probes that it is assigned to. -/
def searchQuery (ivf : IVFIndex Q QP) (ctx : SearchContext) (query : Q) (probes : List (ℤ × F32))
    (heap : ResultHeap) : Except Fault ResultHeap := do
  let heap ← ivf.scanProbes ctx query probes (ivf.initResult ctx heap) 0
  return ivf.reorderResult ctx heap

/-- The queries from `i0` to `i1` have been searched for, the other rows are as they were. -/
def Searched (ivf : IVFIndex Q QP) (ctx : SearchContext) (x : ℕ → Q) (probes : ℕ → List (ℤ × F32))
    (i0 i1 : ℕ) (rows rows' : ℕ → ResultHeap) : Prop :=
  (∀ i, i0 ≤ i → i < i1 → ivf.searchQuery ctx (x i) (probes i) (rows i) = .ok (rows' i)) ∧
  ∀ i, ¬(i0 ≤ i ∧ i < i1) → rows' i = rows i

theorem searchPreassigned_eq_ok (h0 : ivf.pmode = 0)
    (hcheck : ivf.checkSearch k false params = .ok ())
    (hs : schedule.Valid n (ivf.nprobeOf params)) :
    ivf.searchPreassigned schedule x assign n k rows false params = .ok rows' ↔
      ivf.Searched (ivf.context k false params) x
        (probesOf (ivf.context k false params) assign) 0 n rows rows' := by
  have hmem : ∀ i, i ∈ schedule.queries ↔ i < n := fun i ↦ hs.queries.mem_iff.trans List.mem_range
  have hrow : ∀ i heap, ivf.searchRow (ivf.context k false params) x assign i heap =
      ivf.searchQuery (ivf.context k false params) (x i)
        (probesOf (ivf.context k false params) assign i) heap := fun _ _ ↦ rfl
  rw [searchPreassigned, hcheck]
  change ivf.searchLoops _ _ _ _ _ _ = _ ↔ _
  rw [searchLoops, if_pos (Or.inl h0)]
  refine (foldlM_updateCell_eq_ok (hs.queries.nodup_iff.mpr List.nodup_range)).trans ?_
  simp only [hrow, hmem, Searched, Nat.zero_le, true_implies, true_and]

def allProbes (ivf : IVFIndex Q QP) (x : ℕ → Q) (params : Option (IVFSearchParameters QP)) (i : ℕ) :
    List (ℤ × F32) :=
  ivf.queryProbes params (params.bind IVFSearchParameters.quantizerParams) (x i)

section
variable (h0 : ivf.pmode = 0) (hcheck : ivf.checkSearch k false params = .ok ())
  {schedules : ℕ → Schedule} {nt : ℕ}
include h0 hcheck

theorem subSearch_eq_ok (hs : schedule.Valid n (ivf.nprobeOf params)) :
    ivf.subSearch schedule x n k params rows = .ok rows' ↔
      ivf.Searched (ivf.context k false params) x (ivf.allProbes x params) 0 n rows rows' := by
  have hprobes : probesOf (ivf.context k false params) (ivf.assignOf x (ivf.nprobeOf params)
      (params.bind IVFSearchParameters.quantizerParams)) = ivf.allProbes x params :=
    funext (probesOf_assignOf rfl x _)
  rw [subSearch, searchPreassigned_eq_ok h0 hcheck hs, hprobes]

/-- A slice of the queries. -/
theorem searchSlice_eq_ok {slice : ℕ}
    (hs : (schedules slice).Valid (n * (slice + 1) / nt - n * slice / nt) (ivf.nprobeOf params)) :
    ivf.searchSlice schedules x n k params nt rows slice = .ok rows' ↔
      ivf.Searched (ivf.context k false params) x (ivf.allProbes x params) (n * slice / nt)
        (n * (slice + 1) / nt) rows rows' := by
  unfold searchSlice
  dsimp only
  generalize n * slice / nt = i0 at hs ⊢
  generalize n * (slice + 1) / nt = i1 at hs ⊢
  by_cases hlt : i0 < i1
  · rw [if_pos hlt, Fault.bind_eq_ok]
    simp only [subSearch_eq_ok h0 hcheck hs]
    constructor
    · rintro ⟨part, ⟨hin, -⟩, ⟨⟩⟩
      refine ⟨fun i hle hi ↦ ?_, fun i hi ↦ if_neg hi⟩
      have hpart := hin (i - i0) (Nat.zero_le _) (by omega)
      dsimp only [allProbes] at hpart
      rw [Nat.add_sub_cancel' hle] at hpart
      exact hpart.trans (congrArg Except.ok (if_pos ⟨hle, hi⟩).symm)
    · rintro ⟨hin, hout⟩
      refine ⟨fun i ↦ if i < i1 - i0 then rows' (i0 + i) else rows (i0 + i),
        ⟨fun i _ hi ↦ ?_, fun i hi ↦ if_neg fun h ↦ hi ⟨Nat.zero_le i, h⟩⟩, ?_⟩
      · dsimp only
        rw [if_pos hi]
        exact hin (i0 + i) (Nat.le_add_right i0 i) (by omega)
      · refine congrArg Except.ok (funext fun i ↦ ?_)
        dsimp only
        by_cases hi : i0 ≤ i ∧ i < i1
        · rw [if_pos hi, if_pos (by omega), Nat.add_sub_cancel' hi.1]
        · rw [if_neg hi, hout i hi]
  · rw [if_neg hlt]
    constructor
    · rintro ⟨⟩
      exact ⟨fun i hle hi ↦ absurd (lt_of_le_of_lt hle hi) hlt, fun i _ ↦ rfl⟩
    · exact fun h ↦ congrArg Except.ok (funext fun i ↦ (h.2 i (by omega)).symm)

/-- The first `m` slices. -/
theorem searchSlices_eq_ok {m : ℕ} (hm : m ≤ nt)
    (hs : ∀ slice < nt, (schedules slice).Valid (n * (slice + 1) / nt - n * slice / nt)
      (ivf.nprobeOf params)) :
    (List.range m).foldlM (ivf.searchSlice schedules x n k params nt) rows = .ok rows' ↔
      ivf.Searched (ivf.context k false params) x (ivf.allProbes x params) 0 (n * m / nt) rows rows' := by
  induction m generalizing rows' with
  | zero =>
      rw [Nat.mul_zero, Nat.zero_div]
      constructor
      · rintro ⟨⟩
        exact ⟨fun i _ hi ↦ absurd hi (Nat.not_lt_zero i), fun i _ ↦ rfl⟩
      · exact fun h ↦ congrArg Except.ok
          (funext fun i ↦ (h.2 i fun hi ↦ Nat.not_lt_zero i hi.2).symm)
  | succ m ih =>
      have hle : n * m / nt ≤ n * (m + 1) / nt :=
        Nat.div_le_div_right (Nat.mul_le_mul_left n (Nat.le_succ m))
      rw [List.range_succ, foldlM_concat, Fault.bind_eq_ok]
      simp only [ih (by omega), searchSlice_eq_ok h0 hcheck (hs m (by omega))]
      generalize n * m / nt = i0 at hle ⊢
      generalize n * (m + 1) / nt = i1 at hle ⊢
      constructor
      · rintro ⟨mid, ⟨hin, hout⟩, hin', hout'⟩
        refine ⟨fun i _ hi ↦ ?_, fun i hi ↦ ?_⟩
        · by_cases hlt : i < i0
          · rw [hout' i (by omega)]
            exact hin i (Nat.zero_le i) hlt
          · rw [← hout i (by omega)]
            exact hin' i (by omega) hi
        · rw [hout' i (by omega), hout i (by omega)]
      · rintro ⟨hin, hout⟩
        refine ⟨fun i ↦ if i < i0 then rows' i else rows i,
          ⟨fun i _ hi ↦ ?_, fun i hi ↦ if_neg (by omega)⟩, fun i hle' hi ↦ ?_, fun i hi ↦ ?_⟩
        · dsimp only
          rw [if_pos hi]
          exact hin i (Nat.zero_le i) (by omega)
        · dsimp only
          rw [if_neg (by omega)]
          exact hin i (Nat.zero_le i) hi
        · dsimp only
          by_cases hlt : i < i0
          · rw [if_pos hlt]
          · rw [if_neg hlt]
            exact hout i (by omega)

end

theorem pos_of_checkSearch {storePairs : Bool} {u : Unit}
    (h : ivf.checkSearch k storePairs params = .ok u) : 0 < k ∧ 0 < ivf.nprobeOf params := by
  obtain ⟨_, hk, h⟩ := Fault.bind_eq_ok.mp h
  obtain ⟨_, hnprobe, -⟩ := Fault.bind_eq_ok.mp h
  exact ⟨of_decide_eq_true (Fault.throwIfNot_eq_ok.mp hk),
    of_decide_eq_true (Fault.throwIfNot_eq_ok.mp hnprobe)⟩

theorem checked_of_searchPreassigned {storePairs : Bool}
    (h : ivf.searchPreassigned schedule x assign n k rows storePairs params = .ok rows') :
    ivf.checkSearch k storePairs params = .ok () := by
  obtain ⟨⟨⟩, hcheck, -⟩ := Fault.bind_eq_ok.mp h
  exact hcheck

/-- `search` does what one call of `search_preassigned` does with the same assignment. -/
theorem search_eq_subSearch {maxThreads : ℕ} (hthreads : 0 < maxThreads) (hn : 0 < n)
    {schedules : ℕ → Schedule}
    (hschedules : ivf.ValidSchedules maxThreads schedules n (ivf.nprobeOf params))
    (hs : schedule.Valid n (ivf.nprobeOf params)) (hsame : ivf.pmode ≠ 0 → schedule = schedules 0) :
    ivf.search maxThreads schedules x n k params rows = .ok rows' ↔
      ivf.subSearch schedule x n k params rows = .ok rows' := by
  have hsearch : 0 < k ∧ 0 < ivf.nprobeOf params →
      ivf.search maxThreads schedules x n k params rows = if ivf.pmode = 0 then
        (List.range (min maxThreads n)).foldlM
          (ivf.searchSlice schedules x n k params (min maxThreads n)) rows
      else ivf.subSearch (schedules 0) x n k params rows := by
    rintro ⟨hk, hnprobe⟩
    rw [search, decide_eq_true hk, decide_eq_true hnprobe]
    rfl
  unfold ValidSchedules at hschedules
  have hnt : 0 < min maxThreads n := by omega
  have hfirst : n * 0 / min maxThreads n < n * (0 + 1) / min maxThreads n := by
    rw [Nat.mul_zero, Nat.zero_div, Nat.zero_add, Nat.mul_one]
    exact Nat.div_pos (Nat.min_le_right _ _) hnt
  constructor
  · intro h
    obtain ⟨hk, hnprobe, -⟩ := checks_of_search h
    rw [hsearch ⟨hk, hnprobe⟩] at h
    by_cases h0 : ivf.pmode = 0
    · rw [if_pos h0] at h hschedules
      -- The first slice has a query, so that the checks of `search_preassigned` are made.
      have hcheck : ivf.checkSearch k false params = .ok () := by
        have hsteps := h
        rw [show min maxThreads n = min maxThreads n - 1 + 1 by omega, List.range_succ_eq_map,
          List.foldlM_cons, Fault.bind_eq_ok,
          show min maxThreads n - 1 + 1 = min maxThreads n by omega] at hsteps
        obtain ⟨mid, hmid, -⟩ := hsteps
        rw [searchSlice, if_pos hfirst, Fault.bind_eq_ok] at hmid
        obtain ⟨part, hpart, -⟩ := hmid
        exact checked_of_searchPreassigned hpart
      rw [searchSlices_eq_ok h0 hcheck le_rfl hschedules, Nat.mul_div_cancel _ hnt] at h
      exact (subSearch_eq_ok h0 hcheck hs).mpr h
    · rw [if_neg h0, ← hsame h0] at h
      exact h
  · intro h
    have hcheck := checked_of_searchPreassigned h
    rw [hsearch (pos_of_checkSearch hcheck)]
    by_cases h0 : ivf.pmode = 0
    · rw [if_pos h0] at hschedules ⊢
      rw [searchSlices_eq_ok h0 hcheck le_rfl hschedules, Nat.mul_div_cancel _ hnt]
      exact (subSearch_eq_ok h0 hcheck hs).mp h
    · rw [if_neg h0, ← hsame h0]
      exact h

/-! ## What the wrappers hand over -/

def Ranks (ivf : IVFIndex Q QP) : Prop :=
  ∀ (query : Q) (quantizerParams : Option QP) (m m' column : ℕ), column < m → m ≤ m' →
    ivf.quantizer query m quantizerParams column = ivf.quantizer query m' quantizerParams column

theorem assignOf_eq {nprobe : ℕ} (hnprobe : nprobe ≤ ivf.nlist ∨ n = 1 ∧ ivf.Ranks) (x : ℕ → Q)
    (quantizerParams : Option QP) :
    ∀ p < n * min ivf.nlist nprobe, ivf.assignOf x (min ivf.nlist nprobe) quantizerParams p =
      ivf.assignOf x nprobe quantizerParams p := by
  intro p hp
  rcases hnprobe with hle | ⟨rfl, hranks⟩
  · rw [min_eq_right hle]
  · rw [Nat.one_mul] at hp
    have hp' : p < nprobe := lt_of_lt_of_le hp (Nat.min_le_right _ _)
    rw [assignOf, assignOf, Nat.div_eq_of_lt hp, Nat.div_eq_of_lt hp', Nat.mod_eq_of_lt hp,
      Nat.mod_eq_of_lt hp']
    exact hranks _ _ _ _ _ hp (Nat.min_le_right _ _)

end IVFIndex

namespace IVFlib

open IVFIndex

variable {Q QP : Type} {self : Index Q QP} {x : ℕ → Q} {n k : ℕ} {params : IVFSearchParameters QP}
  {rows rows' : ℕ → ResultHeap}

theorem Index.search_eq_ok {maxThreads : ℕ} {schedules : ℕ → Schedule} :
    self.search maxThreads schedules x n k (some params) rows = .ok rows' ↔
      self.isTrained = true ∧ self.index.search maxThreads schedules (fun i ↦ self.applyChain (x i))
        n k (some params) rows = .ok rows' := by
  cases self with
  | ivf index => exact ⟨fun h ↦ ⟨rfl, h⟩, fun h ↦ h.2⟩
  | preTransform isTrained chain index =>
      constructor
      · intro h
        obtain ⟨_, -, h⟩ := Fault.bind_eq_ok.mp h
        obtain ⟨_, htrained, h⟩ := Fault.bind_eq_ok.mp h
        exact ⟨Fault.throwIfNot_eq_ok.mp htrained, h⟩
      · rintro ⟨htrained, h⟩
        obtain ⟨hk, -⟩ := checks_of_search h
        exact Fault.bind_eq_ok.mpr ⟨(), Fault.throwIfNot_eq_ok.mpr (decide_eq_true hk),
          Fault.bind_eq_ok.mpr ⟨(), Fault.throwIfNot_eq_ok.mpr htrained, h⟩⟩

theorem Index.rangeSearch_eq_ok {schedule : Schedule} {radius : F32} {res : ℕ → List (F32 × ℤ)} :
    self.rangeSearch schedule x n radius (some params) = .ok res ↔
      self.isTrained = true ∧ self.index.rangeSearch schedule (fun i ↦ self.applyChain (x i)) n
        radius (some params) = .ok res := by
  cases self with
  | ivf index => exact ⟨fun h ↦ ⟨rfl, h⟩, fun h ↦ h.2⟩
  | preTransform isTrained chain index =>
      constructor
      · intro h
        obtain ⟨_, htrained, h⟩ := Fault.bind_eq_ok.mp h
        exact ⟨Fault.throwIfNot_eq_ok.mp htrained, h⟩
      · rintro ⟨htrained, h⟩
        exact Fault.bind_eq_ok.mpr ⟨(), Fault.throwIfNot_eq_ok.mpr htrained, h⟩

/-- Both searches return the same rows, or none of them returns.  The threads of a parallel section
that both have do the same in the one as in the other. -/
def SearchAgrees (self : Index Q QP) (x : ℕ → Q) (n k : ℕ) (params : IVFSearchParameters QP) : Prop :=
  ∀ (maxThreads : ℕ) (schedules : ℕ → Schedule) (schedule : Schedule) (rows rows' : ℕ → ResultHeap),
    0 < maxThreads →
    self.index.ValidSchedules maxThreads schedules n (self.index.nprobeOf (some params)) →
    schedule.Valid n (self.index.nprobeOf (some params)) →
    (self.index.pmode ≠ 0 → schedule = schedules 0) →
    (self.search maxThreads schedules x n k (some params) rows = .ok rows' ↔
      searchWithParameters self schedule x n k params rows = .ok rows')

/-- The same results for each query, in any order. -/
def SameResults (n : ℕ) (res res' : ℕ → List (F32 × ℤ)) : Prop :=
  ∀ i < n, (res i).Perm (res' i)

/-- Both range searches return the same results, or none of them returns. -/
def RangeAgrees (self : Index Q QP) (x : ℕ → Q) (n : ℕ) (radius : F32)
    (params : IVFSearchParameters QP) : Prop :=
  ∀ schedule schedule' : Schedule, schedule.Valid n (self.index.nprobeOf (some params)) →
    schedule'.Valid n (self.index.nprobeOf (some params)) →
    (∀ res, self.rangeSearch schedule x n radius (some params) = .ok res →
      ∃ res', rangeSearchWithParameters self schedule' x n radius params = .ok res' ∧
        SameResults n res res') ∧
    ∀ res', rangeSearchWithParameters self schedule' x n radius params = .ok res' →
      ∃ res, self.rangeSearch schedule x n radius (some params) = .ok res ∧ SameResults n res res'

/-- No list can be probed, or the index that checks whether it is trained is, and the rows of the two
assignments are read alike. -/
def Fits (self : Index Q QP) (n nprobe : ℕ) : Prop :=
  self.index.nlist = 0 ∨
    self.isTrained = true ∧ (nprobe ≤ self.index.nlist ∨ n = 1 ∧ self.index.Ranks)

theorem nprobeOf_eq_zero (h : self.index.nlist = 0) (params : IVFSearchParameters QP) :
    self.index.nprobeOf (some params) = 0 := by
  rw [nprobeOf, h]
  exact Nat.zero_min _

theorem Fits.searchAgrees (h : Fits self n params.nprobe) (hn : 0 < n) :
    SearchAgrees self x n k params := by
  intro maxThreads schedules schedule rows rows' hthreads hschedules hs hsame
  rw [Index.search_eq_ok]
  rcases h with hnlist | ⟨htrained, hfits⟩
  · have h0 := nprobeOf_eq_zero hnlist params
    constructor
    · rintro ⟨-, hsearch⟩
      have := (checks_of_search hsearch).2.1
      omega
    · intro hsearch
      have := (pos_of_checkSearch (checked_of_searchPreassigned hsearch)).2
      omega
  · have hassign := assignOf_eq hfits (fun i ↦ self.applyChain (x i)) params.quantizerParams
    rw [search_eq_subSearch hthreads hn hschedules hs hsame, htrained]
    have hcongr : self.index.subSearch schedule (fun i ↦ self.applyChain (x i)) n k (some params) rows =
        searchWithParameters self schedule x n k params rows :=
      searchPreassigned_congr hs hassign false
    exact (and_iff_right rfl).trans (Iff.of_eq (congrArg (· = Except.ok rows') hcongr))

theorem Fits.rangeAgrees (h : Fits self n params.nprobe)
    (hparams : self.index.nlist = 0 ∨ params.quantizerParams = none) (radius : F32) :
    RangeAgrees self x n radius params := by
  intro schedule schedule' hs hs'
  simp only [Index.rangeSearch_eq_ok]
  have hpos : ∀ {assign : ℕ → ℤ × F32} {schedule : Schedule} {res : ℕ → List (F32 × ℤ)},
      schedule.Valid n (self.index.nprobeOf (some params)) →
      self.index.rangeSearchPreassigned schedule (fun i ↦ self.applyChain (x i)) assign n radius
        false (some params) = .ok res → self.index.nlist ≠ 0 := fun hs hrun hnlist ↦ by
    have := nprobeOf_pos_of_returns (returns_of_rangeSearchPreassigned hs hrun)
    have := nprobeOf_eq_zero hnlist params
    omega
  have hassign : self.index.nlist ≠ 0 → ∀ p < n * self.index.nprobeOf (some params),
      self.index.assignOf (fun i ↦ self.applyChain (x i)) (self.index.nprobeOf (some params))
        params.quantizerParams p =
      self.index.assignOf (fun i ↦ self.applyChain (x i)) params.nprobe none p := fun hnlist ↦ by
    rw [hparams.resolve_left hnlist]
    exact assignOf_eq (h.resolve_left hnlist).2 _ none
  constructor
  · rintro res ⟨-, hrun⟩
    exact rangeSearchPreassigned_agree hs hs' (hassign (hpos hs hrun)) hrun
  · intro res' hrun
    have hnlist := hpos hs' hrun
    obtain ⟨res, hrun', hperm⟩ := rangeSearchPreassigned_agree hs' hs
      (fun p hp ↦ (hassign hnlist p hp).symm) hrun
    exact ⟨res, ⟨(h.resolve_left hnlist).1, hrun'⟩, fun i hi ↦ (hperm i hi).symm⟩

/-! ## Where they differ -/

/-- One thread does everything in order. -/
def oneThread (n nprobe : ℕ) : Schedule where
  threads := 1
  queries := List.range n
  probes := fun _ ↦ (List.range nprobe).map (Prod.mk 0)
  merges := fun _ ↦ [0]
  pairs := (List.range (n * nprobe)).map (Prod.mk 0)

theorem oneThread_valid (n nprobe : ℕ) : (oneThread n nprobe).Valid n nprobe where
  queries := List.Perm.refl _
  probes := fun _ _ ↦ by
    rw [oneThread, List.map_map]
    exact List.Perm.of_eq (List.map_id _)
  threads := fun _ _ ↦ List.forall_mem_map.mpr fun _ _ ↦ Nat.one_pos
  merges := fun _ _ ↦ List.Perm.refl _
  pairs := by
    rw [oneThread, List.map_map]
    exact List.Perm.of_eq (List.map_id _)
  pairThreads := List.forall_mem_map.mpr fun _ _ ↦ Nat.one_pos

/-- The only entry is in list `l`.  The lists are ranked by their numbers, but not for a quantizer
that is given parameters. -/
def oneEntry (nlist l : ℕ) : IVFIndex Unit Unit where
  nlist := nlist
  nprobe := 1
  maxCodes := 0
  parallelMode := 0
  metricType := .l2
  quantizer := fun _ _ quantizerParams column ↦
    if quantizerParams.isNone ∧ column < nlist then (column, ⟨0#32⟩) else (-1, ⟨0#32⟩)
  distanceToCode := fun _ _ _ _ ↦ ⟨0#32⟩
  takesSel := true
  useIterator := false
  list := fun j ↦ if j = l then [⟨5, []⟩] else []

theorem oneEntry_ranks (nlist l : ℕ) : (oneEntry nlist l).Ranks := fun _ _ _ _ _ _ _ ↦ rfl

/-- A key of a list, or of none. -/
def columnProbe (nlist column : ℕ) : ℤ × F32 :=
  if column < nlist then (column, ⟨0#32⟩) else (-1, ⟨0#32⟩)

def probing (nprobe : ℕ) (quantizerParams : Option Unit) : IVFSearchParameters Unit :=
  ⟨nprobe, 0, none, quantizerParams⟩

section OneEntry

variable {nlist l nprobe : ℕ} {ctx : SearchContext} {columns : List ℕ}

theorem columnProbe_lt (column : ℕ) : (columnProbe nlist column).1 < nlist := by
  unfold columnProbe
  split_ifs with hlt
  · exact Int.ofNat_lt.mpr hlt
  · exact lt_of_lt_of_le (by decide : (-1 : ℤ) < 0) (Int.natCast_nonneg nlist)

theorem assignOf_oneEntry (x : ℕ → Unit) (m p : ℕ) :
    (oneEntry nlist l).assignOf x m none p = columnProbe nlist (p % m) := by
  simp only [assignOf, oneEntry, columnProbe, Option.isNone_none, true_and]

theorem offersOf_oneEntry (hsel : ctx.sel = none) (hselr : ctx.selr = none)
    (hpairs : ctx.storePairs = false) (hl : l < nlist) (column : ℕ) :
    (oneEntry nlist l).offersOf ctx () (columnProbe nlist column) none =
      if column = l then [(⟨0#32⟩, 5)] else [] := by
  have hskip : skips ctx.sel = fun _ ↦ false := by
    rw [hsel]
    rfl
  unfold columnProbe
  by_cases hlt : column < nlist
  · rw [if_pos hlt]
    unfold offersOf scannedOf resultAt label
    dsimp only
    rw [if_neg (not_lt.mpr (Int.natCast_nonneg column)), Int.toNat_natCast, scanned, hselr, hskip,
      hpairs]
    by_cases hcolumn : column = l
    · rw [if_pos hcolumn, show (oneEntry nlist l).list column = [⟨5, []⟩] from if_pos hcolumn]
      rfl
    · rw [if_neg hcolumn, show (oneEntry nlist l).list column = [] from if_neg hcolumn]
      rfl
  · rw [if_neg hlt, if_neg (by omega)]
    rfl

theorem flatMap_oneEntry (hcolumns : l ∈ columns → columns.Nodup) :
    (columns.flatMap fun column ↦ if column = l then [((⟨0#32⟩ : F32), (5 : ℤ))] else []) =
      if l ∈ columns then [(⟨0#32⟩, 5)] else [] := by
  by_cases hmem : l ∈ columns
  · rw [if_pos hmem]
    exact (flatMap_eq_of_unique (hcolumns hmem) hmem fun column _ hne ↦ if_neg hne).trans (if_pos rfl)
  · rw [if_neg hmem]
    exact List.flatMap_eq_nil_iff.mpr fun column hcolumn ↦
      if_neg fun heq : column = l ↦ hmem (heq ▸ hcolumn)

theorem checkSearch_oneEntry (hnlist : 0 < nlist) (hnprobe : 0 < nprobe) :
    (oneEntry nlist l).checkSearch 1 false (some (probing nprobe none)) = .ok () := by
  have hmin : 0 < (oneEntry nlist l).nprobeOf (some (probing nprobe none)) := lt_min hnlist hnprobe
  rw [checkSearch, decide_eq_true hmin]
  rfl

theorem row_of_offers :
    let order := MetricType.l2.order
    (heapReorder order 1 (heapOffers order 1 (heapHeapify order 1 (zeroHeaps 0))
      [(⟨0#32⟩, 5)])).2 0 = (⟨0#32⟩, 5) ∧
    (heapReorder order 1 (heapOffers order 1 (heapHeapify order 1 (zeroHeaps 0)) [])).2 0 =
      (F32.max, -1) :=
  ⟨rfl, rfl⟩

theorem searchQuery_oneEntry (hl : l < nlist) (nprobe : ℕ) (columns : List ℕ) :
    ∃ row, (oneEntry nlist l).searchQuery
        ((oneEntry nlist l).context 1 false (some (probing nprobe none))) ()
        (columns.map (columnProbe nlist)) (zeroHeaps 0) = .ok row ∧
      ((l ∈ columns → columns.Nodup) → row 0 = if l ∈ columns then (⟨0#32⟩, 5) else (F32.max, -1)) := by
  have hkeys : ∀ probe ∈ columns.map (columnProbe nlist), probe.1 < (oneEntry nlist l).nlist :=
    List.forall_mem_map.mpr fun column _ ↦ columnProbe_lt column
  have hread : ((oneEntry nlist l).context 1 false (some (probing nprobe none))).Readable :=
    ⟨fun h ↦ absurd h Bool.false_ne_true, fun selr h ↦ by cases h⟩
  have hoffers : ∀ column, (oneEntry nlist l).offersOf
      ((oneEntry nlist l).context 1 false (some (probing nprobe none))) ()
      (columnProbe nlist column) none = if column = l then [(⟨0#32⟩, 5)] else [] :=
    offersOf_oneEntry rfl rfl rfl hl
  have hinit : ((oneEntry nlist l).context 1 false (some (probing nprobe none))).doHeapInit = true :=
    decide_eq_true (by decide : (0 : Int32) &&& noHeapInit = 0)
  refine ⟨_, by rw [searchQuery, scanProbes_eq hread rfl hkeys]; rfl, fun hcolumns ↦ ?_⟩
  rw [rowOffers_unlimited rfl, List.flatMap_map]
  simp only [hoffers]
  rw [flatMap_oneEntry hcolumns, reorderResult, initResult, if_pos hinit, if_pos hinit]
  by_cases hmem : l ∈ columns
  · rw [if_pos hmem, if_pos hmem]
    exact row_of_offers.1
  · rw [if_neg hmem, if_neg hmem]
    exact row_of_offers.2

theorem pmode_oneEntry : (oneEntry nlist l).pmode = 0 :=
  (by decide : (0 : Int32) &&& ~~~noHeapInit = 0)

/-- A search for one result, where the columns of each query are given. -/
theorem searchPreassigned_oneEntry (hl : l < nlist) (hnprobe : 0 < nprobe) (x : ℕ → Unit) {n : ℕ}
    {schedule : Schedule} (hs : schedule.Valid n (min nlist nprobe)) (assign : ℕ → ℤ × F32)
    (column : ℕ → ℕ) (hassign : ∀ p, assign p = columnProbe nlist (column p)) :
    ∃ rows', (oneEntry nlist l).searchPreassigned schedule x assign n 1 zeroHeaps false
        (some (probing nprobe none)) = .ok rows' ∧
      ∀ i < n, let columns := (List.range (min nlist nprobe)).map fun ik ↦
          column (i * min nlist nprobe + ik)
        (l ∈ columns → columns.Nodup) →
        rows' i 0 = if l ∈ columns then (⟨0#32⟩, 5) else (F32.max, -1) := by
  have hprobes : ∀ i,
      probesOf ((oneEntry nlist l).context 1 false (some (probing nprobe none))) assign i =
        ((List.range (min nlist nprobe)).map fun ik ↦ column (i * min nlist nprobe + ik)).map
          (columnProbe nlist) := fun i ↦ by
    rw [List.map_map]
    exact List.map_congr_left fun ik _ ↦ hassign _
  choose rows hrows hfound using fun i ↦ searchQuery_oneEntry hl nprobe
    ((List.range (min nlist nprobe)).map fun ik ↦ column (i * min nlist nprobe + ik))
  refine ⟨fun i ↦ if i < n then rows i else zeroHeaps i, (searchPreassigned_eq_ok pmode_oneEntry
    (checkSearch_oneEntry (Nat.zero_lt_of_lt hl) hnprobe) hs).mpr ⟨fun i _ hi ↦ ?_, fun i hi ↦ ?_⟩,
    fun i hi ↦ ?_⟩
  · dsimp only
    rw [if_pos hi, hprobes]
    exact hrows i
  · exact if_neg fun h ↦ hi ⟨Nat.zero_le i, h⟩
  · dsimp only
    rw [if_pos hi]
    exact hfound i

theorem rangeResults_oneEntry {ctx : RangeContext} (hradius : ctx.radius = ⟨0x3f800000#32⟩)
    (hsel : ctx.sel = none) (hpairs : ctx.storePairs = false) (hl : l < nlist) (column : ℕ) :
    (oneEntry nlist l).rangeResults ctx () (columnProbe nlist column) =
      if column = l then [(⟨0#32⟩, 5)] else [] := by
  have hcmp : MetricType.l2.order.cmp ⟨0x3f800000#32⟩ ⟨0#32⟩ = true := by decide
  obtain ⟨m, radius, storePairs, sel⟩ := ctx
  subst hradius hsel hpairs
  unfold columnProbe
  by_cases hlt : column < nlist
  · rw [if_pos hlt]
    unfold rangeResults
    dsimp only
    rw [if_neg (not_lt.mpr (Int.natCast_nonneg column)), Int.toNat_natCast]
    by_cases hcolumn : column = l
    · rw [if_pos hcolumn, show (oneEntry nlist l).list column = [⟨5, []⟩] from if_pos hcolumn]
      change ([0].filterMap fun j ↦ if skips none (IVFIndex.idAt [⟨5, []⟩] j) then none
        else if MetricType.l2.order.cmp ⟨0x3f800000#32⟩ ⟨0#32⟩ then
          some ((⟨0#32⟩ : F32), (IVFIndex.idAt [⟨5, []⟩] j).toInt)
        else none) = _
      rw [hcmp]
      rfl
    · rw [if_neg hcolumn, show (oneEntry nlist l).list column = [] from if_neg hcolumn]
      rfl
  · rw [if_neg hlt, if_neg (by omega)]
    rfl

/-- A range search for what is nearer than 1, where the columns of each query are given. -/
theorem rangeSearch_oneEntry (quantizerParams : Option Unit) (hl : l < nlist) (hnprobe : 0 < nprobe)
    (x : ℕ → Unit) {n : ℕ} {schedule : Schedule}
    (hs : schedule.Valid n (min nlist nprobe)) (assign : ℕ → ℤ × F32) (column : ℕ → ℕ)
    (hassign : ∀ p, assign p = columnProbe nlist (column p)) :
    ∃ res, (oneEntry nlist l).rangeSearchPreassigned schedule x assign n ⟨0x3f800000#32⟩ false
        (some (probing nprobe quantizerParams)) = .ok res ∧
      ∀ i < n, let columns := (List.range (min nlist nprobe)).map fun ik ↦
          column (i * min nlist nprobe + ik)
        (l ∈ columns → columns.Nodup) →
        (res i).Perm (if l ∈ columns then [(⟨0#32⟩, 5)] else []) := by
  have hreturns : (oneEntry nlist l).RangeReturns assign n false
      (some (probing nprobe quantizerParams)) := by
    refine ⟨?_, Or.inl rfl, fun p _ ↦ hassign p ▸ columnProbe_lt (column p)⟩
    have hmin : 0 < (oneEntry nlist l).nprobeOf (some (probing nprobe quantizerParams)) :=
      lt_min (Nat.zero_lt_of_lt hl) hnprobe
    rw [checkRange, decide_eq_true hmin]
    rfl
  obtain ⟨res, hrun, hres⟩ := rangeSearchPreassigned_holds (x := x) hs ⟨0x3f800000#32⟩ hreturns
  refine ⟨res, hrun, fun i hi ↦ ?_⟩
  intro columns hcolumns
  refine (hres i hi).trans (List.Perm.of_eq ?_)
  rw [← flatMap_oneEntry hcolumns, List.flatMap_map, rangeOf]
  refine List.flatMap_congr fun ik _ ↦ ?_
  rw [hassign]
  exact rangeResults_oneEntry rfl rfl rfl hl _

end OneEntry

theorem last_not_mem_second_row {nlist nprobe : ℕ} (h : nlist < nprobe) :
    nlist - 1 ∉ (List.range nlist).map fun ik ↦ (1 * nlist + ik) % nprobe := by
  intro hmem
  obtain ⟨ik, hik, heq⟩ := List.mem_map.mp hmem
  rw [List.mem_range] at hik
  by_cases hlt : 1 * nlist + ik < nprobe
  · rw [Nat.mod_eq_of_lt hlt] at heq
    omega
  · rw [Nat.mod_eq_sub_mod (by omega), Nat.mod_eq_of_lt (by omega)] at heq
    omega

theorem mod_row (i nprobe : ℕ) :
    ((List.range nprobe).map fun ik ↦ (i * nprobe + ik) % nprobe) = List.range nprobe := by
  refine (List.map_congr_left fun ik hik ↦ ?_).trans (List.map_id _)
  rw [Nat.mul_comm, Nat.mul_add_mod, Nat.mod_eq_of_lt (List.mem_range.mp hik)]
  rfl

variable {nlist nprobe : ℕ}

theorem oneThread_validSchedules (hn : 0 < n) (nlist nprobe l : ℕ) :
    (oneEntry nlist l).ValidSchedules 1 (fun _ ↦ oneThread n (min nlist nprobe)) n
      (min nlist nprobe) := by
  rw [ValidSchedules, if_pos pmode_oneEntry]
  dsimp only
  rw [Nat.min_eq_left (by omega : 1 ≤ n)]
  intro slice hslice
  rw [Nat.lt_one_iff.mp hslice, Nat.mul_zero, Nat.zero_add, Nat.mul_one, Nat.div_one, Nat.zero_div,
    Nat.sub_zero]
  exact oneThread_valid n _

/-- The second query does not get to the list that comes last. -/
theorem not_searchAgrees_of_lt (hnlist : 0 < nlist) (hlt : nlist < nprobe) (hn : 1 < n) :
    ¬SearchAgrees (.ivf (oneEntry nlist (nlist - 1))) (fun _ ↦ ()) n 1 (probing nprobe none) := by
  intro h
  have hl : nlist - 1 < nlist := by omega
  have hmin : min nlist nprobe = nlist := min_eq_left hlt.le
  have hs := oneThread_valid n (min nlist nprobe)
  have hschedules := oneThread_validSchedules (by omega : 0 < n) nlist nprobe (nlist - 1)
  -- What both return has the entry in the second row, and does not have it.
  obtain ⟨rows, hwrapper, hrows⟩ := searchPreassigned_oneEntry hl (by omega) (fun _ ↦ ()) hs
    ((oneEntry nlist (nlist - 1)).assignOf (fun _ ↦ ()) nprobe none) (· % nprobe)
    fun p ↦ assignOf_oneEntry _ _ p
  obtain ⟨rows', hsearch, hrows'⟩ := searchPreassigned_oneEntry hl (by omega) (fun _ ↦ ()) hs
    ((oneEntry nlist (nlist - 1)).assignOf (fun _ ↦ ()) (min nlist nprobe) none)
    (· % min nlist nprobe) fun p ↦ assignOf_oneEntry _ _ p
  have hrun := (h 1 _ _ zeroHeaps rows Nat.one_pos hschedules hs fun _ ↦ rfl).mpr hwrapper
  have hsub := (search_eq_subSearch Nat.one_pos (by omega) hschedules hs fun _ ↦ rfl).mp hrun
  have heq : rows = rows' := Except.ok.inj (hsub.symm.trans hsearch)
  have hrow := hrows 1 hn
  have hrow' := hrows' 1 hn
  rw [mod_row, hmin] at hrow'
  rw [hmin] at hrow
  have hfound := hrow' fun _ ↦ List.nodup_range
  have hmissed := hrow fun hmem ↦ absurd hmem (last_not_mem_second_row hlt)
  rw [if_pos (List.mem_range.mpr hl)] at hfound
  rw [if_neg (last_not_mem_second_row hlt), heq, hfound] at hmissed
  exact absurd (congrArg Prod.snd hmissed) (by decide)

theorem not_rangeAgrees_of_lt (hnlist : 0 < nlist) (hlt : nlist < nprobe) (hn : 1 < n) :
    ¬RangeAgrees (.ivf (oneEntry nlist (nlist - 1))) (fun _ ↦ ()) n ⟨0x3f800000#32⟩
      (probing nprobe none) := by
  intro h
  have hl : nlist - 1 < nlist := by omega
  have hmin : min nlist nprobe = nlist := min_eq_left hlt.le
  have hs := oneThread_valid n (min nlist nprobe)
  obtain ⟨res', hwrapper, hres'⟩ := rangeSearch_oneEntry none hl (by omega)
    (fun _ ↦ ()) hs ((oneEntry nlist (nlist - 1)).assignOf (fun _ ↦ ()) nprobe none) (· % nprobe)
    fun p ↦ assignOf_oneEntry _ _ p
  obtain ⟨res, hrange, hres⟩ := rangeSearch_oneEntry none hl (by omega)
    (fun _ ↦ ()) hs ((oneEntry nlist (nlist - 1)).assignOf (fun _ ↦ ()) (min nlist nprobe) none)
    (· % min nlist nprobe) fun p ↦ assignOf_oneEntry _ _ p
  obtain ⟨res₀, hrun, hsame⟩ := (h _ _ hs hs).2 res' hwrapper
  have heq : res₀ = res := Except.ok.inj (hrun.symm.trans hrange)
  have hrow := hres 1 hn
  have hrow' := hres' 1 hn
  rw [mod_row, hmin] at hrow
  rw [hmin] at hrow'
  have hfound := hrow fun _ ↦ List.nodup_range
  have hmissed := hrow' fun hmem ↦ absurd hmem (last_not_mem_second_row hlt)
  rw [if_pos (List.mem_range.mpr hl)] at hfound
  rw [if_neg (last_not_mem_second_row hlt)] at hmissed
  exact absurd ((hfound.symm.trans (heq ▸ hsame 1 hn)).trans hmissed).length_eq (by decide)

/-- The parameters of the quantizer are left out. -/
theorem not_rangeAgrees_of_given (hnlist : 0 < nlist) (hnprobe : 0 < nprobe) (hn : 0 < n) :
    ¬RangeAgrees (.ivf (oneEntry nlist 0)) (fun _ ↦ ()) n ⟨0x3f800000#32⟩
      (probing nprobe (some ())) := by
  intro h
  have hs := oneThread_valid n (min nlist nprobe)
  obtain ⟨res', hwrapper, hres'⟩ := rangeSearch_oneEntry (some ()) hnlist hnprobe
    (fun _ ↦ ()) hs ((oneEntry nlist 0).assignOf (fun _ ↦ ()) nprobe none) (· % nprobe)
    fun p ↦ assignOf_oneEntry _ _ p
  have hnone : ∀ p, (oneEntry nlist 0).assignOf (fun _ ↦ ()) (min nlist nprobe) (some ()) p =
      columnProbe nlist nlist := fun p ↦ by
    simp only [assignOf, oneEntry, columnProbe, Option.isNone_some, Bool.false_eq_true, false_and,
      lt_irrefl, if_false]
  obtain ⟨res, hrange, hres⟩ := rangeSearch_oneEntry (some ()) hnlist hnprobe
    (fun _ ↦ ()) hs _ (fun _ ↦ nlist) hnone
  obtain ⟨res₀, hrun, hsame⟩ := (h _ _ hs hs).2 res' hwrapper
  have heq : res₀ = res := Except.ok.inj (hrun.symm.trans hrange)
  have hrow : ((List.range (min nlist nprobe)).map fun ik ↦ (0 * min nlist nprobe + ik) % nprobe) =
      List.range (min nlist nprobe) := by
    refine (List.map_congr_left fun ik hik ↦ ?_).trans (List.map_id _)
    rw [Nat.zero_mul, Nat.zero_add, Nat.mod_eq_of_lt
      (lt_of_lt_of_le (List.mem_range.mp hik) (Nat.min_le_right _ _))]
    rfl
  have hmem : 0 ∈ List.range (min nlist nprobe) := List.mem_range.mpr (lt_min hnlist hnprobe)
  have hnot : 0 ∉ (List.range (min nlist nprobe)).map fun _ ↦ nlist := fun hmem ↦ by
    obtain ⟨_, -, heq⟩ := List.mem_map.mp hmem
    omega
  have hfound := hres' 0 hn
  rw [hrow] at hfound
  have hfound := hfound fun _ ↦ List.nodup_range
  have hmissed := hres 0 hn fun hmem ↦ absurd hmem hnot
  rw [if_pos hmem] at hfound
  rw [if_neg hnot] at hmissed
  exact absurd ((hfound.symm.trans (heq ▸ hsame 0 hn).symm).trans hmissed).length_eq (by decide)

/-- An index that is not trained is searched by the wrappers only. -/
theorem not_agrees_of_untrained (hnlist : 0 < nlist) (hnprobe : 0 < nprobe) (hn : 0 < n) :
    let self : Index Unit Unit := .preTransform false [] (oneEntry nlist 0)
    ¬SearchAgrees self (fun _ ↦ ()) n 1 (probing nprobe none) ∧
      ∀ quantizerParams, ¬RangeAgrees self (fun _ ↦ ()) n ⟨0x3f800000#32⟩
        (probing nprobe quantizerParams) := by
  intro self
  have hs := oneThread_valid n (min nlist nprobe)
  constructor
  · intro h
    obtain ⟨rows, hwrapper, -⟩ := searchPreassigned_oneEntry hnlist hnprobe (fun _ ↦ ()) hs
      ((oneEntry nlist 0).assignOf (fun _ ↦ ()) nprobe none) (· % nprobe)
      fun p ↦ assignOf_oneEntry _ _ p
    have hschedules := oneThread_validSchedules hn nlist nprobe 0
    have hrun := (h 1 _ _ zeroHeaps rows Nat.one_pos hschedules hs fun _ ↦ rfl).mpr hwrapper
    exact absurd (Index.search_eq_ok.mp hrun).1 Bool.false_ne_true
  · intro quantizerParams h
    obtain ⟨res', hwrapper, -⟩ := rangeSearch_oneEntry quantizerParams hnlist
      hnprobe (fun _ ↦ ()) hs ((oneEntry nlist 0).assignOf (fun _ ↦ ()) nprobe none) (· % nprobe)
      fun p ↦ assignOf_oneEntry _ _ p
    obtain ⟨res, hrun, -⟩ := (h _ _ hs hs).2 res' hwrapper
    exact absurd (Index.rangeSearch_eq_ok.mp hrun).1 Bool.false_ne_true

/-! ## When they agree -/

/-- For any `n` queries and any inverted file with `nlist` lists, searches for `nprobe` lists agree if
and only if no list can be probed, or the index is trained and there are `nprobe` lists, or a single
query whose lists for a smaller number are the first ones.  For range searches, the quantizer moreover
must not be given parameters. -/
theorem agrees_iff (hn : 0 < n) (hnprobe : 0 < nprobe) (nlist : ℕ) (trained given : Bool) :
    ((∀ (Q QP : Type) (self : Index Q QP) (x : ℕ → Q) (k : ℕ) (params : IVFSearchParameters QP),
        self.index.nlist = nlist → self.isTrained = trained → params.nprobe = nprobe →
        (n = 1 → nlist < nprobe → self.index.Ranks) → 0 < k → SearchAgrees self x n k params) ↔
      nlist = 0 ∨ trained = true ∧ (nprobe ≤ nlist ∨ n = 1)) ∧
    ((∀ (Q QP : Type) (self : Index Q QP) (x : ℕ → Q) (radius : F32) (params : IVFSearchParameters QP),
        self.index.nlist = nlist → self.isTrained = trained → params.nprobe = nprobe →
        params.quantizerParams.isSome = given →
        (n = 1 → nlist < nprobe → self.index.Ranks) → RangeAgrees self x n radius params) ↔
      nlist = 0 ∨ trained = true ∧ given = false ∧ (nprobe ≤ nlist ∨ n = 1)) := by
  have hfits : ∀ {Q QP : Type} {self : Index Q QP}, self.index.nlist = nlist →
      self.isTrained = trained → (n = 1 → nlist < nprobe → self.index.Ranks) →
      nlist = 0 ∨ trained = true ∧ (nprobe ≤ nlist ∨ n = 1) → Fits self n nprobe := by
    rintro Q QP self rfl rfl hranks (h0 | ⟨htrained, hshape⟩)
    · exact Or.inl h0
    · refine Or.inr ⟨htrained, ?_⟩
      by_cases hle : nprobe ≤ self.index.nlist
      · exact Or.inl hle
      · have h1 := hshape.resolve_left hle
        exact Or.inr ⟨h1, hranks h1 (not_le.mp hle)⟩
  constructor
  · constructor
    · intro h
      by_contra hcond
      obtain ⟨hnlist, hcond⟩ := not_or.mp hcond
      cases trained with
      | false =>
          exact (not_agrees_of_untrained (Nat.pos_of_ne_zero hnlist) hnprobe hn).1
            (h _ _ _ _ 1 _ rfl rfl rfl (fun _ _ ↦ oneEntry_ranks nlist 0) Nat.one_pos)
      | true =>
          obtain ⟨hle, h1⟩ := not_or.mp (not_and.mp hcond rfl)
          exact not_searchAgrees_of_lt (Nat.pos_of_ne_zero hnlist) (not_le.mp hle) (by omega)
            (h _ _ _ _ 1 _ rfl rfl rfl (fun _ _ ↦ oneEntry_ranks nlist _) Nat.one_pos)
    · intro hcond Q QP self x k params hnlist htrained hparams hranks _
      exact Fits.searchAgrees (hparams ▸ hfits hnlist htrained hranks hcond) hn
  · constructor
    · intro h
      by_contra hcond
      obtain ⟨hnlist, hcond⟩ := not_or.mp hcond
      cases trained with
      | false =>
          refine (not_agrees_of_untrained (Nat.pos_of_ne_zero hnlist) hnprobe hn).2
            (if given then some () else none)
            (h _ _ _ _ _ _ rfl rfl rfl ?_ (fun _ _ ↦ oneEntry_ranks nlist 0))
          cases given <;> rfl
      | true =>
          cases given with
          | true =>
              exact not_rangeAgrees_of_given (Nat.pos_of_ne_zero hnlist) hnprobe hn
                (h _ _ _ _ _ _ rfl rfl rfl rfl (fun _ _ ↦ oneEntry_ranks nlist 0))
          | false =>
              obtain ⟨hle, h1⟩ := not_or.mp (not_and.mp (not_and.mp hcond rfl) rfl)
              exact not_rangeAgrees_of_lt (Nat.pos_of_ne_zero hnlist) (not_le.mp hle) (by omega)
                (h _ _ _ _ _ _ rfl rfl rfl rfl (fun _ _ ↦ oneEntry_ranks nlist _))
    · intro hcond Q QP self x radius params hnlist htrained hparams hgiven hranks
      have hnone : self.index.nlist = 0 ∨ params.quantizerParams = none := by
        rw [hnlist]
        refine hcond.imp_right fun hcond ↦ Option.not_isSome_iff_eq_none.mp ?_
        rw [hgiven, hcond.2.1]
        exact Bool.false_ne_true
      refine Fits.rangeAgrees (hparams ▸ hfits hnlist htrained hranks ?_) hnone radius
      exact hcond.imp_right fun hcond ↦ ⟨hcond.1, hcond.2.2⟩

/-- Three queries that are assigned to two of four lists, and one that is assigned to all of them. -/
theorem agrees_iff_four :
    SearchAgrees (.ivf (oneEntry 4 1)) (fun _ ↦ ()) 3 2 (probing 2 none) ∧
      RangeAgrees (.preTransform true [id] (oneEntry 4 1)) (fun _ ↦ ()) 1 ⟨0x3f800000#32⟩
        (probing 9 none) :=
  ⟨(agrees_iff (by decide : 0 < 3) (by decide : 0 < 2) 4 true false).1.mpr (by decide) _ _ _ _ 2 _ rfl rfl
      rfl (fun h ↦ absurd h (by decide)) (by decide),
    (agrees_iff (by decide : 0 < 1) (by decide : 0 < 9) 4 true false).2.mpr (by decide) _ _ _ _ _ _ rfl rfl
      rfl rfl fun _ _ ↦ oneEntry_ranks 4 1⟩

/-- Of two queries for two lists, where there is only one, the second one is not assigned to it; and a
range search does not pass on the parameters of the quantizer. -/
theorem agrees_iff_fails :
    let self : Index Unit Unit := .ivf (oneEntry 1 0)
    let second := fun rows : ℕ → ResultHeap ↦ rows 1 0
    let results := fun res : ℕ → List (F32 × ℤ) ↦ (res 0, res 1)
    (self.search 1 (fun _ ↦ oneThread 2 1) (fun _ ↦ ()) 2 1 (some (probing 2 none)) zeroHeaps).map
      second = .ok (⟨0#32⟩, 5) ∧
    (searchWithParameters self (oneThread 2 1) (fun _ ↦ ()) 2 1 (probing 2 none) zeroHeaps).map
      second = .ok (F32.max, -1) ∧
    (self.rangeSearch (oneThread 2 1) (fun _ ↦ ()) 2 ⟨0x3f800000#32⟩ (some (probing 2 none))).map
      results = .ok ([(⟨0#32⟩, 5)], [(⟨0#32⟩, 5)]) ∧
    (rangeSearchWithParameters self (oneThread 2 1) (fun _ ↦ ()) 2 ⟨0x3f800000#32⟩
      (probing 2 none)).map results = .ok ([(⟨0#32⟩, 5)], []) ∧
    (self.rangeSearch (oneThread 2 1) (fun _ ↦ ()) 2 ⟨0x3f800000#32⟩
      (some (probing 1 (some ())))).map results = .ok ([], []) ∧
    (rangeSearchWithParameters self (oneThread 2 1) (fun _ ↦ ()) 2 ⟨0x3f800000#32⟩
      (probing 1 (some ()))).map results = .ok ([(⟨0#32⟩, 5)], [(⟨0#32⟩, 5)]) := by
  intro self second results
  exact ⟨by decide, by decide, by decide, by decide, by decide, by decide⟩

end IVFlib

end FaissNavix
