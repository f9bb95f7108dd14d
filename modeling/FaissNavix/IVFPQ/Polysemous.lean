import FaissNavix.IVF.Scanner
import FaissNavix.IVFPQ.Scans

/-!
# Searching with a polysemous threshold

The search of an `IndexIVFPQ` with codes of 8 bits, whose scanner is the `IVFPQScanner` of
`faiss/IndexIVFPQ.cpp`.  `get_InvertedListScanner` is not given the search parameters, so that the
threshold is that of the index, whatever `polysemous_ht` in the parameters is.
-/

namespace FaissNavix

open Function

/-- What a search reads of an `IndexIVFPQ` with codes of 8 bits, and a metric for which there is a
scanner. -/
structure IVFPQIndex (QP : Type) extends IndexIVFPQ F32 where
  nlist : ℕ
  nprobe : ℕ
  maxCodes : ℕ
  parallelMode : Int32
  /-- `quantizer->search` -/
  quantizerSearch : (ℕ → F32) → ℕ → Option QP → ℕ → ℤ × F32
  useIterator : Bool
  list : ℕ → List Entry
  nbits_eq : pq.nbits = 8
  hasScanner : metricType = .l2 ∨ metricType = .innerProduct

/-- A code, by its bytes. -/
def bytesOf (code : List UInt8) : ℕ → UInt8 := fun i ↦ code.getD i 0

/-- The codes of a list, with what the selector says of their ids. -/
def listCodes (sel : Option IDSelector) (listSize : ℕ) (codes : ℕ → List UInt8) (ids : ℕ → Idx) :
    ListCodes where
  ncode := listSize
  code := fun j ↦ bytesOf (codes j)
  skip := fun j ↦ IVFIndex.skips sel (ids j)

namespace IVFPQIndex

variable {QP : Type} (fl : Floats F32) (ivfpq : IVFPQIndex QP) (ctx : SearchContext)

/-- With codes of 8 bits, there are tables unless table 2 is used without a `MultiIndexQuantizer`. -/
def tablesFor (query : ℕ → F32) (key : ℤ) (coarseDis : F32) : Except Fault (QueryTables F32) :=
  match ivfpq.setList fl query key 2 coarseDis with
  | some tables => .ok tables
  | none => .error (.exception "Error: 'miq' failed")

/-- What the functions of an `IndexIVF` read. -/
def toIVFIndex : IVFIndex (ℕ → F32) QP where
  nlist := ivfpq.nlist
  nprobe := ivfpq.nprobe
  maxCodes := ivfpq.maxCodes
  parallelMode := ivfpq.parallelMode
  metricType := ivfpq.metricType
  quantizer := ivfpq.quantizerSearch
  distanceToCode query key coarseDis code :=
    match ivfpq.tablesFor fl query key coarseDis with
    | .ok tables =>
        fl.add tables.dis0 (ivfpq.pq.distanceSingleCode fl tables.simTable (bytesOf code))
    | .error _ => fl.zero
  takesSel := true
  useIterator := ivfpq.useIterator
  list := ivfpq.list

/-- What a scan adds, in the order of the entries. -/
def addsOf (tables : QueryTables F32) (list : ListCodes) : List (ℕ × F32) :=
  if 0 < ivfpq.polysemousHt then ivfpq.scanListPolysemous fl tables list
  else ivfpq.scanListWithTable fl tables list

/-- The `IVFPQScanner`, with its mode 2. -/
def scanner : InvertedListScanner (ℕ → F32) where
  scanCodes query key coarseDis listSize codes ids heap := do
    let tables ← ivfpq.tablesFor fl query key coarseDis
    let ids := ids.getD fun _ ↦ 0
    let adds := ivfpq.addsOf fl tables (listCodes ctx.sel listSize codes ids)
    return heapOffers ivfpq.metricType.order ctx.k heap (adds.map fun a ↦
      (a.2, if ctx.storePairs then (loOf key a.1).toInt else (ids a.1).toInt))
  iterateCodes query key coarseDis entries heap := do
    let _ ← ivfpq.tablesFor fl query key coarseDis
    return (ivfpq.toIVFIndex fl).iterateCodes ctx query key coarseDis entries heap

/-- `search`, where `get_InvertedListScanner` gets no parameters. -/
def search (maxThreads : ℕ) (schedules : ℕ → IVFIndex.Schedule) (x : ℕ → ℕ → F32) (n k : ℕ)
    (params : Option (IVFPQSearchParameters QP)) (rows : ℕ → ResultHeap) :
    Except Fault (ℕ → ResultHeap) :=
  (ivfpq.toIVFIndex fl).searchWith x (ivfpq.scanner fl) maxThreads schedules n k
    (params.map IVFPQSearchParameters.toIVFSearchParameters) rows

/-- The scan of the model of the scanner is that of an `IndexIVFPQ` in mode 2. -/
theorem setAndScanList_eq (query : ℕ → F32) (key : ℤ) (coarseDis : F32) (list : ListCodes) :
    ivfpq.setAndScanList fl list query key 2 coarseDis =
      (ivfpq.setList fl query key 2 coarseDis).map fun tables ↦ ivfpq.addsOf fl tables list := by
  unfold IndexIVFPQ.setAndScanList
  cases ivfpq.setList fl query key 2 coarseDis with
  | none => rfl
  | some tables =>
      change (if 0 < ivfpq.polysemousHt then some (ivfpq.scanListPolysemous fl tables list)
        else some (ivfpq.scanListWithTable fl tables list)) = some (ivfpq.addsOf fl tables list)
      unfold addsOf
      split <;> rfl

/-! ## Thresholds -/

def withPolysemousHt (ht : Int32) : IVFPQIndex QP := { ivfpq with polysemousHt := ht }

def Passes (ht : Int32) (hd : ℕ) : Prop := ht.toInt ≤ 0 ∨ (hd : ℤ) < ht.toInt

instance (ht : Int32) (hd : ℕ) : Decidable (Passes ht hd) := inferInstanceAs (Decidable (_ ∨ _))

variable {fl ivfpq ctx} {query : ℕ → F32} {key : ℤ} {coarseDis : F32} {g h : Int32}
  {tables tables' : QueryTables F32} {list : ListCodes}

/-- What a scan adds, where nothing is skipped: the codes within the threshold. -/
theorem addsOf_eq (hskip : ∀ j, list.skip j = false) : ivfpq.addsOf fl tables list =
    ((List.range list.ncode).filter fun j ↦
      decide (Passes ivfpq.polysemousHt (ivfpq.hammingTo tables list j))).map fun j ↦
        (j, ivfpq.tableDistance fl tables list j) := by
  unfold addsOf
  by_cases hpos : 0 < ivfpq.polysemousHt
  · rw [if_pos hpos, IndexIVFPQ.scanListPolysemous_eq,
      IndexIVFPQ.kept_eq_filter (Or.inr fun j _ ↦ hskip j)]
    have hpos := IndexIVFPQ.positive_iff.mp hpos
    refine congrArg (List.map _) (List.filter_congr fun j _ ↦ ?_)
    unfold IndexIVFPQ.keepsLeftover
    rw [hskip, Bool.not_false, Bool.true_and]
    exact decide_eq_decide.mpr ⟨Or.inr, fun hpass ↦ hpass.resolve_left (not_le.mpr hpos)⟩
  · rw [if_neg hpos, IndexIVFPQ.scanListWithTable_eq, ListCodes.selected]
    have hle : ivfpq.polysemousHt.toInt ≤ 0 := not_lt.mp (mt IndexIVFPQ.positive_iff.mpr hpos)
    refine congrArg (List.map _) (List.filter_congr fun j _ ↦ ?_)
    have hpass : Passes ivfpq.polysemousHt (ivfpq.hammingTo tables list j) := Or.inl hle
    rw [hskip, decide_eq_true hpass, Bool.not_false]

theorem codeSize_eq (ivfpq : IVFPQIndex QP) : ivfpq.pq.codeSize = ivfpq.pq.M := by
  unfold ProductQuantizer.codeSize
  rw [ivfpq.nbits_eq]
  omega

/-- Another threshold makes other tables only for the query code, and only if one of the two is 0. -/
theorem setList_withPolysemousHt (ivfpq : IVFPQIndex QP) (g h : Int32) (query : ℕ → F32) (key : ℤ)
    (coarseDis : F32) :
    ((ivfpq.withPolysemousHt g).setList fl query key 2 coarseDis = none ∧
        (ivfpq.withPolysemousHt h).setList fl query key 2 coarseDis = none) ∨
      ∃ tables tables', (ivfpq.withPolysemousHt g).setList fl query key 2 coarseDis = some tables ∧
        (ivfpq.withPolysemousHt h).setList fl query key 2 coarseDis = some tables' ∧
          tables.simTable = tables'.simTable ∧ tables.dis0 = tables'.dis0 ∧
            (g ≠ 0 → h ≠ 0 → tables = tables') := by
  have hzero := @IndexIVFPQ.precomputeListTables_zero F32 fl ivfpq.toIndexIVFPQ query key coarseDis
    ivfpq.codeSize_eq.ge
  have hmap := (hzero g).trans (hzero h).symm
  have hcongr := @IndexIVFPQ.precomputeListTables_congr F32 fl ivfpq.toIndexIVFPQ query key coarseDis g h
  change (((ivfpq.withPolysemousHt g).setList fl query key 2 coarseDis).map _ =
    ((ivfpq.withPolysemousHt h).setList fl query key 2 coarseDis).map _) at hmap
  change g ≠ 0 → h ≠ 0 → (ivfpq.withPolysemousHt g).setList fl query key 2 coarseDis =
    (ivfpq.withPolysemousHt h).setList fl query key 2 coarseDis at hcongr
  cases hg : (ivfpq.withPolysemousHt g).setList fl query key 2 coarseDis with
  | none =>
      rw [hg] at hmap
      exact Or.inl ⟨rfl, Option.map_eq_none_iff.mp hmap.symm⟩
  | some tables =>
      rw [hg] at hmap hcongr
      obtain ⟨tables', hh, hview⟩ := Option.map_eq_some_iff.mp hmap.symm
      obtain ⟨hsim, hdis0⟩ := Prod.mk.inj hview
      refine Or.inr ⟨tables, tables', rfl, hh, hsim.symm, hdis0.symm, fun hg0 hh0 ↦ ?_⟩
      exact Option.some.inj ((hcongr hg0 hh0).trans hh)

/-- Two thresholds that let the same distances of codes of `M` bytes pass. -/
def SamePasses (M : ℕ) (g h : Int32) : Prop := ∀ hd ≤ 8 * M, Passes g hd ↔ Passes h hd

theorem ne_zero_of_pos (hg : 0 < g) : g ≠ 0 := by
  rintro rfl
  exact absurd hg (by decide)

theorem passes_of_nonpos (hg : ¬0 < g) (hd : ℕ) : Passes g hd :=
  Or.inl (not_lt.mp (mt IndexIVFPQ.positive_iff.mpr hg))

/-- With such thresholds, a scan adds the same. -/
theorem addsOf_congr (hsame : SamePasses ivfpq.pq.M g h) (hskip : ∀ j, list.skip j = false)
    (hsim : tables.simTable = tables'.simTable) (hdis0 : tables.dis0 = tables'.dis0)
    (htables : g ≠ 0 → h ≠ 0 → tables = tables') :
    (ivfpq.withPolysemousHt g).addsOf fl tables list =
      (ivfpq.withPolysemousHt h).addsOf fl tables' list := by
  have hle : ∀ (t : QueryTables F32) (j : ℕ), ivfpq.hammingTo t list j ≤ 8 * ivfpq.pq.M := by
    intro t j
    have hle : ivfpq.hammingTo t list j ≤ 8 * ivfpq.pq.codeSize := IndexIVFPQ.hammingTo_le j
    rwa [ivfpq.codeSize_eq] at hle
  have hdis : ivfpq.tableDistance fl tables list = ivfpq.tableDistance fl tables' list := by
    funext j
    unfold IndexIVFPQ.tableDistance
    rw [hsim, hdis0]
  have hpasses : ∀ j, Passes g (ivfpq.hammingTo tables list j) ↔
      Passes h (ivfpq.hammingTo tables' list j) := by
    intro j
    by_cases hg : 0 < g
    · by_cases hh : 0 < h
      · rw [htables (ne_zero_of_pos hg) (ne_zero_of_pos hh)]
        exact hsame _ (hle tables' j)
      · have hall := passes_of_nonpos hh
        exact iff_of_true ((hsame _ (hle tables j)).mpr (hall _)) (hall _)
    · have hall := passes_of_nonpos hg
      exact iff_of_true (hall _) ((hsame _ (hle tables' j)).mp (hall _))
  rw [addsOf_eq hskip, addsOf_eq hskip]
  change ((List.range list.ncode).filter fun j ↦ decide (Passes g (ivfpq.hammingTo tables list j))).map
      (fun j ↦ (j, ivfpq.tableDistance fl tables list j)) =
    ((List.range list.ncode).filter fun j ↦ decide (Passes h (ivfpq.hammingTo tables' list j))).map
      fun j ↦ (j, ivfpq.tableDistance fl tables' list j)
  rw [hdis]
  refine congrArg (List.map _) (List.filter_congr fun j _ ↦ ?_)
  exact decide_eq_decide.mpr (hpasses j)

theorem toIVFIndex_withPolysemousHt (ivfpq : IVFPQIndex QP) (g h : Int32) :
    (ivfpq.withPolysemousHt g).toIVFIndex fl = (ivfpq.withPolysemousHt h).toIVFIndex fl := by
  have hdis : ((ivfpq.withPolysemousHt g).toIVFIndex fl).distanceToCode =
      ((ivfpq.withPolysemousHt h).toIVFIndex fl).distanceToCode := by
    funext query key coarseDis code
    unfold toIVFIndex tablesFor
    dsimp only
    rcases @setList_withPolysemousHt QP fl ivfpq g h query key coarseDis with
      ⟨hg, hh⟩ | ⟨tables, tables', hg, hh, hsim, hdis0, -⟩
    · rw [hg, hh]
    · rw [hg, hh]
      dsimp only
      rw [hsim, hdis0]
      rfl
  unfold toIVFIndex at hdis ⊢
  dsimp only at hdis
  rw [hdis]
  rfl

theorem bind_eq_bind {α β γ : Type} {x : Except Fault α} {y : Except Fault β} {f : α → Except Fault γ}
    {f' : β → Except Fault γ} (h : (∃ e, x = .error e ∧ y = .error e) ∨
      ∃ a b, x = .ok a ∧ y = .ok b ∧ f a = f' b) : x >>= f = y >>= f' := by
  obtain ⟨e, rfl, rfl⟩ | ⟨a, b, rfl, rfl, hf⟩ := h
  · rfl
  · exact hf

theorem tablesFor_withPolysemousHt (ivfpq : IVFPQIndex QP) (g h : Int32) (query : ℕ → F32) (key : ℤ)
    (coarseDis : F32) :
    (∃ e, (ivfpq.withPolysemousHt g).tablesFor fl query key coarseDis = .error e ∧
        (ivfpq.withPolysemousHt h).tablesFor fl query key coarseDis = .error e) ∨
      ∃ tables tables', (ivfpq.withPolysemousHt g).tablesFor fl query key coarseDis = .ok tables ∧
        (ivfpq.withPolysemousHt h).tablesFor fl query key coarseDis = .ok tables' ∧
          tables.simTable = tables'.simTable ∧ tables.dis0 = tables'.dis0 ∧
            (g ≠ 0 → h ≠ 0 → tables = tables') := by
  unfold tablesFor
  rcases @setList_withPolysemousHt QP fl ivfpq g h query key coarseDis with
    ⟨hg, hh⟩ | ⟨tables, tables', hg, hh, hspec⟩
  · rw [hg, hh]
    exact Or.inl ⟨_, rfl, rfl⟩
  · rw [hg, hh]
    exact Or.inr ⟨tables, tables', rfl, rfl, hspec⟩

/-- Without a selector, the scanners for such thresholds do the same. -/
theorem scanner_congr (hsame : SamePasses ivfpq.pq.M g h) (hsel : ctx.sel = none) :
    (ivfpq.withPolysemousHt g).scanner fl ctx = (ivfpq.withPolysemousHt h).scanner fl ctx := by
  have hscan : ((ivfpq.withPolysemousHt g).scanner fl ctx).scanCodes =
      ((ivfpq.withPolysemousHt h).scanner fl ctx).scanCodes := by
    funext query key coarseDis listSize codes ids heap
    refine bind_eq_bind ?_
    refine (tablesFor_withPolysemousHt ivfpq g h query key coarseDis).imp_right ?_
    rintro ⟨tables, tables', hg, hh, hsim, hdis0, htables⟩
    refine ⟨tables, tables', hg, hh, ?_⟩
    have hskip : ∀ j, (listCodes ctx.sel listSize codes (ids.getD fun _ ↦ 0)).skip j = false := by
      intro j
      rw [hsel]
      rfl
    dsimp only
    rw [addsOf_congr hsame hskip hsim hdis0 htables]
    rfl
  have hiterate : ((ivfpq.withPolysemousHt g).scanner fl ctx).iterateCodes =
      ((ivfpq.withPolysemousHt h).scanner fl ctx).iterateCodes := by
    funext query key coarseDis entries heap
    refine bind_eq_bind ?_
    refine (tablesFor_withPolysemousHt ivfpq g h query key coarseDis).imp_right ?_
    rintro ⟨tables, tables', hg, hh, -⟩
    refine ⟨tables, tables', hg, hh, ?_⟩
    rw [toIVFIndex_withPolysemousHt ivfpq g h]
  calc (ivfpq.withPolysemousHt g).scanner fl ctx
      = ⟨((ivfpq.withPolysemousHt g).scanner fl ctx).scanCodes,
          ((ivfpq.withPolysemousHt g).scanner fl ctx).iterateCodes⟩ := rfl
    _ = ⟨((ivfpq.withPolysemousHt h).scanner fl ctx).scanCodes,
          ((ivfpq.withPolysemousHt h).scanner fl ctx).iterateCodes⟩ := by rw [hscan, hiterate]
    _ = (ivfpq.withPolysemousHt h).scanner fl ctx := rfl

/-! ## The threshold of the parameters -/

/-- Parameters that are those of the index, but for the threshold. -/
def onlyHt (ivfpq : IVFPQIndex QP) (scanTableThreshold : ℕ) (h : Int32) : IVFPQSearchParameters QP where
  nprobe := ivfpq.nprobe
  maxCodes := ivfpq.maxCodes
  sel := none
  quantizerParams := none
  scanTableThreshold
  polysemousHt := h

/-- On indexes with codes of `M` bytes and the threshold `g`, a search with the threshold `h` in its
parameters returns what one returns where `h` is the threshold of the index. -/
def HonoursPolysemousHt (fl : Floats F32) (M : ℕ) (g h : Int32) : Prop :=
  ∀ (QP : Type) (ivfpq : IVFPQIndex QP), ivfpq.pq.M = M →
    ∀ (scanTableThreshold maxThreads : ℕ) (schedules : ℕ → IVFIndex.Schedule) (x : ℕ → ℕ → F32)
      (n k : ℕ) (rows : ℕ → ResultHeap),
      (ivfpq.withPolysemousHt g).search fl maxThreads schedules x n k
          (some (ivfpq.onlyHt scanTableThreshold h)) rows =
        (ivfpq.withPolysemousHt h).search fl maxThreads schedules x n k none rows

theorem search_onlyHt (scanTableThreshold maxThreads : ℕ) (schedules : ℕ → IVFIndex.Schedule)
    (x : ℕ → ℕ → F32) (n k : ℕ) (rows : ℕ → ResultHeap) :
    (ivfpq.withPolysemousHt g).search fl maxThreads schedules x n k
        (some (ivfpq.onlyHt scanTableThreshold h)) rows =
      (ivfpq.withPolysemousHt g).search fl maxThreads schedules x n k none rows := rfl

theorem honours_of_samePasses {M : ℕ} (hsame : SamePasses M g h) :
    HonoursPolysemousHt fl M g h := by
  intro QP ivfpq hM scanTableThreshold maxThreads schedules x n k rows
  rw [search_onlyHt]
  unfold search
  rw [toIVFIndex_withPolysemousHt ivfpq g h]
  exact IVFIndex.searchWith_congr (scanner_congr (hM ▸ hsame) rfl) _ _ _ _

end IVFPQIndex

end FaissNavix

/-!
# The threshold decides

On an index that has one code, a search finds that code if and only if it is within the polysemous
threshold.  So a threshold in the parameters, which is not read, is honoured if and only if the one of
the index lets the same Hamming distances pass (`IVFPQIndex.honoursPolysemousHt_iff`).
-/

namespace FaissNavix

open Function

/-- What the arithmetic of floats makes of zeros. -/
structure Floats.ZeroLaws (fl : Floats F32) : Prop where
  zero : fl.zero = ⟨0#32⟩
  add : fl.add fl.zero fl.zero = fl.zero
  sub : fl.sub fl.zero fl.zero = fl.zero
  mul : fl.mul fl.zero fl.zero = fl.zero
  lt : fl.lt fl.zero fl.zero = false

namespace IVFPQIndex

section
variable (fl : Floats F32) (M : ℕ) (code : List UInt8) (ht : Int32)

/-- An index that has one code, where all is zero. -/
def oneCode : IVFPQIndex Unit where
  pq := ⟨M, M, 8, fun _ ↦ fl.zero, Nat.dvd_refl M⟩
  metricType := .l2
  byResidual := false
  usePrecomputedTable := 0
  polysemousHt := ht
  quantizer := .other M fun _ _ ↦ fl.zero
  precomputedTable := fun _ ↦ fl.zero
  nlist := 1
  nprobe := 1
  maxCodes := 0
  parallelMode := 3
  quantizerSearch := fun _ _ _ _ ↦ (0, fl.zero)
  useIterator := false
  list := fun _ ↦ [⟨7, code⟩]
  nbits_eq := rfl
  hasScanner := Or.inl rfl

def oneQuery : IVFIndex.Schedule := ⟨1, [0], fun _ ↦ [], fun _ ↦ [], []⟩

/-- The results for one query, when the scan of the list has offered these. -/
def rowWith (offers : List (F32 × ℤ)) : ResultHeap :=
  (heapReorder CMax 1 (heapOffers CMax 1 (heapHeapify CMax 1 fun _ ↦ (⟨0#32⟩, 0)) offers)).2

def oneTables : QueryTables F32 :=
  { (oneCode fl M code ht).initQuery fl ht fun _ ↦ fl.zero with dis0 := fl.zero }

def oneAdds : List (ℕ × F32) :=
  (oneCode fl M code ht).addsOf fl (oneTables fl M code ht)
    (listCodes none 1 (IVFIndex.codeAt [⟨7, code⟩]) (IVFIndex.idAt [⟨7, code⟩]))

def oneContext : SearchContext := ⟨1, 1, none, false, none, none, true⟩

theorem searchRow_oneCode {assign : ℕ → ℤ × F32} (hassign : assign 0 = (0, fl.zero)) :
    ((oneCode fl M code ht).toIVFIndex fl).searchRowWith oneContext
        ((oneCode fl M code ht).scanner fl oneContext) (fun _ _ ↦ fl.zero) assign 0
        (fun _ ↦ (⟨0#32⟩, 0)) =
      .ok (rowWith ((oneAdds fl M code ht).map fun a ↦
        (a.2, (IVFIndex.idAt [⟨7, code⟩] a.1).toInt))) := by
  have hprobes : IVFIndex.probesOf oneContext assign 0 = [(0, fl.zero)] := congrArg (· :: []) hassign
  unfold IVFIndex.searchRowWith
  rw [hprobes]
  rfl

theorem search_oneCode :
    (oneCode fl M code ht).search fl 1 (fun _ ↦ oneQuery) (fun _ _ ↦ fl.zero) 1 1 none
        (fun _ _ ↦ (⟨0#32⟩, 0)) = .ok (update (fun _ _ ↦ (⟨0#32⟩, 0)) 0 (rowWith
          ((oneAdds fl M code ht).map fun a ↦ (a.2, (IVFIndex.idAt [⟨7, code⟩] a.1).toInt)))) := by
  have hcontext : ((oneCode fl M code ht).toIVFIndex fl).context 1 false none = oneContext := by
    have hinit : decide ((3 : Int32) &&& IVFIndex.noHeapInit = 0) = true := by decide
    exact congrArg (SearchContext.mk 1 1 none false none none) hinit
  have hpmode : ((oneCode fl M code ht).toIVFIndex fl).pmode = 3 := by
    change (3 &&& ~~~IVFIndex.noHeapInit : Int32) = 3
    decide
  have hloops : ∀ assign : ℕ → ℤ × F32, assign 0 = (0, fl.zero) →
      ((oneCode fl M code ht).toIVFIndex fl).searchLoopsWith oneContext
        ((oneCode fl M code ht).scanner fl oneContext) oneQuery (fun _ _ ↦ fl.zero) assign 1
        (fun _ _ ↦ (⟨0#32⟩, 0)) = .ok (update (fun _ _ ↦ (⟨0#32⟩, 0)) 0 (rowWith
          ((oneAdds fl M code ht).map fun a ↦ (a.2, (IVFIndex.idAt [⟨7, code⟩] a.1).toInt)))) := by
    intro assign hassign
    unfold IVFIndex.searchLoopsWith
    rw [hpmode, if_pos (Or.inr rfl)]
    unfold IVFIndex.searchByQueryWith
    change List.foldlM _ _ [0] = _
    rw [List.foldlM_cons]
    dsimp only
    rw [searchRow_oneCode fl M code ht hassign]
    rfl
  unfold search IVFIndex.searchWith IVFIndex.subSearchWith IVFIndex.searchPreassignedWith
  dsimp only [Option.map_none]
  rw [hpmode, if_neg (by decide), hcontext, hloops _ rfl]
  rfl

theorem label_rowWith_nil : (rowWith [] 0).2 = -1 := by decide

theorem label_rowWith_one : (rowWith [(⟨0#32⟩, 7)] 0).2 = 7 := by decide

/-- A code of `M` bytes with the first `hd` bits set. -/
def firstBits (hd : ℕ) : List UInt8 :=
  (List.range M).map fun i ↦ UInt8.ofNat (2 ^ min 8 (hd - 8 * i) - 1)

end

theorem memBit_firstBits {M hd p : ℕ} (hp : p < 8 * M) :
    memBit (bytesOf (firstBits M hd)) p = decide (p < hd) := by
  have hlt : p / 8 < M := Nat.div_lt_of_lt_mul hp
  have hpow : 2 ^ min 8 (hd - 8 * (p / 8)) ≤ 2 ^ 8 := Nat.pow_le_pow_right (by decide) (min_le_left _ _)
  have hbyte : 2 ^ min 8 (hd - 8 * (p / 8)) - 1 < 256 := by
    have hpos := Nat.two_pow_pos (min 8 (hd - 8 * (p / 8)))
    omega
  unfold memBit bytesOf firstBits
  rw [List.getD_eq_getElem?_getD, List.getElem?_map, List.getElem?_range hlt, Option.map_some,
    Option.getD_some, UInt8.toNat_ofNat', Nat.mod_eq_of_lt hbyte, Nat.testBit_two_pow_sub_one]
  refine decide_eq_decide.mpr ?_
  have hmod := Nat.mod_lt p (show 0 < 8 by decide)
  have hdiv := Nat.div_add_mod p 8
  rw [lt_min_iff]
  omega

theorem hamming_firstBits {M hd : ℕ} (hhd : hd ≤ 8 * M) :
    hamming M (fun _ ↦ 0) (bytesOf (firstBits M hd)) = hd := by
  obtain ⟨rest, hrest⟩ := Nat.exists_eq_add_of_le hhd
  have hzero : ∀ p, memBit (fun _ ↦ 0) p = false := fun p ↦ Nat.zero_testBit _
  rw [hamming_eq, differing_congr (fun p _ ↦ hzero p) fun p hp ↦ memBit_firstBits hp, hrest,
    differing_add]
  have hlow : differing hd (fun _ ↦ false) (fun p ↦ decide (p < hd)) = hd := by
    have hall : ∀ p ∈ List.range hd, (false != decide (p < hd)) = true := by
      intro p hp
      rw [decide_eq_true (List.mem_range.mp hp)]
      rfl
    exact (List.countP_eq_length.mpr hall).trans List.length_range
  have hhigh : differing rest (fun _ ↦ false) (fun p ↦ decide (hd + p < hd)) = 0 := by
    refine List.countP_eq_zero.mpr fun p _ ↦ ?_
    dsimp only
    rw [decide_eq_false (Nat.not_lt.mpr (Nat.le_add_right hd p))]
    exact Bool.false_ne_true
  rw [hlow, hhigh, Nat.add_zero]

end IVFPQIndex

namespace Floats.ZeroLaws

variable {fl : Floats F32}

theorem l2sqr (hfl : fl.ZeroLaws) (n : ℕ) : fl.l2sqr (fun _ ↦ fl.zero) (fun _ ↦ fl.zero) n = fl.zero := by
  unfold Floats.l2sqr
  dsimp only
  rw [hfl.sub, hfl.mul]
  induction n with
  | zero => rfl
  | succ n ih => rw [List.range_succ, List.foldl_append, ih, List.foldl_cons, hfl.add, List.foldl_nil]

theorem distanceSingleCode (hfl : fl.ZeroLaws) (pq : ProductQuantizer F32) (code : ℕ → UInt8) :
    pq.distanceSingleCode fl (fun _ ↦ fl.zero) code = fl.zero := by
  unfold ProductQuantizer.distanceSingleCode
  induction pq.M with
  | zero => rfl
  | succ n ih => rw [List.range_succ, List.foldl_append, ih, List.foldl_cons, hfl.add, List.foldl_nil]

theorem argmin (hfl : fl.ZeroLaws) (bound : F32) (n : ℕ) :
    (fl.argmin bound n fun _ ↦ fl.zero).getD 0 = 0 := by
  unfold Floats.argmin
  cases hbound : fl.lt fl.zero bound with
  | false =>
      have hrun : (List.range n).foldl (fun (s : F32 × Option ℕ) i ↦
          if fl.lt fl.zero s.1 then (fl.zero, some i) else s) (bound, none) = (bound, none) := by
        induction n with
        | zero => rfl
        | succ n ih =>
            rw [List.range_succ, List.foldl_append, ih, List.foldl_cons, List.foldl_nil, hbound]
            rfl
      rw [hrun]
      rfl
  | true =>
      cases n with
      | zero => rfl
      | succ n =>
          have hrun : (List.range (n + 1)).foldl (fun (s : F32 × Option ℕ) i ↦
              if fl.lt fl.zero s.1 then (fl.zero, some i) else s) (bound, none) = (fl.zero, some 0) := by
            induction n with
            | zero =>
                rw [List.range_one, List.foldl_cons, List.foldl_nil, hbound]
                rfl
            | succ n ih =>
                rw [List.range_succ, List.foldl_append, ih, List.foldl_cons, List.foldl_nil, hfl.lt]
                rfl
          rw [hrun]
          rfl

end Floats.ZeroLaws

namespace IVFPQIndex

variable {fl : Floats F32} {M : ℕ} {code : List UInt8} {ht : Int32}

theorem qCode_oneCode (hfl : fl.ZeroLaws) (hht : ht ≠ 0) (i : ℕ) :
    (((oneCode fl M code ht).initQuery fl ht fun _ ↦ fl.zero).qCode).getD i 0 = 0 := by
  have hcode : ((oneCode fl M code ht).initQuery fl ht fun _ ↦ fl.zero).qCode =
      (oneCode fl M code ht).pq.computeCode fl fun _ ↦ fl.zero := by
    unfold IndexIVFPQ.initQuery
    rw [if_pos ⟨rfl, hht⟩]
  have hzeros : (oneCode fl M code ht).pq.computeCode fl (fun _ ↦ fl.zero) =
      (List.range M).map fun _ ↦ 0 := by
    change ((List.range M).map fun m ↦ (fl.argmin fl.huge _ fun j ↦
      fl.l2sqr (fun _ ↦ fl.zero) (fun _ ↦ fl.zero) _).getD 0).map UInt8.ofNat = _
    simp only [hfl.l2sqr, hfl.argmin, List.map_map]
    rfl
  rw [hcode, hzeros, List.getD_eq_getElem?_getD, List.getElem?_map]
  cases (List.range M)[i]? with
  | none => rfl
  | some m => rfl

theorem tableDistance_oneCode (hfl : fl.ZeroLaws) (list : ListCodes) (j : ℕ) :
    (oneCode fl M code ht).tableDistance fl (oneTables fl M code ht) list j = fl.zero := by
  have htable : ((oneCode fl M code ht).initQuery fl ht fun _ ↦ fl.zero).simTable = fun _ ↦ fl.zero := by
    rw [IndexIVFPQ.initQuery_simTable]
    funext p
    change fl.l2sqr (fun _ ↦ fl.zero) (fun _ ↦ fl.zero) _ = fl.zero
    exact hfl.l2sqr _
  unfold IndexIVFPQ.tableDistance oneTables
  dsimp only
  rw [htable, hfl.distanceSingleCode, hfl.add]

/-- The scan adds the code if it is within the threshold. -/
theorem oneAdds_eq (hfl : fl.ZeroLaws) {hd : ℕ} (hhd : hd ≤ 8 * M) (ht : Int32) :
    oneAdds fl M (firstBits M hd) ht = if Passes ht hd then [(0, fl.zero)] else [] := by
  have hpasses : Passes ht ((oneCode fl M (firstBits M hd) ht).hammingTo
      (oneTables fl M (firstBits M hd) ht) (listCodes none 1 (IVFIndex.codeAt [⟨7, firstBits M hd⟩]) (IVFIndex.idAt [⟨7, firstBits M hd⟩])) 0) ↔
        Passes ht hd := by
    by_cases hht : ht = 0
    · rw [hht]
      exact iff_of_true (Or.inl (by decide)) (Or.inl (by decide))
    · have hzero : (fun i ↦ (((oneCode fl M (firstBits M hd) ht).initQuery fl ht
          fun _ ↦ fl.zero).qCode).getD i 0) = fun _ ↦ 0 := funext (qCode_oneCode hfl hht)
      unfold IndexIVFPQ.hammingTo oneTables
      rw [codeSize_eq]
      dsimp only
      rw [hzero]
      change Passes ht (hamming M (fun _ ↦ 0) (bytesOf (firstBits M hd))) ↔ _
      rw [hamming_firstBits hhd]
  have hfilter : ([0].filter fun j ↦ decide (Passes ht ((oneCode fl M (firstBits M hd) ht).hammingTo
      (oneTables fl M (firstBits M hd) ht) (listCodes none 1 (IVFIndex.codeAt [⟨7, firstBits M hd⟩])
        (IVFIndex.idAt [⟨7, firstBits M hd⟩])) j))) = if Passes ht hd then [0] else [] := by
    simp only [List.filter_cons, List.filter_nil, decide_eq_true_eq, hpasses]
  unfold oneAdds
  rw [addsOf_eq fun _ ↦ rfl]
  refine (congrArg (List.map _) hfilter).trans ?_
  by_cases hpass : Passes ht hd
  · rw [if_pos hpass, if_pos hpass, List.map_singleton, tableDistance_oneCode hfl]
  · rw [if_neg hpass, if_neg hpass, List.map_nil]

theorem label_oneCode (hfl : fl.ZeroLaws) {hd : ℕ} (hhd : hd ≤ 8 * M) (ht : Int32) :
    (rowWith ((oneAdds fl M (firstBits M hd) ht).map fun a ↦
      (a.2, (IVFIndex.idAt [⟨7, firstBits M hd⟩] a.1).toInt)) 0).2 = if Passes ht hd then 7 else -1 := by
  rw [oneAdds_eq hfl hhd]
  by_cases hpass : Passes ht hd
  · rw [if_pos hpass, if_pos hpass, List.map_singleton, hfl.zero]
    exact label_rowWith_one
  · rw [if_neg hpass, if_neg hpass]
    exact label_rowWith_nil

/-- Thresholds that give the same results let the same Hamming distances pass. -/
theorem samePasses_of_honours (hfl : fl.ZeroLaws) {g h : Int32}
    (hhonours : HonoursPolysemousHt fl M g h) : SamePasses M g h := by
  intro hd hhd
  have hsearch := hhonours Unit (oneCode fl M (firstBits M hd) 0) rfl 0 1 (fun _ ↦ oneQuery)
    (fun _ _ ↦ fl.zero) 1 1 fun _ _ ↦ (⟨0#32⟩, 0)
  rw [search_onlyHt] at hsearch
  have hrows := Except.ok.inj ((search_oneCode fl M (firstBits M hd) g).symm.trans
    (hsearch.trans (search_oneCode fl M (firstBits M hd) h)))
  have hlabel := congrArg Prod.snd (congrFun (congrFun hrows 0) 0)
  rw [update_self, update_self, label_oneCode hfl hhd, label_oneCode hfl hhd] at hlabel
  by_cases hg : Passes g hd
  · by_cases hh : Passes h hd
    · exact iff_of_true hg hh
    · rw [if_pos hg, if_neg hh] at hlabel
      cases hlabel
  · by_cases hh : Passes h hd
    · rw [if_neg hg, if_pos hh] at hlabel
      cases hlabel
    · exact iff_of_false hg hh

/-- A threshold in the parameters is honoured if and only if the one of the index lets the same Hamming
distances pass. -/
theorem honoursPolysemousHt_iff (hfl : fl.ZeroLaws) {g h : Int32} :
    HonoursPolysemousHt fl M g h ↔ SamePasses M g h :=
  ⟨samePasses_of_honours hfl, honours_of_samePasses⟩

/-- The arithmetic of floats on zeros, and NaN elsewhere. -/
def zeroFloats : Floats F32 where
  zero := ⟨0#32⟩
  two := ⟨0x40000000#32⟩
  minusTwo := ⟨0xc0000000#32⟩
  huge := ⟨0x7f800000#32⟩
  e20 := ⟨0x60ad78ec#32⟩
  add a b := if a.bits = 0#32 ∧ b.bits = 0#32 then ⟨0#32⟩ else ⟨0x7fc00000#32⟩
  sub a b := if a.bits = 0#32 ∧ b.bits = 0#32 then ⟨0#32⟩ else ⟨0x7fc00000#32⟩
  mul a b := if a.bits = 0#32 ∧ b.bits = 0#32 then ⟨0#32⟩ else ⟨0x7fc00000#32⟩
  lt := F32.lt

theorem zeroFloats_laws : zeroFloats.ZeroLaws :=
  ⟨rfl, by decide, by decide, by decide, by decide⟩

/-- Two thresholds that all codes of two bytes pass. -/
theorem honoursPolysemousHt_seventeen : HonoursPolysemousHt zeroFloats 2 0 17 :=
  (honoursPolysemousHt_iff zeroFloats_laws).mpr fun hd hhd ↦
    iff_of_true (Or.inl (by decide)) (Or.inr (lt_of_le_of_lt (Int.ofNat_le.mpr hhd) (by decide)))

/-- The threshold of an index that has none stays 0, though the parameters have 4. -/
theorem not_honoursPolysemousHt_four : ¬HonoursPolysemousHt zeroFloats 1 0 4 := by
  intro hhonours
  have hsame := samePasses_of_honours zeroFloats_laws hhonours 4 (by decide)
  exact absurd (hsame.mp (Or.inl (by decide))) (by decide)

end IVFPQIndex

end FaissNavix
