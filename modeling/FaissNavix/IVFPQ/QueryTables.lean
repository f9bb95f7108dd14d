import FaissNavix.IVF.Search
import FaissNavix.ProductQuantizer

/-!
# Tables for a query and a list

`QueryTables` of `faiss/IndexIVFPQ.cpp`, with what it reads of an `IndexIVFPQ`, and
`initialize_IVFPQ_precomputed_table`.

A function is `none` where it throws, or writes behind the end of a buffer.
-/

namespace FaissNavix

variable {F : Type}

/-- The coarse quantizer: a `MultiIndexQuantizer`, given by its product quantizer, or another index,
given by its dimension and by what `reconstruct` makes of a key. -/
inductive CoarseQuantizer (F : Type) where
  | multiIndex (pq : ProductQuantizer F)
  | other (d : ℕ) (reconstruct : ℤ → ℕ → F)

namespace CoarseQuantizer

def dim : CoarseQuantizer F → ℕ
  | .multiIndex cpq => cpq.d
  | .other d _ => d

/-- The numbers that the loops over a `MultiIndexQuantizer` read from a key: `key & mask` after `m`
times `key >>= nbits`. -/
def digit (cpq : ProductQuantizer F) (key : ℤ) (m : ℕ) : ℕ :=
  (key >>> (m * cpq.nbits) % 2 ^ cpq.nbits).toNat

/-- `reconstruct` -/
def reconstruct : CoarseQuantizer F → ℤ → ℕ → F
  | .multiIndex cpq, key => fun p ↦ cpq.getCentroids (p / cpq.dsub) (digit cpq key (p / cpq.dsub))
      (p % cpq.dsub)
  | .other _ reconstruct, key => reconstruct key

/-- `compute_residual` -/
def computeResidual (fl : Floats F) (quantizer : CoarseQuantizer F) (x : ℕ → F) (key : ℤ) : ℕ → F :=
  fun i ↦ fl.sub (x i) (quantizer.reconstruct key i)

end CoarseQuantizer

/-- What the scanner reads of an `IndexIVFPQ`. -/
structure IndexIVFPQ (F : Type) where
  pq : ProductQuantizer F
  metricType : MetricType
  byResidual : Bool
  usePrecomputedTable : ℤ
  polysemousHt : Int32
  quantizer : CoarseQuantizer F
  precomputedTable : ℕ → F

/-- `IVFPQSearchParameters` -/
structure IVFPQSearchParameters (QP : Type) extends IVFSearchParameters QP where
  scanTableThreshold : ℕ
  polysemousHt : Int32

/-! ## Precomputed tables -/

section PrecomputedTable

variable (fl : Floats F) (pq : ProductQuantizer F)

/-- `r_norms` -/
def rNorms : ℕ → F := fun p ↦ fl.normL2sqr (pq.getCentroids (p / pq.ksub) (p % pq.ksub)) pq.dsub

/-- The tables of `pq` for vectors one after the other, with the norms added. -/
def precomputedTables (xs : ℕ → F) : ℕ → F := fun p ↦
  fl.madd (rNorms fl pq) fl.two
    (fun q ↦ pq.computeInnerProdTables fl xs (p / (pq.M * pq.ksub) * (pq.M * pq.ksub) + q))
    (p % (pq.M * pq.ksub))

/-- The centroids that the loop for table 2 reorders. -/
def reorderedCentroids (cpq : ProductQuantizer F) : ℕ → F := fun p ↦
  cpq.getCentroids (p % cpq.d / cpq.dsub) (p / cpq.d) (p % cpq.d % cpq.dsub)

/-- The tables of type 1 and 2, and none for another type. -/
def buildPrecomputedTable (quantizer : CoarseQuantizer F) (use : ℤ) (table : ℕ → F) :
    Option (ℤ × (ℕ → F)) :=
  if use = 1 then
    some (use, precomputedTables fl pq fun p ↦ quantizer.reconstruct (p / pq.d : ℕ) (p % pq.d))
  else if use = 2 then
    match quantizer with
    | .multiIndex cpq =>
        if pq.M % cpq.M = 0 then some (use, precomputedTables fl pq (reorderedCentroids cpq))
        else none
    | .other .. => none
  else some (use, table)

/-- The type of table that is chosen for `nlist` lists: 2 where the quantizer has it, and 1 unless the
table would be too big. -/
def chooseTable (maxBytes nlist : ℕ) (quantizer : CoarseQuantizer F) : ℤ :=
  let one : ℤ := if maxBytes < pq.M * pq.ksub * nlist * 4 then 0 else 1
  match quantizer with
  | .multiIndex cpq => if pq.M % cpq.M = 0 then 2 else one
  | .other .. => one

/-- `initialize_IVFPQ_precomputed_table`: the type of table that is used, and the table, where
`quantizerMetric` is the metric of the quantizer and `nlist` its size. -/
def initializePrecomputedTable (maxBytes nlist : ℕ) (quantizerMetric : MetricType)
    (quantizer : CoarseQuantizer F) (byResidual : Bool) (usePrecomputedTable : ℤ) (table : ℕ → F) :
    Option (ℤ × (ℕ → F)) :=
  if quantizer.dim ≠ pq.d then none
  else if usePrecomputedTable = -1 then some (-1, table)
  else if usePrecomputedTable = 0 then
    if quantizerMetric ≠ .l2 ∨ byResidual = false then some (0, table)
    else
      let use := chooseTable pq maxBytes nlist quantizer
      if use = 0 then some (0, table) else buildPrecomputedTable fl pq quantizer use table
  else buildPrecomputedTable fl pq quantizer usePrecomputedTable table

end PrecomputedTable

/-! ## Query tables -/

/-- The buffers of `QueryTables` for a query and a list. -/
structure QueryTables (F : Type) where
  simTable : ℕ → F
  simTable2 : ℕ → F
  /-- The tables that `sim_table_ptrs` point to, one for each sub-quantizer. -/
  simTablePtrs : ℕ → ℕ → F
  /-- `q_code`, which is resized if there is a polysemous threshold. -/
  qCode : List UInt8
  dis0 : F

namespace IndexIVFPQ

variable (fl : Floats F) (ivfpq : IndexIVFPQ F)

/-- The threshold that the constructor of `QueryTables` chooses. -/
def tablesHt {QP : Type} (params : Option (IVFPQSearchParameters QP)) : Int32 :=
  match params with
  | some params => params.polysemousHt
  | none => ivfpq.polysemousHt

variable (ht : Int32)

/-- The buffers as the constructor makes them. -/
def newTables : QueryTables F where
  simTable := fun _ ↦ fl.zero
  simTable2 := fun _ ↦ fl.zero
  simTablePtrs := fun _ _ ↦ fl.zero
  qCode := if ht ≠ 0 then List.replicate ivfpq.pq.codeSize 0 else []
  dis0 := fl.zero

/-- `init_query` -/
def initQuery (qi : ℕ → F) : QueryTables F :=
  let tables := ivfpq.newTables fl ht
  let tables :=
    if ivfpq.metricType = .innerProduct then
      { tables with simTable := ivfpq.pq.computeInnerProdTable fl qi }
    else if ivfpq.byResidual = false then
      { tables with simTable := ivfpq.pq.computeDistanceTable fl qi }
    else if ivfpq.usePrecomputedTable ≠ 0 then
      { tables with simTable2 := ivfpq.pq.computeInnerProdTable fl qi }
    else tables
  if ivfpq.byResidual = false ∧ ht ≠ 0 then { tables with qCode := ivfpq.pq.computeCode fl qi }
  else tables

variable (qi : ℕ → F) (key : ℤ) (coarseDis : F) (tables : QueryTables F)

/-- `precompute_list_tables_IP` -/
def precomputeListTablesIP : QueryTables F :=
  let decoded := ivfpq.quantizer.reconstruct key
  let dis0 := fl.innerProduct qi decoded ivfpq.pq.d
  if ht ≠ 0 then
    { tables with dis0, qCode := ivfpq.pq.computeCode fl fun i ↦ fl.sub (qi i) (decoded i) }
  else { tables with dis0 }

section
variable (cpq : ProductQuantizer F) (simTable : ℕ → F) (qCode : List UInt8) (m : ℕ)

/-- The rows of `precomputed_table` for the parts of a key, one for each sub-quantizer. -/
def multiIndexRow : ℕ → F := fun i ↦
  let mf := ivfpq.pq.M / cpq.M
  let cm := m / mf
  ivfpq.precomputedTable
    ((CoarseQuantizer.digit cpq key cm * ivfpq.pq.M + cm * mf) * ivfpq.pq.ksub +
      (m % mf * ivfpq.pq.ksub + i))

/-- The list table for a `MultiIndexQuantizer`. -/
def multiIndexTable (simTable2 : ℕ → F) : ℕ → F := fun p ↦
  fl.add (ivfpq.multiIndexRow key cpq (p / ivfpq.pq.ksub) (p % ivfpq.pq.ksub))
    (fl.mul fl.minusTwo (simTable2 p))

/-- `q_code[m]` as `fvec_madd_and_argmin` gives it, where there is room for it. -/
def writeArgmin : Option (List UInt8) :=
  if m < qCode.length then
    let c := fl.argmin fl.e20 ivfpq.pq.ksub fun i ↦ simTable (m * ivfpq.pq.ksub + i)
    some (qCode.set m ((c.map UInt8.ofNat).getD 255))
  else none

/-- `q_code` for a `MultiIndexQuantizer`, with a byte for each sub-quantizer. -/
def multiIndexCode : Option (List UInt8) :=
  (List.range ivfpq.pq.M).foldlM (ivfpq.writeArgmin fl simTable) qCode

/-- The tables of type 2 for a list. -/
def multiIndexTables : Option (QueryTables F) :=
  let simTable := ivfpq.multiIndexTable fl key cpq tables.simTable2
  let qCode := if ht ≠ 0 then ivfpq.multiIndexCode fl simTable tables.qCode else some tables.qCode
  qCode.map fun qCode ↦ { tables with simTable, qCode, dis0 := coarseDis }

end

/-- `precompute_list_tables_L2` -/
def precomputeListTablesL2 : Option (QueryTables F) :=
  let residual := ivfpq.quantizer.computeResidual fl qi key
  let qCode := if ht ≠ 0 then ivfpq.pq.computeCode fl residual else tables.qCode
  if ivfpq.usePrecomputedTable = 0 ∨ ivfpq.usePrecomputedTable = -1 then
    some { tables with simTable := ivfpq.pq.computeDistanceTable fl residual, qCode, dis0 := fl.zero }
  else if ivfpq.usePrecomputedTable = 1 then
    let row := fun p ↦ ivfpq.precomputedTable (key.toNat * ivfpq.pq.ksub * ivfpq.pq.M + p)
    some { tables with
      simTable := fl.madd row fl.minusTwo tables.simTable2
      qCode
      dis0 := coarseDis }
  else if ivfpq.usePrecomputedTable = 2 then
    match ivfpq.quantizer with
    | .multiIndex cpq => ivfpq.multiIndexTables fl ht key coarseDis tables cpq
    | .other .. => none
  else some { tables with dis0 := fl.zero }

/-- `precompute_list_tables` -/
def precomputeListTables : Option (QueryTables F) :=
  if ivfpq.byResidual then
    if ivfpq.metricType = .innerProduct then
      some (ivfpq.precomputeListTablesIP fl ht qi key tables)
    else ivfpq.precomputeListTablesL2 fl ht qi key coarseDis tables
  else some { tables with dis0 := fl.zero }

/-- `sim_table_ptrs` for a list. -/
def setPointers : Option (QueryTables F) :=
  if ivfpq.usePrecomputedTable = 1 then
    some { tables with
      simTablePtrs := fun m i ↦ ivfpq.precomputedTable
        (key.toNat * ivfpq.pq.ksub * ivfpq.pq.M + (m * ivfpq.pq.ksub + i))
      dis0 := coarseDis }
  else if ivfpq.usePrecomputedTable = 2 then
    match ivfpq.quantizer with
    | .multiIndex cpq =>
        some { tables with simTablePtrs := ivfpq.multiIndexRow key cpq, dis0 := coarseDis }
    | .other .. => none
  else none

/-- `precompute_list_table_pointers_L2` -/
def precomputeListTablePointersL2 : Option (QueryTables F) := do
  let tables ← ivfpq.setPointers key coarseDis tables
  if ht ≠ 0 then none else some tables

/-- `precompute_list_table_pointers` -/
def precomputeListTablePointers : Option (QueryTables F) :=
  if ivfpq.byResidual then
    if ivfpq.metricType = .innerProduct then none
    else ivfpq.precomputeListTablePointersL2 ht key coarseDis tables
  else some { tables with dis0 := fl.zero }

variable {fl ivfpq ht qi key coarseDis tables}

/-! ## What the buffers have -/

theorem initQuery_simTable : (ivfpq.initQuery fl ht qi).simTable =
    if ivfpq.metricType = .innerProduct then ivfpq.pq.computeInnerProdTable fl qi
    else if ivfpq.byResidual = false then ivfpq.pq.computeDistanceTable fl qi
    else fun _ ↦ fl.zero := by
  unfold initQuery newTables
  dsimp only
  by_cases hmetric : ivfpq.metricType = .innerProduct
  · rw [if_pos hmetric, if_pos hmetric]
    split <;> rfl
  rw [if_neg hmetric, if_neg hmetric]
  by_cases hres : ivfpq.byResidual = false
  · rw [if_pos hres, if_pos hres]
    split <;> rfl
  · rw [if_neg hres, if_neg hres, if_neg fun h ↦ hres h.1]
    split <;> rfl

section
variable {cpq : ProductQuantizer F} {tables' : QueryTables F} (simTable : ℕ → F) (q : List UInt8)

theorem initQuery_simTable2 : (ivfpq.initQuery fl ht qi).simTable2 =
    if ivfpq.metricType = .innerProduct ∨ ivfpq.byResidual = false ∨ ivfpq.usePrecomputedTable = 0 then
      fun _ ↦ fl.zero
    else ivfpq.pq.computeInnerProdTable fl qi := by
  unfold initQuery newTables
  dsimp only
  by_cases hmetric : ivfpq.metricType = .innerProduct
  · rw [if_pos hmetric, if_pos (Or.inl hmetric)]
    split <;> rfl
  rw [if_neg hmetric]
  by_cases hres : ivfpq.byResidual = false
  · rw [if_pos hres, if_pos (Or.inr (Or.inl hres))]
    split <;> rfl
  rw [if_neg hres, if_neg fun h ↦ hres h.1]
  by_cases huse : ivfpq.usePrecomputedTable = 0
  · rw [if_neg (not_not.mpr huse), if_pos (Or.inr (Or.inr huse))]
  · have hnot : ¬(ivfpq.metricType = .innerProduct ∨ ivfpq.byResidual = false ∨
        ivfpq.usePrecomputedTable = 0) := fun h ↦ h.elim hmetric fun h ↦ h.elim hres huse
    rw [if_pos huse, if_neg hnot]

/-- Before the list is known, there is a code for the query, or room for one. -/
theorem initQuery_qCode (hres : ivfpq.byResidual = true) (hht : ht ≠ 0) :
    (ivfpq.initQuery fl ht qi).qCode.length = ivfpq.pq.codeSize := by
  have hnew : (ivfpq.newTables fl ht).qCode.length = ivfpq.pq.codeSize := by
    unfold newTables
    dsimp only
    rw [if_pos hht, List.length_replicate]
  have hres' : ¬ivfpq.byResidual = false := by rw [hres]; exact Bool.noConfusion
  unfold initQuery
  dsimp only
  rw [if_neg hres', if_neg fun h ↦ hres' h.1]
  split
  · exact hnew
  · split
    · exact hnew
    · exact hnew

theorem foldlM_writeArgmin (n : ℕ) (hn : n ≤ q.length) :
    ∃ q', (List.range n).foldlM (ivfpq.writeArgmin fl simTable) q = some q' ∧
      q'.length = q.length := by
  induction n with
  | zero => exact ⟨q, rfl, rfl⟩
  | succ n ih =>
      obtain ⟨q', hq', hlen⟩ := ih (Nat.le_of_succ_le hn)
      obtain ⟨q'', hwrite, hlen'⟩ : ∃ q'', ivfpq.writeArgmin fl simTable q' n = some q'' ∧
          q''.length = q'.length := ⟨_, if_pos (hlen ▸ hn), List.length_set⟩
      refine ⟨q'', ?_, hlen'.trans hlen⟩
      rw [List.range_succ, List.foldlM_append, hq']
      exact (Option.bind_some _ _).trans (by rw [List.foldlM_cons, hwrite]; rfl)

/-- A byte of `q_code` is written for each sub-quantizer. -/
theorem multiIndexCode_isSome :
    (ivfpq.multiIndexCode fl simTable q).isSome ↔ ivfpq.pq.M ≤ q.length := by
  unfold multiIndexCode
  constructor
  · intro hsome
    by_contra hlt
    obtain ⟨rest, hrest⟩ := Nat.exists_eq_add_of_lt (not_le.mp hlt)
    obtain ⟨q', hq', hlen⟩ := @foldlM_writeArgmin _ fl ivfpq simTable q _ (Nat.le_refl _)
    have hsplit : List.range ivfpq.pq.M = List.range q.length ++ q.length ::
        (List.range rest).map fun i ↦ q.length + 1 + i := by
      rw [hrest, Nat.add_right_comm, List.range_add, List.range_succ, List.append_assoc,
        List.singleton_append]
    have hout : ivfpq.writeArgmin fl simTable q' q.length = none :=
      if_neg (hlen ▸ Nat.lt_irrefl _)
    rw [hsplit, List.foldlM_append, hq'] at hsome
    change ((q.length :: _).foldlM (ivfpq.writeArgmin fl simTable) q').isSome = true at hsome
    rw [List.foldlM_cons, hout] at hsome
    cases hsome
  · intro hle
    obtain ⟨q', hq', -⟩ := @foldlM_writeArgmin _ fl ivfpq simTable q _ hle
    rw [hq']
    rfl

theorem precomputeListTablesL2_two
    (hquantizer : ivfpq.quantizer = .multiIndex cpq) (htwo : ivfpq.usePrecomputedTable = 2) :
    ivfpq.precomputeListTablesL2 fl ht qi key coarseDis tables' =
      ivfpq.multiIndexTables fl ht key coarseDis tables' cpq := by
  unfold precomputeListTablesL2
  rw [htwo, hquantizer]
  rfl

theorem multiIndexTables_spec
    (htables : ivfpq.multiIndexTables fl ht key coarseDis tables' cpq = some tables) :
    tables.simTable = ivfpq.multiIndexTable fl key cpq tables'.simTable2 ∧
      tables.dis0 = coarseDis := by
  obtain ⟨qCode, -, rfl⟩ := Option.map_eq_some_iff.mp htables
  exact ⟨rfl, rfl⟩

end

/-! ## Another threshold -/

theorem precomputeListTables_congr {g h : Int32} (hg : g ≠ 0) (hh : h ≠ 0) :
    ivfpq.precomputeListTables fl g qi key coarseDis (ivfpq.initQuery fl g qi) =
      ivfpq.precomputeListTables fl h qi key coarseDis (ivfpq.initQuery fl h qi) := by
  have hg : (g ≠ 0) = True := eq_true hg
  have hh : (h ≠ 0) = True := eq_true hh
  unfold precomputeListTables precomputeListTablesIP precomputeListTablesL2 multiIndexTables initQuery
    newTables
  simp only [hg, hh]

/-- Without a threshold, the tables are the same but for the code of the query, where there is room for
that. -/
theorem precomputeListTables_zero (hroom : ivfpq.pq.M ≤ ivfpq.pq.codeSize) (ht : Int32) :
    (ivfpq.precomputeListTables fl ht qi key coarseDis (ivfpq.initQuery fl ht qi)).map
        (fun tables ↦ (tables.simTable, tables.dis0)) =
      (ivfpq.precomputeListTables fl 0 qi key coarseDis (ivfpq.initQuery fl 0 qi)).map
        fun tables ↦ (tables.simTable, tables.dis0) := by
  have hsim : (ivfpq.initQuery fl ht qi).simTable = (ivfpq.initQuery fl 0 qi).simTable := by
    rw [initQuery_simTable, initQuery_simTable]
  have hsim2 : (ivfpq.initQuery fl ht qi).simTable2 = (ivfpq.initQuery fl 0 qi).simTable2 := by
    rw [initQuery_simTable2, initQuery_simTable2]
  unfold precomputeListTables
  cases hres : ivfpq.byResidual with
  | false =>
      change some ((ivfpq.initQuery fl ht qi).simTable, fl.zero) = some (_, fl.zero)
      rw [hsim]
  | true =>
      rw [if_pos rfl, if_pos rfl]
      by_cases hmetric : ivfpq.metricType = .innerProduct
      · rw [if_pos hmetric, if_pos hmetric]
        unfold precomputeListTablesIP
        dsimp only
        rw [if_neg (not_not.mpr rfl)]
        split
        · exact congrArg (fun t ↦ some (t, _)) hsim
        · exact congrArg (fun t ↦ some (t, _)) hsim
      rw [if_neg hmetric, if_neg hmetric]
      by_cases htwo : ivfpq.usePrecomputedTable = 2
      · cases hquantizer : ivfpq.quantizer with
        | other d reconstruct =>
            unfold precomputeListTablesL2
            rw [htwo, hquantizer]
            rfl
        | multiIndex cpq =>
            obtain ⟨qCode, hqCode⟩ : ∃ qCode, (if ht ≠ 0 then ivfpq.multiIndexCode fl
                (ivfpq.multiIndexTable fl key cpq (ivfpq.initQuery fl ht qi).simTable2)
                  (ivfpq.initQuery fl ht qi).qCode
                else some (ivfpq.initQuery fl ht qi).qCode) = some qCode := by
              by_cases hht : ht ≠ 0
              · rw [if_pos hht, ← Option.isSome_iff_exists, multiIndexCode_isSome,
                  initQuery_qCode hres hht]
                exact hroom
              · rw [if_neg hht]
                exact ⟨_, rfl⟩
            rw [precomputeListTablesL2_two hquantizer htwo, precomputeListTablesL2_two hquantizer htwo]
            unfold multiIndexTables
            dsimp only
            rw [hqCode, if_neg (not_not.mpr rfl), hsim2]
            rfl
      · unfold precomputeListTablesL2
        dsimp only
        rw [if_neg htwo, if_neg htwo, hsim, hsim2]
        by_cases hnone : ivfpq.usePrecomputedTable = 0 ∨ ivfpq.usePrecomputedTable = -1
        · rw [if_pos hnone, if_pos hnone]
          rfl
        rw [if_neg hnone, if_neg hnone]
        by_cases hone : ivfpq.usePrecomputedTable = 1
        · rw [if_pos hone, if_pos hone]
          rfl
        · rw [if_neg hone, if_neg hone]
          rfl

end IndexIVFPQ

end FaissNavix
