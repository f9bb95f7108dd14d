import FaissNavix.IVFPQ.Distances

/-!
# The distances that a scan of a list adds

`IndexIVFPQ.offersExactly_iff`: in exact arithmetic, the scans of an `IndexIVFPQ` agree, but for two
cases.  A polysemous scan takes 99999999 for the distance of an entry that is skipped, so that a
threshold above that keeps it; and for a `MultiIndexQuantizer`, `precompute_list_tables_L2` writes a
byte of `q_code` for each sub-quantizer, though a code may have less.
-/

namespace FaissNavix

open Finset

variable {F : Type} [CommRing F]

namespace IndexIVFPQ

variable {fl : Floats F} {ivfpq : IndexIVFPQ F} {list : ListCodes} {qi : ℕ → F} {key : ℤ}
  {coarseDis : F} {mode : ℕ} {ht : Int32} {tables : QueryTables F}

/-! ## Tables for the list -/

theorem initQuery_residual (h : fl.Exact) (hmetric : ivfpq.metricType ≠ .innerProduct)
    (hres : ivfpq.byResidual = true) (huse : ivfpq.usePrecomputedTable ≠ 0) (m : ℕ) {c : ℕ}
    (hc : c < ivfpq.pq.ksub) : (ivfpq.initQuery fl ht qi).simTable2 (m * ivfpq.pq.ksub + c) =
      ∑ t ∈ range ivfpq.pq.dsub, qi (m * ivfpq.pq.dsub + t) * ivfpq.pq.getCentroids m c t := by
  have hnot : ¬(ivfpq.metricType = .innerProduct ∨ ivfpq.byResidual = false ∨
      ivfpq.usePrecomputedTable = 0) := by
    rw [hres]
    rintro (h | h | h)
    · exact hmetric h
    · exact Bool.noConfusion h
    · exact huse h
  rw [initQuery_simTable2, if_neg hnot]
  exact ivfpq.pq.computeInnerProdTable_apply h qi m hc

section
variable (h : fl.Exact) (hpre : ivfpq.Precomputed fl)
include h hpre

/-- The distances to what is left of the vectors, with the tables of each type. -/
theorem tableDistance_residual
    (hmetric : ivfpq.metricType ≠ .innerProduct) (hres : ivfpq.byResidual = true)
    (huse : ivfpq.usePrecomputedTable ∈ ({-1, 0, 1, 2} : Set ℤ)) (hkey : 0 ≤ key)
    (hcoarse : coarseDis = ∑ i ∈ range ivfpq.pq.d, (qi i - ivfpq.quantizer.reconstruct key i) ^ 2)
    (htables : ivfpq.precomputeListTablesL2 fl ht qi key coarseDis (ivfpq.initQuery fl ht qi) =
      some tables) (j : ℕ) : ivfpq.tableDistance fl tables list j =
        ivfpq.exactDistance qi (ivfpq.reconstructCode fl key (list.code j)) := by
  have hterm : ∀ m, pqDecode ivfpq.pq.nbits (list.code j) m < ivfpq.pq.ksub :=
    ivfpq.pq.pqDecode_lt_ksub (list.code j)
  rw [tableDistance_sum h]
  by_cases htwo : ivfpq.usePrecomputedTable = 2
  · obtain ⟨cpq, hquantizer, -, -⟩ := hpre.tableOf.2.2 htwo
    rw [precomputeListTablesL2_two hquantizer htwo] at htables
    obtain ⟨hsim, hdis0⟩ := multiIndexTables_spec htables
    rw [hdis0, hcoarse, exactDistance_three_terms h hmetric hres]
    refine congrArg (_ + ·) (sum_congr rfl fun m hm ↦ ?_)
    rw [hsim, multiIndexTable, mul_add_div_self m (hterm m), mul_add_mod_self m (hterm m),
      multiIndexRow_eq h hpre htwo hquantizer (mem_range.mp hm) (hterm m),
      initQuery_residual h hmetric hres (by rw [htwo]; decide) m (hterm m), h.add, h.mul, h.minusTwo,
      neg_mul, ← sub_eq_add_neg, ProductQuantizer.centroidOf]
  by_cases hone : ivfpq.usePrecomputedTable = 1
  · unfold precomputeListTablesL2 at htables
    rw [hone] at htables
    obtain rfl := Option.some.inj htables
    rw [exactDistance_three_terms h hmetric hres, ← hcoarse]
    refine congrArg (_ + ·) (sum_congr rfl fun m hm ↦ ?_)
    change fl.add (ivfpq.precomputedTable _) _ = _
    rw [precomputedTable_one h hpre hone hkey (mem_range.mp hm) (hterm m),
      initQuery_residual h hmetric hres (by rw [hone]; decide) m (hterm m), h.add, h.mul, h.minusTwo,
      neg_mul, ← sub_eq_add_neg, ProductQuantizer.centroidOf]
  · have hnone : ivfpq.usePrecomputedTable = 0 ∨ ivfpq.usePrecomputedTable = -1 := by
      rcases huse with huse | huse | huse | huse
      · exact Or.inr huse
      · exact Or.inl huse
      · exact absurd huse hone
      · exact absurd huse htwo
    unfold precomputeListTablesL2 at htables
    rw [if_pos hnone] at htables
    obtain rfl := Option.some.inj htables
    change fl.zero + ∑ m ∈ range ivfpq.pq.M, ivfpq.pq.computeDistanceTable fl _ _ = _
    rw [exactDistance_l2 h hmetric, h.zero, zero_add]
    refine sum_congr rfl fun m _ ↦ ?_
    rw [ivfpq.pq.computeDistanceTable_apply h _ m (hterm m)]
    refine sum_congr rfl fun t _ ↦ ?_
    unfold centroid CoarseQuantizer.computeResidual
    rw [hres, if_pos rfl, h.sub, ProductQuantizer.centroidOf]

/-- With the tables for a list, the distances are exact. -/
theorem tableDistance_eq
    (huse : ivfpq.usePrecomputedTable ∈ ({-1, 0, 1, 2} : Set ℤ)) (hkey : 0 ≤ key)
    (hcoarse : ivfpq.metricType ≠ .innerProduct → coarseDis =
      ∑ i ∈ range ivfpq.pq.d, (qi i - ivfpq.quantizer.reconstruct key i) ^ 2)
    (htables : ivfpq.precomputeListTables fl ht qi key coarseDis (ivfpq.initQuery fl ht qi) =
      some tables) (j : ℕ) : ivfpq.tableDistance fl tables list j =
        ivfpq.exactDistance qi (ivfpq.reconstructCode fl key (list.code j)) := by
  have hterm : ∀ m, pqDecode ivfpq.pq.nbits (list.code j) m < ivfpq.pq.ksub :=
    ivfpq.pq.pqDecode_lt_ksub (list.code j)
  unfold precomputeListTables at htables
  by_cases hmetric : ivfpq.metricType = .innerProduct
  · -- the table of the query, and the inner product with the centroid
    have hquery : tables.simTable = ivfpq.pq.computeInnerProdTable fl qi ∧
        tables.dis0 = ∑ i ∈ range ivfpq.pq.d, qi i * ivfpq.centroid key i := by
      unfold centroid
      cases hres : ivfpq.byResidual with
      | false =>
          rw [hres] at htables
          obtain rfl := Option.some.inj htables
          exact ⟨initQuery_simTable.trans (if_pos hmetric), by simp [h.zero]⟩
      | true =>
          rw [hres, if_pos rfl, if_pos hmetric] at htables
          obtain rfl := Option.some.inj htables
          unfold precomputeListTablesIP
          dsimp only
          simp only [if_true]
          constructor
          · split <;> exact initQuery_simTable.trans (if_pos hmetric)
          · split <;> exact h.innerProduct _ _ _
    rw [tableDistance_sum h, hquery.1, hquery.2, exactDistance_ip h hmetric]
    refine congrArg (_ + ·) (sum_congr rfl fun m _ ↦ ?_)
    exact ivfpq.pq.computeInnerProdTable_apply h qi m (hterm m)
  cases hres : ivfpq.byResidual with
  | false =>
      rw [hres] at htables
      obtain rfl := Option.some.inj htables
      rw [tableDistance_sum h, exactDistance_l2 h hmetric]
      change fl.zero + ∑ m ∈ range ivfpq.pq.M, (ivfpq.initQuery fl ht qi).simTable _ = _
      rw [initQuery_simTable, if_neg hmetric, if_pos hres, h.zero, zero_add]
      refine sum_congr rfl fun m _ ↦ ?_
      rw [ivfpq.pq.computeDistanceTable_apply h qi m (hterm m)]
      refine sum_congr rfl fun t _ ↦ ?_
      unfold centroid
      rw [hres, if_neg Bool.noConfusion, sub_zero, ProductQuantizer.centroidOf]
  | true =>
      rw [hres, if_pos rfl, if_neg hmetric] at htables
      exact tableDistance_residual h hpre hmetric hres huse hkey (hcoarse hmetric) htables j

theorem setPointers_spec (hkey : 0 ≤ key)
    {tables' : QueryTables F}
    (htables : ivfpq.setPointers key coarseDis tables' = some tables) :
    (∀ m < ivfpq.pq.M, ∀ c < ivfpq.pq.ksub, tables.simTablePtrs m c = ivfpq.rowTerm key m c) ∧
      tables.simTable2 = tables'.simTable2 ∧ tables.dis0 = coarseDis ∧
        ivfpq.usePrecomputedTable ≠ 0 := by
  unfold setPointers at htables
  by_cases hone : ivfpq.usePrecomputedTable = 1
  · rw [if_pos hone] at htables
    obtain rfl := Option.some.inj htables
    exact ⟨fun m hm c hc ↦ precomputedTable_one h hpre hone hkey hm hc, rfl, rfl, by omega⟩
  rw [if_neg hone] at htables
  by_cases htwo : ivfpq.usePrecomputedTable = 2
  · obtain ⟨cpq, hquantizer, -, -⟩ := hpre.tableOf.2.2 htwo
    rw [if_pos htwo, hquantizer] at htables
    obtain rfl := Option.some.inj htables
    exact ⟨fun m hm c hc ↦ multiIndexRow_eq h hpre htwo hquantizer hm hc, rfl, rfl, by omega⟩
  · rw [if_neg htwo] at htables
    cases htables

/-- With pointers to the tables, the distances are exact. -/
theorem pointerDistance_eq
    (hmetric : ivfpq.metricType ≠ .innerProduct) (hres : ivfpq.byResidual = true) (hkey : 0 ≤ key)
    (hcoarse : coarseDis = ∑ i ∈ range ivfpq.pq.d, (qi i - ivfpq.quantizer.reconstruct key i) ^ 2)
    (htables : ivfpq.precomputeListTablePointers fl ht key coarseDis (ivfpq.initQuery fl ht qi) =
      some tables) (j : ℕ) : ivfpq.pointerDistance fl tables list j =
        ivfpq.exactDistance qi (ivfpq.reconstructCode fl key (list.code j)) := by
  have hterm : ∀ m, pqDecode ivfpq.pq.nbits (list.code j) m < ivfpq.pq.ksub :=
    ivfpq.pq.pqDecode_lt_ksub (list.code j)
  unfold precomputeListTablePointers at htables
  rw [hres, if_pos rfl, if_neg hmetric] at htables
  obtain ⟨tables', hpointers, hout⟩ := Option.bind_eq_some_iff.mp htables
  have hsame : tables' = tables := by
    by_cases hht : ht ≠ 0
    · rw [if_pos hht] at hout
      cases hout
    · rw [if_neg hht] at hout
      exact Option.some.inj hout
  subst hsame
  obtain ⟨hrow, hquery, hdis0, huse⟩ := setPointers_spec h hpre hkey hpointers
  rw [pointerDistance_sum h, hquery, hdis0, hcoarse, exactDistance_three_terms h hmetric hres]
  refine congrArg (_ + ·) (sum_congr rfl fun m hm ↦ ?_)
  rw [hrow m (mem_range.mp hm) _ (hterm m), initQuery_residual h hmetric hres huse m (hterm m),
    ProductQuantizer.centroidOf]

end

/-! ## Scans -/

/-- The scans that an index can make of a list: with tables, or of codes that are all within the
threshold, with pointers to precomputed tables, or on the fly. -/
def HasScan (ivfpq : IndexIVFPQ F) (mode : ℕ) : Prop :=
  (ivfpq.metricType = .l2 ∨ ivfpq.metricType = .innerProduct) ∧
    (mode = 2 ∧ (ivfpq.polysemousHt.toInt ≤ 0 ∨
        8 * (ivfpq.pq.codeSize : ℤ) < ivfpq.polysemousHt.toInt) ∨
      mode = 1 ∧ ivfpq.metricType = .l2 ∧ ivfpq.byResidual = true ∧
        ivfpq.usePrecomputedTable ∈ ({1, 2} : Set ℤ) ∧ ivfpq.polysemousHt = 0 ∨
      mode = 0 ∧ ivfpq.polysemousHt.toInt ≤ 0)

/-- A scan adds the selected entries, each with its exact distance. -/
def OffersExactly (fl : Floats F) (ivfpq : IndexIVFPQ F) (list : ListCodes) (qi : ℕ → F) (key : ℤ)
    (mode : ℕ) (coarseDis : F) : Prop :=
  ∃ adds, ivfpq.setAndScanList fl list qi key mode coarseDis = some adds ∧
    adds.Perm (list.selected.map fun j ↦
      (j, ivfpq.exactDistance qi (ivfpq.reconstructCode fl key (list.code j))))

/-- The bytes of `q_code` that are written are inside it. -/
def RoomForCode (ivfpq : IndexIVFPQ F) (ht : Int32) : Prop :=
  ht ≠ 0 → ivfpq.byResidual = true → ivfpq.metricType ≠ .innerProduct →
    ivfpq.usePrecomputedTable = 2 → ivfpq.pq.M ≤ ivfpq.pq.codeSize

omit [CommRing F] in
/-- There are tables for a list, unless there is no room for its code. -/
theorem precomputeListTables_isSome (hpre : ivfpq.Precomputed fl) :
    (ivfpq.precomputeListTables fl ht qi key coarseDis (ivfpq.initQuery fl ht qi)).isSome ↔
      ivfpq.RoomForCode ht := by
  unfold precomputeListTables RoomForCode
  cases hres : ivfpq.byResidual with
  | false => exact ⟨fun _ _ h ↦ Bool.noConfusion h, fun _ ↦ rfl⟩
  | true =>
      rw [if_pos rfl]
      by_cases hmetric : ivfpq.metricType = .innerProduct
      · rw [if_pos hmetric]
        exact ⟨fun _ _ _ h ↦ absurd hmetric h, fun _ ↦ rfl⟩
      rw [if_neg hmetric]
      by_cases htwo : ivfpq.usePrecomputedTable = 2
      · obtain ⟨cpq, hquantizer, -, -⟩ := hpre.tableOf.2.2 htwo
        rw [precomputeListTablesL2_two hquantizer htwo, multiIndexTables, Option.isSome_map]
        by_cases hht : ht = 0
        · rw [if_neg (not_not.mpr hht)]
          exact ⟨fun _ h ↦ absurd hht h, fun _ ↦ rfl⟩
        · rw [if_pos hht, multiIndexCode_isSome, initQuery_qCode hres hht]
          exact ⟨fun h _ _ _ _ ↦ h, fun h ↦ h hht rfl hmetric htwo⟩
      · unfold precomputeListTablesL2
        refine ⟨fun _ _ _ _ h ↦ absurd h htwo, fun _ ↦ ?_⟩
        dsimp only
        rw [if_neg htwo]
        by_cases hnone : ivfpq.usePrecomputedTable = 0 ∨ ivfpq.usePrecomputedTable = -1
        · rw [if_pos hnone]
          rfl
        rw [if_neg hnone]
        by_cases hone : ivfpq.usePrecomputedTable = 1
        · rw [if_pos hone]
          rfl
        · rw [if_neg hone]
          rfl

omit [CommRing F] in
/-- There are pointers for a list, where there are precomputed tables. -/
theorem precomputeListTablePointers_isSome (hpre : ivfpq.Precomputed fl)
    (hmetric : ivfpq.metricType ≠ .innerProduct) (hres : ivfpq.byResidual = true)
    (huse : ivfpq.usePrecomputedTable ∈ ({1, 2} : Set ℤ)) {tables' : QueryTables F} :
    ∃ tables, ivfpq.precomputeListTablePointers fl 0 key coarseDis tables' = some tables := by
  have hpointers : ∃ tables, ivfpq.setPointers key coarseDis tables' = some tables := by
    unfold setPointers
    rcases huse with hone | htwo
    · rw [if_pos hone]
      exact ⟨_, rfl⟩
    · obtain ⟨cpq, hquantizer, -, -⟩ := hpre.tableOf.2.2 htwo
      rw [htwo, hquantizer]
      exact ⟨_, rfl⟩
  obtain ⟨tables, htables⟩ := hpointers
  refine ⟨tables, ?_⟩
  unfold precomputeListTablePointers precomputeListTablePointersL2
  rw [hres, if_pos rfl, if_neg hmetric, htables]
  rfl

omit [CommRing F] in
theorem perm_of_eq {dis dis' : ℕ → F} (h : ∀ j, dis j = dis' j) :
    (list.selected.map fun j ↦ (j, dis j)).Perm (list.selected.map fun j ↦ (j, dis' j)) := by
  rw [funext h]

/-- The scan with tables, and the polysemous scan where the threshold is above all distances. -/
theorem offersExactly_tables (h : fl.Exact) (hpre : ivfpq.Precomputed fl)
    (huse : ivfpq.usePrecomputedTable ∈ ({-1, 0, 1, 2} : Set ℤ)) (hkey : 0 ≤ key)
    (hcoarse : ivfpq.metricType ≠ .innerProduct → coarseDis =
      ∑ i ∈ range ivfpq.pq.d, (qi i - ivfpq.quantizer.reconstruct key i) ^ 2)
    (hht : ivfpq.polysemousHt.toInt ≤ 0 ∨
      8 * (ivfpq.pq.codeSize : ℤ) < ivfpq.polysemousHt.toInt) :
    ivfpq.OffersExactly fl list qi key 2 coarseDis ↔
      (ivfpq.polysemousHt.toInt ≤ 99999999 ∨ ∀ j < list.inBlocks, list.skip j = false) ∧
        ivfpq.RoomForCode ivfpq.polysemousHt := by
  have hset : ivfpq.setAndScanList fl list qi key 2 coarseDis =
      (ivfpq.precomputeListTables fl ivfpq.polysemousHt qi key coarseDis
        (ivfpq.initQuery fl ivfpq.polysemousHt qi)).bind fun tables ↦
          if 0 < ivfpq.polysemousHt then some (ivfpq.scanListPolysemous fl tables list)
          else some (ivfpq.scanListWithTable fl tables list) := rfl
  unfold OffersExactly
  rw [hset, ← precomputeListTables_isSome hpre]
  cases htables : ivfpq.precomputeListTables fl ivfpq.polysemousHt qi key coarseDis
      (ivfpq.initQuery fl ivfpq.polysemousHt qi) with
  | none =>
      constructor
      · rintro ⟨adds, hadds, -⟩
        cases hadds
      · rintro ⟨-, hsome⟩
        cases hsome
  | some tables =>
      have hdis := @tableDistance_eq F _ fl ivfpq list qi key coarseDis _ tables h hpre huse hkey hcoarse
        htables
      rw [Option.bind_some, Option.isSome_some]
      by_cases hpos : 0 < ivfpq.polysemousHt
      · rw [if_pos hpos, scanListPolysemous_eq, funext hdis]
        have hht := hht.resolve_left (not_le.mpr (positive_iff.mp hpos))
        rw [← @kept_eq_selected_iff F ivfpq tables list hht]
        constructor
        · rintro ⟨adds, hadds, hperm⟩
          refine ⟨?_, rfl⟩
          obtain rfl := Option.some.inj hadds
          have hfst := hperm.map Prod.fst
          rw [List.map_map, List.map_map] at hfst
          change ((ivfpq.kept tables list).map id).Perm (list.selected.map id) at hfst
          rwa [List.map_id, List.map_id] at hfst
        · rintro ⟨hperm, -⟩
          exact ⟨_, rfl, hperm.map _⟩
      · rw [if_neg hpos, scanListWithTable_eq, funext hdis]
        have hle := not_lt.mp (mt positive_iff.mpr hpos)
        exact ⟨fun _ ↦ ⟨Or.inl (hle.trans (by decide)), rfl⟩, fun _ ↦ ⟨_, rfl, List.Perm.refl _⟩⟩

/-- In exact arithmetic, a scan of a list adds the selected entries with their exact distances if and
only if no entry that is skipped passes the threshold, and there is room for the code of the query. -/
theorem offersExactly_iff (h : fl.Exact) (hpre : ivfpq.Precomputed fl)
    (huse : ivfpq.usePrecomputedTable ∈ ({-1, 0, 1, 2} : Set ℤ)) (hscan : ivfpq.HasScan mode)
    (hkey : 0 ≤ key) (hcoarse : ivfpq.metricType = .l2 → coarseDis =
      ∑ i ∈ range ivfpq.pq.d, (qi i - ivfpq.quantizer.reconstruct key i) ^ 2) :
    ivfpq.OffersExactly fl list qi key mode coarseDis ↔
      (ivfpq.polysemousHt.toInt ≤ 99999999 ∨ ∀ j < list.inBlocks, list.skip j = false) ∧
        (mode = 2 → ivfpq.RoomForCode ivfpq.polysemousHt) := by
  obtain ⟨hmetric, ⟨rfl, hht⟩ | ⟨rfl, hl2, hres, huse', hzero⟩ | ⟨rfl, hle⟩⟩ := hscan
  · rw [offersExactly_tables h hpre huse hkey (fun hne ↦ hcoarse (hmetric.resolve_right hne)) hht]
    exact and_congr_right fun _ ↦ ⟨fun hroom _ ↦ hroom, fun hroom ↦ hroom rfl⟩
  · refine iff_of_true ?_ ⟨Or.inl ?_, fun h ↦ by cases h⟩
    · have hne : ivfpq.metricType ≠ .innerProduct := by rw [hl2]; exact MetricType.noConfusion
      obtain ⟨tables, htables⟩ := @precomputeListTablePointers_isSome F fl ivfpq key coarseDis hpre hne
        hres huse' (ivfpq.initQuery fl 0 qi)
      have hset : ivfpq.setList fl qi key 1 coarseDis = some tables := by
        unfold setList tablesHt
        rw [hzero]
        exact htables
      have hscan : ivfpq.scanList fl tables list qi key 1 =
          some (ivfpq.scanListWithPointer fl tables list) := by
        unfold scanList tablesHt
        rw [hzero]
        rfl
      refine ⟨_, ?_, perm_of_eq fun j ↦ pointerDistance_eq h hpre hne hres hkey (hcoarse hl2) htables j⟩
      unfold setAndScanList
      rw [hset]
      exact hscan
    · rw [hzero]
      decide
  · refine iff_of_true ?_ ⟨Or.inl (hle.trans (by decide)), fun h ↦ by cases h⟩
    have hscan : ivfpq.setAndScanList fl list qi key 0 coarseDis =
        if 0 < ivfpq.polysemousHt then some (ivfpq.scanListPolysemous fl
          (ivfpq.initQuery fl ivfpq.polysemousHt qi) list)
        else some (ivfpq.scanOnTheFlyDist fl list qi key) := rfl
    rw [if_neg (mt positive_iff.mp (not_lt.mpr hle))] at hscan
    exact ⟨_, hscan, perm_of_eq fun j ↦ onTheFlyDistance_eq h⟩

/-! ## An index in the integers -/

end IndexIVFPQ

/-- The integers, whose arithmetic is exact. -/
def integerFloats : Floats ℤ where
  zero := 0
  two := 2
  minusTwo := -2
  huge := 10 ^ 38
  e20 := 10 ^ 20
  add := (· + ·)
  sub := (· - ·)
  mul := (· * ·)
  lt x y := decide (x < y)

theorem integerFloats_exact : integerFloats.Exact :=
  ⟨rfl, rfl, rfl, fun _ _ ↦ rfl, fun _ _ ↦ rfl, fun _ _ ↦ rfl⟩

/-- Two sub-quantizers with the centroids 0 and 1, and 2 and 3. -/
def twoBits : ProductQuantizer ℤ := ⟨2, 2, 1, fun i ↦ i, by decide⟩

/-- An index of residuals with a table for each list. -/
def twoBitsIndex (polysemousHt : Int32) : IndexIVFPQ ℤ where
  pq := twoBits
  metricType := .l2
  byResidual := true
  usePrecomputedTable := 1
  polysemousHt
  quantizer := .other 2 fun key _ ↦ key
  precomputedTable := precomputedTables integerFloats twoBits fun p ↦ (p / twoBits.d : ℕ)

theorem twoBitsIndex_precomputed (polysemousHt : Int32) :
    (twoBitsIndex polysemousHt).Precomputed integerFloats :=
  ⟨0, 0, .l2, 1, fun _ ↦ 0, rfl⟩

/-- Codes, the second of which is skipped. -/
def secondSkipped (ncode : ℕ) : ListCodes := ⟨ncode, fun j _ ↦ UInt8.ofNat j, fun j ↦ j == 1⟩

theorem IndexIVFPQ.offersExactly_five_codes :
    (twoBitsIndex 100).OffersExactly integerFloats (secondSkipped 5) (fun i ↦ i) 1 2 1 :=
  (IndexIVFPQ.offersExactly_iff integerFloats_exact (twoBitsIndex_precomputed 100)
    (Or.inr (Or.inr (Or.inl rfl))) ⟨Or.inl rfl, Or.inl ⟨rfl, Or.inr (by decide)⟩⟩ (by decide)
    fun _ ↦ by decide).mpr ⟨Or.inl (by decide), fun _ _ _ _ h ↦ absurd h (by decide)⟩

/-- With a threshold above 99999999, an entry that is skipped is added, too. -/
theorem IndexIVFPQ.not_offersExactly_four_codes :
    ¬(twoBitsIndex 100000000).OffersExactly integerFloats (secondSkipped 4) (fun i ↦ i) 1 2 1 := by
  intro hoffers
  obtain ⟨hskip, -⟩ := (IndexIVFPQ.offersExactly_tables integerFloats_exact
    (twoBitsIndex_precomputed 100000000) (Or.inr (Or.inr (Or.inl rfl))) (by decide)
    (fun _ ↦ by decide) (Or.inr (by decide))).mp hoffers
  rcases hskip with hle | hskip
  · exact absurd hle (by decide)
  · exact absurd (hskip 1 (by decide)) (by decide)

end FaissNavix
