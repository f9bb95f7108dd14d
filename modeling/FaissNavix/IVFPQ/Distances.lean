import FaissNavix.IVFPQ.Scans

/-!
# The distances in exact arithmetic

In exact arithmetic, all the ways in which an `IndexIVFPQ` computes a distance give that of the query
to the vector that is reconstructed (`IndexIVFPQ.tableDistance_eq`, `IndexIVFPQ.pointerDistance_eq`,
`IndexIVFPQ.onTheFlyDistance_eq`).  The terms are tabulated for each sub-quantizer, so that everything
rests on cutting a sum over the dimensions into sums over the sub-vectors (`sum_range_mul`).
-/

namespace FaissNavix

open Finset

variable {F : Type} [CommRing F]

omit [CommRing F] in
theorem mul_add_div_self (m : ℕ) {n c : ℕ} (h : c < n) : (m * n + c) / n = m := by
  rw [Nat.mul_comm m, Nat.mul_add_div (Nat.zero_lt_of_lt h), Nat.div_eq_of_lt h, Nat.add_zero]

omit [CommRing F] in
theorem mul_add_mod_self (m : ℕ) {n c : ℕ} (h : c < n) : (m * n + c) % n = c := by
  rw [Nat.mul_comm m, Nat.mul_add_mod, Nat.mod_eq_of_lt h]

theorem sum_range_mul (f : ℕ → F) (M n : ℕ) :
    ∑ i ∈ range (M * n), f i = ∑ m ∈ range M, ∑ t ∈ range n, f (m * n + t) := by
  induction M with
  | zero => rw [Nat.zero_mul, sum_range_zero, sum_range_zero]
  | succ M ih => rw [Nat.succ_mul, sum_range_add, ih, sum_range_succ]

theorem foldl_add_range (f : ℕ → F) (a : F) (n : ℕ) :
    (List.range n).foldl (fun res i ↦ res + f i) a = a + ∑ i ∈ range n, f i := by
  induction n with
  | zero => rw [sum_range_zero, add_zero]; rfl
  | succ n ih => rw [List.range_succ, List.foldl_append, ih, List.foldl_cons, List.foldl_nil,
      sum_range_succ, add_assoc]

namespace Floats

/-- The arithmetic is exact. -/
structure Exact (fl : Floats F) : Prop where
  zero : fl.zero = 0
  two : fl.two = 2
  minusTwo : fl.minusTwo = -2
  add : ∀ a b, fl.add a b = a + b
  sub : ∀ a b, fl.sub a b = a - b
  mul : ∀ a b, fl.mul a b = a * b

variable {fl : Floats F}

theorem Exact.innerProduct (h : fl.Exact) (x y : ℕ → F) (d : ℕ) :
    fl.innerProduct x y d = ∑ i ∈ range d, x i * y i := by
  unfold Floats.innerProduct
  simp only [h.add, h.mul, h.zero]
  rw [foldl_add_range, zero_add]

theorem Exact.l2sqr (h : fl.Exact) (x y : ℕ → F) (d : ℕ) :
    fl.l2sqr x y d = ∑ i ∈ range d, (x i - y i) ^ 2 := by
  unfold Floats.l2sqr
  simp only [h.add, h.mul, h.sub, h.zero]
  rw [foldl_add_range, zero_add]
  exact sum_congr rfl fun i _ ↦ (sq _).symm

theorem Exact.normL2sqr (h : fl.Exact) (x : ℕ → F) (d : ℕ) :
    fl.normL2sqr x d = ∑ i ∈ range d, x i ^ 2 := by
  unfold Floats.normL2sqr
  simp only [h.add, h.mul, h.zero]
  rw [foldl_add_range, zero_add]
  exact sum_congr rfl fun i _ ↦ (sq _).symm

end Floats

/-! ## Sub-vectors -/

namespace ProductQuantizer

variable (pq : ProductQuantizer F) {fl : Floats F} (code : ℕ → UInt8)

def centroidOf (m : ℕ) : ℕ → F := pq.getCentroids m (pqDecode pq.nbits code m)

omit [CommRing F] in
theorem mul_dsub : pq.M * pq.dsub = pq.d := Nat.mul_div_cancel' pq.dvd

omit [CommRing F] in
theorem pqDecode_lt_ksub (m : ℕ) : pqDecode pq.nbits code m < pq.ksub := pqDecode_lt _ _ _

theorem sum_dims (f : ℕ → F) :
    ∑ i ∈ range pq.d, f i = ∑ m ∈ range pq.M, ∑ t ∈ range pq.dsub, f (m * pq.dsub + t) := by
  rw [← pq.mul_dsub, sum_range_mul]

omit [CommRing F] in
theorem decode_apply (m : ℕ) {t : ℕ} (ht : t < pq.dsub) :
    pq.decode code (m * pq.dsub + t) = pq.centroidOf code m t := by
  unfold decode centroidOf
  rw [mul_add_div_self m ht, mul_add_mod_self m ht]

theorem computeDistanceTable_apply (h : fl.Exact) (x : ℕ → F) (m : ℕ) {c : ℕ} (hc : c < pq.ksub) :
    pq.computeDistanceTable fl x (m * pq.ksub + c) =
      ∑ t ∈ range pq.dsub, (x (m * pq.dsub + t) - pq.getCentroids m c t) ^ 2 := by
  unfold computeDistanceTable
  rw [h.l2sqr, mul_add_div_self m hc, mul_add_mod_self m hc]

theorem computeInnerProdTable_apply (h : fl.Exact) (x : ℕ → F) (m : ℕ) {c : ℕ} (hc : c < pq.ksub) :
    pq.computeInnerProdTable fl x (m * pq.ksub + c) =
      ∑ t ∈ range pq.dsub, x (m * pq.dsub + t) * pq.getCentroids m c t := by
  unfold computeInnerProdTable
  rw [h.innerProduct, mul_add_div_self m hc, mul_add_mod_self m hc]

theorem distanceSingleCode_eq (h : fl.Exact) (simTable : ℕ → F) :
    pq.distanceSingleCode fl simTable code =
      ∑ m ∈ range pq.M, simTable (m * pq.ksub + pqDecode pq.nbits code m) := by
  unfold distanceSingleCode
  simp only [h.add, h.zero]
  rw [foldl_add_range, zero_add]

theorem precomputedTables_apply (h : fl.Exact) (xs : ℕ → F) (row : ℕ) {m c : ℕ} (hm : m < pq.M)
    (hc : c < pq.ksub) :
    precomputedTables fl pq xs (row * (pq.M * pq.ksub) + (m * pq.ksub + c)) =
      ∑ t ∈ range pq.dsub, (pq.getCentroids m c t ^ 2 +
        2 * (xs (row * pq.d + (m * pq.dsub + t)) * pq.getCentroids m c t)) := by
  have hlt : m * pq.ksub + c < pq.M * pq.ksub :=
    calc m * pq.ksub + c < m * pq.ksub + pq.ksub := Nat.add_lt_add_left hc _
      _ = (m + 1) * pq.ksub := (Nat.succ_mul m pq.ksub).symm
      _ ≤ pq.M * pq.ksub := Nat.mul_le_mul_right _ hm
  have hrow : (row * (pq.M * pq.ksub) + (m * pq.ksub + c)) / (pq.M * pq.ksub) = row :=
    mul_add_div_self row hlt
  have hcol : (row * (pq.M * pq.ksub) + (m * pq.ksub + c)) % (pq.M * pq.ksub) = m * pq.ksub + c :=
    mul_add_mod_self row hlt
  have hnorm : rNorms fl pq (m * pq.ksub + c) = ∑ t ∈ range pq.dsub, pq.getCentroids m c t ^ 2 := by
    unfold rNorms
    rw [h.normL2sqr, mul_add_div_self m hc, mul_add_mod_self m hc]
  unfold precomputedTables Floats.madd
  rw [hrow, hcol, hnorm, h.add, h.mul, h.two]
  unfold computeInnerProdTables
  dsimp only
  rw [hrow, hcol, pq.computeInnerProdTable_apply h _ m hc, mul_sum, ← sum_add_distrib]

end ProductQuantizer

/-! ## Coarse centroids -/

/-- The tables of an `IndexIVFPQ` after `precompute_table`. -/
def IndexIVFPQ.Precomputed (fl : Floats F) (ivfpq : IndexIVFPQ F) : Prop :=
  ∃ maxBytes nlist quantizerMetric usePrecomputedTable table,
    initializePrecomputedTable fl ivfpq.pq maxBytes nlist quantizerMetric ivfpq.quantizer ivfpq.byResidual
      usePrecomputedTable table = some (ivfpq.usePrecomputedTable, ivfpq.precomputedTable)

omit [CommRing F] in
/-- What is known of a table of type `use`. -/
def TableOf (fl : Floats F) (pq : ProductQuantizer F) (quantizer : CoarseQuantizer F) (use : ℤ)
    (table : ℕ → F) : Prop :=
  (use = 1 → table = precomputedTables fl pq fun p ↦ quantizer.reconstruct (p / pq.d : ℕ) (p % pq.d)) ∧
    (use = 2 → ∃ cpq, quantizer = .multiIndex cpq ∧ cpq.M ∣ pq.M ∧
      table = precomputedTables fl pq (reorderedCentroids cpq))

omit [CommRing F] in
theorem tableOf_build {fl : Floats F} {pq : ProductQuantizer F} {quantizer : CoarseQuantizer F}
    {use use' : ℤ} {table table' : ℕ → F}
    (h : buildPrecomputedTable fl pq quantizer use table = some (use', table')) :
    TableOf fl pq quantizer use' table' := by
  unfold buildPrecomputedTable at h
  by_cases hone : use = 1
  · rw [if_pos hone] at h
    obtain ⟨rfl, rfl⟩ := Prod.mk.inj (Option.some.inj h)
    exact ⟨fun _ ↦ rfl, fun htwo ↦ absurd (hone.symm.trans htwo) (by decide)⟩
  rw [if_neg hone] at h
  by_cases htwo : use = 2
  · rw [if_pos htwo] at h
    cases quantizer with
    | other d reconstruct => cases h
    | multiIndex cpq =>
        dsimp only at h
        by_cases hdvd : pq.M % cpq.M = 0
        · rw [if_pos hdvd] at h
          obtain ⟨rfl, rfl⟩ := Prod.mk.inj (Option.some.inj h)
          exact ⟨fun h1 ↦ absurd h1 hone, fun _ ↦ ⟨cpq, rfl, Nat.dvd_of_mod_eq_zero hdvd, rfl⟩⟩
        · rw [if_neg hdvd] at h
          cases h
  · rw [if_neg htwo] at h
    obtain ⟨rfl, rfl⟩ := Prod.mk.inj (Option.some.inj h)
    exact ⟨fun h1 ↦ absurd h1 hone, fun h2 ↦ absurd h2 htwo⟩

omit [CommRing F] in
theorem IndexIVFPQ.Precomputed.tableOf {fl : Floats F} {ivfpq : IndexIVFPQ F}
    (h : ivfpq.Precomputed fl) : ivfpq.quantizer.dim = ivfpq.pq.d ∧
      TableOf fl ivfpq.pq ivfpq.quantizer ivfpq.usePrecomputedTable ivfpq.precomputedTable := by
  obtain ⟨maxBytes, nlist, quantizerMetric, use, table, h⟩ := h
  have hother : ∀ {use' : ℤ} {table table' : ℕ → F}, use' ≠ 1 → use' ≠ 2 →
      some (use', table) = some (ivfpq.usePrecomputedTable, table') →
        TableOf fl ivfpq.pq ivfpq.quantizer ivfpq.usePrecomputedTable table' := by
    rintro use' table table' h1 h2 ⟨⟩
    exact ⟨fun h ↦ absurd h h1, fun h ↦ absurd h h2⟩
  unfold initializePrecomputedTable at h
  by_cases hdim : ivfpq.quantizer.dim = ivfpq.pq.d
  · rw [if_neg (not_not.mpr hdim)] at h
    refine ⟨hdim, ?_⟩
    split at h
    · exact hother (by decide) (by decide) h
    · split at h
      · split at h
        · exact hother (by decide) (by decide) h
        · dsimp only at h
          split at h
          · exact hother (by decide) (by decide) h
          · exact tableOf_build h
      · exact tableOf_build h
  · rw [if_pos hdim] at h
    cases h

namespace IndexIVFPQ

variable {fl : Floats F} {ivfpq : IndexIVFPQ F} {qi : ℕ → F} {key : ℤ} {code : ℕ → UInt8}

/-- The centroid of a list, where vectors are encoded by what is left of them, and otherwise 0. -/
def centroid (ivfpq : IndexIVFPQ F) (key : ℤ) (i : ℕ) : F :=
  if ivfpq.byResidual then ivfpq.quantizer.reconstruct key i else 0

/-- `reconstruct_from_offset` -/
def reconstructCode (fl : Floats F) (ivfpq : IndexIVFPQ F) (key : ℤ) (code : ℕ → UInt8) : ℕ → F :=
  fun i ↦
    if ivfpq.byResidual then fl.add (ivfpq.pq.decode code i) (ivfpq.quantizer.reconstruct key i)
    else ivfpq.pq.decode code i

/-- The distance of the query to a vector, or their inner product. -/
def exactDistance (ivfpq : IndexIVFPQ F) (qi v : ℕ → F) : F :=
  if ivfpq.metricType = .innerProduct then ∑ i ∈ range ivfpq.pq.d, qi i * v i
  else ∑ i ∈ range ivfpq.pq.d, (qi i - v i) ^ 2

theorem reconstructCode_eq (h : fl.Exact) (i : ℕ) :
    ivfpq.reconstructCode fl key code i = ivfpq.pq.decode code i + ivfpq.centroid key i := by
  unfold reconstructCode centroid
  cases ivfpq.byResidual with
  | false => simp
  | true => simp [h.add]

theorem exactDistance_l2 (h : fl.Exact) (hmetric : ivfpq.metricType ≠ .innerProduct) :
    ivfpq.exactDistance qi (ivfpq.reconstructCode fl key code) =
      ∑ m ∈ range ivfpq.pq.M, ∑ t ∈ range ivfpq.pq.dsub,
        (qi (m * ivfpq.pq.dsub + t) - ivfpq.centroid key (m * ivfpq.pq.dsub + t) -
          ivfpq.pq.centroidOf code m t) ^ 2 := by
  unfold exactDistance
  rw [if_neg hmetric, ivfpq.pq.sum_dims]
  refine sum_congr rfl fun m _ ↦ sum_congr rfl fun t ht ↦ ?_
  rw [reconstructCode_eq h, ivfpq.pq.decode_apply code m (mem_range.mp ht)]
  ring

theorem exactDistance_ip (h : fl.Exact) (hmetric : ivfpq.metricType = .innerProduct) :
    ivfpq.exactDistance qi (ivfpq.reconstructCode fl key code) =
      ∑ i ∈ range ivfpq.pq.d, qi i * ivfpq.centroid key i +
        ∑ m ∈ range ivfpq.pq.M, ∑ t ∈ range ivfpq.pq.dsub,
          qi (m * ivfpq.pq.dsub + t) * ivfpq.pq.centroidOf code m t := by
  have hsplit : ∀ i, qi i * ivfpq.reconstructCode fl key code i =
      qi i * ivfpq.centroid key i + qi i * ivfpq.pq.decode code i := by
    intro i
    rw [reconstructCode_eq h]
    ring
  unfold exactDistance
  rw [if_pos hmetric, sum_congr rfl fun i _ ↦ hsplit i, sum_add_distrib]
  refine congrArg (_ + ·) ((ivfpq.pq.sum_dims _).trans ?_)
  refine sum_congr rfl fun m _ ↦ sum_congr rfl fun t ht ↦ ?_
  rw [ivfpq.pq.decode_apply code m (mem_range.mp ht)]

/-! ## The rows of precomputed tables -/

def rowTerm (ivfpq : IndexIVFPQ F) (key : ℤ) (m c : ℕ) : F :=
  ∑ t ∈ range ivfpq.pq.dsub, (ivfpq.pq.getCentroids m c t ^ 2 +
    2 * (ivfpq.quantizer.reconstruct key (m * ivfpq.pq.dsub + t) * ivfpq.pq.getCentroids m c t))

omit [CommRing F] in
theorem dim_lt (pq : ProductQuantizer F) {m t : ℕ} (hm : m < pq.M) (ht : t < pq.dsub) :
    m * pq.dsub + t < pq.d := by
  rw [← pq.mul_dsub]
  calc m * pq.dsub + t < m * pq.dsub + pq.dsub := Nat.add_lt_add_left ht _
    _ = (m + 1) * pq.dsub := (Nat.succ_mul m pq.dsub).symm
    _ ≤ pq.M * pq.dsub := Nat.mul_le_mul_right _ hm

theorem precomputedTable_one (h : fl.Exact) (hpre : ivfpq.Precomputed fl)
    (hone : ivfpq.usePrecomputedTable = 1) (hkey : 0 ≤ key) {m c : ℕ} (hm : m < ivfpq.pq.M)
    (hc : c < ivfpq.pq.ksub) :
    ivfpq.precomputedTable (key.toNat * ivfpq.pq.ksub * ivfpq.pq.M + (m * ivfpq.pq.ksub + c)) =
      ivfpq.rowTerm key m c := by
  have hrow : key.toNat * ivfpq.pq.ksub * ivfpq.pq.M = key.toNat * (ivfpq.pq.M * ivfpq.pq.ksub) := by
    rw [Nat.mul_assoc, Nat.mul_comm ivfpq.pq.ksub]
  rw [hpre.tableOf.2.1 hone, hrow, ivfpq.pq.precomputedTables_apply h _ _ hm hc]
  refine sum_congr rfl fun t ht ↦ ?_
  have hlt := dim_lt ivfpq.pq hm (mem_range.mp ht)
  rw [mul_add_div_self _ hlt, mul_add_mod_self _ hlt, Int.toNat_of_nonneg hkey]

omit [CommRing F] in
theorem multiIndex_dsub {pq cpq : ProductQuantizer F} (hdim : cpq.d = pq.d) (hdvd : cpq.M ∣ pq.M)
    (hM : 0 < pq.M) : cpq.dsub = pq.M / cpq.M * pq.dsub := by
  obtain ⟨mf, hmf⟩ := hdvd
  have hpos : 0 < cpq.M := Nat.pos_of_ne_zero fun h ↦ by rw [hmf, h, Nat.zero_mul] at hM; cases hM
  unfold ProductQuantizer.dsub
  rw [hdim, hmf, Nat.mul_div_cancel_left _ hpos]
  have hd : pq.d = cpq.M * (mf * pq.dsub) := by rw [← Nat.mul_assoc, ← hmf, pq.mul_dsub]
  rw [hd, Nat.mul_div_cancel_left _ hpos, ← hd, ← hmf]
  rfl

/-- The rows for the parts of a key in a table of type 2. -/
theorem multiIndexRow_eq (h : fl.Exact) (hpre : ivfpq.Precomputed fl)
    (htwo : ivfpq.usePrecomputedTable = 2) {cpq : ProductQuantizer F}
    (hquantizer : ivfpq.quantizer = .multiIndex cpq) {m c : ℕ} (hm : m < ivfpq.pq.M)
    (hc : c < ivfpq.pq.ksub) : ivfpq.multiIndexRow key cpq m c = ivfpq.rowTerm key m c := by
  obtain ⟨hdim, -, htable⟩ := hpre.tableOf
  obtain ⟨cpq', hquantizer', hdvd, htable⟩ := htable htwo
  obtain rfl : cpq = cpq' := CoarseQuantizer.multiIndex.inj (hquantizer.symm.trans hquantizer')
  rw [hquantizer] at hdim
  have hdim : cpq.d = ivfpq.pq.d := hdim
  have hdsub := multiIndex_dsub hdim hdvd (Nat.zero_lt_of_lt hm)
  unfold multiIndexRow
  dsimp only
  have hposition : (CoarseQuantizer.digit cpq key (m / (ivfpq.pq.M / cpq.M)) * ivfpq.pq.M +
      m / (ivfpq.pq.M / cpq.M) * (ivfpq.pq.M / cpq.M)) * ivfpq.pq.ksub +
        (m % (ivfpq.pq.M / cpq.M) * ivfpq.pq.ksub + c) =
      CoarseQuantizer.digit cpq key (m / (ivfpq.pq.M / cpq.M)) * (ivfpq.pq.M * ivfpq.pq.ksub) +
        (m * ivfpq.pq.ksub + c) := by
    have hm' := Nat.div_add_mod m (ivfpq.pq.M / cpq.M)
    generalize m / (ivfpq.pq.M / cpq.M) = cm at hm' ⊢
    generalize m % (ivfpq.pq.M / cpq.M) = cr at hm' ⊢
    rw [← hm']
    ring
  rw [hposition, htable, ivfpq.pq.precomputedTables_apply h _ _ hm hc]
  refine sum_congr rfl fun t ht ↦ ?_
  have hlt := dim_lt ivfpq.pq hm (mem_range.mp ht)
  have hlt' : m * ivfpq.pq.dsub + t < cpq.d := hdim ▸ hlt
  have hpart : (m * ivfpq.pq.dsub + t) / cpq.dsub = m / (ivfpq.pq.M / cpq.M) := by
    rw [hdsub, Nat.mul_comm (ivfpq.pq.M / cpq.M), ← Nat.div_div_eq_div_mul,
      mul_add_div_self m (mem_range.mp ht)]
  unfold reorderedCentroids
  rw [← hdim]
  change _ + 2 * (cpq.getCentroids ((_ * cpq.d + _) % cpq.d / cpq.dsub) _ _ * _) = _
  rw [mul_add_div_self _ hlt', mul_add_mod_self _ hlt', hpart, hquantizer]
  change _ = _ + 2 * (cpq.getCentroids _ (CoarseQuantizer.digit cpq key _) _ * _)
  rw [hpart]

/-! ## The ways to compute a distance -/

variable {tables : QueryTables F} {list : ListCodes} {j : ℕ}

theorem tableDistance_sum (h : fl.Exact) (j : ℕ) : ivfpq.tableDistance fl tables list j =
    tables.dis0 + ∑ m ∈ range ivfpq.pq.M,
      tables.simTable (m * ivfpq.pq.ksub + pqDecode ivfpq.pq.nbits (list.code j) m) := by
  unfold tableDistance
  rw [h.add, ivfpq.pq.distanceSingleCode_eq _ h]

theorem pointerDistance_sum (h : fl.Exact) (j : ℕ) : ivfpq.pointerDistance fl tables list j =
    tables.dis0 + ∑ m ∈ range ivfpq.pq.M,
      (tables.simTablePtrs m (pqDecode ivfpq.pq.nbits (list.code j) m) -
        2 * tables.simTable2 (m * ivfpq.pq.ksub + pqDecode ivfpq.pq.nbits (list.code j) m)) := by
  unfold pointerDistance
  simp only [h.add, h.sub, h.mul, h.two]
  exact foldl_add_range _ _ _

/-- The distance to the centroid, the row of the list and the table of the query make up the distance. -/
theorem exactDistance_three_terms (h : fl.Exact) (hmetric : ivfpq.metricType ≠ .innerProduct)
    (hres : ivfpq.byResidual = true) :
    ivfpq.exactDistance qi (ivfpq.reconstructCode fl key code) =
      ∑ i ∈ range ivfpq.pq.d, (qi i - ivfpq.quantizer.reconstruct key i) ^ 2 +
        ∑ m ∈ range ivfpq.pq.M, (ivfpq.rowTerm key m (pqDecode ivfpq.pq.nbits code m) -
          2 * ∑ t ∈ range ivfpq.pq.dsub,
            qi (m * ivfpq.pq.dsub + t) * ivfpq.pq.centroidOf code m t) := by
  have hcentroid : ∀ i, ivfpq.centroid key i = ivfpq.quantizer.reconstruct key i := fun i ↦ if_pos hres
  rw [exactDistance_l2 h hmetric, ivfpq.pq.sum_dims, ← sum_add_distrib]
  refine sum_congr rfl fun m _ ↦ ?_
  unfold rowTerm
  rw [mul_sum, ← sum_sub_distrib, ← sum_add_distrib]
  refine sum_congr rfl fun t _ ↦ ?_
  rw [hcentroid, ProductQuantizer.centroidOf]
  ring

/-- The scan of the codes as they are gives the exact distances. -/
theorem onTheFlyDistance_eq (h : fl.Exact) : ivfpq.onTheFlyDistance fl list qi key j =
    ivfpq.exactDistance qi (ivfpq.reconstructCode fl key (list.code j)) := by
  unfold onTheFlyDistance exactDistance
  by_cases hmetric : ivfpq.metricType = .innerProduct
  · rw [if_pos hmetric, if_pos hmetric]
    dsimp only
    have hdis0 : (if ivfpq.byResidual then
        fl.innerProduct (ivfpq.quantizer.reconstruct key) qi ivfpq.pq.d else fl.zero) =
          ∑ i ∈ range ivfpq.pq.d, ivfpq.centroid key i * qi i := by
      unfold centroid
      cases ivfpq.byResidual with
      | false => simp [h.zero]
      | true => exact h.innerProduct _ _ _
    rw [hdis0, h.add, h.innerProduct, ← sum_add_distrib]
    refine sum_congr rfl fun i _ ↦ ?_
    rw [reconstructCode_eq h]
    ring
  · rw [if_neg hmetric, if_neg hmetric]
    dsimp only
    rw [h.l2sqr]
    refine sum_congr rfl fun i _ ↦ ?_
    rw [reconstructCode_eq h]
    unfold centroid CoarseQuantizer.computeResidual
    cases ivfpq.byResidual with
    | false =>
        simp only [Bool.false_eq_true, if_false]
        ring
    | true =>
        simp only [if_true, h.sub]
        ring

end IndexIVFPQ

end FaissNavix
