import FaissNavix.Kmeans1d.Smawk
import FaissNavix.Lib.Rows
import FaissNavix.Lib.SortedClusters

/-!
# One-dimensional k-means

`kmeans1d` of `faiss/impl/kmeans1d.cpp`, with exact arithmetic: the costs of the intervals from cumulated
sums, the tables of the dynamic program, whose rows are filled by SMAWK, and the way back through them.

The centroids are optimal exactly if there are as many different values as clusters, or as many values
(`kmeans1d_optimal_iff`).  With fewer different values the first best last cut is at 0 before all clusters
are used up, and the way back goes on at column -1.
-/

namespace FaissNavix.Kmeans1d

open Finset
open Lib

variable {K : Type} [Field K] [LinearOrder K] [IsStrictOrderedRing K]

/-! ## The code -/

/-- `CostCalculator` -/
structure CostCalculator (K : Type) where
  cumsum : List K
  cumsum2 : List K

/-- The constructor of a `CostCalculator`. -/
def CostCalculator.new (vec : List K) (n : ℕ) : CostCalculator K :=
  (List.range n).foldl (fun cc i ↦
    let x := vec.getD i 0
    ⟨cc.cumsum ++ [x + cc.cumsum.getD i 0], cc.cumsum2 ++ [x * x + cc.cumsum2.getD i 0]⟩) ⟨[0], [0]⟩

/-- `operator()` of a `CostCalculator`. -/
def CostCalculator.cost (cc : CostCalculator K) (i j : ℕ) : Option K :=
  if j < i then some 0
  else do
    let sj ← cc.cumsum[j + 1]?
    let si ← cc.cumsum[i]?
    let tj ← cc.cumsum2[j + 1]?
    let ti ← cc.cumsum2[i]?
    let size : K := ((j - i + 1 : ℕ) : K)
    let mu := (sj - si) / size
    let result := tj - ti
    let result := result + size * (mu * mu)
    return result - ((2 : ℕ) : K) * mu * (sj - si)

/-- `Matrix`, row by row. -/
structure Matrix (T : Type) where
  data : List T
  ncols : ℕ

/-- The constructor of a `Matrix`. -/
def Matrix.new {T : Type} (zero : T) (nrows ncols : ℕ) : Matrix T :=
  ⟨List.replicate (nrows * ncols) zero, ncols⟩

/-- A read of `at(i, j)`. -/
def Matrix.at {T : Type} (M : Matrix T) (i : ℕ) (j : ℤ) : Option T :=
  if 0 ≤ (i * M.ncols : ℕ) + j then M.data[((i * M.ncols : ℕ) + j).toNat]? else none

/-- A write to `at(i, j)`. -/
def Matrix.put {T : Type} (M : Matrix T) (i j : ℕ) (v : T) : Option (Matrix T) :=
  if i * M.ncols + j < M.data.length then some { M with data := M.data.set (i * M.ncols + j) v } else none

/-- The tables. -/
structure Tables (K : Type) where
  D : Matrix K
  T : Matrix ℕ

section
variable (cc : CostCalculator K) (n : ℕ)

/-- The matrix `C` for the clusters before `k`. -/
def C (D : Matrix K) (k m i : ℕ) : Option K :=
  if i = 0 then cc.cost i m
  else do
    let d ← D.at (k - 1) (min m (i - 1) : ℕ)
    let c ← cc.cost i m
    return d + c

/-- A turn of the loop over `m` that fills the first row. -/
def firstTurn (s : Tables K) (m : ℕ) : Option (Tables K) := do
  let c ← cc.cost 0 m
  let D ← s.D.put 0 m c
  let T ← s.T.put 0 m 0
  return ⟨D, T⟩

/-- A turn of the loop over `m` that fills row `k`. -/
def cellTurn (k : ℕ) (argmins : List ℕ) (s : Tables K) (m : ℕ) :
    Option (Tables K) := do
  let idx ← argmins[m]?
  let c ← C cc s.D k m idx
  let D ← s.D.put k m c
  let T ← s.T.put k m idx
  return ⟨D, T⟩

/-- A turn of the loop over `k`. -/
def rowTurn (s : Tables K) (k : ℕ) : Option (Tables K) := do
  let argmins ← smawk (C cc s.D k) n n (List.replicate n 0)
  (List.range argmins.length).foldlM (cellTurn cc k argmins) s

def fillTables (nclusters : ℕ) : Option (Tables K) := do
  let s ← (List.range n).foldlM (firstTurn cc) ⟨.new 0 nclusters n, .new 0 nclusters n⟩
  (List.range (nclusters - 1)).foldlM (fun s k ↦ rowTurn cc n s (k + 1)) s

end

/-- What the way back works on; `stop` is `end`. -/
structure Backtracking (K : Type) where
  stop : ℕ
  centroids : List K
  tot : K
  uf : K

/-- A turn of the way back. -/
def backTurn (arr : List K) (T : Matrix ℕ) (s : Backtracking K) (k : ℕ) : Option (Backtracking K) := do
  let start ← T.at k ((s.stop : ℤ) - 1)
  -- beyond the end, `std::accumulate` would not stop
  if start ≤ s.stop then
    let sum := ((arr.drop start).take (s.stop - start)).foldl (· + ·) 0
    let size := s.stop - start
    -- "Cluster %d: size %d"
    if 0 < size then
      return { stop := start, centroids := s.centroids.set k (sum / size), tot := s.tot + size,
               uf := s.uf + size * size }
    else none
  else none

/-- What `kmeans1d` returns, and the centroids. -/
structure Clusters (K : Type) where
  uf : K
  centroids : List K

/-- `kmeans1d` -/
def kmeans1d (x : List K) (nclusters : ℕ) : Option (Clusters K) :=
  if nclusters ≤ x.length then
    -- corner case
    if x.length = nclusters then some ⟨0, x⟩
    else do
      let n := x.length
      let arr := x.insertionSort (· ≤ ·)
      let s ← fillTables (.new arr n) n nclusters
      let b ← (List.range nclusters).reverse.foldlM (backTurn arr s.T)
        ⟨n, List.replicate nclusters 0, 0, 0⟩
      return ⟨b.uf * nclusters / (b.tot * b.tot), b.centroids⟩
  else none

/-! ## What is to be found -/

def error (centroids x : List K) : K := (x.map (nearestSq centroids)).sum

/-- `smawk` returns a column with a smallest entry for every row of every totally monotone matrix. -/
def FindsRowMinima : Prop :=
  ∀ (α : Type) [LinearOrder α] (nrows ncols : ℕ) (A : ℕ → ℕ → α), 0 < ncols →
    TotallyMonotone A (· < nrows) (· < ncols) →
    ∃ argmins, smawk (fun r c ↦ if r < nrows ∧ c < ncols then some (A r c) else none) nrows ncols
        (List.replicate nrows 0) = some argmins ∧ argmins.length = nrows ∧
      ∀ r < nrows, argmins.getD r 0 < ncols ∧ ∀ c < ncols, A r (argmins.getD r 0) ≤ A r c

/-- `kmeans1d` returns centroids that no others are better than. -/
def Optimal (x : List K) (nclusters : ℕ) : Prop :=
  ∃ r, kmeans1d x nclusters = some r ∧ r.centroids.length = nclusters ∧
    ∀ centroids : List K, centroids.length = nclusters → error r.centroids x ≤ error centroids x

/-! ## The costs of the intervals -/

/-- The values, by their positions. -/
def point (arr : List K) (t : ℕ) : K := arr.getD t 0

section Costs

variable {arr : List K} {n i j k m : ℕ}

omit [LinearOrder K] [IsStrictOrderedRing K] in
theorem CostCalculator.new_eq (arr : List K) (n : ℕ) :
    CostCalculator.new arr n = ⟨(List.range (n + 1)).map fun i ↦ ∑ t ∈ range i, point arr t,
      (List.range (n + 1)).map fun i ↦ ∑ t ∈ range i, point arr t ^ 2⟩ := by
  induction n with
  | zero => simp [CostCalculator.new]
  | succ n ih =>
      have hget : ∀ f : ℕ → K, ((List.range (n + 1)).map f).getD n 0 = f n := by
        intro f
        rw [List.getD_eq_getElem _ _ (by rw [List.length_map, List.length_range]; omega),
          List.getElem_map, List.getElem_range]
      rw [CostCalculator.new] at ih
      rw [CostCalculator.new, List.range_succ, List.foldl_append, ih]
      simp only [List.foldl_cons, List.foldl_nil, hget]
      rw [List.range_succ (n := n + 1), List.map_append, List.map_append, List.map_singleton,
        List.map_singleton, sum_range_succ, sum_range_succ, add_comm (∑ t ∈ range n, point arr t),
        add_comm (∑ t ∈ range n, point arr t ^ 2), pow_two]
      rfl

omit [LinearOrder K] [IsStrictOrderedRing K] in
/-- The cost of an interval is the sum of the squared distances to the mean. -/
theorem cost_eq (arr : List K) (hj : j < n) :
    (CostCalculator.new arr n).cost i j = some (sse (point arr) i (j + 1)) := by
  rw [CostCalculator.cost]
  rcases Nat.lt_or_ge j i with hji | hij
  · rw [if_pos hji]
    exact congrArg some (sqDist_of_le hji).symm
  · have hget : ∀ f : ℕ → K, ∀ i ≤ n, ((List.range (n + 1)).map f)[i]? = some (f i) := by
      intro f i hi
      rw [List.getElem?_map, List.getElem?_range (by omega)]
      rfl
    have hsum : ∀ f : ℕ → K, ∑ t ∈ range (j + 1), f t - ∑ t ∈ range i, f t = ∑ t ∈ Ico i (j + 1), f t :=
      fun f ↦ (sum_Ico_eq_sub f (by omega)).symm
    rw [if_neg (by omega), CostCalculator.new_eq]
    simp only [hget _ (j + 1) hj, hget _ i (hij.trans hj.le), Option.bind_eq_bind, Option.bind_some, hsum]
    refine congrArg some ?_
    have hsize : j - i + 1 = j + 1 - i := by omega
    rw [sse, sqDist_eq_moments, mean, hsize, Nat.cast_ofNat, pow_two]

end Costs

/-! ## The tables -/

section Matrix

variable {T : Type} {M : Matrix T} {nrows ncols i j i' j' : ℕ} {v : T}

/-- The table has `nrows` rows. -/
structure Matrix.HasRows (M : Matrix T) (nrows ncols : ℕ) : Prop where
  length_data : M.data.length = nrows * ncols
  ncols_eq : M.ncols = ncols

theorem Matrix.hasRows_new (zero : T) (nrows ncols : ℕ) : (Matrix.new zero nrows ncols).HasRows nrows ncols :=
  ⟨List.length_replicate, rfl⟩

theorem Matrix.at_natCast (M : Matrix T) (i j : ℕ) : M.at i (j : ℤ) = M.data[i * M.ncols + j]? := by
  rw [Matrix.at, if_pos (by omega), ← Nat.cast_add, Int.toNat_natCast]

theorem Matrix.HasRows.put (h : M.HasRows nrows ncols) (hi : i < nrows) (hj : j < ncols) (v : T) :
    ∃ M', M.put i j v = some M' ∧ M'.HasRows nrows ncols ∧ M'.at i (j : ℤ) = some v ∧
      ∀ i' j' : ℕ, j' < ncols → i' ≠ i ∨ j' ≠ j → M'.at i' (j' : ℤ) = M.at i' (j' : ℤ) := by
  have hlt : i * M.ncols + j < M.data.length := by
    rw [h.length_data, h.ncols_eq]
    exact cell_lt hi hj
  refine ⟨_, if_pos hlt, ⟨by rw [← h.length_data, List.length_set], h.ncols_eq⟩, ?_, fun i' j' hj' hne ↦ ?_⟩
  · rw [Matrix.at_natCast]
    exact List.getElem?_set_self hlt
  · rw [Matrix.at_natCast, Matrix.at_natCast]
    refine List.getElem?_set_ne fun heq ↦ ?_
    rw [h.ncols_eq] at heq
    obtain ⟨hrow, hcol⟩ := cell_inj hj hj' heq
    rcases hne with hne | hne
    · exact hne hrow.symm
    · exact hne hcol.symm

end Matrix

section Tables

variable {arr : List K} {n nclusters k m : ℕ} {s : Tables K}

/-- What `T` is to have for the first `p` points in `k + 1` clusters. -/
def IsStart (a : ℕ → K) (n : ℕ) : ℕ → ℕ → ℕ → Prop
  | 0, _, start => start = 0
  | k + 1, p, start => FirstMin (cutCost (sse a) k p) (List.range n) start

/-- The rows before row `k`, and the columns before column `m` of it, are filled. -/
structure Filled (a : ℕ → K) (n nclusters k m : ℕ) (s : Tables K) : Prop where
  rowsD : s.D.HasRows nclusters n
  rowsT : s.T.HasRows nclusters n
  cost : ∀ k' m' : ℕ, m' < n → k' < k ∨ k' = k ∧ m' < m →
    s.D.at k' (m' : ℤ) = some (minCost (sse a) k' (m' + 1))
  start : ∀ k' m' : ℕ, m' < n → k' < k ∨ k' = k ∧ m' < m →
    ∃ start, s.T.at k' (m' : ℤ) = some start ∧ IsStart a n k' (m' + 1) start

omit [IsStrictOrderedRing K] in
theorem Filled.next_row {a : ℕ → K} (h : Filled a n nclusters k n s) : Filled a n nclusters (k + 1) 0 s :=
  ⟨h.rowsD, h.rowsT, fun k' m' hm' hk' ↦ h.cost k' m' hm' (by omega),
    fun k' m' hm' hk' ↦ h.start k' m' hm' (by omega)⟩

omit [IsStrictOrderedRing K] in
theorem Filled.put {a : ℕ → K} (h : Filled a n nclusters k m s) (hk : k < nclusters) (hm : m < n) {c : K}
    {start : ℕ} (hc : c = minCost (sse a) k (m + 1)) (hstart : IsStart a n k (m + 1) start) :
    ∃ D T, s.D.put k m c = some D ∧ s.T.put k m start = some T ∧
      Filled a n nclusters k (m + 1) ⟨D, T⟩ := by
  obtain ⟨D, hD, hrowsD, hselfD, hotherD⟩ := h.rowsD.put hk hm c
  obtain ⟨T, hT, hrowsT, hselfT, hotherT⟩ := h.rowsT.put hk hm start
  refine ⟨D, T, hD, hT, hrowsD, hrowsT, fun k' m' hm' hk' ↦ ?_, fun k' m' hm' hk' ↦ ?_⟩
  · by_cases heq : k' = k ∧ m' = m
    · obtain ⟨rfl, rfl⟩ := heq
      rw [← hc]
      exact hselfD
    · rw [hotherD k' m' hm' (by omega)]
      exact h.cost k' m' hm' (by omega)
  · by_cases heq : k' = k ∧ m' = m
    · obtain ⟨rfl, rfl⟩ := heq
      exact ⟨start, hselfT, hstart⟩
    · rw [hotherT k' m' hm' (by omega)]
      exact h.start k' m' hm' (by omega)

omit [IsStrictOrderedRing K] in
theorem firstTurn_filled (h : Filled (point arr) n nclusters 0 m s) (hk : 0 < nclusters) (hm : m < n) :
    ∃ s', firstTurn (.new arr n) s m = some s' ∧ Filled (point arr) n nclusters 0 (m + 1) s' := by
  have hstart : IsStart (point arr) n 0 (m + 1) 0 := rfl
  obtain ⟨D, T, hD, hT, hfilled⟩ := h.put hk hm (c := minCost (sse (point arr)) 0 (m + 1)) rfl hstart
  refine ⟨⟨D, T⟩, ?_, hfilled⟩
  rw [firstTurn, cost_eq arr hm]
  change (s.D.put 0 m (minCost (sse (point arr)) 0 (m + 1))).bind _ = _
  rw [hD]
  change (s.T.put 0 m 0).bind _ = _
  rw [hT]
  rfl

variable (harr : Ascending (point arr) n)
include harr

theorem C_eq (h : Filled (point arr) n nclusters (k + 1) m s) {r i : ℕ}
    (hr : r < n) : C (.new arr n) s.D (k + 1) r i = some (cutCost (sse (point arr)) k (r + 1) i) := by
  rw [C, cutCost]
  rcases Nat.eq_zero_or_pos i with rfl | hi
  · rw [if_pos rfl, cost_eq arr hr, Nat.min_zero, (intervalCost_sse harr).minCost_zero_right, zero_add]
  · rw [if_neg hi.ne', Nat.add_sub_cancel, h.cost k (min r (i - 1)) (by omega) (by omega), cost_eq arr hr,
      show min r (i - 1) + 1 = min (r + 1) i by omega]
    rfl

theorem cellTurn_filled (h : Filled (point arr) n nclusters (k + 1) m s)
    (hk : k + 1 < nclusters) (hm : m < n) {argmins : List ℕ} {start : ℕ} (hget : argmins[m]? = some start)
    (hstart : FirstMin (cutCost (sse (point arr)) k (m + 1)) (List.range n) start) :
    ∃ s', cellTurn (.new arr n) (k + 1) argmins s m = some s' ∧
      Filled (point arr) n nclusters (k + 1) (m + 1) s' := by
  obtain ⟨-, -, hleast⟩ := (intervalCost_sse harr).firstMin_cutCost (Nat.succ_pos m) hm hstart
  obtain ⟨D, T, hD, hT, hfilled⟩ := h.put hk hm hleast hstart
  refine ⟨⟨D, T⟩, ?_, hfilled⟩
  rw [cellTurn, hget]
  change (C (.new arr n) s.D (k + 1) m start).bind _ = _
  rw [C_eq harr h hm]
  change (s.D.put (k + 1) m (cutCost (sse (point arr)) k (m + 1) start)).bind _ = _
  rw [hD]
  change (s.T.put (k + 1) m start).bind _ = _
  rw [hT]
  rfl

theorem rowTurn_filled (hn : 0 < n)
    (h : Filled (point arr) n nclusters (k + 1) 0 s) (hk : k + 1 < nclusters) :
    ∃ s', rowTurn (.new arr n) n s (k + 1) = some s' ∧ Filled (point arr) n nclusters (k + 2) 0 s' := by
  have hlen₀ : (List.replicate n 0).length = n := List.length_replicate
  obtain ⟨argmins, hsmawk, hlen, hmin⟩ := smawk_firstMin hn (fun r hr c _ ↦ C_eq (i := c) harr h hr)
    ((intervalCost_sse harr).totallyMonotone k _) hlen₀
  obtain ⟨s', hfold, hfilled⟩ := foldlM_range_done (m := Option)
    (fun m s ↦ Filled (point arr) n nclusters (k + 1) m s) h
    (f := cellTurn (.new arr n) (k + 1) argmins) (n := n) fun m hm s hs ↦ by
      obtain ⟨start, hget, hstart⟩ := hmin m hm
      exact cellTurn_filled harr hs hk hm hget hstart
  refine ⟨s', ?_, hfilled.next_row⟩
  rw [rowTurn, hsmawk]
  change (List.range argmins.length).foldlM _ s = _
  rw [hlen]
  exact hfold

theorem fillTables_filled (hn : 0 < n) (hk : 0 < nclusters) :
    ∃ s, fillTables (.new arr n) n nclusters = some s ∧ Filled (point arr) n nclusters nclusters 0 s := by
  obtain ⟨s₁, hfirst, hfilled₁⟩ := foldlM_range_done (m := Option)
    (fun m s ↦ Filled (point arr) n nclusters 0 m s)
    (s := ⟨.new 0 nclusters n, .new 0 nclusters n⟩)
    ⟨Matrix.hasRows_new _ _ _, Matrix.hasRows_new _ _ _, fun k' m' _ h ↦ by omega, fun k' m' _ h ↦ by omega⟩
    (f := firstTurn (.new arr n)) (n := n) fun m hm s hs ↦ firstTurn_filled hs hk hm
  obtain ⟨s₂, hrest, hfilled₂⟩ := foldlM_range_done (m := Option)
    (fun k s ↦ Filled (point arr) n nclusters (k + 1) 0 s) hfilled₁.next_row
    (f := fun s k ↦ rowTurn (.new arr n) n s (k + 1)) (n := nclusters - 1)
    fun k hk s hs ↦ rowTurn_filled harr hn hs (by omega)
  rw [Nat.sub_add_cancel hk] at hfilled₂
  refine ⟨s₂, ?_, hfilled₂⟩
  rw [fillTables, hfirst]
  exact hrest

end Tables

/-! ## The way back -/

section Backtracking

variable {arr : List K} {n nclusters k e start : ℕ} {T : Matrix ℕ} {b : Backtracking K}

/-- What `T` has. -/
def HasStarts (a : ℕ → K) (n nclusters : ℕ) (T : Matrix ℕ) : Prop :=
  ∀ k < nclusters, ∀ e, 0 < e → e ≤ n → ∃ start, T.at k ((e : ℤ) - 1) = some start ∧ IsStart a n k e start

omit [IsStrictOrderedRing K] in
theorem Filled.hasStarts {a : ℕ → K} {s : Tables K} (h : Filled a n nclusters nclusters 0 s) :
    HasStarts a n nclusters s.T := by
  intro k hk e he hen
  obtain ⟨start, hat, hstart⟩ := h.start k (e - 1) (by omega) (.inl hk)
  rw [Nat.sub_add_cancel he] at hstart
  exact ⟨start, by rw [← hat]; congr 1; omega, hstart⟩

theorem IsStart.lt (harr : Ascending (point arr) n) (h : IsStart (point arr) n k e start) (he : 0 < e)
    (hen : e ≤ n) : start < e := by
  cases k with
  | zero => exact h.trans_lt he
  | succ k => exact ((intervalCost_sse harr).firstMin_cutCost he hen h).1

omit [LinearOrder K] [IsStrictOrderedRing K] in
theorem sum_map_eq (f : K → K) (xs : List K) : (xs.map f).sum = ∑ t ∈ range xs.length, f (point xs t) := by
  induction xs with
  | nil => rfl
  | cons x xs ih =>
      rw [List.map_cons, List.sum_cons, ih, List.length_cons, sum_range_succ', add_comm]
      rfl

omit [LinearOrder K] [IsStrictOrderedRing K] in
theorem foldl_drop_take (hen : e ≤ arr.length) :
    ((arr.drop start).take (e - start)).foldl (· + ·) 0 = ∑ t ∈ Ico start e, point arr t := by
  have hlen : ((arr.drop start).take (e - start)).length = e - start := by
    rw [List.length_take, List.length_drop]
    omega
  have hsum := sum_map_eq id ((arr.drop start).take (e - start))
  rw [List.map_id, hlen] at hsum
  rw [← List.sum_eq_foldl, hsum, sum_Ico_eq_sum_range]
  refine sum_congr rfl fun t ht ↦ ?_
  have ht := mem_range.mp ht
  rw [id_eq, point, point, List.getD_eq_getElem _ _ (by omega), List.getElem_take, List.getElem_drop,
    List.getD_eq_getElem]

theorem backTurn_eq (hlen : arr.length = n) (harr : Ascending (point arr) n)
    (hT : HasStarts (point arr) n nclusters T) (hk : k < nclusters) (he : 0 < b.stop) (hen : b.stop ≤ n) :
    ∃ start uf tot, IsStart (point arr) n k b.stop start ∧ backTurn arr T b k =
      some ⟨start, b.centroids.set k (mean (point arr) start b.stop), tot, uf⟩ := by
  obtain ⟨start, hat, hstart⟩ := hT k hk b.stop he hen
  have hlt := hstart.lt harr he hen
  refine ⟨start, b.uf + ((b.stop - start : ℕ) : K) * ((b.stop - start : ℕ) : K),
    b.tot + ((b.stop - start : ℕ) : K), hstart, ?_⟩
  rw [backTurn, hat]
  change (if start ≤ b.stop then _ else none) = _
  rw [if_pos hlt.le, if_pos (by omega), foldl_drop_take (by omega)]
  rfl

omit [LinearOrder K] [IsStrictOrderedRing K] in
theorem backTurn_zero (hstop : b.stop = 0) : backTurn arr T b k = none := by
  rw [backTurn]
  cases T.at k ((b.stop : ℤ) - 1) with
  | none => rfl
  | some start =>
      change (if start ≤ b.stop then _ else none) = none
      split
      · rw [if_neg (by omega)]
      · rfl

/-- With enough different points, the way back finds centroids with the least cost. -/
theorem back_optimal (hlen : arr.length = n) (harr : Ascending (point arr) n)
    (hT : HasStarts (point arr) n nclusters T) (hk : k < nclusters)
    (hcs : b.centroids.length = nclusters) (he : 0 < b.stop) (hen : b.stop ≤ n)
    (hdistinct : k + 1 ≤ distinct (point arr) b.stop) :
    ∃ b', (List.range (k + 1)).reverse.foldlM (backTurn arr T) b = some b' ∧
      b'.centroids.length = nclusters ∧ (∀ j, k < j → b'.centroids[j]? = b.centroids[j]?) ∧
      ∑ t ∈ range b.stop, nearestSq b'.centroids (point arr t) ≤ minCost (sse (point arr)) k b.stop := by
  induction k generalizing b with
  | zero =>
      obtain ⟨start, uf, tot, hstart, hturn⟩ := backTurn_eq hlen harr hT hk he hen
      obtain rfl : start = 0 := hstart
      refine ⟨_, by rw [List.range_one, List.reverse_singleton, List.foldlM_cons, hturn]; rfl,
        by rw [List.length_set, hcs], fun j hj ↦ List.getElem?_set_ne hj.ne, ?_⟩
      rw [range_eq_Ico]
      refine sum_le_sum fun t _ ↦ nearestSq_le ?_ _
      exact List.mem_of_getElem? (List.getElem?_set_self (by omega))
  | succ k ih =>
      obtain ⟨start, uf, tot, hstart, hturn⟩ := backTurn_eq hlen harr hT hk he hen
      have hdistinct' := le_distinct_of_firstMin harr he hen hstart hdistinct
      obtain ⟨hlt, hself, hleast⟩ := (intervalCost_sse harr).firstMin_cutCost he hen hstart
      have hstartpos : 0 < start := by
        rcases Nat.eq_zero_or_pos start with rfl | hpos
        · exact absurd hdistinct' (by rw [distinct, range_zero, image_empty, card_empty]; omega)
        · exact hpos
      obtain ⟨b', hfold, hlen', hkeep, hcost⟩ := ih
        (b := ⟨start, b.centroids.set (k + 1) (mean (point arr) start b.stop), tot, uf⟩) (by omega)
        (by rw [List.length_set, hcs]) hstartpos (hlt.le.trans hen) hdistinct'
      refine ⟨b', ?_, hlen', fun j hj ↦ ?_, ?_⟩
      · rw [List.range_succ, List.reverse_append, List.reverse_singleton, List.singleton_append,
          List.foldlM_cons, hturn]
        exact hfold
      · rw [hkeep j (by omega)]
        exact List.getElem?_set_ne hj.ne
      · have hmem : mean (point arr) start b.stop ∈ b'.centroids := by
          refine List.mem_of_getElem? (i := k + 1) ?_
          rw [hkeep (k + 1) (Nat.lt_succ_self k)]
          exact List.getElem?_set_self (by omega)
        have hlast : ∑ t ∈ Ico start b.stop, nearestSq b'.centroids (point arr t) ≤
            sse (point arr) start b.stop :=
          sum_le_sum fun t _ ↦ nearestSq_le hmem _
        rw [← hleast, hself, ← sum_range_add_sum_Ico _ hlt.le]
        exact add_le_add hcost hlast

omit [Field K] [IsStrictOrderedRing K] in
theorem distinct_pos (a : ℕ → K) {p : ℕ} (hp : 0 < p) : 0 < distinct a p :=
  card_pos.mpr ⟨a 0, mem_image_of_mem a (mem_range.mpr hp)⟩

/-- With too few different points, the way back goes on when there are no points left. -/
theorem back_none (hlen : arr.length = n) (harr : Ascending (point arr) n)
    (hT : HasStarts (point arr) n nclusters T) (hk : k < nclusters) (hen : b.stop ≤ n)
    (hdistinct : distinct (point arr) b.stop ≤ k) :
    (List.range (k + 1)).reverse.foldlM (backTurn arr T) b = none := by
  induction k generalizing b with
  | zero =>
      have hstop : b.stop = 0 := by
        by_contra hne
        have := distinct_pos (point arr) (Nat.pos_of_ne_zero hne)
        omega
      rw [List.range_one, List.reverse_singleton, List.foldlM_cons, backTurn_zero hstop]
      rfl
  | succ k ih =>
      rw [List.range_succ, List.reverse_append, List.reverse_singleton, List.singleton_append,
        List.foldlM_cons]
      rcases Nat.eq_zero_or_pos b.stop with hstop | he
      · rw [backTurn_zero hstop]
        rfl
      · obtain ⟨start, uf, tot, hstart, hturn⟩ := backTurn_eq hlen harr hT hk he hen
        have hlt := hstart.lt harr he hen
        have hnext := ih
          (b := ⟨start, b.centroids.set (k + 1) (mean (point arr) start b.stop), tot, uf⟩) (by omega)
          (hlt.le.trans hen) (distinct_le_of_firstMin harr he hen hstart hdistinct)
        rw [hturn]
        exact hnext

end Backtracking

/-! ## Optimal centroids -/

section Result

variable {x : List K} {nclusters : ℕ}

omit [IsStrictOrderedRing K] in
theorem error_perm {centroids x y : List K} (h : x.Perm y) : error centroids x = error centroids y :=
  (h.map _).sum_eq

omit [IsStrictOrderedRing K] in
theorem ascending_insertionSort (x : List K) :
    Ascending (point (x.insertionSort (· ≤ ·))) x.length := by
  intro s t hst ht
  have hlen : (x.insertionSort (· ≤ ·)).length = x.length := List.length_insertionSort _ _
  rcases hst.lt_or_eq with hst | rfl
  · rw [point, point, List.getD_eq_getElem _ _ (by omega), List.getD_eq_getElem _ _ (by omega)]
    exact List.pairwise_iff_getElem.mp (List.pairwise_insertionSort (· ≤ ·) x) s t (by omega) (by omega) hst
  · exact le_rfl

omit [IsStrictOrderedRing K] in
theorem distinct_insertionSort (x : List K) :
    distinct (point (x.insertionSort (· ≤ ·))) x.length = x.toFinset.card := by
  have hlen : (x.insertionSort (· ≤ ·)).length = x.length := List.length_insertionSort _ _
  rw [distinct]
  congr 1
  ext y
  rw [mem_image, List.mem_toFinset, ← List.mem_insertionSort (· ≤ ·)]
  constructor
  · rintro ⟨t, ht, rfl⟩
    rw [point, List.getD_eq_getElem _ _ (by rw [hlen]; exact mem_range.mp ht)]
    exact List.getElem_mem _
  · intro hy
    obtain ⟨t, ht, rfl⟩ := List.getElem_of_mem hy
    exact ⟨t, mem_range.mpr (hlen ▸ ht), List.getD_eq_getElem _ _ ht⟩

section
variable (hk : 0 < nclusters) (hn : nclusters < x.length)
include hk hn

theorem kmeans1d_eq :
    ∃ T, HasStarts (point (x.insertionSort (· ≤ ·))) x.length nclusters T ∧ kmeans1d x nclusters =
      ((List.range nclusters).reverse.foldlM (backTurn (x.insertionSort (· ≤ ·)) T)
        ⟨x.length, List.replicate nclusters 0, 0, 0⟩).map
          fun b ↦ ⟨b.uf * nclusters / (b.tot * b.tot), b.centroids⟩ := by
  obtain ⟨s, hs, hfilled⟩ := fillTables_filled (ascending_insertionSort x) (hk.trans hn) hk
  refine ⟨s.T, hfilled.hasStarts, ?_⟩
  rw [kmeans1d, if_pos hn.le, if_neg hn.ne']
  change (fillTables (.new (x.insertionSort (· ≤ ·)) x.length) x.length nclusters).bind _ = _
  rw [hs]
  rw [Option.map_eq_bind]
  rfl

/-- With too few different values, `kmeans1d` does not return. -/
theorem kmeans1d_none (h : x.toFinset.card < nclusters) :
    kmeans1d x nclusters = none := by
  obtain ⟨T, hT, heq⟩ := kmeans1d_eq hk hn
  rw [← distinct_insertionSort x] at h
  have hnone := back_none (b := ⟨x.length, List.replicate nclusters 0, 0, 0⟩)
    (List.length_insertionSort (· ≤ ·) x) (ascending_insertionSort x) hT (k := nclusters - 1) (by omega) le_rfl
    (by change distinct _ x.length ≤ _; omega)
  rw [Nat.sub_add_cancel hk] at hnone
  rw [heq, hnone]
  rfl

/-- With enough different values, `kmeans1d` finds optimal centroids. -/
theorem optimal_of_distinct (h : nclusters ≤ x.toFinset.card) : Optimal x nclusters := by
  obtain ⟨T, hT, heq⟩ := kmeans1d_eq hk hn
  rw [← distinct_insertionSort x] at h
  have harr := ascending_insertionSort x
  have hlen : (x.insertionSort (· ≤ ·)).length = x.length := List.length_insertionSort _ _
  have hperm : (x.insertionSort (· ≤ ·)).Perm x := List.perm_insertionSort _ _
  obtain ⟨b, hb, hcs, -, hcost⟩ := back_optimal
    (b := ⟨x.length, List.replicate nclusters 0, 0, 0⟩) hlen harr hT (k := nclusters - 1) (by omega)
    List.length_replicate (hk.trans hn) le_rfl (by change _ ≤ distinct _ x.length; omega)
  rw [Nat.sub_add_cancel hk] at hb
  refine ⟨_, by rw [heq, hb]; rfl, hcs, fun centroids hcentroids ↦ ?_⟩
  have hlower : minCost (sse (point (x.insertionSort (· ≤ ·)))) (nclusters - 1) x.length ≤
      ∑ t ∈ range x.length, nearestSq centroids (point (x.insertionSort (· ≤ ·)) t) :=
    minCost_le_error harr (by omega) (le_refl x.length)
  have herror : ∀ cs : List K, error cs x =
      ∑ t ∈ range x.length, nearestSq cs (point (x.insertionSort (· ≤ ·)) t) := by
    intro cs
    rw [← error_perm hperm, error, sum_map_eq, hlen]
  change error b.centroids x ≤ _
  rw [herror, herror]
  exact hcost.trans hlower

end

theorem optimal_of_length (h : x.length = nclusters) : Optimal x nclusters := by
  refine ⟨⟨0, x⟩, by rw [kmeans1d, if_pos h.ge, if_pos h], h, fun centroids _ ↦ ?_⟩
  have hzero : error x x = 0 := by
    refine List.sum_eq_zero fun y hy ↦ ?_
    obtain ⟨z, hz, rfl⟩ := List.mem_map.mp hy
    refine le_antisymm ((nearestSq_le hz z).trans_eq ?_) (nearestSq_nonneg _ _)
    rw [sub_self, zero_pow two_ne_zero]
  rw [hzero]
  refine List.sum_nonneg fun y hy ↦ ?_
  obtain ⟨z, -, rfl⟩ := List.mem_map.mp hy
  exact nearestSq_nonneg _ _

theorem findsRowMinima : FindsRowMinima := by
  intro α _ nrows ncols A hncols hmono
  have hlookup : ∀ r < nrows, ∀ col < ncols,
      (fun r col ↦ if r < nrows ∧ col < ncols then some (A r col) else none) r col = some (A r col) :=
    fun r hr col hcol ↦ if_pos ⟨hr, hcol⟩
  obtain ⟨argmins, heq, hlen, hall⟩ := smawk_firstMin hncols hlookup hmono List.length_replicate
  refine ⟨argmins, heq, hlen, fun r hr ↦ ?_⟩
  obtain ⟨m, hm, hmin⟩ := hall r hr
  rw [List.getD_eq_getElem?_getD, hm]
  exact ⟨List.mem_range.mp hmin.mem, fun c hc ↦ hmin.le c (List.mem_range.mpr hc)⟩

/-- `smawk` always finds the row minima, and `kmeans1d` finds optimal centroids if and only if there are as
many values as clusters, or at least as many different ones. -/
theorem kmeans1d_optimal_iff (x : List K) (nclusters : ℕ) (hk : 1 ≤ nclusters) (hn : nclusters ≤ x.length) :
    Optimal x nclusters ∧ FindsRowMinima ↔ x.length = nclusters ∨ nclusters ≤ x.toFinset.card := by
  rw [and_iff_left findsRowMinima]
  rcases hn.lt_or_eq with hlt | heq
  · rw [or_iff_right hlt.ne']
    refine ⟨fun ⟨r, hr, _⟩ ↦ ?_, optimal_of_distinct hk hlt⟩
    by_contra hfew
    rw [kmeans1d_none hk hlt (Nat.lt_of_not_le hfew)] at hr
    exact absurd hr (Option.some_ne_none r).symm
  · exact iff_of_true (optimal_of_length heq.symm) (.inl heq.symm)

end Result

/-- Two clusters of three values. -/
theorem kmeans1d_optimal_iff_three : Optimal ([0, 1, 5] : List ℚ) 2 ∧ FindsRowMinima :=
  (kmeans1d_optimal_iff [0, 1, 5] 2 (by decide) (by decide)).mpr (.inr (by decide))

/-- Two clusters of three equal values: the last one begins at 0, and there is no value left for the
first one. -/
theorem not_optimal_repeated : ¬ Optimal ([1, 1, 1] : List ℚ) 2 := by
  rintro ⟨r, hr, -⟩
  rw [kmeans1d_none (by decide) (by decide) (by decide)] at hr
  exact absurd hr (Option.some_ne_none r).symm

end FaissNavix.Kmeans1d
