import FaissNavix.NNDescent.Build

/-!
# Too few random candidates

With `S ≤ K` there are draws and distances for which the pool of vertex 0 never grows: it starts with the
other vertices below `S`, which are at distance 0, and all other vertices are further away.
-/

namespace FaissNavix

/-- Vertex 0 is at distance 0 from the vertices from 1 to `S - 1`, and all else is at distance 1. -/
def nearZero (S a b : ℕ) : F32 :=
  if a = 0 ∧ 1 ≤ b ∧ b < S ∨ b = 0 ∧ 1 ≤ a ∧ a < S then ⟨0⟩ else ⟨0x3f800000#32⟩

theorem nearZero_comparable (S a b : ℕ) : (nearZero S a b).Comparable := by
  rw [nearZero]
  split
  · decide
  · decide

theorem nearZero_symm (S a b : ℕ) : nearZero S a b = nearZero S b a := by
  rw [nearZero, nearZero]
  exact if_congr or_comm rfl rfl

theorem nearZero_zero {S b : ℕ} : nearZero S 0 b = ⟨0⟩ ∨ (⟨0⟩ : F32) < nearZero S 0 b := by
  rw [nearZero]
  split
  · exact .inl rfl
  · exact .inr (by decide)

theorem nearZero_eq_zero {S b : ℕ} (h : nearZero S 0 b = ⟨0⟩) : b = 0 ∨ 1 ≤ b ∧ b < S := by
  rw [nearZero] at h
  split at h
  · omega
  · exact absurd h (by decide)

/-- A pool that cannot grow. -/
structure StuckPool (S K : ℕ) (pool : List Neighbor) : Prop where
  length_lt : pool.length < K
  distance_eq : ∀ nb ∈ pool, nb.distance = ⟨0⟩
  full : ∀ id, 1 ≤ id → id < S → ∃ nb ∈ pool, nb.id = id

variable {O : Openings} {P : BuildParameters} {n S K : ℕ} {pool pool' : List Neighbor}

theorem StuckPool.perm (h : StuckPool S K pool) (hp : pool'.Perm pool) : StuckPool S K pool' where
  length_lt := hp.length_eq ▸ h.length_lt
  distance_eq := fun nb hnb ↦ h.distance_eq nb (hp.mem_iff.mp hnb)
  full := fun id h1 hS ↦ by
    obtain ⟨nb, hnb, hid⟩ := h.full id h1 hS
    exact ⟨nb, hp.mem_iff.mpr hnb, hid⟩

theorem StuckPool.clearFlag (h : StuckPool S K pool) {l : ℕ} {nn : Neighbor}
    (hl : pool[l]? = some nn) : StuckPool S K (pool.set l { nn with flag := false }) where
  length_lt := by rw [List.length_set]; exact h.length_lt
  distance_eq := fun nb hnb ↦ by
    rcases List.mem_or_eq_of_mem_set hnb with hnb | rfl
    · exact h.distance_eq nb hnb
    · exact h.distance_eq nn (List.mem_of_getElem? hl)
  full := fun id h1 hS ↦ by
    obtain ⟨nb, hnb, hid⟩ := h.full id h1 hS
    obtain ⟨j, hj⟩ := List.mem_iff_getElem?.mp hnb
    obtain ⟨hlt, -⟩ := List.getElem?_eq_some_iff.mp hl
    by_cases hjl : l = j
    · subst hjl
      obtain rfl : nn = nb := Option.some_inj.mp (hl.symm.trans hj)
      exact ⟨{ nn with flag := false }, List.mem_of_getElem? (List.getElem?_set_self hlt), hid⟩
    · exact ⟨nb, List.mem_of_getElem? (by rw [List.getElem?_set_ne hjl]; exact hj), hid⟩

theorem StuckPool.insert {nh nh' : Nhood} (h : StuckPool S K nh.pool) {id : ℕ} (hid : id ≠ 0)
    (hins : nh.insert O id (nearZero S 0 id) = some nh') : nh' = nh := by
  unfold Nhood.insert at hins
  split at hins
  · exact absurd hins (by simp)
  · rename_i front rest hpool
    have hfront : front.distance = ⟨0⟩ := h.distance_eq front (hpool ▸ List.mem_cons_self)
    rw [hfront] at hins
    rcases @nearZero_zero S id with hzero | hfar
    · rcases nearZero_eq_zero hzero with rfl | ⟨h1, hS⟩
      · exact absurd rfl hid
      · rw [hzero, if_neg (F32.lt_irrefl _), if_pos (h.full id h1 hS)] at hins
        exact (Option.some_inj.mp hins).symm
    · rw [if_pos hfar] at hins
      exact (Option.some_inj.mp hins).symm

/-! ## The iterations -/

theorem mem_joinInsertions_nearZero {graph : KNNGraph} {ins : Insertion}
    (hins : ins ∈ joinInsertions (nearZero S) n graph) :
    ins.2.1 ≠ ins.1 ∧ ins.2.2 = nearZero S ins.1 ins.2.1 := by
  obtain ⟨v, -, hins⟩ := List.mem_flatMap.mp hins
  obtain ⟨p, -, hins⟩ := List.mem_flatMap.mp hins
  split at hins
  · exact absurd hins List.not_mem_nil
  · rename_i hne
    rcases List.mem_cons.mp hins with rfl | hins
    · exact ⟨fun heq ↦ hne heq.symm, rfl⟩
    · rw [List.mem_singleton.mp hins]
      exact ⟨hne, nearZero_symm S _ _⟩

section
variable {graph graph' : KNNGraph} (h : StuckPool S K (graph 0).pool) {draws : BuildDraws}
include h

theorem stuckPool_joinAll {it : ℕ}
    (hjoin : joinAll O (nearZero S) it n graph = some graph') : StuckPool S K (graph' 0).pool := by
  refine Lib.foldlM_invariant (fun g : KNNGraph ↦ StuckPool S K (g 0).pool) h (fun ins hins g g' hg hstep ↦ ?_)
    hjoin
  obtain ⟨hne, hdist⟩ := mem_joinInsertions_nearZero ((O.joinOrder_perm it _).mem_iff.mp hins)
  obtain ⟨nh, hnh, rfl⟩ := Option.map_eq_some_iff.mp hstep
  by_cases hzero : ins.1 = 0
  · rw [hdist] at hnh
    rw [hzero] at hnh hne ⊢
    rw [Function.update_self, hg.insert hne hnh]
    exact hg
  · rw [Function.update_of_ne (Ne.symm hzero)]
    exact hg

theorem stuckPool_linkReverse {v l : ℕ} {nn back : Neighbor}
    (hlink : linkReverse P draws graph v l nn back = some graph') : StuckPool S K (graph' 0).pool := by
  have hpool : ∀ nh : Nhood, nh.pool = (graph nn.id).pool →
      StuckPool S K (Function.update graph nn.id nh 0).pool := by
    intro nh hnh
    by_cases hzero : nn.id = 0
    · rw [hzero] at hnh ⊢
      rw [Function.update_self, hnh]
      exact h
    · rw [Function.update_of_ne (Ne.symm hzero)]
      exact h
  unfold linkReverse at hlink
  dsimp only at hlink
  split at hlink
  · split at hlink
    · obtain ⟨rnn, -, rfl⟩ := Option.map_eq_some_iff.mp hlink
      exact hpool _ rfl
    · obtain ⟨rnn, -, rfl⟩ := Option.map_eq_some_iff.mp hlink
      exact hpool _ rfl
  · obtain rfl := Option.some_inj.mp hlink
    exact h

theorem stuckPool_updateStep
    {step : UpdateStep} (hstep : updateStep O P draws graph step = some graph') :
    StuckPool S K (graph' 0).pool := by
  cases step with
  | visit v l =>
      obtain ⟨nn, hnn, hrest⟩ := Option.bind_eq_some_iff.mp hstep
      obtain ⟨back, -, hlink⟩ := Option.bind_eq_some_iff.mp hrest
      refine stuckPool_linkReverse ?_ hlink
      by_cases hzero : v = 0
      · subst hzero
        rw [Function.update_self]
        split
        · exact h.clearFlag hnn
        · exact h
      · rw [Function.update_of_ne (Ne.symm hzero)]
        exact h
  | makeHeap v =>
      obtain rfl := Option.some_inj.mp hstep
      by_cases hzero : v = 0
      · subst hzero
        rw [Function.update_self]
        exact h.perm (O.makeHeap_perm _)
      · rw [Function.update_of_ne (Ne.symm hzero)]
        exact h

end

section
variable {graph graph' : KNNGraph} (h : StuckPool S P.K (graph 0).pool) (hL : P.K ≤ P.L)
  {draws : ℕ → BuildDraws}
include h hL

theorem stuckPool_updateAll {it : ℕ}
    (hupdate : updateAll O P draws it n graph = some graph') : StuckPool S P.K (graph' 0).pool := by
  obtain ⟨g, hg, rfl⟩ := Option.map_eq_some_iff.mp hupdate
  have hsorted := h.perm (O.sort.perm (graph 0).pool)
  have hsampled : StuckPool S P.K ((graph 0).sample O P).pool := by
    have htake : (O.sort.sort (graph 0).pool).take P.L = O.sort.sort (graph 0).pool :=
      List.take_of_length_le (hsorted.length_lt.le.trans hL)
    rw [Nhood.sample, htake]
    exact hsorted
  exact Lib.foldlM_invariant (fun g : KNNGraph ↦ StuckPool S P.K (g 0).pool) hsampled
    (fun _ _ _ _ hg hstep ↦ stuckPool_updateStep hg hstep) hg

theorem stuckPool_descend {turns it : ℕ}
    (hrun : descend O P (nearZero S) draws n turns it graph = some graph') :
    StuckPool S P.K (graph' 0).pool := by
  induction turns generalizing it graph with
  | zero =>
      obtain rfl := Option.some_inj.mp hrun
      exact h
  | succ turns ih =>
      obtain ⟨joined, hjoin, hrest⟩ := Option.bind_eq_some_iff.mp hrun
      obtain ⟨updated, hupdate, hrest⟩ := Option.bind_eq_some_iff.mp hrest
      exact ih (stuckPool_updateAll (stuckPool_joinAll h hjoin) hL hupdate) hrest

end

/-! ## The start -/

theorem genRandom_zero {size N : ℕ} (hsize : 1 ≤ size) (hlt : size < N) (hN : N ≤ 2 ^ 30 + 1) :
    genRandom (fun _ ↦ 0) size N = some ((List.range size).map fun i : ℕ ↦ (i : ℤ)) := by
  have hsame : (fun _ ↦ 0) = sameDraws size 0 0 := funext fun t ↦ (ite_self _).symm
  have hv : Int.bmod (((0 : UInt32).toNat % drawModulus size N : ℕ) : ℤ) (2 ^ 32) = 0 := by
    have hzero : (0 : UInt32).toNat % drawModulus size N = 0 := Nat.zero_mod _
    rw [hzero]
    rfl
  have hoff : (0 : UInt32).toNat % N = 0 := Nat.zero_mod N
  rw [hsame, genRandom_sameDraws hsize (by rw [drawModulus, if_pos hlt.le]; omega) hv (by norm_num)
    (by omega), hoff, mapM_rotate (fun a ha ↦ ?_) (by norm_num), List.map_map]
  · refine congrArg some (List.map_congr_left fun i hi ↦ ?_)
    have := List.mem_range.mp hi
    rw [Function.comp_apply]
    exact (Int.emod_eq_of_lt (by omega) (by omega)).trans (by omega)
  · obtain ⟨i, hi, rfl⟩ := List.mem_map.mp ha
    have := List.mem_range.mp hi
    omega

def zeroDraws : BuildDraws :=
  ⟨fun _ _ ↦ 0, fun _ _ ↦ 0, fun _ ↦ 0, fun _ _ _ ↦ 0⟩

theorem stuckPool_init (hS : 1 ≤ P.S) (hSK : P.S ≤ P.K) (hn : 2 * P.S < n) (hlarge : n ≤ 2 ^ 30 + 1)
    {nh : Nhood} (h : initNhood O P (nearZero P.S) zeroDraws n 0 = some nh) :
    StuckPool P.S P.K nh.pool := by
  have htmp : genRandom (zeroDraws.pool 0) P.S n = _ := genRandom_zero hS (by omega) hlarge
  obtain ⟨new, -, h⟩ := Option.bind_eq_some_iff.mp h
  rw [htmp, Option.bind_eq_bind, Option.bind_some, Option.pure_def, Option.some_inj] at h
  have hnat : ((List.range P.S).map fun i : ℕ ↦ (i : ℤ)).map Int.toNat = List.range P.S := by
    rw [List.map_map]
    exact (List.map_congr_left fun i _ ↦ Int.toNat_natCast i).trans (List.map_id' _)
  rw [hnat] at h
  rw [← h]
  refine StuckPool.perm ⟨?_, fun nb hnb ↦ ?_, fun id h1 hlt ↦ ?_⟩ (O.makeHeap_perm _)
  · have hlt : ((List.range P.S).filter fun id ↦ decide (id ≠ 0)).length < P.S := by
      refine Nat.lt_of_lt_of_eq ?_ (List.length_range (n := P.S))
      refine List.length_filter_lt_length_iff_exists.mpr ⟨0, List.mem_range.mpr hS, ?_⟩
      simp
    rw [List.length_map]
    exact hlt.trans_le hSK
  · obtain ⟨id, hid, rfl⟩ := List.mem_map.mp hnb
    obtain ⟨hmem, hne⟩ := List.mem_filter.mp hid
    have hne := of_decide_eq_true hne
    exact if_pos (.inl ⟨rfl, Nat.one_le_iff_ne_zero.mpr hne, List.mem_range.mp hmem⟩)
  · refine ⟨_, List.mem_map.mpr ⟨id, List.mem_filter.mpr ⟨List.mem_range.mpr hlt, ?_⟩, rfl⟩, rfl⟩
    exact decide_eq_true (by omega)

/-- The row of vertex 0 has too few candidates. -/
theorem build_zeroDraws (hL : P.K ≤ P.L) (hS : 1 ≤ P.S) (hSK : P.S ≤ P.K) (hn : 2 * P.S < n)
    (hlarge : n ≤ 2 ^ 30 + 1) : build O P (nearZero P.S) (fun _ ↦ zeroDraws) n = none := by
  rw [Option.eq_none_iff_forall_ne_some]
  intro nnd h
  simp only [build, Option.bind_eq_bind, Option.bind_eq_some_iff, Option.guard_eq_some', exists_const]
    at h
  obtain ⟨-, hoods, hhoods, -, -, -, graph, hgraph, -, rows, hrows, -⟩ := h
  rw [Lib.mapM_eq_some_iff] at hhoods hrows
  obtain ⟨m, rfl⟩ : ∃ m, n = m + 1 := ⟨n - 1, by omega⟩
  rw [List.range_succ_eq_map, List.map_cons] at hhoods hrows
  obtain ⟨nh, rest, rfl, hnh, -⟩ := List.map_eq_cons_iff.mp hhoods.symm
  obtain ⟨row, rest', rfl, hrow, -⟩ := List.map_eq_cons_iff.mp hrows.symm
  have hstuck : StuckPool P.S P.K (graph 0).pool :=
    stuckPool_descend (stuckPool_init hS hSK hn hlarge hnh.symm) hL hgraph
  have hlt := (hstuck.perm (O.sort.perm _)).length_lt
  have hshort : finalRow O P (m + 1) (graph 0) = none := by
    refine if_neg fun h ↦ ?_
    have := h.1
    rw [List.length_take] at this
    omega
  rw [hshort] at hrow
  exact absurd hrow (by simp)

/-- The rows are good for all distances and draws exactly if a pool starts with more than `K` random
candidates, and the ids and positions are `int`s. -/
theorem build_rows_iff (O : Openings) {P : BuildParameters} {n : ℕ} (hK : 1 ≤ P.K) (hL : P.K ≤ P.L)
    (hS : 1 ≤ P.S) (hSn : 2 * P.S < n) (hR : 1 ≤ P.R) (hn : 100 < n) (hint : n < 2 ^ 31) :
    (∀ dis : ℕ → ℕ → F32, (∀ a < n, ∀ b < n, (dis a b).Comparable) →
      (∀ a < n, ∀ b < n, dis a b = dis b a) → ∀ draws : ℕ → BuildDraws,
        ∃ nnd, build O P dis draws n = some nnd ∧ ∀ i < n, GoodRow n i P.K dis (nnd.row i)) ↔
      P.K < P.S ∧ n ≤ 2 ^ 30 + 1 ∧ n * P.K < 2 ^ 31 := by
  constructor
  · intro h
    have hbuild : ∀ draws : ℕ → BuildDraws, ∃ nnd, build O P (nearZero P.S) draws n = some nnd :=
      fun draws ↦ (h (nearZero P.S) (fun a _ b _ ↦ nearZero_comparable P.S a b)
        (fun a _ b _ ↦ nearZero_symm P.S a b) draws).imp fun _ ↦ And.left
    have hlarge : n ≤ 2 ^ 30 + 1 := by
      by_contra hlarge
      obtain ⟨nnd, hnnd⟩ := hbuild fun _ ↦ { zeroDraws with
        nhood := fun _ ↦ sameDraws (P.S * 2) (UInt32.ofNat (n - P.S * 2 - 1)) (UInt32.ofNat (n - 1)) }
      simp only [build, Option.bind_eq_bind, Option.bind_eq_some_iff, Option.guard_eq_some',
        exists_const] at hnnd
      obtain ⟨-, hoods, hhoods, -⟩ := hnnd
      refine absurd hhoods ?_
      rw [Lib.mapM_eq_none (List.mem_range.mpr (show 0 < n by omega))]
      · simp
      · rw [initNhood, genRandom_of_large (by omega) (by omega) (by omega) hint]
        rfl
    refine ⟨?_, hlarge, ?_⟩
    · by_contra hSK
      obtain ⟨nnd, hnnd⟩ := hbuild fun _ ↦ zeroDraws
      rw [build_zeroDraws hL hS (not_lt.mp hSK) hSn hlarge] at hnnd
      exact absurd hnnd (by simp)
    · obtain ⟨nnd, hnnd⟩ := hbuild fun _ ↦ zeroDraws
      simp only [build, Option.bind_eq_bind, Option.bind_eq_some_iff, Option.guard_eq_some',
        exists_const] at hnnd
      obtain ⟨-, -, -, -, -, -, -, -, hroom, -⟩ := hnnd
      exact hroom
  · rintro ⟨hSK, hlarge, hroom⟩ dis hdis hsymm draws
    obtain ⟨nnd, hnnd, -, hrows⟩ := build_total hK hL hR hn hSK hSn hlarge hroom hdis hsymm draws (O := O)
    exact ⟨nnd, hnnd, hrows⟩

/-- Heaps that are sorted, and threads one after the other. -/
def Openings.sequential : Openings where
  sort := PoolSort.insertion
  makeHeap l := (PoolSort.insertion.sort l).reverse
  pushHeap l := (PoolSort.insertion.sort l).reverse
  popHeap l := (PoolSort.insertion.sort l).reverse.tail ++ (PoolSort.insertion.sort l).reverse.take 1
  makeHeap_perm l := (List.reverse_perm _).trans (PoolSort.insertion.perm l)
  pushHeap_perm l := (List.reverse_perm _).trans (PoolSort.insertion.perm l)
  popHeap_perm l := by
    rw [← List.drop_one]
    refine List.perm_append_comm.trans ?_
    rw [List.take_append_drop]
    exact (List.reverse_perm _).trans (PoolSort.insertion.perm l)
  grown size := size
  le_grown _ := le_rfl
  joinOrder _ l := l
  joinOrder_perm _ l := List.Perm.refl l
  updateOrder _ l := l
  updateOrder_perm _ l := List.Perm.refl l

theorem build_rows_iff_one :
    (∀ dis : ℕ → ℕ → F32, (∀ a < 101, ∀ b < 101, (dis a b).Comparable) →
      (∀ a < 101, ∀ b < 101, dis a b = dis b a) → ∀ draws : ℕ → BuildDraws,
        ∃ nnd, build Openings.sequential ⟨1, 51, 2, 100, 10, 0⟩ dis draws 101 = some nnd ∧
          ∀ i < 101, GoodRow 101 i 1 dis (nnd.row i)) ↔
      1 < 2 ∧ 101 ≤ 2 ^ 30 + 1 ∧ 101 * 1 < 2 ^ 31 :=
  @build_rows_iff Openings.sequential ⟨1, 51, 2, 100, 10, 0⟩ 101 (by decide) (by decide) (by decide)
    (by decide) (by decide) (by decide) (by decide)

/-- With the default sample size 10 and 16 neighbours some draws leave a row that is not filled. -/
theorem not_build_rows :
    ¬ ∀ dis : ℕ → ℕ → F32, (∀ a < 101, ∀ b < 101, (dis a b).Comparable) →
      (∀ a < 101, ∀ b < 101, dis a b = dis b a) → ∀ draws : ℕ → BuildDraws,
        ∃ nnd, build Openings.sequential ⟨16, 66, 10, 100, 10, 0⟩ dis draws 101 = some nnd ∧
          ∀ i < 101, GoodRow 101 i 16 dis (nnd.row i) := by
  intro h
  obtain ⟨nnd, hnnd, -⟩ := h (nearZero 10) (fun a _ b _ ↦ nearZero_comparable 10 a b)
    (fun a _ b _ ↦ nearZero_symm 10 a b) fun _ ↦ zeroDraws
  have hnone := @build_zeroDraws Openings.sequential ⟨16, 66, 10, 100, 10, 0⟩ 101 (by decide) (by decide)
    (by decide) (by decide) (by decide)
  exact absurd (hnone.symm.trans hnnd) (by simp)

end FaissNavix
