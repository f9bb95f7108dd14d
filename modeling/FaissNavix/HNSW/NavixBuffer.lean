import FaissNavix.HNSW.NavixRun

/-!
# The buffer of the Navix search

A vertex has at most `2 * M` neighbours on level 0, so that the full two-hop expansion writes at most
`2 * M + 2 * M * (2 * M)` ids and the directed one fewer.  They fit in the 4096 places of the buffer
for `M` up to 31.  From 32 on there is a graph in which they do not: the entry point has 64
neighbours with 64 neighbours of their own, all of which pass, while only one of the first 64 does.
-/

namespace FaissNavix

open Lib
open MinimaxHeap (Tracks tracks_new pushAll)

variable {M : ℕ}

/-! ## The crowded graph -/

namespace HNSW

/-- The neighbours in the crowded graph: those of the entry point `0` are 64 vertices with 64
neighbours each, no vertex being a neighbour twice. -/
def crowdedNeighbors (v : ℕ) : List ℕ :=
  if v = 0 then List.range' 10 64
  else if 10 ≤ v ∧ v < 74 then List.range' (74 + 64 * (v - 10)) 64
  else []

/-- The filter: of the neighbours of the entry point only one passes, and all of theirs do. -/
def crowdedMask (v : ℕ) : UInt8 := if 10 ≤ v ∧ v < 73 then 0 else 1

theorem passes_crowdedMask {v : ℕ} : passes crowdedMask v = true ↔ ¬ (10 ≤ v ∧ v < 73) := by
  unfold passes crowdedMask
  split <;> simp_all

/-- The crowded graph, for any `M` that leaves room for it. -/
def crowded (M numLevels : ℕ) : HNSW :=
  flat 4170 (setDefaultProbas M numLevels) crowdedNeighbors 0 16

theorem length_crowdedNeighbors (v : ℕ) : (crowdedNeighbors v).length ≤ 64 := by
  unfold crowdedNeighbors
  split
  · simp
  · split <;> simp

theorem crowdedNeighbors_lt {v : ℕ} (u : ℕ) (hu : u ∈ crowdedNeighbors v) : u < 4170 := by
  unfold crowdedNeighbors at hu
  split at hu
  · have := List.mem_range'_1.mp hu
    omega
  · split at hu
    · have := List.mem_range'_1.mp hu
      omega
    · exact absurd hu List.not_mem_nil

theorem mem_second_hops {v : ℕ} (h1 : 74 ≤ v) (h2 : v < 4170) :
    ∃ u ∈ crowdedNeighbors 0, v ∈ crowdedNeighbors u := by
  have hu : 10 ≤ 10 + (v - 74) / 64 ∧ 10 + (v - 74) / 64 < 74 := by omega
  refine ⟨10 + (v - 74) / 64, ?_, ?_⟩
  · rw [crowdedNeighbors, if_pos rfl]
    exact List.mem_range'_1.mpr (by omega)
  · rw [crowdedNeighbors, if_neg (by omega), if_pos hu]
    exact List.mem_range'_1.mpr (by omega)

end HNSW

section Crowded

variable {n : ℕ}

theorem getD_setDefaultProbas (M n : ℕ) :
    (HNSW.setDefaultProbas M (n + 1)).getD 0 0 = 0 ∧
      (HNSW.setDefaultProbas M (n + 1)).getD 1 0 = M * 2 := by
  obtain ⟨l, hl⟩ := HNSW.setDefaultProbas_succ M n
  rw [hl]
  exact ⟨rfl, rfl⟩

theorem neighborList_crowded (hM : 32 ≤ M) {v : ℕ} (hv : v < 4170) :
    (HNSW.crowded M (n + 1)).neighborList v 0 = HNSW.crowdedNeighbors v := by
  obtain ⟨h0, h1⟩ := getD_setDefaultProbas M n
  refine HNSW.neighborList_flat h0 hv ?_
  rw [h1]
  have := HNSW.length_crowdedNeighbors v
  omega

theorem wellFormed_crowded (hM : 32 ≤ M) : (HNSW.crowded M (n + 1)).WellFormed := by
  obtain ⟨h0, h1⟩ := getD_setDefaultProbas M n
  refine HNSW.wellFormed_flat h0 (by decide) (fun v _ ↦ ?_) fun v _ ↦ HNSW.crowdedNeighbors_lt
  rw [h1]
  have := HNSW.length_crowdedNeighbors v
  omega

theorem seeds_crowded : (HNSW.crowded M n).seeds HNSW.crowdedMask = List.range 10 := by
  have hn : (HNSW.crowded M n).ntotal = 10 + 4160 := HNSW.ntotal_flat
  have hten : (List.range 10).filter (passes HNSW.crowdedMask) = List.range 10 := by decide
  rw [HNSW.seeds, hn, List.range_add, List.filter_append, hten]
  exact List.take_left' rfl

variable {H : Type} [ResultHandler H] [LawfulResultHandler H] (hM : 32 ≤ M) (res : H)
  {vt : VisitedTable}
include hM

/-- The two hops from the entry point write all the vertices from 73 on, which are 4097. -/
theorem overflow_crowded (hfresh : ∀ v, 73 ≤ v → v < 4170 → vt.get v = false) (nhops : ℕ) :
    ((HNSW.crowded M (n + 1)).navixFullTwoHop HNSW.crowdedMask (HNSW.crowdedNeighbors 0) vt
      NodeArray.new nhops).2.1.overflow = true := by
  obtain ⟨new, hnew, hall, -⟩ := navixFullTwoHop_spec (HNSW.crowded M (n + 1)) HNSW.crowdedMask
    (HNSW.crowdedNeighbors 0) vt NodeArray.new nhops
  generalize (HNSW.crowded M (n + 1)).navixFullTwoHop HNSW.crowdedMask (HNSW.crowdedNeighbors 0) vt
    NodeArray.new nhops = r at hnew hall ⊢
  have hmem : ∀ v ∈ List.range' 73 4097, v ∈ new := by
    intro v hv
    have hv := List.mem_range'_1.mp hv
    have hp : passes HNSW.crowdedMask v = true := HNSW.passes_crowdedMask.mpr (by omega)
    have hfresh : vt.get v = false := hfresh v (by omega) (by omega)
    refine hnew.visits.mem_of_get hp hfresh (hall v ?_ hp)
    by_cases h74 : 74 ≤ v
    · obtain ⟨u, hu, hvu⟩ := HNSW.mem_second_hops h74 (by omega)
      refine List.mem_append_right _ (List.mem_flatMap.mpr ⟨u, hu, ?_⟩)
      rw [neighborList_crowded hM (HNSW.crowdedNeighbors_lt u hu)]
      exact hvu
    · obtain rfl : v = 73 := by omega
      exact List.mem_append_left _ (by decide)
  have hlen : 4097 ≤ new.length := by
    have := (List.subperm_of_subset List.nodup_range' hmem).length_le
    rwa [List.length_range'] at this
  have harray : r.2.1 = NodeArray.new.pushAll new := hnew.array_eq
  by_contra hover
  rw [harray, Bool.not_eq_true, NodeArray.overflow_pushAll] at hover
  rcases hover.2 with h | h
  · rw [h] at hlen
    exact absurd hlen (by decide)
  · have hcap : NodeArray.capacity = 4096 := rfl
    omega

/-- The first turn takes out the entry point, which is nearer than all other vertices, and writes
the vertices from 73 on to the buffer. -/
theorem navixTurn_crowded (hclean : vt.Clean 4170) :
    ∃ s, (HNSW.crowded M (n + 1)).navixTurn HNSW.pairDistance HNSW.crowdedMask 16
        (NodeArray.new, navixInit (HNSW.crowded M (n + 1)) HNSW.pairDistance HNSW.crowdedMask res vt) =
          .next s ∧ s.1.overflow = true := by
  have hg := wellFormed_crowded (n := n) hM
  obtain ⟨-, hcand, hvt⟩ := navixInit_spec HNSW.pairDistance HNSW.crowdedMask hg
    (show (0 : ℤ) ≠ -1 by decide) res vt
  have hentry : (HNSW.crowded M (n + 1)).greedyEntry HNSW.pairDistance = 0 :=
    HNSW.greedyEntry_flat HNSW.pairDistance
  rw [hentry, seeds_crowded] at hcand hvt
  have ht := (tracks_new HNSW.pairDistance (n := max 16 (HNSW.extractK res))
    (le_max_of_le_left (by decide))).pushAll_of_le (l := 0 :: List.range 10)
    (le_max_of_le_left (show 0 + 11 ≤ 16 by decide))
  rw [add_zero] at ht
  generalize hs : navixInit (HNSW.crowded M (n + 1)) HNSW.pairDistance HNSW.crowdedMask res vt = s
    at hcand hvt ⊢
  rw [show pushAll HNSW.pairDistance (MinimaxHeap.new (max 16 (HNSW.extractK res)))
    (0 :: List.range 10) = s.candidates from hcand.symm] at ht
  obtain ⟨v, waiting', c, hpop, hw, ht', hmin, -⟩ := ht.popMin (by simp)
  obtain rfl : v = 0 := by
    by_contra hv
    exact hmin 0 (by simp) ((HNSW.pairDistance_lt_iff 0 v).mpr ⟨rfl, hv⟩)
  have hbelow : c.countBelow (HNSW.pairDistance 0) = 0 := by
    rw [ht'.countBelow_eq]
    exact Multiset.countP_eq_zero.mpr fun u _ hu ↦ ((HNSW.pairDistance_lt_iff u 0).mp hu).2 rfl
  have hsize : s.candidates.size ≠ 0 := by
    rw [ht.size_eq]
    simp
  rw [navixTurn_next (s := (NodeArray.new, s)) hsize hpop (by omega)]
  refine ⟨_, rfl, ?_⟩
  rw [neighborList_crowded hM (by decide), HNSW.navixExpand]
  have hexp : HNSW.expansion (HNSW.crowdedNeighbors 0).length
      ((HNSW.crowdedNeighbors 0).countP (passes HNSW.crowdedMask)) = .fullTwoHop := by decide
  rw [hexp, HNSW.navixBatchComputeDistance, NodeArray.reset]
  dsimp only
  refine overflow_crowded hM (fun v h1 h2 ↦ ?_) _
  rw [hvt, ← Bool.not_eq_true, VisitedTable.get_setAll]
  rintro (hmem | hget)
  · rcases List.mem_append.mp hmem with hmem | hmem
    · have := List.mem_singleton.mp (List.mem_of_mem_filter hmem)
      omega
    · have := List.mem_range.mp hmem
      omega
  · rw [hclean v h2] at hget
    exact absurd hget (by simp)

theorem navixHybridSearch_crowded (hclean : vt.Clean 4170) :
    ∃ s, (HNSW.crowded M (n + 1)).navixHybridSearch HNSW.pairDistance HNSW.crowdedMask res vt =
      some s ∧ s.1.overflow = true := by
  have hg := wellFormed_crowded (n := n) hM
  have hentry : (HNSW.crowded M (n + 1)).entryPoint ≠ -1 := show (0 : ℤ) ≠ -1 by decide
  obtain ⟨s, hturn, hover⟩ := navixTurn_crowded (n := n) hM res hclean
  rcases (navixRunning_navixInit HNSW.pairDistance HNSW.crowdedMask hg hentry res
    (le_max_of_le_left (show 1 ≤ 16 by decide)) vt).turn hg 16 with
      ⟨s', hturn', -⟩ | ⟨s', hturn', hs', -, hlt⟩
  · rw [hturn] at hturn'
    exact absurd hturn' (by simp)
  · obtain rfl : s = s' := Turn.next.inj (hturn.symm.trans hturn')
    have hbound := navixRemaining_navixInit (HNSW.crowded M (n + 1)) HNSW.crowdedMask
      (navixInit (HNSW.crowded M (n + 1)) HNSW.pairDistance HNSW.crowdedMask res vt)
    obtain ⟨r, hr, -, hkeep⟩ := hs'.run hg 16 (Nat.lt_of_lt_of_le hlt (Nat.le_of_lt_succ hbound))
    refine ⟨r, (navixHybridSearch_eq hentry res vt).trans ?_, hkeep hover⟩
    exact (iterate_next hturn).trans hr

end Crowded

/-! ## The bound on `M` -/

namespace HeapHandler

/-- No write goes past the end of the buffer, in any search of a graph built with these tables. -/
def NavixFits (M numLevels : ℕ) : Prop :=
  ∀ (g : HNSW) (qdis : ℕ → F32) (filterIdMap : ℕ → UInt8) (k : ℕ) (tab : ℕ → F32 × ℤ)
    (vt : VisitedTable), g.WellFormed →
    g.cumNneighborPerLevel = HNSW.setDefaultProbas M numLevels → 1 ≤ k → 1 ≤ g.efSearch →
    vt.Clean g.ntotal →
    ∃ a s, g.navixHybridSearch qdis filterIdMap (begin k tab) vt = some (a, s) ∧ a.overflow = false

theorem not_navixFits (hM : 32 ≤ M) (n : ℕ) : ¬ NavixFits M (n + 1) := by
  intro hall
  obtain ⟨a, s, hrun, hover⟩ := hall (HNSW.crowded M (n + 1)) HNSW.pairDistance HNSW.crowdedMask 1
    (fun _ ↦ (F32.max, -1)) (VisitedTable.new 4170) (wellFormed_crowded hM) rfl le_rfl
    (show 1 ≤ 16 by decide) (VisitedTable.clean_new _ _)
  obtain ⟨s', hrun', hover'⟩ := navixHybridSearch_crowded (n := n) hM
    (begin 1 fun _ ↦ (F32.max, -1)) (VisitedTable.clean_new 4170 4170)
  rw [hrun] at hrun'
  obtain rfl := Option.some.inj hrun'
  exact absurd hover' (by simp [hover])

/-- The buffer is large enough exactly for `M` up to 31.  From `M = 2` on, the probability of level
0 is at least one half, so that there is a level. -/
theorem navix_fits_iff (M numLevels : ℕ) (hlevels : 2 ≤ M → 1 ≤ numLevels) :
    NavixFits M numLevels ↔ M ≤ 31 := by
  constructor
  · intro hall
    by_contra hM
    obtain ⟨n, rfl⟩ : ∃ n, numLevels = n + 1 := ⟨numLevels - 1, by omega⟩
    exact not_navixFits (by omega) n hall
  · intro hM g qdis filterIdMap k tab vt hg hcum hk _ _
    by_cases hentry : g.entryPoint = -1
    · exact ⟨_, _, by rw [HNSW.navixHybridSearch, if_pos hentry], rfl⟩
    · obtain ⟨⟨a, s⟩, met, hrun, hmet⟩ := navixHybridSearch_total qdis filterIdMap hg hentry
        (begin k tab) (hk.trans (le_max_right _ _)) vt
      refine ⟨a, s, hrun, hmet.fits ?_⟩
      have hnb : g.nbNeighbors 0 ≤ 62 := by
        rw [HNSW.nbNeighbors, HNSW.cumNbNeighbors, HNSW.cumNbNeighbors, hcum]
        cases numLevels with
        | zero => exact Nat.zero_le _
        | succ n =>
            obtain ⟨h0, h1⟩ := getD_setDefaultProbas M n
            rw [h0, h1]
            omega
      calc g.nbNeighbors 0 + g.nbNeighbors 0 * g.nbNeighbors 0
          ≤ 62 + 62 * 62 := Nat.add_le_add hnb (Nat.mul_le_mul hnb hnb)
        _ ≤ NodeArray.capacity := by decide

theorem navix_fits_iff_default : NavixFits 32 6 ↔ 32 ≤ 31 := navix_fits_iff 32 6 (by decide)

/-- With the default `M`, which has six levels, the buffer is too small. -/
theorem navix_overflows :
    ¬ ∀ M numLevels, (2 ≤ M → 1 ≤ numLevels) → NavixFits M numLevels :=
  fun hall ↦ not_navixFits le_rfl 5 (hall 32 6 (by decide))

end HeapHandler

end FaissNavix
