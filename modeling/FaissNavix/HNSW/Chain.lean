import FaissNavix.HNSW.NavixResults

/-!
# A graph in which the beam decides

The nearest vertex of the graph is at the end of a chain, and the one before it is farther away than
all the others of the chain.  A search has to go through that vertex, which it does exactly when its
`efSearch` is larger than the number `m` of vertices that come before.
-/

namespace FaissNavix

namespace HNSW

/-- The chain starts at `10` and ends at `11 + m`; the ids below are the seeds. -/
def chainNeighbors (m v : ℕ) : List ℕ := if 10 ≤ v ∧ v ≤ 10 + m then [v + 1] else []

/-- `3` for the seeds, `1` along the chain, `2` for the last but one and `0` for the last. -/
def chainDistance (m v : ℕ) : F32 :=
  if v < 10 then ⟨0x40400000#32⟩
  else if v < 10 + m then ⟨0x3f800000#32⟩
  else if v = 10 + m then ⟨0x40000000#32⟩
  else ⟨0x00000000#32⟩

def chain (m efSearch : ℕ) : HNSW := flat (12 + m) [0, 4] (chainNeighbors m) 10 efSearch

variable {m efSearch : ℕ}

@[simp] theorem ntotal_chain : (chain m efSearch).ntotal = 12 + m := ntotal_flat

theorem length_chainNeighbors (m v : ℕ) : (chainNeighbors m v).length ≤ 4 := by
  unfold chainNeighbors
  split <;> simp

theorem mem_chainNeighbors {u v : ℕ} :
    u ∈ chainNeighbors m v ↔ 10 ≤ v ∧ v ≤ 10 + m ∧ u = v + 1 := by
  unfold chainNeighbors
  split <;> simp_all

theorem wellFormed_chain (m efSearch : ℕ) : (chain m efSearch).WellFormed := by
  refine wellFormed_flat rfl (by omega) (fun v _ ↦ length_chainNeighbors m v) fun v _ u hu ↦ ?_
  have := mem_chainNeighbors.mp hu
  omega

theorem edge_chain {u v : ℕ} (hv : v < 12 + m) :
    (chain m efSearch).Edge v u ↔ 10 ≤ v ∧ v ≤ 10 + m ∧ u = v + 1 := by
  have h : (chain m efSearch).neighborList v 0 = chainNeighbors m v :=
    neighborList_flat rfl hv (length_chainNeighbors m v)
  rw [Edge, h, mem_chainNeighbors]

theorem seeds_chain : (chain m efSearch).seeds (fun _ ↦ 1) = List.range 10 := by
  have hfilter : (List.range (12 + m)).filter (passes fun _ ↦ 1) = List.range (12 + m) :=
    List.filter_eq_self.mpr fun v _ ↦ by simp [passes]
  rw [seeds, ntotal_chain, hfilter, show 12 + m = 10 + (2 + m) by omega, List.range_add]
  exact List.take_left' List.length_range

theorem entryPoint_chain : (chain m efSearch).entryPoint ≠ -1 := by
  change ((10 : ℕ) : ℤ) ≠ -1
  omega

theorem greedyEntry_chain (qdis : ℕ → F32) : (chain m efSearch).greedyEntry qdis = 10 :=
  greedyEntry_flat qdis

/-! ## The distances -/

theorem key_chainDistance (m v : ℕ) : (chainDistance m v).key =
    if v < 10 then 1077936128 else if v < 10 + m then 1065353216
    else if v = 10 + m then 1073741824 else 0 := by
  unfold chainDistance
  split
  · decide
  · split
    · decide
    · split <;> decide

theorem key_chainDistance_last (m : ℕ) : (chainDistance m (11 + m)).key = 0 := by
  rw [key_chainDistance, if_neg (by omega), if_neg (by omega), if_neg (by omega)]

theorem key_chainDistance_pos {m v : ℕ} (hv : v < 11 + m) : 0 < (chainDistance m v).key := by
  rw [key_chainDistance]
  split
  · omega
  · split
    · omega
    · rw [if_pos (by omega)]
      omega

theorem chainDistance_comparable (m v : ℕ) : (chainDistance m v).Comparable := by
  unfold chainDistance
  split
  · decide
  · split
    · decide
    · split <;> decide

theorem chainDistance_lt_max (m v : ℕ) : chainDistance m v < F32.max := by
  unfold chainDistance
  split
  · decide
  · split
    · decide
    · split <;> decide

end HNSW

/-! ## What the search meets -/

open HNSW (chain chainDistance ntotal_chain wellFormed_chain edge_chain seeds_chain
  entryPoint_chain greedyEntry_chain key_chainDistance)

variable {m efSearch : ℕ}

/-- Vertices of the chain, none of them without the one before it, and not the last one. -/
structure ShortOf (m : ℕ) (met : List ℕ) : Prop where
  le : ∀ v ∈ met, 11 ≤ v ∧ v ≤ 10 + m
  prev : ∀ v ∈ met, v = 11 ∨ v - 1 ∈ met

theorem ShortOf.mem_of_le {met : List ℕ} (h : ShortOf m met) {v : ℕ} (hv : v ∈ met) (d : ℕ)
    (hd : 11 + d ≤ v) : v - d ∈ met := by
  induction d with
  | zero => exact hv
  | succ d ih =>
      rcases h.prev _ (ih (by omega)) with h11 | hprev
      · omega
      · rw [Nat.sub_sub] at hprev
        exact hprev

/-- With a narrow beam the search stops at the last vertex but one. -/
theorem keptByExpansion_chain (hef : efSearch ≤ m) :
    KeptByExpansion (chain m efSearch) (chainDistance m) (fun _ ↦ 1) (10 :: List.range 10)
      (ShortOf m) := by
  intro met new v hmet hv hbeam hnew
  have hv12 : v < 12 + m := by
    rcases List.mem_append.mp hv with hv | hv
    · rcases List.mem_cons.mp hv with rfl | hv
      · omega
      · have := List.mem_range.mp hv
        omega
    · have := hmet.le v hv
      omega
  have hnew : ∀ u ∈ new, 10 ≤ v ∧ v ≤ 10 + m ∧ u = v + 1 := fun u hu ↦
    (edge_chain hv12).mp (hnew (fun _ _ ↦ by simp [passes]) u hu)
  -- `v` is not the last vertex but one: all those that come before it have been pushed
  have hne : v ≠ 10 + m := by
    rintro rfl
    refine hbeam (hef.trans ?_)
    rw [nearer, List.countP_eq_length_filter]
    have hsub : List.range' 10 m ⊆ (10 :: List.range 10 ++ met).filter
        fun u ↦ decide ((chainDistance m u).key < (chainDistance m (10 + m)).key) := by
      intro u hu
      have hu := List.mem_range'_1.mp hu
      refine List.mem_filter.mpr ⟨?_, ?_⟩
      · by_cases h10 : u = 10
        · exact h10 ▸ List.mem_cons_self
        · have hb : 10 + m ∈ met := by
            rcases List.mem_append.mp hv with hv | hv
            · rcases List.mem_cons.mp hv with h | h
              · omega
              · have := List.mem_range.mp h
                omega
            · exact hv
          refine List.mem_append_right _ ?_
          have := hmet.mem_of_le hb (10 + m - u) (by omega)
          rwa [Nat.sub_sub_self (by omega)] at this
      · rw [key_chainDistance, key_chainDistance, if_neg (by omega), if_pos (by omega),
          if_neg (by omega), if_neg (by omega), if_pos rfl]
        decide
    calc m = (List.range' 10 m).length := List.length_range'.symm
      _ ≤ _ := (List.subperm_of_subset (List.nodup_range' ..) hsub).length_le
  refine ⟨fun u hu ↦ ?_, fun u hu ↦ ?_⟩
  · rcases List.mem_append.mp hu with hu | hu
    · exact hmet.le u hu
    · have := hnew u hu
      omega
  · rcases List.mem_append.mp hu with hu | hu
    · exact (hmet.prev u hu).imp_right (List.mem_append_left _)
    · obtain ⟨h10, -, rfl⟩ := hnew u hu
      rcases List.mem_append.mp hv with hv | hv
      · rcases List.mem_cons.mp hv with rfl | hv
        · exact Or.inl rfl
        · have := List.mem_range.mp hv
          omega
      · exact Or.inr (List.mem_append_left _ hv)

/-- With a wide beam the search goes on to the end of the chain. -/
theorem mem_of_beamClosed_chain (hef : m < efSearch) {l : List ℕ} (hnodup : l.Nodup)
    (hlt : ∀ v ∈ l, v < 12 + m) (h10 : 10 ∈ l)
    (hclosed : BeamClosed (chain m efSearch) (chainDistance m) (fun _ ↦ 1) efSearch l) :
    11 + m ∈ l := by
  by_contra hlast
  have hstep : ∀ i ≤ m, 10 + i ∈ l → 11 + i ∈ l := by
    intro i hi hmem
    refine hclosed _ hmem ?_ _ ⟨(edge_chain (by omega)).mpr ⟨by omega, by omega, by omega⟩,
      by simp [passes]⟩
    rw [List.countP_eq_length_filter]
    have hsub : l.filter (fun u ↦ decide ((chainDistance m u).key ≤ (chainDistance m (10 + i)).key))
        ⊆ List.range' 10 (m + 1) := by
      intro u hu
      obtain ⟨hu, hkey⟩ := List.mem_filter.mp hu
      have hkey := of_decide_eq_true hkey
      rw [key_chainDistance, key_chainDistance] at hkey
      refine List.mem_range'_1.mpr ⟨?_, ?_⟩
      · by_contra hu10
        rw [if_pos (by omega), if_neg (by omega)] at hkey
        split at hkey
        · omega
        · rw [if_pos (by omega)] at hkey
          omega
      · have hult := hlt u hu
        have hne : u ≠ 11 + m := fun h ↦ hlast (h ▸ hu)
        omega
    refine ((List.subperm_of_subset (hnodup.filter _) hsub).length_le).trans ?_
    rw [List.length_range']
    exact hef
  have hall : ∀ i ≤ m + 1, 10 + i ∈ l := by
    intro i
    induction i with
    | zero => exact fun _ ↦ h10
    | succ i ih =>
        intro hi
        have := hstep i (by omega) (ih (by omega))
        rwa [show 10 + (i + 1) = 11 + i by omega]
  exact hlast (by rw [show 11 + m = 10 + (m + 1) by omega]; exact hall (m + 1) le_rfl)

/-! ## The results -/

namespace HeapHandler

variable {k : ℕ}

theorem offered_chain {s : NodeArray × NavixState HeapHandler} {met : List ℕ}
    {tab : ℕ → F32 × ℤ} {vt : VisitedTable} (hk : 1 ≤ k)
    (hmet : NavixMet (chain m efSearch) (chainDistance m) (fun _ ↦ 1)
      (navixInit (chain m efSearch) (chainDistance m) (fun _ ↦ 1) (begin k tab) vt) s met) :
    Offered (chainDistance m) s.2.res (10 :: List.range 10 ++ met) ∧ s.2.res.k = k := by
  have h := offered_of_navixMet (wellFormed_chain m efSearch) entryPoint_chain hk hmet
  rw [greedyEntry_chain, seeds_chain] at h
  exact h

/-- The nearest vertex is reported exactly when it was offered. -/
theorem mem_results_iff_offered {h : HeapHandler} {l : List ℕ}
    (hoff : Offered (chainDistance m) h l) (hk : 1 ≤ h.k) (hl : l.Nodup)
    (hlt : ∀ v ∈ l, v < 12 + m) :
    ((11 + m : ℕ) : ℤ) ∈ h.results.map Prod.snd ↔ 11 + m ∈ l := by
  obtain ⟨L, hL, -, hres⟩ := hoff.results
  rw [below_eq_self fun v _ ↦ HNSW.chainDistance_lt_max m v] at hL
  have hmem : ((11 + m : ℕ) : ℤ) ∈ h.results.map Prod.snd ↔ 11 + m ∈ L := by
    rw [hres, List.map_append, List.map_map, List.map_replicate, List.mem_append]
    constructor
    · rintro (hx | hx)
      · obtain ⟨v, hv, hvm⟩ := List.mem_map.mp hx
        rwa [← Int.ofNat_inj.mp hvm]
      · have := List.eq_of_mem_replicate hx
        omega
    · exact fun hx ↦ Or.inl (List.mem_map.mpr ⟨_, hx, rfl⟩)
  rw [hmem]
  refine ⟨fun hx ↦ Multiset.mem_coe.mp (Multiset.mem_of_le hL.sub (Multiset.mem_coe.mpr hx)),
    fun hx ↦ Multiset.mem_coe.mp (hL.mem_of_countP_le (Multiset.mem_coe.mpr hx) ?_)⟩
  -- no other vertex is as near
  rw [Multiset.coe_countP, List.countP_eq_length_filter]
  have hsub : l.filter (fun u ↦ decide ((chainDistance m u).key ≤ (chainDistance m (11 + m)).key)) ⊆
      [11 + m] := by
    intro u hu
    obtain ⟨hu, hkey⟩ := List.mem_filter.mp hu
    have hkey := of_decide_eq_true hkey
    rw [HNSW.key_chainDistance_last] at hkey
    have hge : ¬ u < 11 + m := fun h ↦ not_lt.mpr hkey (HNSW.key_chainDistance_pos h)
    have hult := hlt u hu
    exact List.mem_singleton.mpr (by omega)
  exact ((List.subperm_of_subset (hl.filter _) hsub).length_le).trans hk

/-- The end of the chain is reported exactly when the beam is wide enough. -/
theorem mem_results_chain_iff (m efSearch : ℕ) (hk : 1 ≤ k) (tab : ℕ → F32 × ℤ)
    {vt : VisitedTable} (hclean : vt.Clean (12 + m)) :
    ∃ s, (chain m efSearch).navixHybridSearch (chainDistance m) (fun _ ↦ 1) (begin k tab) vt =
        some s ∧ s.2.res.k = k ∧
      (((11 + m : ℕ) : ℤ) ∈ s.2.res.results.map Prod.snd ↔ m < efSearch) := by
  have hg := wellFormed_chain m efSearch
  have hclean : vt.Clean (chain m efSearch).ntotal := by rw [ntotal_chain]; exact hclean
  have hef : 1 ≤ max (chain m efSearch).efSearch (HNSW.extractK (begin k tab)) :=
    hk.trans (le_max_right _ _)
  -- the invariant says nothing when the beam is wide
  obtain ⟨s, hrun, met, hmet, hclosed, hshort⟩ := navixHybridSearch_beam (fun _ ↦ 1) hg
    entryPoint_chain (fun v _ ↦ HNSW.chainDistance_comparable m v) (begin k tab) hef
    hclean (fun met ↦ efSearch ≤ m → ShortOf m met)
    (fun _ ↦ ⟨by simp, by simp⟩) (by
      rw [greedyEntry_chain, seeds_chain]
      exact fun met new v hmet hv hbeam hnew hle ↦
        keptByExpansion_chain hle met new v (hmet hle) hv hbeam hnew)
  obtain ⟨hoff, hk'⟩ := offered_chain hk hmet
  obtain ⟨hnodup, hentry⟩ := hmet.nodup hg entryPoint_chain
  rw [greedyEntry_chain, seeds_chain] at hclosed
  rw [greedyEntry_chain] at hentry
  rw [seeds_chain] at hnodup
  have hnodup : (10 :: List.range 10 ++ met).Nodup := by
    refine List.nodup_cons.mpr ⟨fun hmem ↦ ?_, hnodup⟩
    rcases List.mem_append.mp hmem with hmem | hmem
    · exact absurd (List.mem_range.mp hmem) (by omega)
    · exact hentry rfl hmem
  have hlt : ∀ v ∈ 10 :: List.range 10 ++ met, v < 12 + m := by
    intro v hv
    rcases List.mem_append.mp hv with hv | hv
    · rcases List.mem_cons.mp hv with rfl | hv
      · omega
      · have := List.mem_range.mp hv
        omega
    · simpa using hmet.lt v hv
  refine ⟨s, hrun, hk',
    (mem_results_iff_offered hoff (by rw [hk']; exact hk) hnodup hlt).trans ?_⟩
  constructor
  · intro hlast
    by_contra hle
    rcases List.mem_append.mp hlast with h | h
    · rcases List.mem_cons.mp h with h | h
      · omega
      · have := List.mem_range.mp h
        omega
    · have := (hshort (by omega)).le _ h
      omega
  · exact fun hwide ↦ mem_of_beamClosed_chain hwide hnodup hlt List.mem_cons_self hclosed

end HeapHandler

end FaissNavix
