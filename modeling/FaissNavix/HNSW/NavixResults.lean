import FaissNavix.HNSW.NavixRun

/-!
# The results of the Navix search

What `navix_hybrid_search` leaves in a heap handler.  The results are passing vertices with their
own distances, in order.  With room for all vertices they are the nearest of those that the search
can walk to.  A vertex is reported once, unless the vertex that the descent ends at passes and is
among the seeds, which are added without a look at the visited table.
-/

namespace FaissNavix

open Lib

namespace HeapHandler

variable {g : HNSW} {qdis : ℕ → F32} {filterIdMap : ℕ → UInt8} {k : ℕ} {vt : VisitedTable}

theorem navixHybridSearch_of_entryPoint {H : Type} [ResultHandler H] {res : H}
    (hentry : g.entryPoint = -1) : g.navixHybridSearch qdis filterIdMap res vt =
      some (NodeArray.new, { res, candidates := MinimaxHeap.new 0, vt, stats := {} }) := by
  rw [HNSW.navixHybridSearch, if_pos hentry]

theorem offered_navixFirst (qdis : ℕ → F32) (filterIdMap : ℕ → UInt8) (hk : 1 ≤ k)
    (tab : ℕ → F32 × ℤ) (e : ℕ) :
    Offered qdis (navixFirst qdis filterIdMap (begin k tab) e) ([e].filter (passes filterIdMap)) ∧
      (navixFirst qdis filterIdMap (begin k tab) e).k = k := by
  rw [navixFirst, List.filter_cons]
  split
  · exact (offered_begin qdis hk tab).addResult e
  · exact ⟨offered_begin qdis hk tab, rfl⟩

theorem offered_of_navixMet {s : NodeArray × NavixState HeapHandler} {met : List ℕ}
    {tab : ℕ → F32 × ℤ} (hg : g.WellFormed) (hentry : g.entryPoint ≠ -1) (hk : 1 ≤ k)
    (hmet : NavixMet g qdis filterIdMap (navixInit g qdis filterIdMap (begin k tab) vt) s met) :
    Offered qdis s.2.res ([g.greedyEntry qdis].filter (passes filterIdMap) ++
      g.seeds filterIdMap ++ met) ∧ s.2.res.k = k := by
  obtain ⟨hoff, hk'⟩ := offered_navixFirst qdis filterIdMap hk tab (g.greedyEntry qdis)
  obtain ⟨hoff₁, hk₁⟩ := hoff.offerAll (g.seeds filterIdMap)
  rw [← (navixInit_spec qdis filterIdMap hg hentry (begin k tab) vt).1] at hoff₁ hk₁
  obtain ⟨hoff₂, hk₂⟩ := hoff₁.offerAll met
  rw [← hmet.res_eq] at hoff₂ hk₂
  exact ⟨hoff₂, hk₂.trans (hk₁.trans hk')⟩

theorem pairwise_results {L : List ℕ} {n : ℕ} (hL : ∀ v ∈ L, qdis v < F32.max)
    (hsorted : L.Pairwise fun u v ↦ qdis u ≤ qdis v) :
    (L.map (scored qdis) ++ List.replicate n (F32.max, -1)).Pairwise fun x y : F32 × ℤ ↦
      x.1 ≤ y.1 := by
  have hmax : F32.max ≤ F32.max := F32.le_iff.mpr ⟨F32.comparable_max, F32.comparable_max, le_rfl⟩
  refine List.pairwise_append.mpr ⟨List.pairwise_map.mpr hsorted, ?_, fun x hx y hy ↦ ?_⟩
  · exact List.pairwise_replicate.mpr (Or.inr hmax)
  · obtain ⟨v, hv, rfl⟩ := List.mem_map.mp hx
    rw [List.eq_of_mem_replicate hy]
    have h := F32.lt_iff.mp (hL v hv)
    exact F32.le_iff.mpr ⟨h.1, h.2.1, h.2.2.le⟩

def navixRoots (g : HNSW) (qdis : ℕ → F32) (filterIdMap : ℕ → UInt8) : Set ℕ :=
  {v | g.entryPoint ≠ -1 ∧ v ∈ g.greedyEntry qdis :: g.seeds filterIdMap}

/-- The calls and the results have no repetition: no vertex was handed over twice, and none is
reported twice. -/
def NoRepeats (r : Recorder HeapHandler) : Prop :=
  r.calls.Nodup ∧ ((r.handler.results.map Prod.snd).filter (· ≠ -1)).Nodup

instance (r : Recorder HeapHandler) : Decidable (NoRepeats r) :=
  inferInstanceAs (Decidable (_ ∧ _))

/-- The vertex that the descent ends at passes, is a seed as well, and is still near enough to be
handed over when its turn among the seeds comes: not yet `k` of the vertices offered before,
itself among them, are as near. -/
structure SeedRepeats (g : HNSW) (qdis : ℕ → F32) (filterIdMap : ℕ → UInt8) (k : ℕ) : Prop where
  entryPoint : g.entryPoint ≠ -1
  passes : passes filterIdMap (g.greedyEntry qdis) = true
  seed : (List.range (g.greedyEntry qdis)).countP (FaissNavix.passes filterIdMap) < HNSW.numSeeds
  lt_max : qdis (g.greedyEntry qdis) < F32.max
  lt : (List.range (g.greedyEntry qdis)).countP (fun v ↦ FaissNavix.passes filterIdMap v &&
    decide (qdis v ≤ qdis (g.greedyEntry qdis))) + 1 < k

/-- A passing vertex is a seed exactly when fewer passing ids are smaller than there are seeds, and
then all of these come before it. -/
theorem seeds_split {e : ℕ} (he : e < g.ntotal) (hp : passes filterIdMap e = true) :
    (HNSW.numSeeds ≤ (List.range e).countP (passes filterIdMap) → e ∉ g.seeds filterIdMap) ∧
      ((List.range e).countP (passes filterIdMap) < HNSW.numSeeds →
        ∃ l, g.seeds filterIdMap = (List.range e).filter (passes filterIdMap) ++ e :: l) := by
  obtain ⟨m, hm⟩ : ∃ m, g.ntotal = e + (m + 1) := ⟨g.ntotal - e - 1, by omega⟩
  have hrange : (List.range g.ntotal).filter (passes filterIdMap) =
      (List.range e).filter (passes filterIdMap) ++
        e :: ((List.range' (e + 1) m).filter (passes filterIdMap)) := by
    rw [hm, List.range_add, List.filter_append, List.range_succ_eq_map, List.map_cons, add_zero,
      List.filter_cons, if_pos hp, List.map_map, List.range'_eq_map_range]
    congr 4
    funext x
    simp only [Function.comp_apply]
    omega
  constructor
  · intro hle hmem
    rw [HNSW.seeds, hrange, List.take_append_of_le_length
      (by rwa [← List.countP_eq_length_filter])] at hmem
    have := List.mem_range.mp (List.mem_of_mem_filter (List.mem_of_mem_take hmem))
    omega
  · intro hlt
    rw [List.countP_eq_length_filter] at hlt
    obtain ⟨n, hn⟩ : ∃ n, HNSW.numSeeds - ((List.range e).filter (passes filterIdMap)).length = n + 1 :=
      ⟨HNSW.numSeeds - ((List.range e).filter (passes filterIdMap)).length - 1, by omega⟩
    refine ⟨((List.range' (e + 1) m).filter (passes filterIdMap)).take n, ?_⟩
    rw [HNSW.seeds, hrange, List.take_append, List.take_of_length_le (by omega), hn,
      List.take_succ_cons]

/-- The handler after a run is that of a run without the record, and the calls are the first
vertex, if it passes, and those handed over among the seeds and the vertices met. -/
theorem recorder_of_navixMet {s : NodeArray × NavixState (Recorder HeapHandler)} {met : List ℕ}
    {tab : ℕ → F32 × ℤ} (hg : g.WellFormed) (hentry : g.entryPoint ≠ -1)
    (hmet : NavixMet g qdis filterIdMap
      (navixInit g qdis filterIdMap { handler := begin k tab, calls := [] } vt) s met) :
    s.2.res = {
      handler := offerAll qdis (navixFirst qdis filterIdMap (begin k tab) (g.greedyEntry qdis))
        (g.seeds filterIdMap ++ met)
      calls := ([g.greedyEntry qdis].filter (passes filterIdMap) ++
        Recorder.called qdis (navixFirst qdis filterIdMap (begin k tab) (g.greedyEntry qdis))
          (g.seeds filterIdMap ++ met)).map fun v : ℕ ↦ (v : ℤ) } := by
  have hfirst : navixFirst qdis filterIdMap
      ({ handler := begin k tab, calls := [] } : Recorder HeapHandler) (g.greedyEntry qdis) = {
        handler := navixFirst qdis filterIdMap (begin k tab) (g.greedyEntry qdis)
        calls := ([g.greedyEntry qdis].filter (passes filterIdMap)).map fun v : ℕ ↦ (v : ℤ) } := by
    rw [navixFirst, navixFirst, List.filter_cons]
    split <;> rfl
  rw [hmet.res_eq, (navixInit_spec qdis filterIdMap hg hentry _ vt).1, ← offerAll_append, hfirst,
    Recorder.offerAll_eq, List.map_append]

theorem nodup_labels {h : HeapHandler} {l : List ℕ} (hh : Offered qdis h l) (hl : l.Nodup) :
    ((h.results.map Prod.snd).filter (· ≠ -1)).Nodup := by
  obtain ⟨L, hL, -, hres⟩ := hh.results
  have hlabels : (h.results.map Prod.snd).filter (· ≠ -1) = L.map fun v : ℕ ↦ (v : ℤ) := by
    rw [hres, List.map_append, List.filter_append, List.map_map, List.map_replicate,
      List.filter_replicate_of_neg (by simp), List.append_nil]
    refine List.filter_eq_self.mpr fun i hi ↦ ?_
    obtain ⟨v, -, rfl⟩ := List.mem_map.mp hi
    exact decide_eq_true (isReal_scored qdis v)
  rw [hlabels]
  refine (List.nodup_map_iff fun _ _ ↦ Int.ofNat_inj.mp).mpr ?_
  exact Multiset.coe_nodup.mp (Multiset.nodup_of_le hL.sub (Multiset.coe_nodup.mpr (hl.filter _)))

theorem countP_below {d : F32} (hd : d < F32.max) (l : List ℕ) :
    (below qdis l).countP (fun v ↦ decide (qdis v ≤ d)) = l.countP fun v ↦ decide (qdis v ≤ d) := by
  rw [below, List.countP_filter]
  refine List.countP_congr fun v _ ↦ ?_
  simp only [Bool.and_eq_true, decide_eq_true_eq, and_iff_left_iff_imp]
  intro hv
  obtain ⟨hc, -, hle⟩ := F32.le_iff.mp hv
  exact F32.lt_iff.mpr ⟨hc, F32.comparable_max, hle.trans_lt (F32.lt_iff.mp hd).2.2⟩

/-- The vertex that the descent ends at is handed over among the seeds exactly in the case
`SeedRepeats`. -/
theorem mem_called_seeds_iff {met : List ℕ} (hg : g.WellFormed) (hentry : g.entryPoint ≠ -1)
    (hk : 1 ≤ k) (tab : ℕ → F32 × ℤ) (hp : passes filterIdMap (g.greedyEntry qdis) = true)
    (hnodup : (g.seeds filterIdMap ++ met).Nodup) (hmet : g.greedyEntry qdis ∉ met) :
    g.greedyEntry qdis ∈ Recorder.called qdis
        (navixFirst qdis filterIdMap (begin k tab) (g.greedyEntry qdis)) (g.seeds filterIdMap ++ met) ↔
      SeedRepeats g qdis filterIdMap k := by
  obtain ⟨hnot, hsplit⟩ := seeds_split (HNSW.greedyEntry_spec qdis hg hentry).1 hp
  by_cases hseed : (List.range (g.greedyEntry qdis)).countP (passes filterIdMap) < HNSW.numSeeds
  · obtain ⟨l, hl⟩ := hsplit hseed
    obtain ⟨hoff, hk'⟩ := offered_navixFirst qdis filterIdMap hk tab (g.greedyEntry qdis)
    obtain ⟨hoff, hk''⟩ :=
      hoff.offerAll ((List.range (g.greedyEntry qdis)).filter (passes filterIdMap))
    rw [hl, List.append_assoc, List.cons_append] at hnodup ⊢
    rw [Recorder.mem_called_iff hnodup]
    refine (hoff.lt_threshold_iff).trans ?_
    rw [hk'', hk']
    have hcount : qdis (g.greedyEntry qdis) < F32.max →
        (below qdis ([g.greedyEntry qdis].filter (passes filterIdMap) ++
          (List.range (g.greedyEntry qdis)).filter (passes filterIdMap))).countP
            (fun v ↦ decide (qdis v ≤ qdis (g.greedyEntry qdis))) =
          (List.range (g.greedyEntry qdis)).countP (fun v ↦ passes filterIdMap v &&
            decide (qdis v ≤ qdis (g.greedyEntry qdis))) + 1 := by
      intro hlt
      have hself : qdis (g.greedyEntry qdis) ≤ qdis (g.greedyEntry qdis) :=
        F32.le_iff.mpr ⟨F32.Comparable.of_lt hlt, F32.Comparable.of_lt hlt, le_rfl⟩
      rw [countP_below hlt, List.countP_append, List.countP_filter, List.countP_filter,
        List.countP_singleton]
      simp only [hself, hp, decide_true, Bool.and_true, if_true, Bool.and_comm]
      omega
    exact ⟨fun h ↦ ⟨hentry, hp, hseed, h.1, by rw [← hcount h.1]; exact h.2⟩,
      fun h ↦ ⟨h.lt_max, by rw [hcount h.lt_max]; exact h.lt⟩⟩
  · refine ⟨fun h ↦ ?_, fun h ↦ absurd h.seed hseed⟩
    rcases List.mem_append.mp ((Recorder.called_sublist qdis _ _).subset h) with h | h
    · exact absurd h (hnot (by omega))
    · exact absurd h hmet

end HeapHandler

end FaissNavix
