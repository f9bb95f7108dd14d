import FaissNavix.HNSW.Growth
import FaissNavix.HNSW.Results

/-!
# Searching what was added

`IndexHNSW::add`, in any number of batches, and then `HNSW::search` of `faiss/impl/HNSW.cpp`.  A graph
in which all vertices are inserted is one that searches rely on (`Inserted.wellFormed`), so that each
search after each run of `add` finds different vertices that were added.
-/

namespace FaissNavix

open HeapHandler

variable {g : HNSW} {cum : List ℕ} {settings : AddSettings}

theorem Inserted.wellFormed (h : Inserted g (· < g.ntotal)) : g.WellFormed where
  offsets_length := h.linked.layout.offsets_length
  offsets_succ := h.linked.layout.offsets_succ
  neighbors_length := h.linked.layout.neighbors_length
  level_pos := h.linked.layout.level_pos
  neighbor i hi l hl v hv := ((h.linked.list i hi l hl).present v hv).2
  entry := by
    rcases h.entry with ⟨hentry, -, hnone⟩ | ⟨e, hentry, he, hlevel⟩
    · exact Or.inl ⟨hentry, Nat.eq_zero_of_not_pos (hnone 0)⟩
    · exact Or.inr ⟨e, hentry, he, hlevel⟩

/-- After every run of `add`, a search in either mode reports different vertices that it can reach, in
order, with their own distances; with room for all vertices, they are the nearest ones. -/
theorem search_after_adds (hroom : ∀ l, l + 1 < cum.length → cum.getD l 0 < cum.getD (l + 1) 0)
    (hinit : settings.initLevel0 = true) {calls : List AddCall}
    (hcalls : ∀ c ∈ calls, ∀ pl ∈ c.levels, pl + 1 < cum.length) (efSearch : ℕ)
    (checkRelativeDistance searchBoundedQueue : Bool) :
    ∃ s, calls.foldlM (Growing.add settings)
        (Growing.empty cum efSearch checkRelativeDistance searchBoundedQueue) = some s ∧
      s.hnsw.ntotal = (calls.flatMap AddCall.levels).length ∧
      ∀ (qdis : ℕ → F32) (k : ℕ) (tab : ℕ → F32 × ℤ) (vt : VisitedTable) (params : Option SearchParameters),
        1 ≤ k → vt.Clean s.hnsw.ntotal → HNSW.selOf params = none →
        (∀ v < s.hnsw.ntotal, qdis v < F32.max) →
        ∃ stats h vt' L, s.hnsw.search qdis (begin k tab) vt params = some (stats, h, vt') ∧
          h.results = L.map (scored qdis) ++ List.replicate (k - L.length) (F32.max, -1) ∧
          L.Nodup ∧ (∀ v ∈ L, v < s.hnsw.ntotal ∧ v ∈ s.hnsw.reached qdis) ∧
          L.Pairwise (fun u v ↦ qdis u ≤ qdis v) ∧
          (s.hnsw.ntotal ≤ s.hnsw.efSearchOf params →
            HeapHandler.NearestOf qdis k (s.hnsw.reached qdis) L) := by
  obtain ⟨s, hrun, hs, hlevels⟩ := (Growing.whole_empty hroom efSearch checkRelativeDistance
    searchBoundedQueue).run hinit hcalls
  have hg := hs.inserted.wellFormed
  refine ⟨s, hrun, ?_, fun qdis k tab vt params hk hclean hsel hq ↦ ?_⟩
  · rw [HNSW.ntotal, hlevels, List.length_append, List.length_map]
    exact Nat.zero_add _
  · by_cases hentry : s.hnsw.entryPoint = -1
    · have hempty : ∀ v, v ∈ ([] : List ℕ) ↔ v ∈ s.hnsw.reached qdis := fun v ↦
        ⟨fun hv ↦ absurd hv List.not_mem_nil, fun hv ↦ absurd hentry hv.1⟩
      obtain ⟨L, hL, hsorted, hresults⟩ := (HeapHandler.offered_begin qdis hk tab).results
      have hnearest := HeapHandler.nearestOf_of_kSmallest hempty List.nodup_nil
        (fun v hv ↦ absurd hentry hv.1) hL hsorted
      exact ⟨{}, _, vt, L, search_of_entryPoint hentry, hresults, hnearest.nodup,
        fun v hv ↦ absurd hentry (hnearest.sub v hv).1, hsorted, fun _ ↦ hnearest⟩
    · obtain ⟨stats, h, vt', met, L, hsearch, hnodup, hall, hreach, hL, hsorted, hresults⟩ :=
        search_met tab hg hentry hclean hk hsel hq
      have hsub : ∀ v ∈ L, v ∈ met := fun v hv ↦
        Multiset.mem_coe.mp (Multiset.mem_of_le hL.sub (Multiset.mem_coe.mpr hv))
      refine ⟨stats, h, vt', L, hsearch, hresults,
        Multiset.coe_nodup.mp (Multiset.nodup_of_le hL.sub (Multiset.coe_nodup.mpr hnodup)),
        fun v hv ↦ ?_, hsorted, fun hef ↦ ?_⟩
      · have hv := hreach v (hsub v hv)
        exact ⟨HNSW.reached_lt hg hv, hv⟩
      · exact HeapHandler.nearestOf_of_kSmallest (hall hef) hnodup
          (fun v hv ↦ F32.Comparable.of_lt (hq v (HNSW.reached_lt hg hv))) hL hsorted

/-- Three vertices in two batches, all at the same distance of the query. -/
theorem search_after_adds_three :
    ∃ s, [AddCall.level [0, 1], AddCall.level [0]].foldlM (Growing.add ⟨40, true, false⟩)
        (Growing.empty [0, 2, 4] 16 true true) = some s ∧
      ∃ stats h vt', ∃ L : List ℕ, s.hnsw.search (fun _ ↦ ⟨0⟩) (begin 2 fun _ ↦ (F32.max, -1)) (VisitedTable.new 3) none =
          some (stats, h, vt') ∧
        h.results = L.map (scored fun _ ↦ ⟨0⟩) ++ List.replicate (2 - L.length) (F32.max, -1) ∧ L.Nodup := by
  have hroom : ∀ l, l + 1 < [0, 2, 4].length → [0, 2, 4].getD l 0 < [0, 2, 4].getD (l + 1) 0 := fun l hl ↦ by
    rw [List.length_cons, List.length_cons, List.length_singleton] at hl
    obtain rfl | rfl : l = 0 ∨ l = 1 := by omega
    · decide
    · decide
  obtain ⟨s, hrun, -, hsearch⟩ := @search_after_adds [0, 2, 4] ⟨40, true, false⟩ hroom rfl
    [AddCall.level [0, 1], AddCall.level [0]] (by decide) 16 true true
  obtain ⟨stats, h, vt', L, hresult, hrow, hnodup, -⟩ := hsearch (fun _ ↦ ⟨0⟩) 2 (fun _ ↦ (F32.max, -1))
    (VisitedTable.new 3) none (by decide) (VisitedTable.clean_new 3 _) rfl fun _ _ ↦ by decide
  exact ⟨s, hrun, stats, h, vt', L, hresult, hrow, hnodup⟩

end FaissNavix
