import FaissNavix.HNSW.Unbounded
import Mathlib.Data.Set.Card

/-!
# The results of a search

What `HNSW::search` leaves in its result handler, in both queue modes, with room for all vertices:
the heap handler ends with the `k` nearest of the vertices reachable on level 0 from the end of the
greedy descent.  The range handler ends with all of those within the radius in the bounded mode,
whereas the unbounded mode hands over the `k` nearest only, and `k` is one for a handler that is
not a heap.
-/

namespace FaissNavix

open Lib
open ResultHandler (addResult)

namespace HNSW

variable (g : HNSW) (qdis : ℕ → F32)

def greedyEntry : ℕ := (g.greedyDescent qdis g.entryPoint.toNat).1.nearest

def reached : Set ℕ := {v | g.entryPoint ≠ -1 ∧ v ∈ reachable g.Edge {g.greedyEntry qdis}}

variable {g qdis}

theorem greedyEntry_spec (qdis : ℕ → F32) (hg : g.WellFormed) (hentry : g.entryPoint ≠ -1) :
    g.greedyEntry qdis < g.ntotal ∧
      (g.greedyDescent qdis g.entryPoint.toNat).1.dNearest = qdis (g.greedyEntry qdis) := by
  have hon : (g.greedyDescent qdis g.entryPoint.toNat).1.On g qdis 0 := by
    rcases hg.entry with ⟨h, -⟩ | ⟨e, h, -⟩
    · exact absurd h hentry
    · exact greedyDescent_on hg (by rw [h, Int.toNat_natCast])
  exact ⟨hon.lt, hon.dNearest_eq⟩

theorem mem_reached (hentry : g.entryPoint ≠ -1) {v : ℕ} :
    v ∈ g.reached qdis ↔ v ∈ reachable g.Edge {g.greedyEntry qdis} := by
  simp [reached, hentry]

theorem reached_lt (hg : g.WellFormed) {v : ℕ} (hv : v ∈ g.reached qdis) : v < g.ntotal :=
  reachable_lt hg (greedyEntry_spec qdis hg hv.1).1 hv.2

/-- Distances to the vertices of `HNSW.pair`, the first of which is nearer. -/
def pairDistance (v : ℕ) : F32 := if v = 0 then ⟨0x00000000#32⟩ else ⟨0x3f800000#32⟩

theorem pairDistance_lt_iff (u v : ℕ) : pairDistance u < pairDistance v ↔ u = 0 ∧ v ≠ 0 := by
  have h : ∀ p q : Prop, [Decidable p] → [Decidable q] →
      ((if p then (⟨0x00000000#32⟩ : F32) else ⟨0x3f800000#32⟩) <
        (if q then (⟨0x00000000#32⟩ : F32) else ⟨0x3f800000#32⟩) ↔ p ∧ ¬ q) := by
    intro p q _ _
    by_cases hp : p <;> by_cases hq : q <;> simp only [hp, hq, if_true, if_false, true_and,
      not_true, not_false_iff, false_and, iff_true, iff_false] <;> decide
  exact h (u = 0) (v = 0)

theorem pairDistance_comparable : ∀ v < pair.ntotal, (pairDistance v).Comparable := by decide

theorem pairDistance_lt_max : ∀ v < pair.ntotal, pairDistance v < F32.max := by decide

end HNSW

variable {H : Type} [ResultHandler H] {g : HNSW} {qdis : ℕ → F32} {res : H} {vt : VisitedTable}
  {params : Option SearchParameters}

theorem search_of_entryPoint (hentry : g.entryPoint = -1) :
    g.search qdis res vt params = some ({}, res, vt) := by
  rw [HNSW.search, if_pos hentry]

def startHeap (qdis : ℕ → F32) (e ef : ℕ) : MinimaxHeap := (MinimaxHeap.new ef).push e (qdis e)

/-- The statistics after the loop of the bounded mode, on level 0. -/
def boundedStats (stats : HNSWStats) (s : CandidateLoop H) : HNSWStats where
  n1 := stats.n1 + 1
  n2 := if s.candidates.size = 0 then stats.n2 + 1 else stats.n2
  ndis := stats.ndis + s.ndis
  nhops := stats.nhops + s.nstep

theorem search_bounded_eq (hg : g.WellFormed) (hentry : g.entryPoint ≠ -1)
    (hbounded : g.boundedQueueOf params = true) (res : H) (vt : VisitedTable) :
    g.search qdis res vt params =
      (g.candidateLoop qdis res (startHeap qdis (g.greedyEntry qdis)
        (max (g.efSearchOf params) (HNSW.extractK res))) vt 0 0 params).map fun s ↦
          (boundedStats (g.greedyDescent qdis g.entryPoint.toNat).2 s, s.off.res, s.vt.advance) := by
  obtain ⟨-, hd⟩ := HNSW.greedyEntry_spec qdis hg hentry
  rw [HNSW.search, if_neg hentry]
  simp only [hbounded, if_true, HNSW.searchFromCandidates, hd, HNSW.greedyEntry, startHeap]
  cases g.candidateLoop qdis res ((MinimaxHeap.new (max (g.efSearchOf params)
    (HNSW.extractK res))).push (g.greedyDescent qdis g.entryPoint.toNat).1.nearest
      (qdis (g.greedyDescent qdis g.entryPoint.toNat).1.nearest)) vt 0 0 params <;> rfl

theorem search_unbounded_eq (hg : g.WellFormed) (hentry : g.entryPoint ≠ -1)
    (hbounded : g.boundedQueueOf params = false) (res : H) (vt : VisitedTable) :
    g.search qdis res vt params =
      (g.searchFromCandidateUnbounded qdis (node qdis (g.greedyEntry qdis))
        (max (g.efSearchOf params) (HNSW.extractK res)) vt
        (g.greedyDescent qdis g.entryPoint.toNat).2).map fun r ↦
          (r.2, HNSW.addTopCandidates (HNSW.extractK res) r.1.topCandidates res,
            r.1.vt.advance) := by
  obtain ⟨-, hd⟩ := HNSW.greedyEntry_spec qdis hg hentry
  rw [HNSW.search, if_neg hentry]
  simp only [hbounded, if_false, hd, HNSW.greedyEntry, Bool.false_eq_true, node]
  cases g.searchFromCandidateUnbounded qdis
    (qdis (g.greedyDescent qdis g.entryPoint.toNat).1.nearest,
      (g.greedyDescent qdis g.entryPoint.toNat).1.nearest)
    (max (g.efSearchOf params) (HNSW.extractK res)) vt
    (g.greedyDescent qdis g.entryPoint.toNat).2 <;> rfl

/-- The bounded mode: the handler is offered every vertex met that the selector accepts. -/
theorem search_bounded [LawfulResultHandler H] (qdis : ℕ → F32) (hg : g.WellFormed) (hentry : g.entryPoint ≠ -1)
    (hbounded : g.boundedQueueOf params = true) (hclean : vt.Clean g.ntotal)
    (hef : 1 ≤ max (g.efSearchOf params) (HNSW.extractK res)) :
    ∃ stats s met, g.search qdis res vt params = some (stats, s.off.res, s.vt.advance) ∧
      Met g qdis (HNSW.selOf params) res vt (g.greedyEntry qdis) s met ∧
      (g.ntotal ≤ g.efSearchOf params → ∀ v, v ∈ met ↔ v ∈ g.reached qdis) ∧
      g.candidateLoop qdis res (startHeap qdis (g.greedyEntry qdis)
        (max (g.efSearchOf params) (HNSW.extractK res))) vt 0 0 params = some s := by
  obtain ⟨hlt, -⟩ := HNSW.greedyEntry_spec qdis hg hentry
  obtain ⟨s, met, hloop, hmet, hall⟩ : ∃ s met,
      g.candidateLoop qdis res (startHeap qdis (g.greedyEntry qdis)
        (max (g.efSearchOf params) (HNSW.extractK res))) vt 0 0 params = some s ∧
      Met g qdis (HNSW.selOf params) res vt (g.greedyEntry qdis) s met ∧
      (g.ntotal ≤ g.efSearchOf params → ∀ v, v ∈ met ↔ v ∈ g.reached qdis) := by
    by_cases hwide : g.ntotal ≤ g.efSearchOf params
    · obtain ⟨s, met, hloop, hmet, hall⟩ := candidateLoop_wide res params 0 hg hlt hclean
        (hwide.trans (le_max_left _ _)) hwide
      exact ⟨s, met, hloop, hmet, fun _ v ↦ by rw [hall v, HNSW.mem_reached hentry]⟩
    · obtain ⟨s, met, hloop, hmet⟩ := candidateLoop_total res params 0 hg hlt hef hclean
      exact ⟨s, met, hloop, hmet, fun h ↦ absurd h hwide⟩
  refine ⟨boundedStats (g.greedyDescent qdis g.entryPoint.toNat).2 s, s, met, ?_, hmet, hall, hloop⟩
  rw [search_bounded_eq hg hentry hbounded, hloop]
  rfl

/-- The unbounded mode: the handler is given the `k` nearest of the `ef` nearest of the vertices
met, whatever the selector. -/
theorem search_unbounded (res : H) (hg : g.WellFormed) (hentry : g.entryPoint ≠ -1)
    (hbounded : g.boundedQueueOf params = false) (hclean : vt.Clean g.ntotal)
    (hq : ∀ v < g.ntotal, (qdis v).Comparable)
    (hef : 1 ≤ max (g.efSearchOf params) (HNSW.extractK res)) :
    ∃ stats s met L, g.search qdis res vt params =
        some (stats, List.foldl (fun res v ↦ (addResult res (qdis v) v).1) res L, s.vt.advance) ∧
      (∃ best waiting, UnboundedRunning g qdis (max (g.efSearchOf params) (HNSW.extractK res)) vt
        (g.greedyEntry qdis) s met best waiting) ∧
      KSmallest (fun v ↦ (qdis v).key) (HNSW.extractK res) ↑met ↑L ∧
      (g.ntotal ≤ g.efSearchOf params → ∀ v, v ∈ met ↔ v ∈ g.reached qdis) ∧
      ∃ stats₀ stats₁, g.searchFromCandidateUnbounded qdis (node qdis (g.greedyEntry qdis))
        (max (g.efSearchOf params) (HNSW.extractK res)) vt stats₀ = some (s, stats₁) := by
  obtain ⟨hlt, -⟩ := HNSW.greedyEntry_spec qdis hg hentry
  obtain ⟨s, stats, met, best, waiting, hloop, hrun, hall⟩ :=
    searchFromCandidateUnbounded_total hg hlt hclean hq hef (g.greedyDescent qdis g.entryPoint.toNat).2
  obtain ⟨L, hL, hadd⟩ := addTopCandidates_eq hrun.queues (HNSW.extractK res) res
  refine ⟨stats, s, met, L, ?_, ⟨best, waiting, hrun⟩,
    hrun.queues.smallest.trans hL (le_max_right _ _), fun hef v ↦ ?_, _, stats, hloop⟩
  · rw [search_unbounded_eq hg hentry hbounded, hloop, ← hadd]
    rfl
  · rw [hall (hef.trans (le_max_left _ _)), HNSW.mem_reached hentry]

/-! ## The heap handler -/

namespace HeapHandler

variable {k : ℕ} {tab : ℕ → F32 × ℤ} {h : HeapHandler}

theorem foldl_addResult (h : HeapHandler) (L : List ℕ) :
    L.foldl (fun res v ↦ (ResultHandler.addResult res (qdis v) v).1) h = offerAll qdis h L :=
  List.foldl_ext _ _ _ fun res v _ ↦ (offerTo_eq res (qdis v) v).symm

theorem results_of_met {e : ℕ} {s : CandidateLoop HeapHandler} {met : List ℕ} (hk : 1 ≤ k)
    (hmet : Met g qdis none (begin k tab) vt e s met) (hq : ∀ v ∈ met, qdis v < F32.max) :
    ∃ L : List ℕ, KSmallest (fun v ↦ (qdis v).key) k ↑met ↑L ∧
      L.Pairwise (fun u v ↦ qdis u ≤ qdis v) ∧
      s.off.res.results = L.map (scored qdis) ++ List.replicate (k - L.length) (F32.max, -1) := by
  have hres := hmet.res_eq
  have hfilter : (met.filter fun v ↦ isSelected none v) = met :=
    List.filter_eq_self.mpr fun v _ ↦ rfl
  rw [hfilter] at hres
  obtain ⟨hoff, hk'⟩ := (offered_begin qdis hk tab).offerAll met
  obtain ⟨L, hL, hsorted, hresults⟩ := hoff.results
  rw [List.nil_append, hk', below_eq_self hq] at hL
  rw [hk'] at hresults
  exact ⟨L, hL, hsorted, by rw [hres]; exact hresults⟩

/-- What handing over the `k` nearest leaves in a heap handler. -/
theorem results_of_kSmallest (tab : ℕ → F32 × ℤ) {met L₀ : List ℕ} (hk : 1 ≤ k)
    (hL₀ : KSmallest (fun v ↦ (qdis v).key) k ↑met ↑L₀) (hq : ∀ v ∈ met, qdis v < F32.max) :
    ∃ L : List ℕ, KSmallest (fun v ↦ (qdis v).key) k ↑met ↑L ∧
      L.Pairwise (fun u v ↦ qdis u ≤ qdis v) ∧
      (L₀.foldl (fun res v ↦ (ResultHandler.addResult res (qdis v) v).1) (begin k tab)).results =
        L.map (scored qdis) ++ List.replicate (k - L.length) (F32.max, -1) := by
  have hsub : ∀ v ∈ L₀, v ∈ met := fun v hv ↦
    Multiset.mem_coe.mp (Multiset.mem_of_le hL₀.sub (Multiset.mem_coe.mpr hv))
  obtain ⟨hoff, hk'⟩ := (offered_begin qdis hk tab).offerAll L₀
  obtain ⟨L, hL, hsorted, hresults⟩ := hoff.results
  rw [List.nil_append, hk', below_eq_self fun v hv ↦ hq v (hsub v hv)] at hL
  rw [hk'] at hresults
  exact ⟨L, hL₀.trans hL le_rfl, hsorted, by rw [foldl_addResult]; exact hresults⟩

/-- What a search in either mode, without a selector, leaves in a heap handler: the nearest of the
reachable vertices met, which are all of them if there is room for all vertices. -/
theorem search_met (tab : ℕ → F32 × ℤ) (hg : g.WellFormed) (hentry : g.entryPoint ≠ -1)
    (hclean : vt.Clean g.ntotal) (hk : 1 ≤ k) (hsel : HNSW.selOf params = none)
    (hq : ∀ v < g.ntotal, qdis v < F32.max) :
    ∃ stats h vt', ∃ met L : List ℕ,
      g.search qdis (begin k tab) vt params = some (stats, h, vt') ∧ met.Nodup ∧
      (g.ntotal ≤ g.efSearchOf params → ∀ v, v ∈ met ↔ v ∈ g.reached qdis) ∧
      (∀ v ∈ met, v ∈ g.reached qdis) ∧
      KSmallest (fun v ↦ (qdis v).key) k ↑met ↑L ∧ L.Pairwise (fun u v ↦ qdis u ≤ qdis v) ∧
      h.results = L.map (scored qdis) ++ List.replicate (k - L.length) (F32.max, -1) := by
  have hef : 1 ≤ max (g.efSearchOf params) (HNSW.extractK (begin k tab)) :=
    hk.trans (le_max_right _ _)
  cases hmode : g.boundedQueueOf params with
  | true =>
      obtain ⟨stats, s, met, hsearch, hmet, hall, -⟩ :=
        search_bounded qdis hg hentry hmode hclean hef
      rw [hsel] at hmet
      have hreach : ∀ v ∈ met, v ∈ g.reached qdis := fun v hv ↦ ⟨hentry, hmet.reach v hv⟩
      obtain ⟨L, hL, hsorted, hresults⟩ := results_of_met hk hmet fun v hv ↦
        hq v (HNSW.reached_lt hg (hreach v hv))
      exact ⟨stats, _, _, met, L, hsearch, hmet.visits.nodup, hall, hreach, hL, hsorted, hresults⟩
  | false =>
      obtain ⟨stats, s, met, L₀, hsearch, ⟨best, waiting, hrun⟩, hL₀, hall, -⟩ :=
        search_unbounded (begin k tab) hg hentry hmode hclean
          (fun v hv ↦ F32.Comparable.of_lt (hq v hv)) hef
      have hreach : ∀ v ∈ met, v ∈ g.reached qdis := fun v hv ↦ ⟨hentry, hrun.reach v hv⟩
      obtain ⟨L, hL, hsorted, hresults⟩ := results_of_kSmallest tab hk hL₀ fun v hv ↦
        hq v (HNSW.reached_lt hg (hreach v hv))
      exact ⟨stats, _, _, met, L, hsearch, hrun.visits.nodup, hall, hreach, hL, hsorted, hresults⟩

theorem search_spec (tab : ℕ → F32 × ℤ) (hg : g.WellFormed) (hentry : g.entryPoint ≠ -1)
    (hclean : vt.Clean g.ntotal) (hk : 1 ≤ k) (hsel : HNSW.selOf params = none)
    (hq : ∀ v < g.ntotal, qdis v < F32.max) :
    ∃ stats h vt', ∃ met L : List ℕ,
      g.search qdis (begin k tab) vt params = some (stats, h, vt') ∧ met.Nodup ∧
      (g.ntotal ≤ g.efSearchOf params → ∀ v, v ∈ met ↔ v ∈ g.reached qdis) ∧
      KSmallest (fun v ↦ (qdis v).key) k ↑met ↑L ∧ L.Pairwise (fun u v ↦ qdis u ≤ qdis v) ∧
      h.results = L.map (scored qdis) ++ List.replicate (k - L.length) (F32.max, -1) := by
  obtain ⟨stats, h, vt', met, L, hsearch, hnodup, hall, -, hrest⟩ :=
    search_met tab hg hentry hclean hk hsel hq
  exact ⟨stats, h, vt', met, L, hsearch, hnodup, hall, hrest⟩

/-- A list of the `k` nearest of a set of vertices, or of all of them, in order. -/
structure NearestOf (qdis : ℕ → F32) (k : ℕ) (S : Set ℕ) (L : List ℕ) : Prop where
  nodup : L.Nodup
  sub : ∀ v ∈ L, v ∈ S
  length_eq : L.length = min k S.ncard
  sorted : L.Pairwise fun u v ↦ qdis u ≤ qdis v
  nearest : ∀ u ∈ L, ∀ v ∈ S, v ∉ L → qdis u ≤ qdis v

theorem nearestOf_of_kSmallest {S : Set ℕ} {met L : List ℕ} (hS : ∀ v, v ∈ met ↔ v ∈ S)
    (hnodup : met.Nodup) (hq : ∀ v ∈ S, (qdis v).Comparable)
    (hL : KSmallest (fun v ↦ (qdis v).key) k ↑met ↑L)
    (hsorted : L.Pairwise fun u v ↦ qdis u ≤ qdis v) : NearestOf qdis k S L := by
  have hsub : ∀ v ∈ L, v ∈ met := fun v hv ↦
    Multiset.mem_coe.mp (Multiset.mem_of_le hL.sub (Multiset.mem_coe.mpr hv))
  have hS' : S = ↑met.toFinset := by
    ext v
    rw [Finset.mem_coe, List.mem_toFinset, hS]
  have hcard : S.ncard = met.length := by
    rw [hS', Set.ncard_coe_finset, List.toFinset_card_of_nodup hnodup]
  refine ⟨?_, fun v hv ↦ (hS v).mp (hsub v hv), ?_, hsorted, fun u hu v hv hvL ↦ ?_⟩
  · exact Multiset.coe_nodup.mp (Multiset.nodup_of_le hL.sub (Multiset.coe_nodup.mpr hnodup))
  · rw [hcard]
    exact hL.card_eq
  · obtain ⟨R, hR, hkeep⟩ := hL
    have hvR : v ∈ R := by
      have hv' : v ∈ (↑L + R : Multiset ℕ) := by rw [← hR]; exact Multiset.mem_coe.mpr ((hS v).mpr hv)
      rcases Multiset.mem_add.mp hv' with h | h
      · exact absurd (Multiset.mem_coe.mp h) hvL
      · exact h
    exact (F32.le_iff_key (hq u ((hS u).mp (hsub u hu))) (hq v hv)).mpr
      (hkeep.le u (Multiset.mem_coe.mpr hu) v hvR)

/-- With room for all vertices, the search is exact on the part of the graph it can reach. -/
theorem search_exact (hg : g.WellFormed) (hclean : vt.Clean g.ntotal) (hk : 1 ≤ k)
    (hsel : HNSW.selOf params = none) (hq : ∀ v < g.ntotal, qdis v < F32.max)
    (hef : g.ntotal ≤ g.efSearchOf params) :
    ∃ stats h vt' L, g.search qdis (begin k tab) vt params = some (stats, h, vt') ∧
      NearestOf qdis k (g.reached qdis) L ∧
      h.results = L.map (scored qdis) ++ List.replicate (k - L.length) (F32.max, -1) := by
  by_cases hentry : g.entryPoint = -1
  · have hempty : ∀ v, v ∈ ([] : List ℕ) ↔ v ∈ g.reached qdis := fun v ↦
      ⟨fun hv ↦ absurd hv List.not_mem_nil, fun hv ↦ absurd hentry hv.1⟩
    obtain ⟨L, hL, hsorted, hresults⟩ := (offered_begin qdis hk tab).results
    refine ⟨{}, _, vt, L, search_of_entryPoint hentry, ?_, hresults⟩
    exact nearestOf_of_kSmallest hempty List.nodup_nil (fun v hv ↦ absurd hentry hv.1) hL hsorted
  · obtain ⟨stats, h, vt', met, L, hsearch, hnodup, hall, hL, hsorted, hresults⟩ :=
      search_spec tab hg hentry hclean hk hsel hq
    exact ⟨stats, h, vt', L, hsearch, nearestOf_of_kSmallest (hall hef) hnodup
      (fun v hv ↦ F32.Comparable.of_lt (hq v (HNSW.reached_lt hg hv))) hL hsorted, hresults⟩

theorem search_exact_pair :
    ∃ stats h vt' L, HNSW.pair.search HNSW.pairDistance (begin 1 fun _ ↦ (F32.max, -1))
        (VisitedTable.new 2) none = some (stats, h, vt') ∧
      NearestOf HNSW.pairDistance 1 (HNSW.pair.reached HNSW.pairDistance) L ∧
      h.results = L.map (scored HNSW.pairDistance) ++
        List.replicate (1 - L.length) (F32.max, -1) :=
  search_exact HNSW.wellFormed_pair (VisitedTable.clean_new 2 2) le_rfl rfl
    HNSW.pairDistance_lt_max (by decide)

def Respects (isMember : ℤ → Bool) (h : HeapHandler) : Prop :=
  ∀ x ∈ h.results, isReal x → isMember x.2 = true

theorem respects_of_offered {isMember : ℤ → Bool} {l : List ℕ} (hh : Offered qdis h l)
    (hl : ∀ v ∈ l, qdis v < F32.max → isMember v = true) : Respects isMember h := by
  intro x hx hreal
  obtain ⟨v, hv, rfl⟩ := hh.of_mem_results hx hreal
  obtain ⟨hv, hd⟩ := mem_below.mp hv
  exact hl v hv hd

/-- The bounded mode respects the selector.  The unbounded mode has no selector, so that for large
enough parameters it returns every vertex it can reach. -/
theorem search_respects_iff (hg : g.WellFormed) (hclean : vt.Clean g.ntotal)
    (isMember : ℤ → Bool) (bounded : Bool)
    (hq : bounded = false → ∀ v < g.ntotal, (qdis v).Comparable) :
    (∀ k params tab, 1 ≤ k → HNSW.selOf params = some isMember →
      g.boundedQueueOf params = bounded → 1 ≤ g.efSearchOf params →
      ∃ stats h vt', g.search qdis (begin k tab) vt params = some (stats, h, vt') ∧
        Respects isMember h) ↔
    bounded = true ∨ ∀ v ∈ g.reached qdis, qdis v < F32.max → isMember v = true := by
  constructor
  · intro h
    cases bounded with
    | true => exact Or.inl rfl
    | false =>
        refine Or.inr fun v hv hd ↦ ?_
        have hpos : 1 ≤ g.ntotal := Nat.one_le_of_lt (HNSW.reached_lt hg hv)
        obtain ⟨params, hsel, hmode, hefs⟩ : ∃ params, HNSW.selOf params = some isMember ∧
            g.boundedQueueOf params = false ∧ g.efSearchOf params = g.ntotal :=
          ⟨some { sel := some isMember
                  hnsw := some { efSearch := g.ntotal, checkRelativeDistance := true
                                 boundedQueue := false } }, rfl, rfl, rfl⟩
        obtain ⟨stats, h, vt', hsearch, hresp⟩ :=
          h g.ntotal params (fun _ ↦ (F32.max, -1)) hpos hsel hmode (hefs ▸ hpos)
        obtain ⟨_, s, met, L, hsearch', ⟨best, waiting, hrun⟩, hL, hall, -⟩ :=
          search_unbounded (begin g.ntotal fun _ ↦ (F32.max, -1)) hg hv.1 hmode hclean (hq rfl)
            (le_max_of_le_left (hefs ▸ hpos))
        rw [hsearch, foldl_addResult] at hsearch'
        obtain ⟨-, rfl, -⟩ : _ ∧ h = _ ∧ _ := by simpa using hsearch'
        obtain ⟨hoff, hk⟩ := (offered_begin qdis hpos fun _ ↦ (F32.max, -1)).offerAll L
        have hlen : L.length ≤ g.ntotal := hL.card_le
        have hmet : met.length ≤ g.ntotal := length_le_of_nodup hrun.visits.nodup fun u hu ↦
          HNSW.reached_lt hg ⟨hv.1, hrun.reach u hu⟩
        have hvL : v ∈ L := by
          rw [← Multiset.mem_coe, hL.eq_of_card_le (by rw [Multiset.coe_card]; exact hmet)]
          exact Multiset.mem_coe.mpr ((hall hefs.ge v).mpr hv)
        rw [List.nil_append] at hoff
        exact hresp _ (hoff.mem_results (by rw [hk]; exact hlen) (mem_below.mpr ⟨hvL, hd⟩))
          (isReal_scored qdis v)
  · intro h k params tab hk hsel hmode _
    by_cases hentry : g.entryPoint = -1
    · refine ⟨{}, _, vt, search_of_entryPoint hentry, ?_⟩
      exact respects_of_offered (offered_begin qdis hk tab) fun v hv ↦ absurd hv List.not_mem_nil
    · have hef : 1 ≤ max (g.efSearchOf params) (HNSW.extractK (begin k tab)) :=
        hk.trans (le_max_right _ _)
      cases bounded with
      | true =>
          obtain ⟨stats, s, met, hsearch, hmet, -, -⟩ := search_bounded qdis hg hentry hmode hclean hef
          obtain ⟨hoff, -⟩ := (offered_begin qdis hk tab).offerAll
            (met.filter fun v ↦ isSelected (HNSW.selOf params) v)
          rw [← hmet.res_eq] at hoff
          refine ⟨stats, _, _, hsearch, respects_of_offered hoff fun v hv _ ↦ ?_⟩
          have := (List.mem_filter.mp hv).2
          rwa [hsel, isSelected] at this
      | false =>
          obtain ⟨stats, s, met, L, hsearch, ⟨best, waiting, hrun⟩, hL, -, -⟩ :=
            search_unbounded (begin k tab) hg hentry hmode hclean (hq rfl) hef
          rw [foldl_addResult] at hsearch
          obtain ⟨hoff, -⟩ := (offered_begin qdis hk tab).offerAll L
          refine ⟨stats, _, _, hsearch, respects_of_offered hoff fun v hv hd ↦ ?_⟩
          have hvmet : v ∈ met :=
            Multiset.mem_coe.mp (Multiset.mem_of_le hL.sub (Multiset.mem_coe.mpr hv))
          exact (h.resolve_left (by simp)) v ⟨hentry, hrun.reach v hvmet⟩ hd

theorem search_respects_iff_pair :
    (∀ k params tab, 1 ≤ k → HNSW.selOf params = some (fun v ↦ v == 0) →
      HNSW.pair.boundedQueueOf params = false → 1 ≤ HNSW.pair.efSearchOf params →
      ∃ stats h vt', HNSW.pair.search HNSW.pairDistance (begin k tab) (VisitedTable.new 2) params =
          some (stats, h, vt') ∧ Respects (fun v ↦ v == 0) h) ↔
    false = true ∨ ∀ v ∈ HNSW.pair.reached HNSW.pairDistance,
      HNSW.pairDistance v < F32.max → ((v : ℤ) == 0) = true :=
  search_respects_iff HNSW.wellFormed_pair (VisitedTable.clean_new 2 2) (fun v ↦ v == 0) false
    fun _ ↦ HNSW.pairDistance_comparable

def unboundedParameters (sel : Option (ℤ → Bool)) : SearchParameters where
  sel := sel
  hnsw := some { efSearch := 16, checkRelativeDistance := true, boundedQueue := false }

/-- A search with a selector that accepts the first vertex only returns both. -/
theorem search_not_respects :
    ¬ ∀ (g : HNSW) (qdis : ℕ → F32) (vt : VisitedTable) (isMember : ℤ → Bool) (k : ℕ)
      (params : Option SearchParameters) (tab : ℕ → F32 × ℤ), g.WellFormed → vt.Clean g.ntotal →
      (∀ v < g.ntotal, qdis v < F32.max) → 1 ≤ k → HNSW.selOf params = some isMember →
      1 ≤ g.efSearchOf params →
      ∃ stats h vt', g.search qdis (begin k tab) vt params = some (stats, h, vt') ∧
        Respects isMember h := by
  intro hall
  obtain ⟨stats, h, vt', hsearch, hresp⟩ := hall HNSW.pair HNSW.pairDistance (VisitedTable.new 2)
    (fun v ↦ v == 0) 2 (some (unboundedParameters (some fun v ↦ v == 0))) (fun _ ↦ (F32.max, -1))
    HNSW.wellFormed_pair (VisitedTable.clean_new 2 2) HNSW.pairDistance_lt_max (by decide) rfl
    (by decide)
  have hrun : (HNSW.pair.search HNSW.pairDistance (begin 2 fun _ ↦ (F32.max, -1))
      (VisitedTable.new 2) (some (unboundedParameters (some fun v ↦ v == 0)))).map
        (fun r ↦ r.2.1.results) = some [(⟨0x00000000#32⟩, 0), (⟨0x3f800000#32⟩, 1)] := by
    decide +kernel
  rw [hsearch] at hrun
  have hres : h.results = [(⟨0x00000000#32⟩, 0), (⟨0x3f800000#32⟩, 1)] := Option.some.inj hrun
  exact absurd (hresp (⟨0x3f800000#32⟩, 1) (by rw [hres]; simp) (by decide)) (by decide)

end HeapHandler

/-! ## The range handler -/

namespace RangeHandler

theorem foldl_addResult (h : RangeHandler) (L : List ℕ) :
    L.foldl (fun res v ↦ (ResultHandler.addResult res (qdis v) v).1) h = offerAll qdis h L :=
  List.foldl_ext _ _ _ fun res v _ ↦ addResult_eq res (qdis v) v

def inRange (g : HNSW) (qdis : ℕ → F32) (radius : F32) : Set ℕ :=
  {v | v ∈ g.reached qdis ∧ qdis v < radius}

/-- The results are the vertices of `S`, each once and with its own distance. -/
def Reports (qdis : ℕ → F32) (h : RangeHandler) (S : Set ℕ) : Prop :=
  ∃ L : List ℕ, h.results = L.map (scored qdis) ∧ L.Nodup ∧ ∀ v, v ∈ L ↔ v ∈ S

theorem reports_offerAll {radius : F32} {l : List ℕ} {S : Set ℕ} (hl : l.Nodup) :
    Reports qdis (offerAll qdis (begin radius) l) S ↔ ∀ v, v ∈ l ∧ qdis v < radius ↔ v ∈ S := by
  have hres : (offerAll qdis (begin radius) l).results =
      (l.filter fun v ↦ decide (qdis v < radius)).map (scored qdis) := by
    rw [offerAll_eq]
    rfl
  have hmem : ∀ v, v ∈ (l.filter fun v ↦ decide (qdis v < radius)) ↔ v ∈ l ∧ qdis v < radius :=
    fun v ↦ by rw [List.mem_filter, decide_eq_true_eq]
  constructor
  · rintro ⟨L, hL, -, hmemL⟩ v
    rw [hres] at hL
    rw [← hmem, ← hmemL, List.map_injective_iff.mpr (scored_injective qdis) hL]
  · intro h
    exact ⟨_, hres, hl.filter _, fun v ↦ by rw [hmem, h]⟩

/-- With room for all vertices, a range search reports the vertices within the radius in the
bounded mode, and in the unbounded mode only if there is at most one. -/
theorem search_reports_iff (hg : g.WellFormed) (hclean : vt.Clean g.ntotal) (radius : F32)
    (hsel : HNSW.selOf params = none) (hef : g.ntotal ≤ g.efSearchOf params)
    (hq : g.boundedQueueOf params = false → ∀ v < g.ntotal, (qdis v).Comparable) :
    ∃ stats h vt', g.search qdis (begin radius) vt params = some (stats, h, vt') ∧
      (Reports qdis h (inRange g qdis radius) ↔
        g.boundedQueueOf params = true ∨ (inRange g qdis radius).Subsingleton) := by
  by_cases hentry : g.entryPoint = -1
  · refine ⟨{}, _, vt, search_of_entryPoint hentry, ?_⟩
    have hempty : ∀ v, v ∉ inRange g qdis radius := fun v hv ↦ hv.1.1 hentry
    refine iff_of_true ⟨[], rfl, List.nodup_nil, fun v ↦ ?_⟩ (Or.inr fun v hv ↦ absurd hv (hempty v))
    exact ⟨fun hv ↦ absurd hv List.not_mem_nil, fun hv ↦ absurd hv (hempty v)⟩
  · have hk : 1 ≤ max (g.efSearchOf params) (HNSW.extractK (begin radius)) := le_max_right _ _
    cases hmode : g.boundedQueueOf params with
    | true =>
        obtain ⟨stats, s, met, hsearch, hmet, hall, -⟩ := search_bounded qdis hg hentry hmode hclean hk
        have hfilter : (met.filter fun v ↦ isSelected (HNSW.selOf params) v) = met :=
          List.filter_eq_self.mpr fun v _ ↦ by rw [hsel, isSelected]
        have hres := hmet.res_eq
        rw [hfilter] at hres
        refine ⟨stats, _, _, hsearch, iff_of_true ?_ (Or.inl rfl)⟩
        rw [hres, reports_offerAll hmet.visits.nodup]
        exact fun v ↦ by rw [hall hef]; rfl
    | false =>
        obtain ⟨stats, s, met, L, hsearch, ⟨best, waiting, hrun⟩, hL, hall, -⟩ :=
          search_unbounded (begin radius) hg hentry hmode hclean (hq hmode) hk
        have hlen : L.length ≤ 1 := hL.card_le
        have hnodup : L.Nodup := Multiset.coe_nodup.mp
          (Multiset.nodup_of_le hL.sub (Multiset.coe_nodup.mpr hrun.visits.nodup))
        rw [foldl_addResult] at hsearch
        refine ⟨stats, _, _, hsearch, ?_⟩
        rw [reports_offerAll hnodup]
        constructor
        · -- the one vertex handed over is the only one reported
          intro h
          refine Or.inr fun u hu v hv ↦ ?_
          obtain ⟨hu, -⟩ := (h u).mpr hu
          obtain ⟨hv, -⟩ := (h v).mpr hv
          obtain ⟨w, rfl⟩ := List.length_eq_one_iff.mp
            (le_antisymm hlen (List.length_pos_of_mem hu))
          rw [List.mem_singleton.mp hu, List.mem_singleton.mp hv]
        · rintro (h | h)
          · exact absurd h (by simp)
          · intro v
            have hmem : ∀ {u}, u ∈ L → u ∈ met := fun hu ↦
              Multiset.mem_coe.mp (Multiset.mem_of_le hL.sub (Multiset.mem_coe.mpr hu))
            refine ⟨fun hv ↦ ⟨(hall hef v).mp (hmem hv.1), hv.2⟩, fun hv ↦ ⟨?_, hv.2⟩⟩
            by_contra hvL
            -- `v` was dropped for the vertex handed over, which is as near
            obtain ⟨R, hR, hkeep⟩ := hL
            have hvR : v ∈ R := by
              have hv' : v ∈ (↑L + R : Multiset ℕ) := by
                rw [← hR]; exact Multiset.mem_coe.mpr ((hall hef v).mpr hv.1)
              exact (Multiset.mem_add.mp hv').resolve_left fun h ↦ hvL (Multiset.mem_coe.mp h)
            have hone : L.length = 1 := hkeep.full fun h0 ↦ by
              rw [h0] at hvR; exact Multiset.notMem_zero _ hvR
            obtain ⟨w, rfl⟩ := List.length_eq_one_iff.mp hone
            have hw : w ∈ met := hmem (List.mem_singleton_self w)
            have hwc := hq hmode w (HNSW.reached_lt hg ((hall hef w).mp hw))
            have hle := hkeep.le w (Multiset.mem_coe.mpr (List.mem_singleton_self w)) v hvR
            obtain ⟨-, hrc, hlt⟩ := F32.lt_iff.mp hv.2
            have hwr : qdis w < radius := F32.lt_iff.mpr ⟨hwc, hrc, hle.trans_lt hlt⟩
            exact hvL (List.mem_singleton.mpr (h hv ⟨(hall hef w).mp hw, hwr⟩))

theorem search_reports_iff_pair :
    ∃ stats h vt', HNSW.pair.search HNSW.pairDistance (begin ⟨0x40000000#32⟩) (VisitedTable.new 2)
        (some (HeapHandler.unboundedParameters none)) = some (stats, h, vt') ∧
      (Reports HNSW.pairDistance h (inRange HNSW.pair HNSW.pairDistance ⟨0x40000000#32⟩) ↔
        HNSW.pair.boundedQueueOf (some (HeapHandler.unboundedParameters none)) = true ∨
          (inRange HNSW.pair HNSW.pairDistance ⟨0x40000000#32⟩).Subsingleton) :=
  search_reports_iff HNSW.wellFormed_pair (VisitedTable.clean_new 2 2) ⟨0x40000000#32⟩ rfl
    (by decide) fun _ ↦ HNSW.pairDistance_comparable

/-- A search that reaches two vertices within the radius reports one. -/
theorem search_not_reports :
    ¬ ∀ (g : HNSW) (qdis : ℕ → F32) (vt : VisitedTable) (radius : F32)
      (params : Option SearchParameters), g.WellFormed → vt.Clean g.ntotal →
      (∀ v < g.ntotal, qdis v < F32.max) → HNSW.selOf params = none →
      g.ntotal ≤ g.efSearchOf params →
      ∃ stats h vt', g.search qdis (begin radius) vt params = some (stats, h, vt') ∧
        Reports qdis h (inRange g qdis radius) := by
  intro hall
  obtain ⟨stats, h, vt', hsearch, L, hL, -, hmem⟩ := hall HNSW.pair HNSW.pairDistance
    (VisitedTable.new 2) ⟨0x40000000#32⟩ (some (HeapHandler.unboundedParameters none))
    HNSW.wellFormed_pair (VisitedTable.clean_new 2 2) HNSW.pairDistance_lt_max rfl (by decide)
  have hrun : (HNSW.pair.search HNSW.pairDistance (begin ⟨0x40000000#32⟩) (VisitedTable.new 2)
      (some (HeapHandler.unboundedParameters none))).map (fun r ↦ r.2.1.results) =
        some [(⟨0x00000000#32⟩, 0)] := by
    decide +kernel
  rw [hsearch] at hrun
  have hres : h.results = [(⟨0x00000000#32⟩, 0)] := Option.some.inj hrun
  have hlen : L.length = 1 := by
    rw [← List.length_map (scored HNSW.pairDistance), ← hL, hres]
    rfl
  have hentry : HNSW.pair.greedyEntry HNSW.pairDistance = 0 := by decide +kernel
  have h0 : 0 ∈ HNSW.pair.reached HNSW.pairDistance :=
    ⟨by decide, subset_reachable hentry.symm⟩
  have h1 : 1 ∈ HNSW.pair.reached HNSW.pairDistance :=
    ⟨by decide, reachable_step h0.2 (show 1 ∈ HNSW.pair.neighborList 0 0 by decide)⟩
  obtain ⟨w, rfl⟩ := List.length_eq_one_iff.mp hlen
  have hw0 := List.mem_singleton.mp ((hmem 0).mpr ⟨h0, by decide⟩)
  have hw1 := List.mem_singleton.mp ((hmem 1).mpr ⟨h1, by decide⟩)
  exact absurd (hw0.trans hw1.symm) (by decide)

end RangeHandler

end FaissNavix

/-!
# Graphs with one level

A graph all of whose vertices are on level 0 only is given by the neighbours of every vertex.  The
greedy descent has nothing to do in it, so that the search of level 0 starts at the entry point.
-/

namespace FaissNavix

namespace HNSW

/-- The entry at `j` of a list filled up with `-1`. -/
def entryAt (l : List ℕ) (j : ℕ) : ℤ := (l[j]?).elim (-1) fun v : ℕ ↦ (v : ℤ)

/-- The table with the neighbours `adj i` of every vertex `i` in a range of length `width`, filled
up with `-1`. -/
def flatNeighbors (n width : ℕ) (adj : ℕ → List ℕ) : List ℤ :=
  (List.range (n * width)).map fun p ↦ entryAt (adj (p / width)) (p % width)

/-- The graph on `n` vertices in which `i` has the neighbours `adj i`. -/
def flat (n : ℕ) (cum : List ℕ) (adj : ℕ → List ℕ) (entry efSearch : ℕ) : HNSW where
  cumNneighborPerLevel := cum
  levels := List.replicate n 1
  offsets := (List.range (n + 1)).map fun i ↦ i * cum.getD 1 0
  neighbors := flatNeighbors n (cum.getD 1 0) adj
  entryPoint := entry
  maxLevel := 0
  efSearch := efSearch
  checkRelativeDistance := true
  searchBoundedQueue := true

variable {n : ℕ} {cum : List ℕ} {adj : ℕ → List ℕ} {entry efSearch : ℕ}

@[simp] theorem ntotal_flat : (flat n cum adj entry efSearch).ntotal = n :=
  List.length_replicate

theorem flatNeighbors_range {width i : ℕ} (hi : i < n) :
    (List.range width).map (fun j ↦ (flatNeighbors n width adj).getD (i * width + j) (-1)) =
      (List.range width).map (entryAt (adj i)) := by
  refine List.map_congr_left fun j hj ↦ ?_
  have hj := List.mem_range.mp hj
  have hlt : i * width + j < n * width :=
    calc i * width + j < (i + 1) * width := by rw [Nat.succ_mul]; omega
      _ ≤ n * width := Nat.mul_le_mul_right _ hi
  rw [flatNeighbors, List.getD_eq_getElem?_getD, List.getElem?_map, List.getElem?_range hlt,
    Option.map_some, Option.getD_some, Nat.mul_comm, Nat.mul_add_div (by omega),
    Nat.div_eq_of_lt hj, Nat.mul_add_mod, Nat.mod_eq_of_lt hj, Nat.add_zero]

/-- A list filled up with `-1`, read up to the first negative entry. -/
theorem takeWhile_filled {l : List ℕ} {width : ℕ} (hl : l.length ≤ width) :
    (((List.range width).map (entryAt l)).takeWhile fun v ↦ decide (0 ≤ v)).map Int.toNat = l := by
  have hfill : (List.range width).map (entryAt l) =
      l.map (fun v : ℕ ↦ (v : ℤ)) ++ List.replicate (width - l.length) (-1) := by
    refine List.ext_getElem (by simp; omega) fun j h1 h2 ↦ ?_
    rw [List.getElem_map, List.getElem_range, entryAt]
    by_cases hj : j < l.length
    · rw [List.getElem_append_left (by simpa using hj), List.getElem_map,
        List.getElem?_eq_getElem hj]
      rfl
    · rw [List.getElem_append_right (by simpa using hj), List.getElem_replicate,
        List.getElem?_eq_none (by omega)]
      rfl
  rw [hfill, List.takeWhile_append_of_pos (by simp), List.takeWhile_replicate,
    if_neg (by decide), List.append_nil, List.map_map]
  exact (List.map_congr_left fun v _ ↦ Int.toNat_natCast v).trans (List.map_id _)

theorem neighborList_flat (hcum : cum.getD 0 0 = 0) {i : ℕ} (hi : i < n)
    (hadj : (adj i).length ≤ cum.getD 1 0) :
    (flat n cum adj entry efSearch).neighborList i 0 = adj i := by
  have ho : (flat n cum adj entry efSearch).offsets.getD i 0 = i * cum.getD 1 0 := by
    rw [flat, List.getD_eq_getElem?_getD, List.getElem?_map, List.getElem?_range (by omega)]
    rfl
  have h0 : (flat n cum adj entry efSearch).cumNbNeighbors 0 = 0 := hcum
  have h1 : (flat n cum adj entry efSearch).cumNbNeighbors 1 = cum.getD 1 0 := rfl
  rw [neighborList, neighborRange, ho, h0, h1]
  simp only [Nat.add_zero, Nat.add_sub_cancel_left]
  rw [List.range'_eq_map_range, List.map_map]
  exact (congrArg (fun l : List ℤ ↦ (l.takeWhile fun v ↦ decide (0 ≤ v)).map Int.toNat)
    (flatNeighbors_range hi)).trans (takeWhile_filled hadj)

theorem wellFormed_flat (hcum : cum.getD 0 0 = 0) (hentry : entry < n)
    (hlen : ∀ i < n, (adj i).length ≤ cum.getD 1 0) (hadj : ∀ i < n, ∀ v ∈ adj i, v < n) :
    (flat n cum adj entry efSearch).WellFormed := by
  have hlevel : ∀ i < n, (flat n cum adj entry efSearch).level i = 1 := fun i hi ↦ by
    rw [level, flat, List.getD_eq_getElem?_getD, List.getElem?_replicate, if_pos hi]
    rfl
  have ho : ∀ i ≤ n, (flat n cum adj entry efSearch).offsets.getD i 0 = i * cum.getD 1 0 :=
    fun i hi ↦ by
      rw [flat, List.getD_eq_getElem?_getD, List.getElem?_map, List.getElem?_range (by omega)]
      rfl
  refine ⟨by simp [flat, ntotal], fun i hi ↦ ?_, ?_, fun i hi ↦ ?_, fun i hi l hl v hv ↦ ?_, ?_⟩
  · rw [ntotal_flat] at hi
    rw [ho _ (by omega), ho _ hi.le, hlevel i hi, Nat.succ_mul]
    rfl
  · rw [ntotal_flat, ho n le_rfl]
    simp [flat, flatNeighbors]
  · rw [ntotal_flat] at hi
    rw [hlevel i hi]
  · rw [ntotal_flat] at hi ⊢
    rw [hlevel i hi] at hl
    obtain rfl : l = 0 := by omega
    rw [neighborList_flat hcum hi (hlen i hi)] at hv
    have hvn := hadj i hi v hv
    exact ⟨hvn, by rw [hlevel v hvn]; exact Nat.one_pos⟩
  · exact Or.inr ⟨entry, rfl, by simpa using hentry, by rw [hlevel _ hentry]; rfl⟩

theorem greedyEntry_flat (qdis : ℕ → F32) :
    (flat n cum adj entry efSearch).greedyEntry qdis = entry := by
  simp [greedyEntry, greedyDescent, upperLevels, flat]

end HNSW

end FaissNavix
