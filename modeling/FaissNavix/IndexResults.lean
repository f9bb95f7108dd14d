import FaissNavix.HNSW.Chain
import FaissNavix.IndexRows

/-!
# One query and many, with and without parameters

The calls for one query give what the calls for many give for it, except that they leave the
distances negated when the metric is a similarity.  `navix_search` reads `efSearch` of its
parameters, but only to say how often it can be interrupted: the search itself goes by the `efSearch`
of the graph, so that the parameters are honoured only where they say what the graph says.
-/

namespace FaissNavix

namespace IndexHNSW

variable {index : IndexHNSW} {storage : Storage} {k : ℕ}

/-! ## One query and many -/

theorem length_soloResults {ntotal : ℕ}
    {one : HeapHandler → VisitedTable → Option (SearchOne HeapHandler)}
    (hone : Steady ntotal one (HeapHandler.fresh k)) : (soloResults k ntotal one).length = k := by
  obtain ⟨r, -, hres, -⟩ := hone.soloResults (VisitedTable.clean_new ntotal ntotal)
  rw [← hres, firstEntries, List.length_map, List.length_range]

theorem reverted_eq_iff {l : List (F32 × ℤ)} (hl : l ≠ []) :
    index.reverted l = l ↔ isSimilarityMetric index.metricType = false := by
  obtain ⟨x, l', rfl⟩ := List.exists_cons_of_ne_nil hl
  unfold reverted
  cases isSimilarityMetric index.metricType with
  | false => simp
  | true =>
      simp only [if_true, List.map_cons, List.cons.injEq, reduceCtorEq, iff_false, not_and]
      exact fun h ↦ absurd (congrArg Prod.fst h) (F32.neg_ne_self x.1)

/-- The results of both calls for one query, and of the calls for many. -/
theorem WellFormed.single_rows (h : index.WellFormed) (hst : index.storage = some storage)
    (rt : Runtime) {n i : ℕ} {x : ℕ → F32} (hi : i < n) (hk : 1 ≤ k) (tab : Tables)
    (filterMasks : ℕ → UInt8) {vt : VisitedTable} (hvt : vt.Clean index.ntotal)
    (stats : HNSWStats)
    (hq : index.hnsw.searchBoundedQueue = false → ∀ i < n, ∀ v < index.ntotal,
      (storageDistanceComputer storage (index.query x i) v).Comparable) :
    ∃ many navixMany one navixOne vt₁ vt₂,
      index.search rt n x k tab none = .ok many ∧
      index.navixSearch rt n x k tab filterMasks none = .ok navixMany ∧
      index.singleSearch (index.query x i) k tab vt stats = .ok (one, vt₁) ∧
      index.navixSingleSearch (index.query x i) k tab (index.filterMask filterMasks i) vt stats =
        .ok (navixOne, vt₂) ∧
      many.out.results k i = index.reverted (one.out.results k 0) ∧
      navixMany.out.results k i = index.reverted (navixOne.out.results k 0) ∧
      one.out.results k 0 ≠ [] ∧ navixOne.out.results k 0 ≠ [] := by
  obtain ⟨many, hmany, hrow⟩ := h.search_rows hst rt (n := n) hk tab none hq
  obtain ⟨navixMany, hnavixMany, hnavixRow⟩ :=
    h.navixSearch_rows hst rt n x hk tab filterMasks none
  obtain ⟨one, vt₁, hone, hres⟩ := h.singleSearch_row hst (index.query x i) hk tab hvt stats
    fun hmode ↦ hq hmode i hi
  obtain ⟨navixOne, vt₂, hnavixOne, hnavixRes⟩ := h.navixSingleSearch_row hst (index.query x i) hk tab
    (index.filterMask filterMasks i) hvt stats
  refine ⟨many, navixMany, one, navixOne, vt₁, vt₂, hmany, hnavixMany, hone, hnavixOne, ?_, ?_, ?_,
    ?_⟩
  · rw [hrow i hi, hres]
  · rw [hnavixRow i hi, hnavixRes]
  · rw [hres]
    refine List.ne_nil_of_length_pos ?_
    rw [length_soloResults (h.steady_searchOne hk (index.query x i) none fun hmode ↦ hq hmode i hi)]
    exact hk
  · rw [hnavixRes]
    refine List.ne_nil_of_length_pos ?_
    rw [length_soloResults (h.steady_navixOne hk (index.query x i) (index.filterMask filterMasks i))]
    exact hk

/-- The calls for one query agree with those for many, labels and distances, unless the metric is a
similarity. -/
theorem single_agrees_iff (h : index.WellFormed) (hst : index.storage = some storage)
    (rt : Runtime) {n i : ℕ} {x : ℕ → F32} (hi : i < n) (hk : 1 ≤ k) (tab : Tables)
    (filterMasks : ℕ → UInt8) {vt : VisitedTable} (hvt : vt.Clean index.ntotal)
    (stats : HNSWStats)
    (hq : index.hnsw.searchBoundedQueue = false → ∀ i < n, ∀ v < index.ntotal,
      (storageDistanceComputer storage (index.query x i) v).Comparable) :
    ∃ many navixMany one navixOne vt₁ vt₂,
      index.search rt n x k tab none = .ok many ∧
      index.navixSearch rt n x k tab filterMasks none = .ok navixMany ∧
      index.singleSearch (index.query x i) k tab vt stats = .ok (one, vt₁) ∧
      index.navixSingleSearch (index.query x i) k tab (index.filterMask filterMasks i) vt stats =
        .ok (navixOne, vt₂) ∧
      (many.out.results k i = one.out.results k 0 ∧
          navixMany.out.results k i = navixOne.out.results k 0 ↔
        isSimilarityMetric index.metricType = false) := by
  obtain ⟨many, navixMany, one, navixOne, vt₁, vt₂, hmany, hnavixMany, hone, hnavixOne, hrow,
    hnavixRow, hne, hnavixNe⟩ := h.single_rows hst rt (x := x) hi hk tab filterMasks hvt stats hq
  refine ⟨many, navixMany, one, navixOne, vt₁, vt₂, hmany, hnavixMany, hone, hnavixOne, ?_⟩
  rw [hrow, hnavixRow, reverted_eq_iff hne, reverted_eq_iff hnavixNe, and_self_iff]

/-- The index of the two linked vertices, with one of the metrics. -/
def pair (metricType : MetricType) : IndexHNSW where
  d := 1
  ntotal := 2
  metricType := metricType
  storage := some { metricType, distance := fun _ ↦ HNSW.pairDistance }
  hnsw := HNSW.pair

theorem wellFormed_pair (metricType : MetricType) : (pair metricType).WellFormed :=
  ⟨HNSW.wellFormed_pair, rfl⟩

theorem single_agrees_iff_pair :
    ∃ many navixMany one navixOne vt₁ vt₂,
      (pair .l2).search .sequential 1 (fun _ ↦ F32.max) 1 (fun _ ↦ (F32.max, -1)) none =
        .ok many ∧
      (pair .l2).navixSearch .sequential 1 (fun _ ↦ F32.max) 1 (fun _ ↦ (F32.max, -1))
        (fun _ ↦ 1) none = .ok navixMany ∧
      (pair .l2).singleSearch ((pair .l2).query (fun _ ↦ F32.max) 0) 1 (fun _ ↦ (F32.max, -1))
        (VisitedTable.new 2) {} = .ok (one, vt₁) ∧
      (pair .l2).navixSingleSearch ((pair .l2).query (fun _ ↦ F32.max) 0) 1
        (fun _ ↦ (F32.max, -1)) ((pair .l2).filterMask (fun _ ↦ 1) 0) (VisitedTable.new 2) {} =
        .ok (navixOne, vt₂) ∧
      (many.out.results 1 0 = one.out.results 1 0 ∧
          navixMany.out.results 1 0 = navixOne.out.results 1 0 ↔
        isSimilarityMetric (pair .l2).metricType = false) :=
  single_agrees_iff (wellFormed_pair .l2) rfl .sequential Nat.one_pos le_rfl _ _
    (VisitedTable.clean_new 2 2) {} fun hmode ↦ absurd hmode (by decide)

/-- With the inner product, the distances of a call for one query have the wrong sign. -/
theorem single_disagrees :
    ¬ ∀ (index : IndexHNSW) (storage : Storage) (rt : Runtime) (n i : ℕ) (x : ℕ → F32) (k : ℕ)
      (tab : Tables) (filterMasks : ℕ → UInt8) (vt : VisitedTable) (stats : HNSWStats),
      index.WellFormed → index.storage = some storage → i < n → 1 ≤ k → vt.Clean index.ntotal →
      (∀ i < n, ∀ v < index.ntotal,
        (storageDistanceComputer storage (index.query x i) v).Comparable) →
      ∃ many navixMany one navixOne vt₁ vt₂,
        index.search rt n x k tab none = .ok many ∧
        index.navixSearch rt n x k tab filterMasks none = .ok navixMany ∧
        index.singleSearch (index.query x i) k tab vt stats = .ok (one, vt₁) ∧
        index.navixSingleSearch (index.query x i) k tab (index.filterMask filterMasks i) vt stats =
          .ok (navixOne, vt₂) ∧
        many.out.results k i = one.out.results k 0 ∧
        navixMany.out.results k i = navixOne.out.results k 0 := by
  intro hall
  obtain ⟨many, -, one, -, vt₁, -, hmany, -, hone, -, hrow, -⟩ := hall (pair .innerProduct) _
    .sequential 1 0 (fun _ ↦ F32.max) 1 (fun _ ↦ (F32.max, -1)) (fun _ ↦ 1) (VisitedTable.new 2) {}
    (wellFormed_pair .innerProduct) rfl Nat.one_pos le_rfl (VisitedTable.clean_new 2 2)
    (fun i _ ↦ show ∀ v < 2, (HNSW.pairDistance v).neg.Comparable by decide)
  obtain ⟨many', -, one', -, vt₁', -, hmany', -, hone', -, hrow', -, hne, -⟩ :=
    (wellFormed_pair .innerProduct).single_rows rfl .sequential (n := 1) (i := 0)
      (x := fun _ ↦ F32.max) Nat.one_pos le_rfl (fun _ ↦ (F32.max, -1)) (fun _ ↦ 1)
      (VisitedTable.clean_new 2 2) {} fun hmode ↦ absurd hmode (by decide)
  rw [hmany] at hmany'
  rw [hone] at hone'
  obtain rfl := Except.ok.inj hmany'
  obtain ⟨rfl, rfl⟩ := Prod.mk.inj (Except.ok.inj hone')
  rw [hrow] at hrow'
  exact absurd ((reverted_eq_iff hne).mp hrow'.symm) (by decide)

/-! ## With and without parameters -/

/-- The index with another `hnsw.efSearch`. -/
def withEfSearch (index : IndexHNSW) (efSearch : ℕ) : IndexHNSW :=
  { index with hnsw := { index.hnsw with efSearch } }

/-- For every index whose graph has the `efSearch` given by `f`, every batch and every parameters
with the one given by `e`, `navix_search` gives the same results as without parameters on the index
whose graph has the `efSearch` of the parameters. -/
def HonoursEfSearch (k e f : ℕ) : Prop :=
  ∀ (index : IndexHNSW) (storage : Storage) (rt rt' : Runtime) (n : ℕ) (x : ℕ → F32)
    (tab tab' : Tables) (filterMasks : ℕ → UInt8) (params : SearchParameters)
    (p : SearchParametersHNSW), index.WellFormed → index.storage = some storage →
    index.hnsw.efSearch = f → params.hnsw = some p → p.efSearch = e →
    ∃ b b', index.navixSearch rt n x k tab filterMasks (some params) = .ok b ∧
      (index.withEfSearch e).navixSearch rt' n x k tab' filterMasks none = .ok b' ∧
      ∀ i < n, b.out.results k i = b'.out.results k i

/-- The index of the chain. -/
def chain (m efSearch : ℕ) : IndexHNSW where
  d := 1
  ntotal := 12 + m
  metricType := .l2
  storage := some { metricType := .l2, distance := fun _ ↦ HNSW.chainDistance m }
  hnsw := HNSW.chain m efSearch

theorem wellFormed_chain (m efSearch : ℕ) : (chain m efSearch).WellFormed :=
  ⟨HNSW.wellFormed_chain m efSearch, HNSW.ntotal_chain.symm⟩

theorem mem_navixSearch_chain_iff (m efSearch : ℕ) (hk : 1 ≤ k) (rt : Runtime) (tab : Tables)
    (params : Option SearchParameters) :
    ∃ b, (chain m efSearch).navixSearch rt 1 (fun _ ↦ F32.max) k tab (fun _ ↦ 1) params = .ok b ∧
      (((11 + m : ℕ) : ℤ) ∈ (b.out.results k 0).map Prod.snd ↔ m < efSearch) := by
  obtain ⟨b, hb, hrows⟩ := (wellFormed_chain m efSearch).navixSearch_rows rfl rt 1
    (fun _ ↦ F32.max) hk tab (fun _ ↦ 1) params
  obtain ⟨s, hs, hk', hmem⟩ := HeapHandler.mem_results_chain_iff m efSearch hk
    (fun _ ↦ (F32.max, -1)) (VisitedTable.clean_new (12 + m) (12 + m))
  have hrow : b.out.results k 0 = s.2.res.results := by
    have hone : (chain m efSearch).navixOne
        { metricType := .l2, distance := fun _ ↦ HNSW.chainDistance m }
        ((chain m efSearch).query (fun _ ↦ F32.max) 0)
        ((chain m efSearch).filterMask (fun _ ↦ 1) 0) (HeapHandler.fresh k)
        (VisitedTable.new (12 + m)) = some
          { stats := s.2.stats, res := s.2.res, vt := s.2.vt.advance, overflow := s.1.overflow } :=
      congrArg (Option.map fun r : NodeArray × NavixState HeapHandler ↦
        ({ stats := r.2.stats, res := r.2.res, vt := r.2.vt.advance, overflow := r.1.overflow } :
          SearchOne HeapHandler)) hs
    rw [hrows 0 Nat.one_pos, soloResults, HeapHandler.results, hk']
    exact congrArg (fun o : Option (SearchOne HeapHandler) ↦
      (o.map fun r ↦ firstEntries k r.res.end).getD []) hone
  exact ⟨b, hb, by rw [hrow]; exact hmem⟩

/-- The parameters are honoured exactly when they say what the graph says. -/
theorem honoursEfSearch_iff {e f : ℕ} (hk : 1 ≤ k) : HonoursEfSearch k e f ↔ e = f := by
  constructor
  · intro hall
    by_contra hne
    -- the chain whose end only the wider of the two beams gets to
    obtain ⟨b, b', hb, hb', hrow⟩ := hall (chain (min e f) f) _ .sequential .sequential 1
      (fun _ ↦ F32.max) (fun _ ↦ (F32.max, -1)) (fun _ ↦ (F32.max, -1)) (fun _ ↦ 1)
      { sel := none, hnsw := some { efSearch := e, checkRelativeDistance := true,
                                    boundedQueue := true } } _
      (wellFormed_chain _ f) rfl rfl rfl rfl
    obtain ⟨c, hc, hmem⟩ := mem_navixSearch_chain_iff (min e f) f hk .sequential _ _
    obtain ⟨c', hc', hmem'⟩ := mem_navixSearch_chain_iff (min e f) e hk .sequential _ none
    obtain rfl := Except.ok.inj (hb.symm.trans hc)
    obtain rfl := Except.ok.inj (hb'.symm.trans hc')
    rw [hrow 0 Nat.one_pos, hmem'] at hmem
    omega
  · rintro rfl index storage rt rt' n x tab tab' filterMasks params p h hst rfl - -
    obtain ⟨b, hb, hrows⟩ := h.navixSearch_rows hst rt n x hk tab filterMasks (some params)
    obtain ⟨b', hb', hrows'⟩ := h.navixSearch_rows hst rt' n x hk tab' filterMasks none
    exact ⟨b, b', hb, hb', fun i hi ↦ (hrows i hi).trans (hrows' i hi).symm⟩

theorem honoursEfSearch_iff_one : HonoursEfSearch 1 16 16 ↔ 16 = 16 :=
  honoursEfSearch_iff le_rfl

/-- A larger `efSearch` in the parameters does not widen the beam. -/
theorem navixSearch_ignores_params : ¬ ∀ k e f : ℕ, 1 ≤ k → HonoursEfSearch k e f := by
  intro hall
  obtain ⟨b, b', hb, hb', hrow⟩ := hall 1 32 16 le_rfl (chain 16 16) _ .sequential .sequential 1
    (fun _ ↦ F32.max) (fun _ ↦ (F32.max, -1)) (fun _ ↦ (F32.max, -1)) (fun _ ↦ 1)
    { sel := none, hnsw := some { efSearch := 32, checkRelativeDistance := true,
                                  boundedQueue := true } } _
    (wellFormed_chain 16 16) rfl rfl rfl rfl
  obtain ⟨c, hc, hmem⟩ := mem_navixSearch_chain_iff 16 16 le_rfl .sequential _ _
  obtain ⟨c', hc', hmem'⟩ := mem_navixSearch_chain_iff 16 32 le_rfl .sequential _ none
  obtain rfl := Except.ok.inj (hb.symm.trans hc)
  obtain rfl := Except.ok.inj (hb'.symm.trans hc')
  rw [hrow 0 Nat.one_pos, hmem'] at hmem
  omega

end IndexHNSW

end FaissNavix

/-!
# Calls that share a visited table

The caller of `single_search` and `navix_single_search` owns the visited table and hands the same
one over again and again.  Each call clears the flags that it has set, `single_search` within the
search of the graph and `navix_single_search` after it, and the generation number wraps every 249
calls.  However many calls there are, each gives what it would give with a table of its own.
-/

namespace FaissNavix

namespace IndexHNSW

/-- A call for one query. -/
inductive SingleCall where
  | search (query : ℕ → F32) (k : ℕ) (tab : Tables) (stats : HNSWStats)
  | navix (query : ℕ → F32) (k : ℕ) (tab : Tables) (filterMask : ℕ → UInt8) (stats : HNSWStats)

namespace SingleCall

def query : SingleCall → ℕ → F32
  | .search query .. | .navix query .. => query

def k : SingleCall → ℕ
  | .search _ k .. | .navix _ k .. => k

/-- The call with the visited table that it is handed. -/
def run (index : IndexHNSW) (vt : VisitedTable) :
    SingleCall → Except Failure (Searched Tables × VisitedTable)
  | .search query k tab stats => index.singleSearch query k tab vt stats
  | .navix query k tab filterMask stats => index.navixSingleSearch query k tab filterMask vt stats

/-- The labels and distances that the call leaves in its tables, and the visited table. -/
def resultsFrom (index : IndexHNSW) (c : SingleCall) (vt : VisitedTable) :
    Except Failure (List (F32 × ℤ) × VisitedTable) :=
  (c.run index vt).map fun r ↦ (r.1.out.results c.k 0, r.2)

end SingleCall

/-- The results of calls that hand the visited table on. -/
def runCalls (index : IndexHNSW) :
    List SingleCall → VisitedTable → Except Failure (List (List (F32 × ℤ)) × VisitedTable)
  | [], vt => .ok ([], vt)
  | c :: cs, vt => do
    let (r, vt) ← c.resultsFrom index vt
    let (rs, vt) ← index.runCalls cs vt
    return (r :: rs, vt)

/-- A call as the claims of this file admit it: it asks for a result, and where the queues are
unbounded the distances compare. -/
structure Admits (index : IndexHNSW) (storage : Storage) (c : SingleCall) : Prop where
  pos : 1 ≤ c.k
  comparable : index.hnsw.searchBoundedQueue = false →
    ∀ v < index.ntotal, (storageDistanceComputer storage c.query v).Comparable

variable {index : IndexHNSW} {storage : Storage}

/-- The results of a call are the same for all tables without flags. -/
theorem WellFormed.resultsFrom_eq (h : index.WellFormed) (hst : index.storage = some storage)
    {c : SingleCall} (hc : index.Admits storage c) :
    ∃ r, ∀ vt : VisitedTable, vt.Clean index.ntotal →
      ∃ vt', c.resultsFrom index vt = .ok (r, vt') ∧
        (vt.Ready index.ntotal → vt'.Ready index.ntotal) := by
  cases c with
  | search query k tab stats =>
      have hk : 1 ≤ k := hc.pos
      refine ⟨soloResults k index.ntotal (index.searchOne storage query none), fun vt hvt ↦ ?_⟩
      obtain ⟨s, vt', hs, hres, hready⟩ :=
        h.singleSearch_ready hst query hk tab hvt stats hc.comparable
      refine ⟨vt', ?_, hready⟩
      rw [SingleCall.resultsFrom, SingleCall.run, hs, ← hres]
      rfl
  | navix query k tab filterMask stats =>
      have hk : 1 ≤ k := hc.pos
      refine ⟨soloResults k index.ntotal (index.navixOne storage query filterMask),
        fun vt hvt ↦ ?_⟩
      obtain ⟨s, vt', hs, hres, hready⟩ :=
        h.navixSingleSearch_ready hst query hk tab filterMask hvt stats
      refine ⟨vt', ?_, hready⟩
      rw [SingleCall.resultsFrom, SingleCall.run, hs, ← hres]
      rfl

/-- Calls from a table that is ready: each gives what it gives with any table without flags. -/
theorem WellFormed.runCalls_ready (h : index.WellFormed) (hst : index.storage = some storage)
    {own : VisitedTable} (hown : own.Clean index.ntotal) (calls : List SingleCall)
    (hcalls : ∀ c ∈ calls, index.Admits storage c) {vt : VisitedTable}
    (hvt : vt.Ready index.ntotal) :
    ∃ rs vt', index.runCalls calls vt = .ok (rs, vt') ∧ vt'.Ready index.ntotal ∧
      List.Forall₂ (fun c r ↦ ∃ vt₁, c.resultsFrom index own = .ok (r, vt₁)) calls rs := by
  induction calls generalizing vt with
  | nil => exact ⟨[], vt, rfl, hvt, List.Forall₂.nil⟩
  | cons c cs ih =>
      obtain ⟨r, hr⟩ := h.resultsFrom_eq hst (hcalls c List.mem_cons_self)
      obtain ⟨vt₁, hrun, hready⟩ := hr vt hvt.clean
      obtain ⟨vt₂, hown₁, -⟩ := hr own hown
      obtain ⟨rs, vt', hrest, hvt', hall⟩ :=
        ih (fun c hc ↦ hcalls c (List.mem_cons_of_mem _ hc)) (hready hvt)
      refine ⟨r :: rs, vt', ?_, hvt', List.Forall₂.cons ⟨vt₂, hown₁⟩ hall⟩
      rw [runCalls, hrun]
      exact congrArg (fun x : Except Failure (List (List (F32 × ℤ)) × VisitedTable) ↦
        x.map fun p ↦ (r :: p.1, p.2)) hrest

/-- Any number of calls that share a visited table, which is fresh at the start, give the results
that they give with a fresh table each. -/
theorem runCalls_eq (h : index.WellFormed) (hst : index.storage = some storage)
    (calls : List SingleCall) (hcalls : ∀ c ∈ calls, index.Admits storage c) {size own : ℕ}
    (hsize : index.ntotal ≤ size) :
    ∃ rs vt', index.runCalls calls (VisitedTable.new size) = .ok (rs, vt') ∧
      List.Forall₂ (fun c r ↦ ∃ vt₁, c.resultsFrom index (VisitedTable.new own) = .ok (r, vt₁))
        calls rs := by
  have hready : (VisitedTable.new size).Ready index.ntotal :=
    ⟨VisitedTable.valid_new size, hsize, VisitedTable.clean_new size _⟩
  obtain ⟨rs, vt', hrun, -, hall⟩ :=
    h.runCalls_ready hst (VisitedTable.clean_new own _) calls hcalls hready
  exact ⟨rs, vt', hrun, hall⟩

def twoCalls : List SingleCall :=
  [.search (fun _ ↦ F32.max) 1 (fun _ ↦ (F32.max, -1)) {},
    .navix (fun _ ↦ F32.max) 2 (fun _ ↦ (F32.max, -1)) (fun _ ↦ 1) {}]

theorem runCalls_eq_pair :
    ∃ rs vt', (pair .l2).runCalls twoCalls (VisitedTable.new 2) = .ok (rs, vt') ∧
      List.Forall₂ (fun (c : SingleCall) r ↦ ∃ vt₁,
        c.resultsFrom (pair .l2) (VisitedTable.new 2) = .ok (r, vt₁)) twoCalls rs := by
  refine runCalls_eq (wellFormed_pair .l2) rfl twoCalls
    (fun c hc ↦ ⟨?_, fun h ↦ absurd h (by decide)⟩) le_rfl
  rcases List.mem_cons.mp hc with rfl | hc
  · exact le_rfl
  · rw [List.mem_singleton.mp hc]
    exact Nat.le_succ 1

end IndexHNSW

end FaissNavix
