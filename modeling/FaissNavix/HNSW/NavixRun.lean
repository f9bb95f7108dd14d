import FaissNavix.HNSW.NavixTurn
import FaissNavix.HNSW.Results

/-!
# A run of the Navix search

`navix_hybrid_search` starts with the vertex that the greedy descent ends at and with the first
passing ids, the seeds, and goes on turn by turn.  It ends whatever the candidate heap has to drop
(`navixHybridSearch_total`).  It goes on from every vertex that few enough others are as near as
(`navixHybridSearch_beam`), so that with room for all vertices it meets every passing vertex that a
path of passing vertices leads to (`navixHybridSearch_wide`).
-/

namespace FaissNavix

open Lib
open MinimaxHeap (Tracks tracks_new Selects selects_new pushAll)
open ResultHandler (addResult)

variable {H : Type} [ResultHandler H] {g : HNSW} {qdis : ℕ → F32} {filterIdMap : ℕ → UInt8}

/-! ## The seeds -/

namespace HNSW

def seeds (g : HNSW) (filterIdMap : ℕ → UInt8) : List ℕ :=
  ((List.range g.ntotal).filter (passes filterIdMap)).take numSeeds

theorem seeds_nodup (g : HNSW) (filterIdMap : ℕ → UInt8) : (g.seeds filterIdMap).Nodup :=
  (List.nodup_range.filter _).sublist (List.take_sublist _ _)

theorem mem_seeds_spec {v : ℕ} (hv : v ∈ g.seeds filterIdMap) :
    v < g.ntotal ∧ passes filterIdMap v = true := by
  have h := List.mem_filter.mp ((List.take_sublist _ _).subset hv)
  exact ⟨List.mem_range.mp h.1, h.2⟩

end HNSW

def VisitedTable.setAll (vt : VisitedTable) (l : List ℕ) : VisitedTable := l.foldl VisitedTable.set vt

theorem VisitedTable.get_setAll (vt : VisitedTable) (l : List ℕ) (v : ℕ) :
    (vt.setAll l).get v = true ↔ v ∈ l ∨ vt.get v = true := by
  induction l generalizing vt with
  | nil => simp [setAll]
  | cons x l ih =>
      rw [setAll, List.foldl_cons]
      refine (ih (vt.set x)).trans ?_
      rw [VisitedTable.get_set, List.mem_cons]
      tauto

/-- The loop over the ids adds the first passing ones. -/
theorem addFilteredNodes_eq {num : ℕ} (ids : List ℕ) {count : ℕ} (hcount : count < num)
    (c : Collected H) (vt : VisitedTable) :
    HNSW.addFilteredNodes qdis filterIdMap num ids count (c, vt) =
      ({ off := c.off.offerEach qdis ((ids.filter (passes filterIdMap)).take (num - count))
         candidates :=
           pushAll qdis c.candidates ((ids.filter (passes filterIdMap)).take (num - count))
         ndis := c.ndis },
        vt.setAll ((ids.filter (passes filterIdMap)).take (num - count))) := by
  induction ids generalizing count c vt with
  | nil => simp [HNSW.addFilteredNodes, Offering.offerEach, VisitedTable.setAll]
  | cons x ids ih =>
      rw [HNSW.addFilteredNodes, List.filter_cons]
      cases hp : passes filterIdMap x with
      | false =>
          simp only [Bool.false_eq_true, if_false]
          rw [if_neg (by omega), ih hcount]
      | true =>
          obtain ⟨m, hm⟩ : ∃ m, num - count = m + 1 := ⟨num - count - 1, by omega⟩
          simp only [if_true]
          rw [hm, List.take_succ_cons]
          split
          · obtain rfl : m = 0 := by omega
            simp only [Collected.addMasked, hp, if_true, Collected.addToHeap, isSelected]
            rfl
          · rw [ih (by omega), show num - (count + 1) = m by omega]
            simp only [Collected.addMasked, hp, if_true, Collected.addToHeap, isSelected]
            rfl

/-! ## The start -/

def navixFirst (qdis : ℕ → F32) (filterIdMap : ℕ → UInt8) (res : H) (e : ℕ) : H :=
  if passes filterIdMap e then (addResult res (qdis e) e).1 else res

theorem navixStart_eq [LawfulResultHandler H] (g : HNSW) (qdis : ℕ → F32)
    (filterIdMap : ℕ → UInt8) (e : ℕ) (stats : HNSWStats) (res : H) (vt : VisitedTable) :
    g.navixStart qdis filterIdMap ⟨e, qdis e⟩ stats res vt =
      { res := offerAll qdis (navixFirst qdis filterIdMap res e) (g.seeds filterIdMap)
        candidates := pushAll qdis (MinimaxHeap.new (max g.efSearch (HNSW.extractK res)))
          (e :: g.seeds filterIdMap)
        vt := vt.setAll ([e].filter (passes filterIdMap) ++ g.seeds filterIdMap)
        stats } := by
  have hseeds : ∀ (res' : H) (vt' : VisitedTable) (c : MinimaxHeap),
      g.navixAddFilteredNodesToCandidates qdis filterIdMap HNSW.numSeeds
          { res := res', candidates := c, vt := vt', stats } =
        { res := offerAll qdis res' (g.seeds filterIdMap)
          candidates := pushAll qdis c (g.seeds filterIdMap)
          vt := vt'.setAll (g.seeds filterIdMap)
          stats } := by
    intro res' vt' c
    have hsync := Offering.synced_start res' 0
    rw [HNSW.navixAddFilteredNodesToCandidates, addFilteredNodes_eq _ (by decide)]
    simp only [NavixState.collected, NavixState.collect, (hsync.offerEach _).2]
    rfl
  rw [HNSW.navixStart]
  cases hp : passes filterIdMap e with
  | false =>
      simp only [Bool.false_eq_true, if_false, hseeds, navixFirst, hp, List.filter_cons,
        List.filter_nil]
      rfl
  | true =>
      simp only [if_true, hseeds, navixFirst, hp, List.filter_cons, List.filter_nil]
      rfl

/-! ## The loop -/

/-- What has happened since the start `s₁` of the loop: the vertices of `met` were marked, offered
and pushed. -/
structure NavixMet (g : HNSW) (qdis : ℕ → F32) (filterIdMap : ℕ → UInt8) (s₁ : NavixState H)
    (s : NodeArray × NavixState H) (met : List ℕ) : Prop where
  visits : Visits (passes filterIdMap) s₁.vt s.2.vt met
  lt : ∀ v ∈ met, v < g.ntotal
  res_eq : s.2.res = offerAll qdis s₁.res met
  ids_eq : s.1.ids = []
  fits : g.nbNeighbors 0 + g.nbNeighbors 0 * g.nbNeighbors 0 ≤ NodeArray.capacity →
    s.1.overflow = false

variable {s₁ : NavixState H} {s s' : NodeArray × NavixState H} {met new : List ℕ}

theorem NavixMet.start (s₁ : NavixState H) :
    NavixMet g qdis filterIdMap s₁ (NodeArray.new, s₁) [] where
  visits := Visits.refl _ _
  lt := fun _ hv ↦ absurd hv List.not_mem_nil
  res_eq := rfl
  ids_eq := rfl
  fits := fun _ ↦ rfl

theorem NavixMet.step (h : NavixMet g qdis filterIdMap s₁ s met) {v : ℕ} {c : MinimaxHeap}
    (hstep : NavixStep g qdis filterIdMap v c s s' new) :
    NavixMet g qdis filterIdMap s₁ s' (met ++ new) where
  visits := h.visits.append hstep.visits
  lt := fun u hu ↦ (List.mem_append.mp hu).elim (h.lt u) (hstep.lt u)
  res_eq := by rw [hstep.res_eq, h.res_eq, offerAll_append]
  ids_eq := hstep.ids_eq
  fits := fun hcap ↦ hstep.fits (h.fits hcap) hcap

theorem NavixMet.withCandidates (h : NavixMet g qdis filterIdMap s₁ s met) (c : MinimaxHeap) :
    NavixMet g qdis filterIdMap s₁ (s.1, { s.2 with candidates := c }) met :=
  ⟨h.visits, h.lt, h.res_eq, h.ids_eq, h.fits⟩

def navixRemaining (g : HNSW) (filterIdMap : ℕ → UInt8) (s : NodeArray × NavixState H) : ℕ :=
  s.2.candidates.size + unvisited (passes filterIdMap) g.ntotal s.2.vt

theorem NavixStep.remaining_lt {v : ℕ} {c : MinimaxHeap}
    {waiting taken waiting' taken' : Multiset ℕ}
    (hstep : NavixStep g qdis filterIdMap v c s s' new)
    (ht : Tracks qdis s.2.candidates (v ::ₘ waiting) taken)
    (ht' : Tracks qdis s'.2.candidates waiting' taken') (hle : waiting' ≤ ↑new + waiting) :
    navixRemaining g filterIdMap s' < navixRemaining g filterIdMap s := by
  have hun := hstep.visits.unvisited_add_length hstep.lt
  have hcard := Multiset.card_le_card hle
  rw [Multiset.card_add, Multiset.coe_card] at hcard
  rw [navixRemaining, navixRemaining, ht'.size_eq, ht.size_eq, Multiset.card_cons]
  omega

/-- What every turn keeps: the candidates are vertices. -/
def NavixRunning (g : HNSW) (qdis : ℕ → F32) (filterIdMap : ℕ → UInt8) (s₁ : NavixState H)
    (s : NodeArray × NavixState H) : Prop :=
  ∃ met waiting taken, NavixMet g qdis filterIdMap s₁ s met ∧
    Tracks qdis s.2.candidates waiting taken ∧ ∀ v ∈ waiting, v < g.ntotal

/-- A turn either ends the loop or leaves less to do.  A write past the end of the buffer is not
forgotten. -/
theorem NavixRunning.turn [LawfulResultHandler H] (hg : g.WellFormed) (efSearch : ℕ)
    (hs : NavixRunning g qdis filterIdMap s₁ s) :
    (∃ s', g.navixTurn qdis filterIdMap efSearch s = .done s' ∧
        (∃ met, NavixMet g qdis filterIdMap s₁ s' met) ∧
        (s.1.overflow = true → s'.1.overflow = true)) ∨
      ∃ s', g.navixTurn qdis filterIdMap efSearch s = .next s' ∧
        NavixRunning g qdis filterIdMap s₁ s' ∧ (s.1.overflow = true → s'.1.overflow = true) ∧
        navixRemaining g filterIdMap s' < navixRemaining g filterIdMap s := by
  obtain ⟨met, waiting, taken, hmet, ht, hlt⟩ := hs
  by_cases hw : waiting = 0
  · refine Or.inl ⟨s, navixTurn_done ?_, ⟨met, hmet⟩, id⟩
    rw [ht.size_eq, hw, Multiset.card_zero]
  · have hsize : s.2.candidates.size ≠ 0 := by
      rw [ht.size_eq]; exact mt Multiset.card_eq_zero.mp hw
    obtain ⟨v, waiting', c, hpop, rfl, ht', -⟩ := ht.popMin hw
    have hv : v < g.ntotal := hlt v (Multiset.mem_cons_self _ _)
    rcases navixTurn_spec hg efSearch hsize hpop hv hmet.ids_eq with ⟨-, hturn⟩ | ⟨-, s', new, hturn, hstep⟩
    · exact Or.inl ⟨_, hturn, ⟨met, hmet.withCandidates c⟩, id⟩
    · obtain ⟨waiting'', taken'', ht'', hw'', -⟩ := ht'.pushAll new
      rw [← hstep.candidates_eq] at ht''
      refine Or.inr ⟨s', hturn, ⟨_, _, _, hmet.step hstep, ht'', fun u hu ↦ ?_⟩, hstep.keeps,
        hstep.remaining_lt ht ht'' hw''⟩
      rcases Multiset.mem_add.mp (Multiset.mem_of_le hw'' hu) with hu | hu
      · exact hstep.lt u (Multiset.mem_coe.mp hu)
      · exact hlt u (Multiset.mem_cons_of_mem hu)

/-- The state that the loop starts with. -/
def navixInit (g : HNSW) (qdis : ℕ → F32) (filterIdMap : ℕ → UInt8) (res : H) (vt : VisitedTable) :
    NavixState H :=
  g.navixStart qdis filterIdMap (g.greedyDescent qdis g.entryPoint.toNat).1
    (g.greedyDescent qdis g.entryPoint.toNat).2 res vt

theorem navixHybridSearch_eq (hentry : g.entryPoint ≠ -1) (res : H) (vt : VisitedTable) :
    g.navixHybridSearch qdis filterIdMap res vt =
      iterate (g.navixTurn qdis filterIdMap g.efSearch)
        ((navixInit g qdis filterIdMap res vt).candidates.size + g.ntotal + 1)
        (NodeArray.new, navixInit g qdis filterIdMap res vt) := by
  rw [HNSW.navixHybridSearch, if_neg hentry]
  rfl

section
variable [LawfulResultHandler H] (qdis : ℕ → F32) (filterIdMap : ℕ → UInt8) (hg : g.WellFormed)
  (hentry : g.entryPoint ≠ -1) (res : H) (vt : VisitedTable)
include hg hentry

theorem navixInit_eq :
    navixInit g qdis filterIdMap res vt =
      { res := offerAll qdis (navixFirst qdis filterIdMap res (g.greedyEntry qdis))
          (g.seeds filterIdMap)
        candidates := pushAll qdis (MinimaxHeap.new (max g.efSearch (HNSW.extractK res)))
          (g.greedyEntry qdis :: g.seeds filterIdMap)
        vt := vt.setAll ([g.greedyEntry qdis].filter (passes filterIdMap) ++ g.seeds filterIdMap)
        stats := (g.greedyDescent qdis g.entryPoint.toNat).2 } := by
  have hd := (HNSW.greedyEntry_spec qdis hg hentry).2
  have hnear : (g.greedyDescent qdis g.entryPoint.toNat).1 =
      ⟨g.greedyEntry qdis, qdis (g.greedyEntry qdis)⟩ := by
    rw [← hd]
    rfl
  rw [navixInit, hnear]
  exact navixStart_eq g qdis filterIdMap _ _ res vt

theorem navixInit_spec :
    (navixInit g qdis filterIdMap res vt).res =
        offerAll qdis (navixFirst qdis filterIdMap res (g.greedyEntry qdis)) (g.seeds filterIdMap) ∧
      (navixInit g qdis filterIdMap res vt).candidates =
        pushAll qdis (MinimaxHeap.new (max g.efSearch (HNSW.extractK res)))
          (g.greedyEntry qdis :: g.seeds filterIdMap) ∧
      (navixInit g qdis filterIdMap res vt).vt =
        vt.setAll ([g.greedyEntry qdis].filter (passes filterIdMap) ++ g.seeds filterIdMap) := by
  rw [navixInit_eq qdis filterIdMap hg hentry]
  exact ⟨rfl, rfl, rfl⟩

end

theorem navixStart_lt (hg : g.WellFormed) (hentry : g.entryPoint ≠ -1) {v : ℕ}
    (hv : v ∈ g.greedyEntry qdis :: g.seeds filterIdMap) : v < g.ntotal := by
  rcases List.mem_cons.mp hv with rfl | hv
  · exact (HNSW.greedyEntry_spec qdis hg hentry).1
  · exact (HNSW.mem_seeds_spec hv).1

theorem navixRunning_navixInit [LawfulResultHandler H] (qdis : ℕ → F32) (filterIdMap : ℕ → UInt8)
    (hg : g.WellFormed) (hentry : g.entryPoint ≠ -1) (res : H)
    (hef : 1 ≤ max g.efSearch (HNSW.extractK res)) (vt : VisitedTable) :
    NavixRunning g qdis filterIdMap (navixInit g qdis filterIdMap res vt)
      (NodeArray.new, navixInit g qdis filterIdMap res vt) := by
  obtain ⟨-, hcand, -⟩ := navixInit_spec qdis filterIdMap hg hentry res vt
  obtain ⟨waiting, taken, ht, hw, -⟩ :=
    (tracks_new qdis hef).pushAll (g.greedyEntry qdis :: g.seeds filterIdMap)
  rw [← hcand] at ht
  rw [add_zero] at hw
  exact ⟨[], waiting, taken, NavixMet.start _, ht, fun v hv ↦
    navixStart_lt hg hentry (Multiset.mem_coe.mp (Multiset.mem_of_le hw hv))⟩

/-- The rest of a run ends, whatever the candidate heap has to drop. -/
theorem NavixRunning.run [LawfulResultHandler H] (hg : g.WellFormed) (efSearch : ℕ) {n : ℕ}
    (hs : NavixRunning g qdis filterIdMap s₁ s) (hn : navixRemaining g filterIdMap s < n) :
    ∃ s', iterate (g.navixTurn qdis filterIdMap efSearch) n s = some s' ∧
      (∃ met, NavixMet g qdis filterIdMap s₁ s' met) ∧
      (s.1.overflow = true → s'.1.overflow = true) := by
  have hturn : ∀ t, NavixRunning g qdis filterIdMap s₁ t ∧
        (s.1.overflow = true → t.1.overflow = true) →
      (∃ t', g.navixTurn qdis filterIdMap efSearch t = .done t' ∧
          (∃ met, NavixMet g qdis filterIdMap s₁ t' met) ∧
          (s.1.overflow = true → t'.1.overflow = true)) ∨
        ∃ t', g.navixTurn qdis filterIdMap efSearch t = .next t' ∧
          (NavixRunning g qdis filterIdMap s₁ t' ∧
            (s.1.overflow = true → t'.1.overflow = true)) ∧
          navixRemaining g filterIdMap t' < navixRemaining g filterIdMap t := by
    rintro t ⟨ht, hover⟩
    rcases ht.turn hg efSearch with ⟨t', hturn, hmet, hkeep⟩ | ⟨t', hturn, ht', hkeep, hlt⟩
    · exact Or.inl ⟨t', hturn, hmet, fun h ↦ hkeep (hover h)⟩
    · exact Or.inr ⟨t', hturn, ⟨ht', fun h ↦ hkeep (hover h)⟩, hlt⟩
  exact iterate_total (navixRemaining g filterIdMap) hturn n s ⟨hs, id⟩ hn

omit [ResultHandler H] in
theorem navixRemaining_navixInit (g : HNSW) (filterIdMap : ℕ → UInt8) (s₁ : NavixState H) :
    navixRemaining g filterIdMap (NodeArray.new, s₁) < s₁.candidates.size + g.ntotal + 1 :=
  Nat.lt_succ_of_le
    (Nat.add_le_add_left (unvisited_le (passes filterIdMap) g.ntotal s₁.vt) _)

theorem navixHybridSearch_total [LawfulResultHandler H] (qdis : ℕ → F32)
    (filterIdMap : ℕ → UInt8) (hg : g.WellFormed) (hentry : g.entryPoint ≠ -1) (res : H)
    (hef : 1 ≤ max g.efSearch (HNSW.extractK res)) (vt : VisitedTable) :
    ∃ s met, g.navixHybridSearch qdis filterIdMap res vt = some s ∧
      NavixMet g qdis filterIdMap (navixInit g qdis filterIdMap res vt) s met := by
  obtain ⟨s, hs, ⟨met, hmet⟩, -⟩ :=
    (navixRunning_navixInit qdis filterIdMap hg hentry res hef vt).run hg g.efSearch
      (navixRemaining_navixInit g filterIdMap _)
  exact ⟨s, met, (navixHybridSearch_eq hentry res vt).trans hs, hmet⟩

/-- The seeds and the vertices met are distinct, and so is the vertex that the descent ends at from
those met later, if it passes. -/
theorem NavixMet.nodup [LawfulResultHandler H] {res : H} {vt : VisitedTable} (hg : g.WellFormed)
    (hentry : g.entryPoint ≠ -1)
    (hmet : NavixMet g qdis filterIdMap (navixInit g qdis filterIdMap res vt) s met) :
    (g.seeds filterIdMap ++ met).Nodup ∧
      (passes filterIdMap (g.greedyEntry qdis) = true → g.greedyEntry qdis ∉ met) := by
  have hfresh : ∀ v ∈ met, v ∉ [g.greedyEntry qdis].filter (passes filterIdMap) ++
      g.seeds filterIdMap := by
    intro v hv hmem
    have hget := (hmet.visits.fresh v hv).2
    rw [(navixInit_spec qdis filterIdMap hg hentry res vt).2.2] at hget
    exact absurd ((VisitedTable.get_setAll vt _ v).mpr (Or.inl hmem)) (by simp [hget])
  refine ⟨List.nodup_append.mpr ⟨g.seeds_nodup filterIdMap, hmet.visits.nodup, ?_⟩, fun hp hv ↦ ?_⟩
  · rintro v hv _ hv' rfl
    exact hfresh v hv' (List.mem_append_right _ hv)
  · exact hfresh _ hv (List.mem_append_left _ (List.mem_filter.mpr ⟨List.mem_singleton_self _, hp⟩))

/-! ## What the beam does not lose -/

def HNSW.PassingEdge (g : HNSW) (filterIdMap : ℕ → UInt8) (u v : ℕ) : Prop :=
  g.Edge u v ∧ passes filterIdMap v = true

/-- The vertices marked at the start are among those pushed at the start. -/
structure StartsAt (g : HNSW) (s₁ : NavixState H) (start : List ℕ) : Prop where
  lt : ∀ v ∈ start, v < g.ntotal
  seen : ∀ v < g.ntotal, s₁.vt.get v = true → v ∈ start

/-- What every turn keeps when the distances compare: the heap holds the nearest of the vertices
pushed, and the passing neighbours of those taken out of it have been pushed. -/
structure NavixBeam (g : HNSW) (qdis : ℕ → F32) (filterIdMap : ℕ → UInt8) (s₁ : NavixState H)
    (start : List ℕ) (s : NodeArray × NavixState H) (met : List ℕ) (waiting taken : Multiset ℕ) :
    Prop extends NavixMet g qdis filterIdMap s₁ s met where
  selects : Selects qdis s.2.candidates ↑(start ++ met) waiting taken
  closed : ∀ v ∈ taken, ∀ u, g.PassingEdge filterIdMap v u → u ∈ start ++ met

/-- How many of the vertices are nearer than `v`. -/
def nearer (qdis : ℕ → F32) (l : List ℕ) (v : ℕ) : ℕ :=
  l.countP fun u ↦ decide ((qdis u).key < (qdis v).key)

/-- A turn that takes `v` out: it ends the search if `efSearch` of the vertices pushed are nearer,
and expands `v` otherwise. -/
structure NavixTaken (g : HNSW) (qdis : ℕ → F32) (filterIdMap : ℕ → UInt8) (s₁ : NavixState H)
    (start : List ℕ) (efSearch : ℕ) (s : NodeArray × NavixState H) (met : List ℕ)
    (waiting : Multiset ℕ) (v : ℕ) : Prop where
  mem : v ∈ waiting
  nearest : ∀ u ∈ waiting, (qdis v).key ≤ (qdis u).key
  stops : efSearch ≤ nearer qdis (start ++ met) v →
    ∃ s', g.navixTurn qdis filterIdMap efSearch s = .done s' ∧
      NavixMet g qdis filterIdMap s₁ s' met
  expands : ¬ efSearch ≤ nearer qdis (start ++ met) v →
    ∃ s' new waiting' taken', g.navixTurn qdis filterIdMap efSearch s = .next s' ∧
      NavixBeam g qdis filterIdMap s₁ start s' (met ++ new) waiting' taken' ∧
      s'.2.candidates.n = s.2.candidates.n ∧
      ((∀ u, g.Edge v u → passes filterIdMap u = true) → ∀ u ∈ new, g.Edge v u) ∧
      navixRemaining g filterIdMap s' < navixRemaining g filterIdMap s

variable {start : List ℕ} {waiting taken : Multiset ℕ}

theorem NavixBeam.mem_of_mem (h : NavixBeam g qdis filterIdMap s₁ start s met waiting taken) {v : ℕ}
    (hv : v ∈ waiting + taken) : v ∈ start ++ met :=
  Multiset.mem_coe.mp (Multiset.mem_of_le h.selects.smallest.sub hv)

theorem NavixBeam.pushed_lt (h : NavixBeam g qdis filterIdMap s₁ start s met waiting taken)
    (hstart : StartsAt g s₁ start) {v : ℕ} (hv : v ∈ start ++ met) : v < g.ntotal :=
  (List.mem_append.mp hv).elim (hstart.lt v) (h.toNavixMet.lt v)

/-- A turn with a candidate left. -/
theorem NavixBeam.turn [LawfulResultHandler H] (hg : g.WellFormed)
    (hq : ∀ v < g.ntotal, (qdis v).Comparable) (hstart : StartsAt g s₁ start) {efSearch : ℕ}
    (h : NavixBeam g qdis filterIdMap s₁ start s met waiting taken)
    (hef : efSearch ≤ s.2.candidates.n) (hw : waiting ≠ 0) :
    ∃ v, NavixTaken g qdis filterIdMap s₁ start efSearch s met waiting v := by
  have hsize : s.2.candidates.size ≠ 0 := by
    rw [h.selects.size_eq]; exact mt Multiset.card_eq_zero.mp hw
  obtain ⟨v, waiting', c, hpop, rfl, hs', hmin, hn⟩ := h.selects.popMin hw
  have hvmem : v ∈ start ++ met :=
    h.mem_of_mem (Multiset.mem_add.mpr (Or.inl (Multiset.mem_cons_self _ _)))
  have hv := h.pushed_lt hstart hvmem
  have hstop : efSearch ≤ c.countBelow (qdis v) ↔ efSearch ≤ nearer qdis (start ++ met) v := by
    rw [hs'.le_countBelow_iff (Multiset.mem_coe.mpr hvmem) (hef.trans hn.ge), Multiset.coe_countP]
    rfl
  refine ⟨v, Multiset.mem_cons_self _ _, hmin, fun hle ↦ ?_, fun hle ↦ ?_⟩
  · rcases navixTurn_spec hg efSearch hsize hpop hv h.ids_eq with ⟨-, hturn⟩ | ⟨hno, -⟩
    · exact ⟨_, hturn, h.toNavixMet.withCandidates c⟩
    · exact absurd (hstop.mpr hle) hno
  · rcases navixTurn_spec hg efSearch hsize hpop hv h.ids_eq with
      ⟨hyes, -⟩ | ⟨-, s', new, hturn, hstep⟩
    · exact absurd (hstop.mp hyes) hle
    · have hmet' := h.toNavixMet.step hstep
      obtain ⟨waiting'', taken'', hs'', hw'', ht''⟩ := hs'.pushAll (l := new) fun u hu ↦
        hq u (hstep.lt u hu)
      rw [← hstep.candidates_eq] at hs''
      have hpushed : (↑new + ↑(start ++ met) : Multiset ℕ) = ↑(start ++ (met ++ new)) := by
        rw [← List.append_assoc, add_comm, Multiset.coe_add]
      rw [hpushed] at hs''
      have hn' : s'.2.candidates.n = s.2.candidates.n := by
        rw [hstep.candidates_eq, MinimaxHeap.n_pushAll, hn]
      refine ⟨s', new, waiting'', taken'', hturn, ⟨hmet', hs'', fun w hw u hu ↦ ?_⟩, hn',
        hstep.of_all, hstep.remaining_lt h.selects.toTracks hs''.toTracks hw''⟩
      rcases Multiset.mem_cons.mp (Multiset.mem_of_le ht'' hw) with rfl | hw
      · have hu' := (hmet'.visits.get_iff u hu.2).mp (hstep.covered u hu.1 hu.2)
        exact List.mem_append.mpr (hu'.imp (hstart.seen u (hg.edge_lt hv hu.1)) id)
      · rw [← List.append_assoc]
        exact List.mem_append_left _ (h.closed w hw u hu)

/-- The search has gone on from every vertex that fewer than `efSearch` others are as near as. -/
def BeamClosed (g : HNSW) (qdis : ℕ → F32) (filterIdMap : ℕ → UInt8) (efSearch : ℕ)
    (l : List ℕ) : Prop :=
  ∀ v ∈ l, l.countP (fun u ↦ decide ((qdis u).key ≤ (qdis v).key)) ≤ efSearch →
    ∀ u, g.PassingEdge filterIdMap v u → u ∈ l

/-- When the search ends, the vertices that are left have too many others nearer. -/
theorem NavixBeam.beamClosed (h : NavixBeam g qdis filterIdMap s₁ start s met waiting taken)
    {efSearch : ℕ} (hef : efSearch ≤ s.2.candidates.n)
    (hleft : ∀ u ∈ waiting, efSearch ≤ nearer qdis (start ++ met) u) :
    BeamClosed g qdis filterIdMap efSearch (start ++ met) := by
  intro v hv hcount
  have hmem : v ∈ waiting + taken := h.selects.smallest.mem_of_countP_le (Multiset.mem_coe.mpr hv)
    (by rw [Multiset.coe_countP]; exact hcount.trans hef)
  refine h.closed v ((Multiset.mem_add.mp hmem).resolve_left fun hw ↦ ?_)
  -- `v` itself is as near as `v`, but not nearer
  have hlt : nearer qdis (start ++ met) v <
      (start ++ met).countP (fun u ↦ decide ((qdis u).key ≤ (qdis v).key)) := by
    obtain ⟨l, l', heq⟩ := List.append_of_mem hv
    have hle : ∀ l : List ℕ, nearer qdis l v ≤
        l.countP (fun u ↦ decide ((qdis u).key ≤ (qdis v).key)) := fun l ↦
      List.countP_mono_left fun u _ hu ↦ decide_eq_true (of_decide_eq_true hu).le
    have h1 := hle l
    have h2 := hle l'
    unfold nearer at *
    rw [heq, List.countP_append, List.countP_append, List.countP_cons, List.countP_cons,
      if_neg (by simp), if_pos (by simp)]
    omega
  have := hleft v hw
  omega

theorem startsAt_navixInit [LawfulResultHandler H] (qdis : ℕ → F32) (filterIdMap : ℕ → UInt8)
    (hg : g.WellFormed) (hentry : g.entryPoint ≠ -1) (res : H) {vt : VisitedTable}
    (hclean : vt.Clean g.ntotal) :
    StartsAt g (navixInit g qdis filterIdMap res vt) (g.greedyEntry qdis :: g.seeds filterIdMap) := by
  obtain ⟨-, -, hvt⟩ := navixInit_spec qdis filterIdMap hg hentry res vt
  refine ⟨fun v hv ↦ navixStart_lt hg hentry hv, fun v hv hget ↦ ?_⟩
  rw [hvt, VisitedTable.get_setAll, hclean v hv] at hget
  rcases List.mem_append.mp (hget.resolve_right (by simp)) with h | h
  · exact List.mem_cons.mpr (Or.inl (List.mem_singleton.mp (List.mem_of_mem_filter h)))
  · exact List.mem_cons_of_mem _ h

theorem navixBeam_navixInit [LawfulResultHandler H] (filterIdMap : ℕ → UInt8) (hg : g.WellFormed)
    (hentry : g.entryPoint ≠ -1) (hq : ∀ v < g.ntotal, (qdis v).Comparable) (res : H)
    (hef : 1 ≤ max g.efSearch (HNSW.extractK res)) (vt : VisitedTable) :
    ∃ waiting taken, NavixBeam g qdis filterIdMap (navixInit g qdis filterIdMap res vt)
        (g.greedyEntry qdis :: g.seeds filterIdMap)
        (NodeArray.new, navixInit g qdis filterIdMap res vt) [] waiting taken ∧
      (navixInit g qdis filterIdMap res vt).candidates.n = max g.efSearch (HNSW.extractK res) := by
  obtain ⟨-, hcand, -⟩ := navixInit_spec qdis filterIdMap hg hentry res vt
  obtain ⟨waiting, taken, hs, -, ht⟩ := (selects_new qdis hef).pushAll
    (l := g.greedyEntry qdis :: g.seeds filterIdMap) fun v hv ↦ hq v (navixStart_lt hg hentry hv)
  rw [← hcand, add_zero] at hs
  refine ⟨waiting, taken, ⟨NavixMet.start _, ?_, fun v hv ↦ ?_⟩, ?_⟩
  · rw [List.append_nil]
    exact hs
  · exact absurd (Multiset.mem_of_le ht hv) (Multiset.notMem_zero v)
  · rw [hcand, MinimaxHeap.n_pushAll]
    rfl

section
variable (g : HNSW) (qdis : ℕ → F32) (filterIdMap : ℕ → UInt8) (s₁ : NavixState H) (start : List ℕ)
  (Inv : List ℕ → Prop) (s : NodeArray × NavixState H)

/-- An invariant on the vertices met, which change by those that an expansion adds. -/
def KeptByExpansion : Prop :=
  ∀ met new v, Inv met → v ∈ start ++ met → ¬ g.efSearch ≤ nearer qdis (start ++ met) v →
    ((∀ u, g.Edge v u → passes filterIdMap u = true) → ∀ u ∈ new, g.Edge v u) → Inv (met ++ new)

/-- The loop has not ended, and the invariant holds. -/
def BeamRunning : Prop :=
  ∃ met waiting taken, NavixBeam g qdis filterIdMap s₁ start s met waiting taken ∧
    g.efSearch ≤ s.2.candidates.n ∧ Inv met

/-- The loop has ended, and the invariant holds. -/
def BeamEnded : Prop :=
  ∃ met, NavixMet g qdis filterIdMap s₁ s met ∧
    BeamClosed g qdis filterIdMap g.efSearch (start ++ met) ∧ Inv met

end

theorem BeamRunning.turn [LawfulResultHandler H] (hg : g.WellFormed)
    (hq : ∀ v < g.ntotal, (qdis v).Comparable) (hstart : StartsAt g s₁ start)
    {Inv : List ℕ → Prop} (hinv : KeptByExpansion g qdis filterIdMap start Inv)
    (hs : BeamRunning g qdis filterIdMap s₁ start Inv s) :
    (∃ s', g.navixTurn qdis filterIdMap g.efSearch s = .done s' ∧
        BeamEnded g qdis filterIdMap s₁ start Inv s') ∨
      ∃ s', g.navixTurn qdis filterIdMap g.efSearch s = .next s' ∧
        BeamRunning g qdis filterIdMap s₁ start Inv s' ∧
        navixRemaining g filterIdMap s' < navixRemaining g filterIdMap s := by
  obtain ⟨met, waiting, taken, hbeam, hroom, hmet⟩ := hs
  by_cases hw : waiting = 0
  · refine Or.inl ⟨s, navixTurn_done ?_, met, hbeam.toNavixMet, ?_, hmet⟩
    · rw [hbeam.selects.size_eq, hw, Multiset.card_zero]
    · exact hbeam.beamClosed hroom fun u hu ↦ absurd (hw ▸ hu) (Multiset.notMem_zero u)
  · obtain ⟨v, htaken⟩ := hbeam.turn hg hq hstart hroom hw
    by_cases hstop : g.efSearch ≤ nearer qdis (start ++ met) v
    · obtain ⟨s', hturn, hmet'⟩ := htaken.stops hstop
      refine Or.inl ⟨s', hturn, met, hmet', hbeam.beamClosed hroom fun u hu ↦ ?_, hmet⟩
      refine hstop.trans (List.countP_mono_left fun w _ hw' ↦ decide_eq_true ?_)
      exact (of_decide_eq_true hw').trans_le (htaken.nearest u hu)
    · obtain ⟨s', new, waiting', taken', hturn, hbeam', hn', hall, hlt⟩ := htaken.expands hstop
      refine Or.inr ⟨s', hturn, ⟨_, _, _, hbeam', by rw [hn']; exact hroom, ?_⟩, hlt⟩
      exact hinv met new v hmet
        (hbeam.mem_of_mem (Multiset.mem_add.mpr (Or.inl htaken.mem))) hstop hall

theorem navixHybridSearch_beam [LawfulResultHandler H] (filterIdMap : ℕ → UInt8)
    (hg : g.WellFormed) (hentry : g.entryPoint ≠ -1) (hq : ∀ v < g.ntotal, (qdis v).Comparable)
    (res : H) (hef : 1 ≤ max g.efSearch (HNSW.extractK res)) {vt : VisitedTable}
    (hclean : vt.Clean g.ntotal) (Inv : List ℕ → Prop) (h0 : Inv [])
    (hinv : KeptByExpansion g qdis filterIdMap (g.greedyEntry qdis :: g.seeds filterIdMap) Inv) :
    ∃ s, g.navixHybridSearch qdis filterIdMap res vt = some s ∧
      BeamEnded g qdis filterIdMap (navixInit g qdis filterIdMap res vt)
        (g.greedyEntry qdis :: g.seeds filterIdMap) Inv s := by
  have hstart := startsAt_navixInit qdis filterIdMap hg hentry res hclean
  obtain ⟨waiting, taken, hbeam, hn⟩ := navixBeam_navixInit filterIdMap hg hentry hq res hef vt
  have hrun : BeamRunning g qdis filterIdMap (navixInit g qdis filterIdMap res vt)
      (g.greedyEntry qdis :: g.seeds filterIdMap) Inv
      (NodeArray.new, navixInit g qdis filterIdMap res vt) :=
    ⟨[], waiting, taken, hbeam, by rw [hn]; exact le_max_left _ _, h0⟩
  obtain ⟨s, hs, hend⟩ := iterate_total (navixRemaining g filterIdMap)
    (fun _ ↦ BeamRunning.turn hg hq hstart hinv) _ _ hrun
    (navixRemaining_navixInit g filterIdMap _)
  exact ⟨s, (navixHybridSearch_eq hentry res vt).trans hs, hend⟩

/-! ## Room for all vertices -/

/-- As many vertices are pushed as there are at most, one of them apart: the one that the descent
ends at may be a seed as well. -/
theorem NavixMet.length_le [LawfulResultHandler H] {res : H} {vt : VisitedTable}
    (hg : g.WellFormed) (hentry : g.entryPoint ≠ -1)
    (hmet : NavixMet g qdis filterIdMap (navixInit g qdis filterIdMap res vt) s met) :
    (g.greedyEntry qdis :: g.seeds filterIdMap ++ met).length ≤ g.ntotal + 1 := by
  have hle := length_le_of_nodup (hmet.nodup hg hentry).1 fun v hv ↦ (List.mem_append.mp hv).elim
    (fun h ↦ (HNSW.mem_seeds_spec h).1) (hmet.lt v)
  rw [List.cons_append, List.length_cons]
  omega

/-- With room for all vertices, the search meets every passing vertex that it can walk to. -/
theorem navixHybridSearch_wide [LawfulResultHandler H] (filterIdMap : ℕ → UInt8)
    (hg : g.WellFormed) (hentry : g.entryPoint ≠ -1) (hq : ∀ v < g.ntotal, (qdis v).Comparable)
    (res : H) {vt : VisitedTable} (hclean : vt.Clean g.ntotal) (hef : g.ntotal + 1 ≤ g.efSearch) :
    ∃ s met, g.navixHybridSearch qdis filterIdMap res vt = some s ∧
      NavixMet g qdis filterIdMap (navixInit g qdis filterIdMap res vt) s met ∧
      ∀ v ∈ reachable (g.PassingEdge filterIdMap)
          {v | v ∈ g.greedyEntry qdis :: g.seeds filterIdMap},
        v ∈ g.greedyEntry qdis :: g.seeds filterIdMap ++ met := by
  obtain ⟨s, hrun, met, hmet, hclosed, -⟩ := navixHybridSearch_beam filterIdMap hg hentry hq res
    (le_max_of_le_left (by omega)) hclean (fun _ ↦ True) trivial fun _ _ _ _ _ _ _ ↦ trivial
  have hlen := hmet.length_le hg hentry
  have htrav : Traversal (g.PassingEdge filterIdMap)
      {v | v ∈ g.greedyEntry qdis :: g.seeds filterIdMap}
      {v | v ∈ g.greedyEntry qdis :: g.seeds filterIdMap ++ met}
      {v | v ∈ g.greedyEntry qdis :: g.seeds filterIdMap ++ met} :=
    ⟨fun v hv ↦ List.mem_append_left _ hv, Set.Subset.rfl, fun v hv ↦
      hclosed v hv (List.countP_le_length.trans (hlen.trans hef))⟩
  exact ⟨s, met, hrun, hmet, htrav.reachable_subset Set.Subset.rfl⟩

end FaissNavix
