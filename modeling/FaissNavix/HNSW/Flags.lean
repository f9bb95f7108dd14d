import FaissNavix.HNSW.NavixRun

/-!
# The searches see the flags only

A search asks the visited table for flags of vertices and sets them.  From two tables with the same
flags it therefore gives the same results, whatever their generation numbers are, and the table it
leaves behind is ready for the next search once `advance` was called.
-/

namespace FaissNavix

open Lib
open Lib.PriorityQueue (pop pop_perm)
open ResultHandler (addResult)

namespace VisitedTable

variable {n : ℕ} {vt vt' : VisitedTable}

/-- The flags of the vertices below `n` are the same. -/
def SameFlags (n : ℕ) (vt vt' : VisitedTable) : Prop := ∀ v < n, vt.get v = vt'.get v

theorem SameFlags.set (h : SameFlags n vt vt') (no : ℕ) : SameFlags n (vt.set no) (vt'.set no) := by
  intro v hv
  by_cases hvn : v = no
  · rw [hvn, get_set_self, get_set_self]
  · rw [get_set_of_ne vt hvn, get_set_of_ne vt' hvn, h v hv]

theorem Clean.sameFlags (h : vt.Clean n) (h' : vt'.Clean n) : SameFlags n vt vt' :=
  fun v hv ↦ (h v hv).trans (h' v hv).symm

theorem SameFlags.setAll (h : SameFlags n vt vt') (l : List ℕ) :
    SameFlags n (vt.setAll l) (vt'.setAll l) := by
  induction l generalizing vt vt' with
  | nil => exact h
  | cons x l ih => exact ih (h.set x)

/-- A table that a search of `n` vertices can start with. -/
structure Ready (n : ℕ) (vt : VisitedTable) : Prop where
  valid : vt.Valid
  size_ge : n ≤ vt.size
  clean : vt.Clean n

theorem ready_new (n : ℕ) : (new n).Ready n := ⟨valid_new n, le_rfl, clean_new n n⟩

theorem Ready.advance (h : vt.Ready n) (hvalid : vt.Valid → vt'.Valid) (hsize : vt'.size = vt.size) :
    vt'.advance.Ready n where
  valid := (hvalid h.valid).advance
  size_ge := by rw [size_advance, hsize]; exact h.size_ge
  clean := fun v hvn ↦ (hvalid h.valid).clean_advance v
    (by rw [hsize]; exact Nat.lt_of_lt_of_le hvn h.size_ge)

theorem setAll_valid (vt : VisitedTable) (l : List ℕ) :
    (vt.Valid → (vt.setAll l).Valid) ∧ (vt.setAll l).size = vt.size := by
  induction l generalizing vt with
  | nil => exact ⟨id, rfl⟩
  | cons x l ih => exact ⟨fun h ↦ (ih (vt.set x)).1 (h.set x), (ih (vt.set x)).2⟩

end VisitedTable

open VisitedTable (SameFlags)

variable {n : ℕ} {H : Type} [ResultHandler H] {g : HNSW} {qdis : ℕ → F32} {vt vt' : VisitedTable}

/-! ## The search of level 0 -/

theorem entered_sameFlags {l : List ℕ} (hl : ∀ v ∈ l, v < n) (h : SameFlags n vt vt') :
    (entered enterFresh l vt).2 = (entered enterFresh l vt').2 ∧
      SameFlags n (entered enterFresh l vt).1 (entered enterFresh l vt').1 := by
  induction l generalizing vt vt' with
  | nil => exact ⟨rfl, h⟩
  | cons x l ih =>
      obtain ⟨h2, h1⟩ := ih (fun v hv ↦ hl v (List.mem_cons_of_mem _ hv)) (h.set x)
      have hx := h x (hl x List.mem_cons_self)
      simp only [entered, enterFresh, hx]
      exact ⟨by rw [← h2]; rfl, h1⟩

/-- The variables of two runs of the bounded mode. -/
structure CandidateLoop.Alike (n : ℕ) (s t : CandidateLoop H) : Prop where
  toCollected_eq : s.toCollected = t.toCollected
  nstep_eq : s.nstep = t.nstep
  flags : SameFlags n s.vt t.vt

theorem CandidateLoop.Alike.expand (qdis : ℕ → F32) {s t : CandidateLoop H} (h : s.Alike n t)
    (sel : Option (ℤ → Bool)) (level : ℕ) {v0 : ℕ} (hl : ∀ v ∈ g.neighborList v0 level, v < n)
    (c : MinimaxHeap) :
    (g.expandCandidate qdis sel level v0 { s with candidates := c }).Alike n
      (g.expandCandidate qdis sel level v0 { t with candidates := c }) := by
  obtain ⟨h2, h1⟩ := entered_sameFlags hl h.flags
  rw [expandCandidate_eq, expandCandidate_eq]
  refine ⟨?_, congrArg (· + 1) h.nstep_eq, h1⟩
  dsimp only
  rw [h2, h.toCollected_eq]

theorem Running.turn_alike [LawfulResultHandler H] (hg : g.WellFormed) {e : ℕ} (he : e < g.ntotal)
    {sel : Option (ℤ → Bool)} (doDisCheck : Bool) (efSearch : ℕ) {res₀ : H} {s t : CandidateLoop H}
    (hs : Running g qdis sel res₀ vt e s) (h : s.Alike g.ntotal t) :
    (∃ s' t', g.candidateTurn qdis sel doDisCheck efSearch 0 s = .done s' ∧
        g.candidateTurn qdis sel doDisCheck efSearch 0 t = .done t' ∧ s'.Alike g.ntotal t') ∨
      ∃ s' t', g.candidateTurn qdis sel doDisCheck efSearch 0 s = .next s' ∧
        g.candidateTurn qdis sel doDisCheck efSearch 0 t = .next t' ∧
        Running g qdis sel res₀ vt e s' ∧ s'.Alike g.ntotal t' := by
  have hcand : t.candidates = s.candidates := congrArg Collected.candidates h.toCollected_eq.symm
  obtain ⟨met, waiting, taken, hmet, ht, hsub⟩ := id hs
  by_cases hsize : s.candidates.size = 0
  · exact Or.inl ⟨s, t, candidateTurn_done hsize, candidateTurn_done (by rw [hcand]; exact hsize), h⟩
  · obtain ⟨v, waiting', c, hpop, rfl, -⟩ := ht.popMin fun h0 ↦ hsize (by rw [ht.size_eq, h0]; rfl)
    have hv : v < g.ntotal := reachable_lt hg he (hmet.reach v (hsub v (Multiset.mem_cons_self _ _)))
    have hexp := h.expand qdis sel 0 (fun u hu ↦ hg.edge_lt hv hu) c
    have hrun := hs.turn hg he doDisCheck efSearch
    rw [candidateTurn_eq hsize hpop] at hrun ⊢
    rw [candidateTurn_eq (by rw [hcand]; exact hsize) (by rw [hcand]; exact hpop), ← hexp.nstep_eq]
    split
    · refine Or.inl ⟨_, _, rfl, rfl, ?_, h.nstep_eq, h.flags⟩
      rw [h.toCollected_eq]
    · rename_i hstop
      rw [if_neg hstop] at hrun
      split
      · exact Or.inl ⟨_, _, rfl, rfl, hexp⟩
      · rename_i hsteps
        rw [if_neg hsteps] at hrun
        rcases hrun with ⟨s', hdone, -⟩ | ⟨s', hnext, hrun', -⟩
        · exact absurd hdone (by simp)
        · exact Or.inr ⟨_, _, rfl, rfl, Turn.next.inj hnext ▸ hrun', hexp⟩

theorem candidateLoop_alike [LawfulResultHandler H] (hg : g.WellFormed) {e : ℕ} (he : e < g.ntotal)
    {ef : ℕ} (hef : 1 ≤ ef) (res₀ : H) (params : Option SearchParameters) (nresIn : ℕ)
    (hclean : vt.Clean g.ntotal) (hclean' : vt'.Clean g.ntotal) {s : CandidateLoop H}
    (hs : g.candidateLoop qdis res₀ ((MinimaxHeap.new ef).push e (qdis e)) vt 0 nresIn params =
      some s) :
    ∃ t, g.candidateLoop qdis res₀ ((MinimaxHeap.new ef).push e (qdis e)) vt' 0 nresIn params =
      some t ∧ s.Alike g.ntotal t := by
  obtain ⟨s₀, hmet, hcand, -, -, hs₀, hloop⟩ :=
    candidateLoop_eq g qdis res₀ params nresIn hef (hclean e he)
  obtain ⟨t₀, -, -, -, -, ht₀, hloop'⟩ :=
    candidateLoop_eq g qdis res₀ params nresIn hef (hclean' e he)
  have hrun : Running g qdis (HNSW.selOf params) res₀ vt e s₀ :=
    ⟨[e], {e}, 0, hmet, by rw [hcand]; exact tracks_start qdis e hef, fun v hv ↦ by
      simpa using hv⟩
  have halike : s₀.Alike g.ntotal t₀ := by
    rw [hs₀, ht₀]
    exact ⟨rfl, rfl, (hclean.sameFlags hclean').set e⟩
  rw [hloop] at hs
  rw [hloop']
  exact iterate_sim (R := fun s t ↦ Running g qdis (HNSW.selOf params) res₀ vt e s ∧
    s.Alike g.ntotal t) (fun s t h ↦ h.1.turn_alike hg he _ _ h.2) _ s₀ t₀ s ⟨hrun, halike⟩ hs

/-- The variables of two runs of the unbounded mode. -/
structure UnboundedLoop.Alike (n : ℕ) (s t : UnboundedLoop) : Prop where
  topCandidates_eq : s.topCandidates = t.topCandidates
  candidates_eq : s.candidates = t.candidates
  ndis_eq : s.ndis = t.ndis
  nhops_eq : s.nhops = t.nhops
  flags : SameFlags n s.vt t.vt

theorem UnboundedLoop.Alike.expand (qdis : ℕ → F32) {s t : UnboundedLoop} (h : s.Alike n t) (ef : ℕ) {v0 : ℕ}
    (hl : ∀ v ∈ g.neighborList v0 0, v < n) (c : List Node) :
    (g.expandUnbounded qdis ef v0 { s with candidates := c }).Alike n
      (g.expandUnbounded qdis ef v0 { t with candidates := c }) := by
  obtain ⟨h2, h1⟩ := entered_sameFlags hl h.flags
  rw [expandUnbounded_eq, expandUnbounded_eq]
  refine ⟨?_, ?_, ?_, congrArg (· + 1) h.nhops_eq, h1⟩ <;>
    simp only [h2, h.topCandidates_eq, h.ndis_eq]

theorem UnboundedRunning.turn_alike (hg : g.WellFormed) {e ef : ℕ} (he : e < g.ntotal)
    (hclean : vt.Clean g.ntotal) (hq : ∀ v < g.ntotal, (qdis v).Comparable) {s t : UnboundedLoop}
    (hs : ∃ met best waiting, UnboundedRunning g qdis ef vt e s met best waiting)
    (h : s.Alike g.ntotal t) :
    (∃ s' t', g.unboundedTurn qdis ef s = .done s' ∧ g.unboundedTurn qdis ef t = .done t' ∧
        s'.Alike g.ntotal t') ∨
      ∃ s' t', g.unboundedTurn qdis ef s = .next s' ∧ g.unboundedTurn qdis ef t = .next t' ∧
        (∃ met best waiting, UnboundedRunning g qdis ef vt e s' met best waiting) ∧
        s'.Alike g.ntotal t' := by
  have hrun := UnboundedRunning.turn hg he hclean hq hs
  obtain ⟨met, best, waiting, hs⟩ := hs
  rw [HNSW.unboundedTurn] at hrun
  rw [HNSW.unboundedTurn, HNSW.unboundedTurn, ← h.candidates_eq, ← h.topCandidates_eq]
  cases hpop : pop nodeGt s.candidates with
  | none => exact Or.inl ⟨s, t, rfl, rfl, h⟩
  | some r =>
      obtain ⟨⟨d0, v0⟩, candidates⟩ := r
      cases htop : Lib.PriorityQueue.top nodeLt s.topCandidates with
      | none => exact Or.inl ⟨s, t, rfl, rfl, h⟩
      | some x =>
          dsimp only
          rw [hpop, htop] at hrun
          dsimp only at hrun
          split
          · exact Or.inl ⟨s, t, rfl, rfl, h⟩
          · rename_i hstop
            rw [if_neg hstop] at hrun
            have hmem : (d0, v0) ∈ s.candidates := (pop_perm hpop).mem_iff.mpr List.mem_cons_self
            rw [← Multiset.mem_coe, hs.queues.candidates_eq] at hmem
            obtain ⟨v, hv, hvd⟩ := Multiset.mem_map.mp hmem
            obtain ⟨-, rfl⟩ : _ ∧ v = v0 := Prod.mk.inj hvd
            have hlt : v < g.ntotal := reachable_lt hg he (hs.reach v (hs.queues.sub v hv))
            rcases hrun with ⟨s', hdone, -⟩ | ⟨s', hnext, hrun', -⟩
            · exact absurd hdone (by simp)
            · have hexp := h.expand qdis ef (fun u hu ↦ hg.edge_lt hlt hu) candidates
              rw [← h.topCandidates_eq] at hexp
              exact Or.inr ⟨_, _, rfl, rfl, Turn.next.inj hnext ▸ hrun', hexp⟩

theorem searchFromCandidateUnbounded_alike (hg : g.WellFormed) {e ef : ℕ} (he : e < g.ntotal)
    (hclean : vt.Clean g.ntotal) (hclean' : vt'.Clean g.ntotal)
    (hq : ∀ v < g.ntotal, (qdis v).Comparable) (hef : 1 ≤ ef) (stats : HNSWStats)
    {s : UnboundedLoop} {stats' : HNSWStats}
    (hs : g.searchFromCandidateUnbounded qdis (node qdis e) ef vt stats = some (s, stats')) :
    ∃ t, g.searchFromCandidateUnbounded qdis (node qdis e) ef vt' stats = some (t, stats') ∧
      s.Alike g.ntotal t := by
  rw [searchFromCandidateUnbounded_eq] at hs
  obtain ⟨s', hs', hpair⟩ := Option.map_eq_some_iff.mp hs
  obtain ⟨rfl, rfl⟩ := Prod.mk.inj hpair
  have halike : (unboundedStart qdis e vt).Alike g.ntotal (unboundedStart qdis e vt') :=
    ⟨rfl, rfl, rfl, rfl, (hclean.sameFlags hclean').set e⟩
  obtain ⟨t, ht, hst⟩ := iterate_sim
    (R := fun s t ↦ (∃ met best waiting, UnboundedRunning g qdis ef vt e s met best waiting) ∧
      s.Alike g.ntotal t)
    (fun s t h ↦ UnboundedRunning.turn_alike hg he hclean hq h.1 h.2) _ _ _ s'
    ⟨⟨_, _, _, unboundedRunning_start he hclean hq hef⟩, halike⟩ hs'
  refine ⟨t, ?_, hst⟩
  rw [searchFromCandidateUnbounded_eq, ht, Option.map_some, unboundedStats, unboundedStats,
    hst.candidates_eq, hst.ndis_eq, hst.nhops_eq]

/-- Two searches from tables without flags give the same results, and the tables they leave behind
are ready for the next search. -/
theorem search_alike [LawfulResultHandler H] (hg : g.WellFormed) (res : H)
    (params : Option SearchParameters) (hef : 1 ≤ max (g.efSearchOf params) (HNSW.extractK res))
    (hq : g.boundedQueueOf params = false → ∀ v < g.ntotal, (qdis v).Comparable)
    (h : vt.Ready g.ntotal) (h' : vt'.Clean g.ntotal) :
    ∃ stats res' vt₁ vt₁', g.search qdis res vt params = some (stats, res', vt₁) ∧
      g.search qdis res vt' params = some (stats, res', vt₁') ∧ vt₁.Ready g.ntotal := by
  by_cases hentry : g.entryPoint = -1
  · exact ⟨_, _, vt, vt', search_of_entryPoint hentry, search_of_entryPoint hentry, h⟩
  · obtain ⟨hlt, -⟩ := HNSW.greedyEntry_spec qdis hg hentry
    cases hmode : g.boundedQueueOf params with
    | true =>
        obtain ⟨-, s, met, -, hmet, -, hloop⟩ := search_bounded qdis hg hentry hmode h.clean hef
        obtain ⟨t, hloop', halike⟩ := candidateLoop_alike hg hlt hef res params 0 h.clean h' hloop
        refine ⟨boundedStats (g.greedyDescent qdis g.entryPoint.toNat).2 s, s.off.res, s.vt.advance,
          t.vt.advance, (search_bounded_eq hg hentry hmode res vt).trans (by rw [hloop]; rfl),
          (search_bounded_eq hg hentry hmode res vt').trans ?_, h.advance hmet.visits.valid hmet.visits.size_eq⟩
        rw [show g.candidateLoop qdis res (startHeap qdis (g.greedyEntry qdis)
          (max (g.efSearchOf params) (HNSW.extractK res))) vt' 0 0 params = some t from hloop',
          Option.map_some, boundedStats, boundedStats, halike.toCollected_eq, halike.nstep_eq]
    | false =>
        obtain ⟨s, stats, met, best, waiting, hloop, hrun, -⟩ :=
          searchFromCandidateUnbounded_total hg hlt h.clean (hq hmode) hef
            (g.greedyDescent qdis g.entryPoint.toNat).2
        obtain ⟨t, hloop', halike⟩ :=
          searchFromCandidateUnbounded_alike hg hlt h.clean h' (hq hmode) hef _ hloop
        refine ⟨stats, HNSW.addTopCandidates (HNSW.extractK res) s.topCandidates res, s.vt.advance,
          t.vt.advance, (search_unbounded_eq hg hentry hmode res vt).trans (by rw [hloop]; rfl),
          (search_unbounded_eq hg hentry hmode res vt').trans ?_, h.advance hrun.visits.valid hrun.visits.size_eq⟩
        rw [hloop', Option.map_some, halike.topCandidates_eq]

/-! ## The Navix search -/

variable {filterIdMap : ℕ → UInt8}

def SameArray (n : ℕ) (s t : VisitedTable × NodeArray) : Prop :=
  SameFlags n s.1 t.1 ∧ s.2 = t.2

theorem SameArray.collectMasked (filterIdMap : ℕ → UInt8) {s t : VisitedTable × NodeArray} (h : SameArray n s t) {v : ℕ}
    (hv : v < n) :
    SameArray n (HNSW.collectMasked filterIdMap s v) (HNSW.collectMasked filterIdMap t v) := by
  unfold HNSW.collectMasked
  rw [h.1 v hv]
  split
  · exact ⟨h.1.set v, congrArg (NodeArray.push · v) h.2⟩
  · exact h

theorem SameArray.foldl_collectMasked (filterIdMap : ℕ → UInt8) {s t : VisitedTable × NodeArray} (h : SameArray n s t)
    {l : List ℕ} (hl : ∀ v ∈ l, v < n) :
    SameArray n (l.foldl (HNSW.collectMasked filterIdMap) s)
      (l.foldl (HNSW.collectMasked filterIdMap) t) :=
  List.foldl_rel h fun v hv _ _ h ↦ h.collectMasked filterIdMap (hl v hv)

theorem navixFullTwoHop_alike (filterIdMap : ℕ → UInt8) {a : NodeArray} (h : SameFlags n vt vt') {nbrs : List ℕ}
    (hnbrs : ∀ v ∈ nbrs, v < n) (hedge : ∀ v < n, ∀ u ∈ g.neighborList v 0, u < n) (nhops : ℕ) :
    SameFlags n (g.navixFullTwoHop filterIdMap nbrs vt a nhops).1
        (g.navixFullTwoHop filterIdMap nbrs vt' a nhops).1 ∧
      (g.navixFullTwoHop filterIdMap nbrs vt a nhops).2 =
        (g.navixFullTwoHop filterIdMap nbrs vt' a nhops).2 := by
  refine List.foldl_rel (r := fun s t : VisitedTable × NodeArray × ℕ ↦
    SameFlags n s.1 t.1 ∧ s.2 = t.2) ⟨h, rfl⟩ fun v hv s t hst ↦ ?_
  have hone : SameArray n (s.1, s.2.1) (t.1, t.2.1) := ⟨hst.1, congrArg Prod.fst hst.2⟩
  obtain ⟨h1, h2⟩ := (hone.collectMasked filterIdMap (hnbrs v hv)).foldl_collectMasked filterIdMap
    (hedge v (hnbrs v hv))
  exact ⟨h1, Prod.ext h2 (congrArg (fun p : NodeArray × ℕ ↦ p.2 + 1) hst.2)⟩

theorem directedFirstHop_alike (filterIdMap : ℕ → UInt8) {s t : ℕ × VisitedTable × NodeArray}
    (h : s.1 = t.1 ∧ SameArray n s.2 t.2) {v : ℕ} (hv : v < n) :
    (HNSW.directedFirstHop filterIdMap s v).1 = (HNSW.directedFirstHop filterIdMap t v).1 ∧
      SameArray n (HNSW.directedFirstHop filterIdMap s v).2
        (HNSW.directedFirstHop filterIdMap t v).2 := by
  obtain ⟨hcount, hflags, harray⟩ := h
  unfold HNSW.directedFirstHop
  rw [hflags v hv, hcount, harray]
  dsimp only
  split
  · exact ⟨rfl, hflags, harray⟩
  · refine ⟨rfl, ?_, rfl⟩
    dsimp only
    split
    · exact hflags.set v
    · exact hflags

/-- The variables of the second half of `navix_directed` in two runs. -/
structure Exploring.Alike (n : ℕ) (s t : HNSW.Exploring) : Prop where
  nbrsToExplore_eq : s.nbrsToExplore = t.nbrsToExplore
  visitedSetSize_eq : s.visitedSetSize = t.visitedSetSize
  array : SameArray n (s.vt, s.nodeArray) (t.vt, t.nodeArray)
  nhops_eq : s.nhops = t.nhops

theorem Exploring.Alike.exploreNbrs (filterIdMap : ℕ → UInt8)
    (hedge : ∀ v < n, ∀ u ∈ g.neighborList v 0, u < n) (filterNbrsToFind m : ℕ)
    {s t : HNSW.Exploring} (h : Exploring.Alike n s t)
    (hlt : ∀ x ∈ s.nbrsToExplore, x.2 < n) :
    Exploring.Alike n (g.exploreNbrs filterIdMap filterNbrsToFind m s)
      (g.exploreNbrs filterIdMap filterNbrsToFind m t) := by
  induction m generalizing s t with
  | zero => exact h
  | succ m ih =>
      rw [HNSW.exploreNbrs, HNSW.exploreNbrs, ← h.nbrsToExplore_eq]
      cases hpop : pop farther s.nbrsToExplore with
      | none => exact h
      | some r =>
          obtain ⟨⟨d, id⟩, q⟩ := r
          have hid : id < n := hlt (d, id) ((pop_perm hpop).mem_iff.mpr List.mem_cons_self)
          have hq : ∀ x ∈ q, x.2 < n := fun x hx ↦
            hlt x ((pop_perm hpop).mem_iff.mpr (List.mem_cons_of_mem _ hx))
          have hget : s.vt.get id = t.vt.get id := h.array.1 id hid
          dsimp only
          rw [← h.visitedSetSize_eq, ← hget]
          split
          · exact ⟨rfl, rfl, h.array, h.nhops_eq⟩
          · split
            · exact ih ⟨rfl, rfl, h.array, h.nhops_eq⟩ hq
            · rw [foldl_directedSecondHop, foldl_directedSecondHop]
              have harray : SameArray n (s.vt.set id, s.nodeArray) (t.vt.set id, t.nodeArray) :=
                ⟨h.array.1.set id, h.array.2⟩
              exact ih ⟨rfl, rfl, harray.foldl_collectMasked filterIdMap (hedge id hid),
                congrArg (· + 1) h.nhops_eq⟩ hq

/-- What two runs have besides the buffer. -/
structure NavixState.Alike (n : ℕ) (s t : NavixState H) : Prop where
  res_eq : s.res = t.res
  candidates_eq : s.candidates = t.candidates
  flags : SameFlags n s.vt t.vt
  stats_eq : s.stats = t.stats

theorem NavixState.Alike.batch (qdis : ℕ → F32) {s t : NavixState H} (h : s.Alike n t)
    (a : NodeArray) :
    (HNSW.navixBatchComputeDistance qdis a s).1 = (HNSW.navixBatchComputeDistance qdis a t).1 ∧
      (HNSW.navixBatchComputeDistance qdis a s).2.Alike n
        (HNSW.navixBatchComputeDistance qdis a t).2 := by
  obtain ⟨res, candidates, vt, stats⟩ := s
  obtain ⟨rfl, rfl, hflags, rfl⟩ := h
  exact ⟨rfl, rfl, rfl, hflags, rfl⟩

theorem NavixState.Alike.directed [LawfulResultHandler H] {s t : NavixState H} (h : s.Alike n t)
    {nbrs : List ℕ} (hnbrs : ∀ v ∈ nbrs, v < n)
    (hedge : ∀ v < n, ∀ u ∈ g.neighborList v 0, u < n) (filterNbrsToFind : ℕ) {a : NodeArray}
    (ha : a.ids = []) :
    (g.navixDirected qdis filterIdMap nbrs filterNbrsToFind a s).1 =
        (g.navixDirected qdis filterIdMap nbrs filterNbrsToFind a t).1 ∧
      (g.navixDirected qdis filterIdMap nbrs filterNbrsToFind a s).2.Alike n
        (g.navixDirected qdis filterIdMap nbrs filterNbrsToFind a t).2 := by
  obtain ⟨res, candidates, vt, stats⟩ := s
  obtain ⟨res', candidates', vt', stats'⟩ := t
  obtain ⟨rfl, rfl, hflags, rfl⟩ := h
  have hfold : (nbrs.foldl (HNSW.directedFirstHop filterIdMap) (0, vt, a)).1 =
        (nbrs.foldl (HNSW.directedFirstHop filterIdMap) (0, vt', a)).1 ∧
      SameArray n (nbrs.foldl (HNSW.directedFirstHop filterIdMap) (0, vt, a)).2
        (nbrs.foldl (HNSW.directedFirstHop filterIdMap) (0, vt', a)).2 :=
    List.foldl_rel (r := fun s t : ℕ × VisitedTable × NodeArray ↦ s.1 = t.1 ∧ SameArray n s.2 t.2)
      ⟨rfl, hflags, rfl⟩ fun v hv _ _ h ↦ directedFirstHop_alike filterIdMap h (hnbrs v hv)
  obtain ⟨ids, vt₁, hfirst, -, -, hsub⟩ := foldl_directedFirstHop filterIdMap nbrs 0 vt a
  obtain ⟨ids', vt₁', hfirst', -⟩ := foldl_directedFirstHop filterIdMap nbrs 0 vt' a
  rw [hfirst, hfirst'] at hfold
  obtain ⟨-, hflags, harray⟩ := hfold
  have harray : a.pushAll ids = a.pushAll ids' := harray
  obtain ⟨st, hbatch⟩ := navixBatchDirectedComputeDistance_spec qdis filterIdMap (a.pushAll ids)
    { res, candidates, vt := vt₁, stats }
  have hbatch' := congrArg (fun r : NodeArray × List Node × NavixState H ↦
    (r.1, r.2.1, ({ r.2.2 with vt := vt₁' } : NavixState H))) hbatch
  change HNSW.navixBatchDirectedComputeDistance qdis filterIdMap (a.pushAll ids) []
    { res, candidates, vt := vt₁', stats } = _ at hbatch'
  have hids : (a.pushAll ids).ids = ids := by rw [NodeArray.ids_pushAll, ha, List.nil_append]
  rw [HNSW.navixDirected, HNSW.navixDirected, hfirst, hfirst']
  dsimp only
  rw [← harray, hbatch, hbatch']
  have hexp : Exploring.Alike n
      { nbrsToExplore := ((a.pushAll ids).ids.map fun v ↦ (qdis v, v)).reverse
        visitedSetSize := 0 + nbrs.countP (passes filterIdMap)
        vt := vt₁
        nodeArray := (a.pushAll ids).reset
        nhops := st.nhops }
      { nbrsToExplore := ((a.pushAll ids).ids.map fun v ↦ (qdis v, v)).reverse
        visitedSetSize := 0 + nbrs.countP (passes filterIdMap)
        vt := vt₁'
        nodeArray := (a.pushAll ids).reset
        nhops := st.nhops } := ⟨rfl, rfl, ⟨hflags, rfl⟩, rfl⟩
  have hlt : ∀ x ∈ ((a.pushAll ids).ids.map fun v ↦ (qdis v, v)).reverse, x.2 < n := fun x hx ↦ by
    rw [hids] at hx
    obtain ⟨v, hv, rfl⟩ := List.mem_map.mp (List.mem_reverse.mp hx)
    exact hnbrs v (hsub.subset hv)
  obtain ⟨-, -, ⟨hvt, hnode⟩, hnhops⟩ := hexp.exploreNbrs filterIdMap hedge
    filterNbrsToFind ((a.pushAll ids).ids.map fun v ↦ (qdis v, v)).reverse.length hlt
  exact ⟨hnode, rfl, rfl, hvt, congrArg (fun m ↦ ({ st with nhops := m } : HNSWStats)) hnhops⟩

theorem NavixState.Alike.expand [LawfulResultHandler H] (qdis : ℕ → F32)
    (filterIdMap : ℕ → UInt8) {s t : NavixState H} (h : s.Alike n t)
    {nbrs : List ℕ} (hnbrs : ∀ v ∈ nbrs, v < n)
    (hedge : ∀ v < n, ∀ u ∈ g.neighborList v 0, u < n) {a : NodeArray} (ha : a.ids = []) :
    (g.navixExpand qdis filterIdMap nbrs a s).1 = (g.navixExpand qdis filterIdMap nbrs a t).1 ∧
      (g.navixExpand qdis filterIdMap nbrs a s).2.Alike n
        (g.navixExpand qdis filterIdMap nbrs a t).2 := by
  unfold HNSW.navixExpand
  split
  · obtain ⟨h1, h2⟩ := SameArray.foldl_collectMasked filterIdMap
      (show SameArray n (s.vt, a) (t.vt, a) from ⟨h.flags, rfl⟩) hnbrs
    exact ⟨h2, h.res_eq, h.candidates_eq, h1, h.stats_eq⟩
  · exact h.directed hnbrs hedge nbrs.length ha
  · rw [h.stats_eq]
    obtain ⟨h1, h2⟩ := navixFullTwoHop_alike filterIdMap (a := a) h.flags hnbrs hedge
      t.stats.nhops
    exact ⟨congrArg (fun p : NodeArray × ℕ ↦ p.1) h2, h.res_eq, h.candidates_eq, h1,
      congrArg (fun p : NodeArray × ℕ ↦ ({ t.stats with nhops := p.2 } : HNSWStats)) h2⟩

/-- A turn of one is a turn of the other. -/
theorem NavixRunning.turn_alike [LawfulResultHandler H] (hg : g.WellFormed) (efSearch : ℕ)
    {s₁ : NavixState H} {s t : NodeArray × NavixState H}
    (hs : NavixRunning g qdis filterIdMap s₁ s) (harray : s.1 = t.1) (h : s.2.Alike g.ntotal t.2) :
    (∃ s' t', g.navixTurn qdis filterIdMap efSearch s = .done s' ∧
        g.navixTurn qdis filterIdMap efSearch t = .done t' ∧ s'.1 = t'.1 ∧
        s'.2.Alike g.ntotal t'.2) ∨
      ∃ s' t', g.navixTurn qdis filterIdMap efSearch s = .next s' ∧
        g.navixTurn qdis filterIdMap efSearch t = .next t' ∧
        NavixRunning g qdis filterIdMap s₁ s' ∧ s'.1 = t'.1 ∧ s'.2.Alike g.ntotal t'.2 := by
  have hrun := hs.turn hg efSearch
  obtain ⟨met, waiting, taken, hmet, ht, hlt⟩ := hs
  by_cases hw : s.2.candidates.size = 0
  · exact Or.inl ⟨s, t, navixTurn_done hw, navixTurn_done (by rw [← h.candidates_eq]; exact hw),
      harray, h⟩
  · obtain ⟨v, waiting', c, hpop, rfl, -⟩ := ht.popMin fun h0 ↦ hw (by rw [ht.size_eq, h0]; rfl)
    have hv : v < g.ntotal := hlt v (Multiset.mem_cons_self _ _)
    have hw' : t.2.candidates.size ≠ 0 := by rw [← h.candidates_eq]; exact hw
    have hpop' := hpop
    rw [h.candidates_eq] at hpop'
    by_cases hstop : efSearch ≤ c.countBelow (qdis v)
    · refine Or.inl ⟨(s.1, { s.2 with candidates := c }), (t.1, { t.2 with candidates := c }),
        ?_, ?_, harray, h.res_eq, rfl, h.flags, h.stats_eq⟩
      · rw [HNSW.navixTurn, if_neg hw, hpop]
        exact if_pos hstop
      · rw [HNSW.navixTurn, if_neg hw', hpop']
        exact if_pos hstop
    · rw [navixTurn_next hw hpop hstop] at hrun ⊢
      rw [navixTurn_next hw' hpop' hstop, ← harray]
      have hids : s.1.ids = [] := hmet.ids_eq
      have hstate : NavixState.Alike g.ntotal
          { s.2 with candidates := c, stats := { s.2.stats with nhops := s.2.stats.nhops + 1 } }
          { t.2 with candidates := c, stats := { t.2.stats with nhops := t.2.stats.nhops + 1 } } :=
        ⟨h.res_eq, rfl, h.flags, by rw [h.stats_eq]⟩
      obtain ⟨hexp, hexp'⟩ := hstate.expand qdis filterIdMap
        (fun u hu ↦ hg.edge_lt hv hu) (fun u hu w hw ↦ hg.edge_lt hu hw) hids
      rw [← hexp]
      obtain ⟨hbatch, hbatch'⟩ := hexp'.batch qdis (g.navixExpand qdis filterIdMap
        (g.neighborList v 0) s.1 { s.2 with
          candidates := c
          stats := { s.2.stats with nhops := s.2.stats.nhops + 1 } }).1
      rcases hrun with ⟨s', hdone, -⟩ | ⟨s', hnext, hrun', -⟩
      · exact absurd hdone (by simp)
      · exact Or.inr ⟨_, _, rfl, rfl, Turn.next.inj hnext ▸ hrun', hbatch, hbatch'⟩

/-- Two Navix searches from tables without flags give the same results, and the table they leave
behind is ready for the next search once `advance` was called. -/
theorem navixHybridSearch_alike [LawfulResultHandler H] (filterIdMap : ℕ → UInt8)
    (hg : g.WellFormed) (res : H) (hef : 1 ≤ max g.efSearch (HNSW.extractK res))
    (h : vt.Ready g.ntotal) (h' : vt'.Clean g.ntotal) :
    ∃ a s s', g.navixHybridSearch qdis filterIdMap res vt = some (a, s) ∧
      g.navixHybridSearch qdis filterIdMap res vt' = some (a, s') ∧ s.res = s'.res ∧
      s.stats = s'.stats ∧ s.vt.advance.Ready g.ntotal := by
  by_cases hentry : g.entryPoint = -1
  · refine ⟨NodeArray.new, { res, candidates := MinimaxHeap.new 0, vt, stats := {} },
      { res, candidates := MinimaxHeap.new 0, vt := vt', stats := {} }, ?_, ?_, rfl, rfl,
      h.advance id rfl⟩ <;>
      rw [HNSW.navixHybridSearch, if_pos hentry]
  · have hrun := navixRunning_navixInit qdis filterIdMap hg hentry res hef vt
    obtain ⟨⟨a, s⟩, met, hs, hmet⟩ := navixHybridSearch_total qdis filterIdMap hg hentry res hef vt
    have halike : (navixInit g qdis filterIdMap res vt).Alike g.ntotal
        (navixInit g qdis filterIdMap res vt') := by
      rw [navixInit_eq qdis filterIdMap hg hentry, navixInit_eq qdis filterIdMap hg hentry]
      exact ⟨rfl, rfl, (h.clean.sameFlags h').setAll _, rfl⟩
    have hs' := hs
    rw [navixHybridSearch_eq hentry, halike.candidates_eq] at hs'
    obtain ⟨⟨a', s'⟩, ht, ha, hst⟩ := iterate_sim
      (R := fun s t ↦ NavixRunning g qdis filterIdMap (navixInit g qdis filterIdMap res vt) s ∧
        s.1 = t.1 ∧ s.2.Alike g.ntotal t.2)
      (fun s t h ↦ h.1.turn_alike hg g.efSearch h.2.1 h.2.2) _ _
      (NodeArray.new, navixInit g qdis filterIdMap res vt') _ ⟨hrun, rfl, halike⟩ hs'
    obtain rfl : a = a' := ha
    obtain ⟨hvalid, hsize⟩ := VisitedTable.setAll_valid vt
      ([g.greedyEntry qdis].filter (passes filterIdMap) ++ g.seeds filterIdMap)
    have hinit := (navixInit_spec qdis filterIdMap hg hentry res vt).2.2
    rw [← hinit] at hvalid hsize
    exact ⟨a, s, s', hs, (navixHybridSearch_eq hentry res vt').trans ht, hst.res_eq, hst.stats_eq,
      h.advance (fun hv ↦ hmet.visits.valid (hvalid hv)) (hmet.visits.size_eq.trans hsize)⟩

end FaissNavix
