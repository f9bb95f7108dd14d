import FaissNavix.HNSW.NeighborsToAdd
import FaissNavix.HNSW.Unbounded
import Mathlib.Data.List.GetD
import Mathlib.Data.List.TakeWhile

/-!
# One neighbour at a time

The loops over the neighbours of a vertex collect those that were not visited in a buffer of four,
so that the flags of later neighbours are set before the heaps and the threshold hear of earlier
ones.  The test `tests/test_hnsw.cpp` compares three of the traversals with plain versions of
theirs, and the fourth one brings its plain version along.  Here are these plain versions, and that
the two kinds agree, on every graph and from every state.

An expansion with the buffer and one without it mark the same vertices and handle them in the same
order (`buffered_eq`, `foldl_eq_entered`), and the plain bounded traversal, which does not
reload the threshold, has it right as long as the handler's answers are.
-/

namespace FaissNavix

open Lib
open Lib.PriorityQueue (pop top pop_perm)
open MinimaxHeap (pushAll)

variable {H : Type} [ResultHandler H]

/-! ## The reference functions -/

namespace HNSW

variable (g : HNSW) (qdis : ℕ → F32)

/-- The body of the loop over the neighbours in `reference_search_from_candidates`. -/
def referenceCandidateStep (sel : Option (ℤ → Bool)) (s : CandidateLoop H) (v1 : ℤ) :
    CandidateLoop H :=
  if s.vt.get v1.toNat then s
  else
    let d := qdis v1.toNat
    { s with
      vt := s.vt.set v1.toNat
      ndis := s.ndis + 1
      off := if isSelected sel v1.toNat then s.off.offer d v1.toNat else s.off
      candidates := s.candidates.push v1.toNat d }

/-- One turn of the loop of `reference_search_from_candidates`. -/
def referenceCandidateTurn (sel : Option (ℤ → Bool)) (doDisCheck : Bool) (efSearch level : ℕ)
    (s : CandidateLoop H) : Turn (CandidateLoop H) :=
  if s.candidates.size = 0 then .done s
  else
    match s.candidates.popMin with
    | none => .done s
    | some (v0, d0, candidates) =>
      let s := { s with candidates }
      if doDisCheck ∧ efSearch ≤ candidates.countBelow d0 then .done s
      else
        let s := forUntil (fun v1 ↦ decide (v1 < 0)) (referenceCandidateStep qdis sel)
          (g.entries v0.toNat level) s
        let s := { s with nstep := s.nstep + 1 }
        if !doDisCheck ∧ efSearch < s.nstep then .done s else .next s

/-- `reference_search_from_candidates`.  The parameters it takes are those for an HNSW index. -/
def referenceSearchFromCandidates (res : H) (candidates : MinimaxHeap) (vt : VisitedTable)
    (stats : HNSWStats) (level nresIn : ℕ) (params : Option SearchParameters) :
    Option (ℕ × HNSWStats × CandidateLoop H) := do
  let sel := selOf params
  let (off, vt) := (List.range candidates.size).foldl (initCandidates sel candidates)
    (Offering.start res nresIn, vt)
  let s ← iterate
    (g.referenceCandidateTurn qdis sel (g.doDisCheckOf params) (g.efSearchOf params) level)
    (candidates.size + g.ntotal + 1) { off, candidates, ndis := 0, vt, nstep := 0 }
  let stats := if level = 0 then
      { n1 := stats.n1 + 1
        n2 := if s.candidates.size = 0 then stats.n2 + 1 else stats.n2
        ndis := stats.ndis + s.ndis
        nhops := stats.nhops + s.nstep }
    else stats
  return (s.off.nres, stats, s)

/-- The body of the loop over the neighbours in `reference_search_from_candidate_unbounded`. -/
def referenceUnboundedStep (ef : ℕ) (s : UnboundedLoop) (v1 : ℤ) : UnboundedLoop :=
  if s.vt.get v1.toNat then s
  else
    let vt := s.vt.set v1.toNat
    let d1 := qdis v1.toNat
    let ndis := s.ndis + 1
    if topAbove s.topCandidates d1 ∨ s.topCandidates.length < ef then
      let topCandidates := (d1, v1.toNat) :: s.topCandidates
      { s with
        vt, ndis
        candidates := (d1, v1.toNat) :: s.candidates
        topCandidates := if ef < topCandidates.length then popTop topCandidates else topCandidates }
    else { s with vt, ndis }

/-- One turn of the loop of `reference_search_from_candidate_unbounded`. -/
def referenceUnboundedTurn (ef : ℕ) (s : UnboundedLoop) : Turn UnboundedLoop :=
  match pop nodeGt s.candidates with
  | none => .done s
  | some ((d0, v0), candidates) =>
    match top nodeLt s.topCandidates with
    | none => .done s
    | some t =>
      if t.1 < d0 then .done s
      else
        let s := forUntil (fun v1 ↦ decide (v1 < 0)) (referenceUnboundedStep qdis ef)
          (g.entries v0 0) { s with candidates }
        .next { s with nhops := s.nhops + 1 }

/-- `reference_search_from_candidate_unbounded` -/
def referenceSearchFromCandidateUnbounded (node : Node) (ef : ℕ) (vt : VisitedTable)
    (stats : HNSWStats) : Option (UnboundedLoop × HNSWStats) := do
  let s ← iterate (g.referenceUnboundedTurn qdis ef) (g.ntotal + 2)
    { topCandidates := [node], candidates := [node], vt := vt.set node.2, ndis := 0, nhops := 0 }
  return (s,
    { n1 := stats.n1 + 1
      n2 := if s.candidates.length = 0 then stats.n2 + 1 else stats.n2
      ndis := stats.ndis + s.ndis
      nhops := stats.nhops + s.nhops })

/-- The loop over the neighbours in `reference_greedy_update_nearest`, which counts the distances. -/
def referenceGreedyPass (level : ℕ) (s : Nearest) : Nearest × ℕ :=
  forUntil (fun v ↦ decide (v < 0))
    (fun s v ↦
      let dis := qdis v.toNat
      (if dis < s.1.dNearest then { nearest := v.toNat, dNearest := dis } else s.1, s.2 + 1))
    (g.entries s.nearest level) (s, 0)

theorem forUntil_entries {σ : Type} (body : σ → ℕ → σ) (no level : ℕ) (s : σ) :
    forUntil (fun v ↦ decide (v < 0)) (fun s v ↦ body s v.toNat) (g.entries no level) s =
      (g.neighborList no level).foldl body s := by
  have hnonneg : (fun v : ℤ ↦ !decide (v < 0)) = fun v ↦ decide (0 ≤ v) := by
    funext v
    rw [← decide_not]
    exact decide_eq_decide.mpr not_lt
  rw [forUntil_eq, hnonneg]
  exact List.foldl_map.symm

theorem referenceGreedyPass_eq (level : ℕ) (s : Nearest) :
    g.referenceGreedyPass qdis level s =
      (g.greedyPass qdis level s, (g.neighborList s.nearest level).length) := by
  have hcount : ∀ (l : List ℕ) (s : Nearest × ℕ),
      l.foldl (fun s v ↦ (s.1.updateWithCandidate v (qdis v), s.2 + 1)) s =
        (l.foldl (fun s v ↦ s.updateWithCandidate v (qdis v)) s.1, s.2 + l.length) := by
    intro l
    induction l with
    | nil => intro s; rfl
    | cons v l ih =>
        intro s
        rw [List.foldl_cons, ih, List.foldl_cons, List.length_cons, Nat.add_assoc,
          Nat.add_comm 1]
  rw [greedyPass_eq, referenceGreedyPass]
  refine (g.forUntil_entries
    (fun (s : Nearest × ℕ) v ↦ (s.1.updateWithCandidate v (qdis v), s.2 + 1)) _ _ _).trans ?_
  rw [hcount, Nat.zero_add]

/-- `reference_greedy_update_nearest` -/
def referenceGreedyUpdateNearest (level : ℕ) (s : Nearest) (stats : HNSWStats) :
    Nearest × HNSWStats :=
  let stats' := { stats with
    ndis := stats.ndis + (g.referenceGreedyPass qdis level s).2
    nhops := stats.nhops + 1 }
  if (g.referenceGreedyPass qdis level s).1.nearest = s.nearest then
    ((g.referenceGreedyPass qdis level s).1, stats')
  else referenceGreedyUpdateNearest level (g.referenceGreedyPass qdis level s).1 stats'
termination_by s.dNearest.rank
decreasing_by
  rename_i hne
  rw [referenceGreedyPass_eq] at hne ⊢
  rcases g.greedyPass_cases qdis level s with h | ⟨v, -, h, hlt⟩
  · exact absurd (by rw [h]) hne
  · rw [h]; exact F32.rank_lt_rank hlt

end HNSW

/-! ## The expansions agree -/

variable {g : HNSW} {qdis : ℕ → F32}

section
variable (sel : Option (ℤ → Bool)) (efConstruction ef : ℕ)

theorem get_of_enterFresh {vt : VisitedTable} {v : ℕ} (h : (enterFresh vt v).1 = false) :
    vt.get v = true := by
  simpa [enterFresh] using h

theorem enterFresh_of_get {vt : VisitedTable} {v : ℕ} (h : vt.get v = true) :
    (enterFresh vt v).2 = vt :=
  VisitedTable.set_of_get h

theorem foldl_referenceCandidateStep (l : List ℕ) (s : CandidateLoop H) :
    l.foldl (fun s (v : ℕ) ↦ HNSW.referenceCandidateStep qdis sel s v) s =
      { toCollected := (entered enterFresh l s.vt).2.foldl (Collected.addOne sel qdis) s.toCollected
        vt := (entered enterFresh l s.vt).1
        nstep := s.nstep } := by
  refine foldl_eq_entered (fun vt (c : Collected H) ↦ (⟨c, vt, s.nstep⟩ : CandidateLoop H))
    (fun vt c v h ↦ ?_) (fun vt c v h ↦ ?_) l s.vt s.toCollected
  · exact if_neg (by simpa [enterFresh] using h)
  · rw [enterFresh_of_get (get_of_enterFresh h)]
    exact if_pos (get_of_enterFresh h)

/-- The two expansions of a candidate, as long as the local threshold is the handler's. -/
theorem expandCandidate_eq_reference (level v0 : ℕ)
    {s : CandidateLoop H} (hs : s.off.Synced) :
    g.expandCandidate qdis sel level v0 s =
      let s := forUntil (fun v1 ↦ decide (v1 < 0)) (HNSW.referenceCandidateStep qdis sel)
        (g.entries v0 level) s
      { s with nstep := s.nstep + 1 } := by
  have href : forUntil (fun v1 ↦ decide (v1 < 0)) (HNSW.referenceCandidateStep qdis sel)
      (g.entries v0 level) s = _ :=
    (g.forUntil_entries (fun s (v : ℕ) ↦ HNSW.referenceCandidateStep qdis sel s v) _ _ _).trans
      (foldl_referenceCandidateStep sel _ s)
  have hoff : ({ s.off with threshold := ResultHandler.threshold s.off.res } : Offering H) =
      s.off := by
    rw [← hs]
  rw [href, expandCandidate_eq, hoff]

theorem foldl_referenceUnboundedStep (l : List ℕ) (s : UnboundedLoop) :
    l.foldl (fun s (v : ℕ) ↦ HNSW.referenceUnboundedStep qdis ef s v) s =
      let q := (entered enterFresh l s.vt).2.foldl (Queues.addOne ef qdis)
        ⟨s.topCandidates, s.candidates, s.ndis⟩
      { topCandidates := q.topCandidates
        candidates := q.candidates
        vt := (entered enterFresh l s.vt).1
        ndis := q.ndis
        nhops := s.nhops } := by
  refine foldl_eq_entered (fun vt (q : Queues) ↦ (⟨q.topCandidates, q.candidates, vt, q.ndis,
    s.nhops⟩ : UnboundedLoop)) (fun vt q v h ↦ ?_) (fun vt q v h ↦ ?_) l s.vt
    ⟨s.topCandidates, s.candidates, s.ndis⟩
  · rw [HNSW.referenceUnboundedStep, if_neg (by simpa [enterFresh] using h)]
    simp only [Int.toNat_natCast, Queues.addOne, Queues.addToHeap]
    split <;> rfl
  · rw [enterFresh_of_get (get_of_enterFresh h)]
    exact if_pos (get_of_enterFresh h)

theorem expandUnbounded_eq_reference (v0 : ℕ) (s : UnboundedLoop) :
    g.expandUnbounded qdis ef v0 s =
      let s := forUntil (fun v1 ↦ decide (v1 < 0)) (HNSW.referenceUnboundedStep qdis ef)
        (g.entries v0 0) s
      { s with nhops := s.nhops + 1 } := by
  have href : forUntil (fun v1 ↦ decide (v1 < 0)) (HNSW.referenceUnboundedStep qdis ef)
      (g.entries v0 0) s = _ :=
    (g.forUntil_entries (fun s (v : ℕ) ↦ HNSW.referenceUnboundedStep qdis ef s v) _ _ _).trans
      (foldl_referenceUnboundedStep ef _ s)
  rw [href, HNSW.expandUnbounded, buffered_eq (Queues.addFour_eq ef), List.nil_append]

theorem foldl_targetStep (l : List ℕ) (s : TargetLoop) :
    l.foldl (fun s (v : ℕ) ↦ HNSW.targetStep qdis efConstruction s v) s =
      { toTargets := (entered enterFresh l s.vt).2.foldl
          (fun s v ↦ s.updateWithCandidate efConstruction v (qdis v)) s.toTargets
        vt := (entered enterFresh l s.vt).1 } := by
  refine foldl_eq_entered (fun vt (q : Targets) ↦ (⟨q, vt⟩ : TargetLoop)) (fun vt q v h ↦ ?_)
    (fun vt q v h ↦ ?_) l s.vt s.toTargets
  · exact if_neg (by simpa [enterFresh] using h)
  · rw [enterFresh_of_get (get_of_enterFresh h)]
    exact if_pos (get_of_enterFresh h)

theorem expandTarget_eq_reference (level currNode : ℕ) (s : TargetLoop) :
    g.expandTarget qdis efConstruction level currNode false s =
      g.expandTarget qdis efConstruction level currNode true s := by
  have href : forUntil (fun v1 ↦ decide (v1 < 0)) (HNSW.targetStep qdis efConstruction)
      (g.entries currNode level) s = _ :=
    (g.forUntil_entries (fun s (v : ℕ) ↦ HNSW.targetStep qdis efConstruction s v) _ _ _).trans
      (foldl_targetStep efConstruction _ s)
  rw [expandTarget_eq, HNSW.expandTarget, if_pos rfl, href]

/-! ## The loops agree -/

theorem candidateTurn_eq_reference (doDisCheck : Bool)
    (efSearch level : ℕ) (s : CandidateLoop H) (hs : s.off.Synced) :
    g.candidateTurn qdis sel doDisCheck efSearch level s =
      g.referenceCandidateTurn qdis sel doDisCheck efSearch level s := by
  rw [HNSW.candidateTurn, HNSW.referenceCandidateTurn]
  split
  · rfl
  · cases s.candidates.popMin with
    | none => rfl
    | some p =>
        have hexp : g.expandCandidate qdis sel level p.1.toNat { s with candidates := p.2.2 } = _ :=
          expandCandidate_eq_reference sel level _ hs
        simp only [hexp]

end

/-- A turn leaves the local threshold right. -/
theorem synced_candidateTurn [LawfulResultHandler H] {sel : Option (ℤ → Bool)} {doDisCheck : Bool}
    {efSearch level : ℕ} {s s' : CandidateLoop H}
    (h : g.candidateTurn qdis sel doDisCheck efSearch level s = .next s') : s'.off.Synced := by
  have hexp : ∀ v0 (s : CandidateLoop H),
      (g.expandCandidate qdis sel level v0 s).off.Synced := by
    intro v0 s
    have hsync : Offering.Synced { s.off with threshold := ResultHandler.threshold s.off.res } :=
      rfl
    rw [expandCandidate_eq, Collected.foldl_addOne]
    exact (hsync.offerEach _).1
  rw [HNSW.candidateTurn] at h
  split at h
  · cases h
  · split at h
    · cases h
    · dsimp only at h
      split at h
      · cases h
      · split at h
        · cases h
        · cases h
          exact hexp _ _

theorem synced_initCandidates [LawfulResultHandler H] (sel : Option (ℤ → Bool))
    (candidates : MinimaxHeap) (l : List ℕ) (s : Offering H × VisitedTable) (hs : s.1.Synced) :
    (l.foldl (HNSW.initCandidates sel candidates) s).1.Synced := by
  induction l generalizing s with
  | nil => exact hs
  | cons i l ih =>
      refine ih _ ?_
      rw [HNSW.initCandidates]
      dsimp only
      split
      · exact hs.offer _ _
      · exact hs

theorem searchFromCandidates_eq_reference [LawfulResultHandler H] (res : H)
    (candidates : MinimaxHeap) (vt : VisitedTable) (stats : HNSWStats) (level nresIn : ℕ)
    (params : Option SearchParameters) :
    g.searchFromCandidates qdis res candidates vt stats level nresIn params =
      g.referenceSearchFromCandidates qdis res candidates vt stats level nresIn params := by
  have hsync := synced_initCandidates (HNSW.selOf params) candidates (List.range candidates.size)
    (Offering.start res nresIn, vt) (Offering.synced_start res nresIn)
  rw [HNSW.searchFromCandidates, HNSW.candidateLoop, HNSW.referenceSearchFromCandidates]
  dsimp only
  rw [iterate_congr (fun s : CandidateLoop H ↦ s.off.Synced) (candidateTurn_eq_reference _ _ _ _)
    (fun _ _ _ h ↦ synced_candidateTurn h) _ hsync]

theorem unboundedTurn_eq_reference (ef : ℕ) (s : UnboundedLoop) :
    g.unboundedTurn qdis ef s = g.referenceUnboundedTurn qdis ef s := by
  rw [HNSW.unboundedTurn, HNSW.referenceUnboundedTurn]
  cases pop nodeGt s.candidates with
  | none => rfl
  | some p =>
      cases top nodeLt s.topCandidates with
      | none => rfl
      | some t =>
          by_cases hfar : t.1 < p.1.1
          · exact (if_pos hfar).trans (if_pos hfar).symm
          · refine (if_neg hfar).trans (Eq.trans ?_ (if_neg hfar).symm)
            exact congrArg Turn.next (expandUnbounded_eq_reference ef p.1.2 _)

theorem targetTurn_eq_reference (efConstruction level : ℕ) (s : TargetLoop) :
    g.targetTurn qdis efConstruction level false s =
      g.targetTurn qdis efConstruction level true s := by
  rw [HNSW.targetTurn, HNSW.targetTurn]
  simp only [expandTarget_eq_reference]

theorem greedyUpdateNearest_eq_reference (level : ℕ) (s : Nearest) (stats : HNSWStats) :
    g.greedyUpdateNearest qdis level s stats =
      g.referenceGreedyUpdateNearest qdis level s stats := by
  induction s, stats using HNSW.greedyUpdateNearest.induct g qdis level with
  | case1 s stats heq =>
      rw [HNSW.greedyUpdateNearest, HNSW.referenceGreedyUpdateNearest, g.referenceGreedyPass_eq]
      simp only [heq, if_true]
  | case2 s stats _ hne ih =>
      rw [HNSW.greedyUpdateNearest, HNSW.referenceGreedyUpdateNearest, g.referenceGreedyPass_eq]
      simp only [hne, if_false]
      exact ih

/-! ## The loops end

Every turn takes a vertex out of the queue and puts in only vertices that it marks, so the number
of vertices that wait or are not marked gets smaller. -/

/-- The entries of the table are vertices of the graph, or negative. -/
def HNSW.Closed (g : HNSW) : Prop := ∀ x ∈ g.neighbors, x < g.ntotal

theorem HNSW.Closed.lt (hg : g.Closed) {u level v : ℕ} (hv : v ∈ g.neighborList u level) :
    v < g.ntotal := by
  obtain ⟨x, hx, rfl⟩ := List.mem_map.mp hv
  have hnonneg : 0 ≤ x := by simpa using List.mem_takeWhile_imp hx
  obtain ⟨j, -, rfl⟩ := List.mem_map.mp ((List.takeWhile_sublist _).subset hx)
  by_cases hj : j < g.neighbors.length
  · have hlt := hg _ (List.getElem_mem hj)
    rw [List.getD_eq_getElem _ _ hj] at hnonneg ⊢
    omega
  · rw [List.getD_eq_default _ _ (Nat.le_of_not_lt hj)] at hnonneg
    omega

theorem MinimaxHeap.size_push_le (h : MinimaxHeap) (i : ℕ) (v : F32) :
    (h.push i v).size ≤ h.size + 1 := by
  have hevict : h.evict.nvalid ≤ h.nvalid := by
    rw [evict]
    dsimp only
    split
    · exact Nat.sub_le _ _
    · exact le_rfl
  rw [push]
  split
  · split
    · exact Nat.le_succ _
    · exact Nat.succ_le_succ hevict
  · exact le_rfl

theorem MinimaxHeap.size_pushAll_le (qdis : ℕ → F32) (l : List ℕ) (h : MinimaxHeap) :
    (pushAll qdis h l).size ≤ h.size + l.length := by
  induction l generalizing h with
  | nil => exact le_rfl
  | cons v l ih =>
      have hpush := h.size_push_le v (qdis v)
      refine (ih (h.push v (qdis v))).trans ?_
      rw [List.length_cons]
      omega

theorem MinimaxHeap.size_popMin {h c : MinimaxHeap} {v : ℤ} {d : F32}
    (hpop : h.popMin = some (v, d, c)) : c.size = h.size - 1 := by
  obtain ⟨imin, -, heq⟩ := Option.map_eq_some_iff.mp hpop
  obtain ⟨-, hrest⟩ := Prod.mk.inj heq
  obtain ⟨-, rfl⟩ := Prod.mk.inj hrest
  rfl

/-- A search in `search_from_candidates` ends. -/
theorem searchFromCandidates_isSome [LawfulResultHandler H] (hg : g.Closed) (res : H)
    (candidates : MinimaxHeap) (vt : VisitedTable) (stats : HNSWStats) (level nresIn : ℕ)
    (params : Option SearchParameters) :
    (g.searchFromCandidates qdis res candidates vt stats level nresIn params).isSome := by
  have hturn : ∀ s : CandidateLoop H, True →
      (∃ s', g.candidateTurn qdis (HNSW.selOf params) (g.doDisCheckOf params) (g.efSearchOf params)
        level s = .done s' ∧ True) ∨
      ∃ s', g.candidateTurn qdis (HNSW.selOf params) (g.doDisCheckOf params) (g.efSearchOf params)
          level s = .next s' ∧ True ∧
        s'.candidates.size + unvisited (fun _ ↦ true) g.ntotal s'.vt <
          s.candidates.size + unvisited (fun _ ↦ true) g.ntotal s.vt := by
    intro s _
    rw [HNSW.candidateTurn]
    split
    · exact Or.inl ⟨_, rfl, trivial⟩
    · next hsize =>
      split
      · exact Or.inl ⟨_, rfl, trivial⟩
      · next v0 d0 c hpop =>
        dsimp only
        obtain ⟨new, hvis, -, hsub, hcand, -⟩ := expandCandidate_spec g qdis (HNSW.selOf params)
          level v0.toNat { s with candidates := c }
        have hleft := hvis.unvisited_add_length fun v hv ↦ hg.lt (hsub v hv)
        have hpush := MinimaxHeap.size_pushAll_le qdis new c
        have hpopped := MinimaxHeap.size_popMin hpop
        split
        · exact Or.inl ⟨_, rfl, trivial⟩
        · split
          · exact Or.inl ⟨_, rfl, trivial⟩
          · refine Or.inr ⟨_, rfl, trivial, ?_⟩
            rw [hcand]
            dsimp only at hleft ⊢
            omega
  rw [HNSW.searchFromCandidates, HNSW.candidateLoop]
  dsimp only
  generalize (List.range candidates.size).foldl _ _ = start
  have hle := unvisited_le (fun _ ↦ true) g.ntotal start.2
  obtain ⟨s, hs, -⟩ := iterate_total _ hturn (candidates.size + g.ntotal + 1)
    { off := start.1, candidates, ndis := 0, vt := start.2, nstep := 0 } trivial
    (by dsimp only; omega)
  rw [hs]
  rfl

theorem Queues.length_addAll_le (qdis : ℕ → F32) (ef : ℕ) (l : List ℕ) (s : Queues) :
    (s.addAll ef qdis l).candidates.length ≤ s.candidates.length + l.length := by
  induction l generalizing s with
  | nil => exact le_rfl
  | cons v l ih =>
      have hadd : (s.addToHeap ef v (qdis v)).candidates.length ≤ s.candidates.length + 1 := by
        rw [addToHeap]
        split
        · exact le_rfl
        · exact Nat.le_succ _
      refine (ih (s.addToHeap ef v (qdis v))).trans ?_
      rw [List.length_cons]
      omega

/-- A search in `search_from_candidate_unbounded` ends. -/
theorem searchFromCandidateUnbounded_isSome (hg : g.Closed) (node : Node) (ef : ℕ)
    (vt : VisitedTable) (stats : HNSWStats) :
    (g.searchFromCandidateUnbounded qdis node ef vt stats).isSome := by
  have hturn : ∀ s : UnboundedLoop, True →
      (∃ s', g.unboundedTurn qdis ef s = .done s' ∧ True) ∨
      ∃ s', g.unboundedTurn qdis ef s = .next s' ∧ True ∧
        s'.candidates.length + unvisited (fun _ ↦ true) g.ntotal s'.vt <
          s.candidates.length + unvisited (fun _ ↦ true) g.ntotal s.vt := by
    intro s _
    rw [HNSW.unboundedTurn]
    split
    · exact Or.inl ⟨_, rfl, trivial⟩
    · next d0 v0 candidates hpop =>
      split
      · exact Or.inl ⟨_, rfl, trivial⟩
      · split
        · exact Or.inl ⟨_, rfl, trivial⟩
        · refine Or.inr ⟨_, rfl, trivial, ?_⟩
          obtain ⟨hvis, -, hsub⟩ := visits_entered (g.neighborList v0 0) s.vt
          have hleft := hvis.unvisited_add_length fun v hv ↦ hg.lt (hsub v hv)
          have hadd := Queues.length_addAll_le qdis ef
            (entered enterFresh (g.neighborList v0 0) s.vt).2 ⟨s.topCandidates, candidates, s.ndis⟩
          have hpopped := (pop_perm hpop).length_eq
          rw [List.length_cons] at hpopped
          rw [expandUnbounded_eq]
          dsimp only at hadd ⊢
          omega
  have hle := unvisited_le (fun _ ↦ true) g.ntotal (vt.set node.2)
  obtain ⟨s, hs, -⟩ := iterate_total _ hturn (g.ntotal + 2)
    { topCandidates := [node], candidates := [node], vt := vt.set node.2, ndis := 0, nhops := 0 }
    trivial (by rw [List.length_singleton]; dsimp only; omega)
  rw [HNSW.searchFromCandidateUnbounded, hs]
  rfl

/-- The traversals with a buffer are the ones without it, whatever the graph and the state they
start from, and they end if the table holds vertices of the graph. -/
theorem buffered_eq_reference [LawfulResultHandler H] (g : HNSW) (qdis : ℕ → F32) :
    (∀ (res : H) (candidates : MinimaxHeap) (vt : VisitedTable) (stats : HNSWStats)
        (level nresIn : ℕ) (params : Option SearchParameters),
      g.searchFromCandidates qdis res candidates vt stats level nresIn params =
          g.referenceSearchFromCandidates qdis res candidates vt stats level nresIn params ∧
        (g.Closed →
          (g.searchFromCandidates qdis res candidates vt stats level nresIn params).isSome)) ∧
      (∀ (node : Node) (ef : ℕ) (vt : VisitedTable) (stats : HNSWStats),
        g.searchFromCandidateUnbounded qdis node ef vt stats =
            g.referenceSearchFromCandidateUnbounded qdis node ef vt stats ∧
          (g.Closed → (g.searchFromCandidateUnbounded qdis node ef vt stats).isSome)) ∧
      (∀ (level : ℕ) (s : Nearest) (stats : HNSWStats),
        g.greedyUpdateNearest qdis level s stats =
          g.referenceGreedyUpdateNearest qdis level s stats) ∧
      ∀ (efConstruction : ℕ) (results : List Node) (entryPoint : ℕ) (dEntryPoint : F32)
        (level : ℕ) (vt : VisitedTable),
        g.searchNeighborsToAdd qdis efConstruction results entryPoint dEntryPoint level vt false =
            g.searchNeighborsToAdd qdis efConstruction results entryPoint dEntryPoint level vt
              true ∧
          (g.Closed → (g.searchNeighborsToAdd qdis efConstruction results entryPoint dEntryPoint
            level vt false).isSome) := by
  refine ⟨fun res candidates vt stats level nresIn params ↦ ⟨?_, fun hg ↦ ?_⟩,
    fun node ef vt stats ↦ ⟨?_, fun hg ↦ ?_⟩, greedyUpdateNearest_eq_reference,
    fun efConstruction results entryPoint dEntryPoint level vt ↦ ⟨?_, fun hg ↦ ?_⟩⟩
  · exact searchFromCandidates_eq_reference res candidates vt stats level nresIn params
  · exact searchFromCandidates_isSome hg res candidates vt stats level nresIn params
  · have hturn : g.unboundedTurn qdis ef = g.referenceUnboundedTurn qdis ef :=
      funext (unboundedTurn_eq_reference ef)
    rw [HNSW.searchFromCandidateUnbounded, hturn]
    rfl
  · exact searchFromCandidateUnbounded_isSome hg node ef vt stats
  · have hturn : g.targetTurn qdis efConstruction level false =
        g.targetTurn qdis efConstruction level true :=
      funext (targetTurn_eq_reference efConstruction level)
    rw [HNSW.searchNeighborsToAdd, hturn]
    rfl
  · obtain ⟨results', met, vt', hs, -⟩ := searchNeighborsToAdd_spec qdis efConstruction
      (P := fun _ ↦ True) (fun u _ v hv ↦ ⟨trivial, hg.lt hv⟩) results trivial dEntryPoint vt
    rw [hs]
    rfl

/-- The traversals of a graph of two vertices, with the heap of the best result as the handler. -/
theorem buffered_eq_reference_pair :
    (HNSW.pair.searchFromCandidates (fun _ ↦ ⟨0⟩) (HeapHandler.begin 1 fun _ ↦ (⟨0⟩, 0))
        ((MinimaxHeap.new 2).push 0 ⟨0⟩) (VisitedTable.new 2) {} 0 0 none =
      HNSW.pair.referenceSearchFromCandidates (fun _ ↦ ⟨0⟩)
        (HeapHandler.begin 1 fun _ ↦ (⟨0⟩, 0)) ((MinimaxHeap.new 2).push 0 ⟨0⟩)
        (VisitedTable.new 2) {} 0 0 none) ∧
      (HNSW.pair.searchFromCandidates (fun _ ↦ ⟨0⟩) (HeapHandler.begin 1 fun _ ↦ (⟨0⟩, 0))
        ((MinimaxHeap.new 2).push 0 ⟨0⟩) (VisitedTable.new 2) {} 0 0 none).isSome := by
  obtain ⟨heq, hsome⟩ := (buffered_eq_reference (H := HeapHandler) HNSW.pair fun _ ↦ ⟨0⟩).1
    (HeapHandler.begin 1 fun _ ↦ (⟨0⟩, 0)) ((MinimaxHeap.new 2).push 0 ⟨0⟩) (VisitedTable.new 2) {}
    0 0 none
  exact ⟨heq, hsome (by unfold HNSW.Closed; decide)⟩

end FaissNavix
