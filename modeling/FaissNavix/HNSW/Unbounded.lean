import FaissNavix.HNSW.Bounded

/-!
# The unbounded search

`search_from_candidate_unbounded`.  Of the vertices met, one queue keeps the `ef` nearest and the
other those to expand, which are the ones that were among the `ef` nearest when they were met
(`TwoQueues`).  The search ends when none is left, or when the nearest of those left is farther
than all of the `ef` nearest.

The order of a priority queue is only defined when distances compare, which is assumed throughout.
-/

namespace FaissNavix

open Lib
open Lib.BinaryHeap (Refines)
open Lib.PriorityQueue (pop top shrink drain pop_perm le_pop pop_eq_none top_eq_some
  kSmallest_shrink drain_perm)

variable {g : HNSW} {qdis : ℕ → F32}

/-- A vertex as a `Node`. -/
def node (qdis : ℕ → F32) (v : ℕ) : Node := (qdis v, v)

theorem nodeLt_refines :
    Refines (fun x y ↦ nodeLt y x) (fun x : Node ↦ x.1.key) (fun x ↦ x.1.Comparable) where
  le_of_gt {x y} hx hy h := by
    simp only [nodeLt, Bool.or_eq_true, Bool.and_eq_true, Bool.not_eq_true', decide_eq_true_eq,
      decide_eq_false_iff_not] at h
    rcases h with h | h
    · exact (F32.lt_iff.mp h).2.2.le
    · exact (F32.not_lt_iff hx hy).mp h.1
  le_of_not_gt {x y} hx hy h := by
    simp only [nodeLt, Bool.or_eq_false_iff, decide_eq_false_iff_not] at h
    exact (F32.not_lt_iff hy hx).mp h.1

theorem nodeGt_refines :
    Refines (fun x y ↦ nodeGt y x) (fun x : Node ↦ -x.1.key) (fun x ↦ x.1.Comparable) where
  le_of_gt hx hy h := neg_le_neg (nodeLt_refines.le_of_gt hy hx h)
  le_of_not_gt hx hy h := neg_le_neg (nodeLt_refines.le_of_not_gt hy hx h)

theorem pop_nodes {lt : Node → Node → Bool} {q q' : List Node} {y : Node} {M : Multiset ℕ}
    (hq : (↑q : Multiset Node) = M.map (node qdis)) (hpop : pop lt q = some (y, q')) :
    ∃ v M', y = node qdis v ∧ M = v ::ₘ M' ∧ (↑q' : Multiset Node) = M'.map (node qdis) := by
  classical
  rw [Multiset.coe_eq_coe.mpr (pop_perm hpop), ← Multiset.cons_coe] at hq
  obtain ⟨v, hv, hy, herase⟩ := (Multiset.map_eq_cons (node qdis) M ↑q' y).mpr hq.symm
  exact ⟨v, M.erase v, hy.symm, (Multiset.cons_erase hv).symm, herase.symm⟩

/-- Of the vertices `met`, the queues hold the `ef` nearest and those to expand. -/
structure TwoQueues (qdis : ℕ → F32) (ef : ℕ) (topCandidates candidates : List Node)
    (met best waiting : Multiset ℕ) : Prop where
  top_eq : (↑topCandidates : Multiset Node) = best.map (node qdis)
  candidates_eq : (↑candidates : Multiset Node) = waiting.map (node qdis)
  comparable : ∀ v ∈ met, (qdis v).Comparable
  smallest : KSmallest (fun v ↦ (qdis v).key) ef met best
  sub : ∀ v ∈ waiting, v ∈ met

namespace TwoQueues

variable {ef : ℕ} {topCandidates candidates : List Node} {met best waiting : Multiset ℕ}

theorem start {e : ℕ} (hef : 1 ≤ ef) (he : (qdis e).Comparable) :
    TwoQueues qdis ef [node qdis e] [node qdis e] {e} {e} {e} where
  top_eq := rfl
  candidates_eq := rfl
  comparable := fun v hv ↦ by rw [Multiset.mem_singleton.mp hv]; exact he
  smallest := KSmallest.self (by simpa using hef)
  sub := fun _ hv ↦ hv

section
variable (h : TwoQueues qdis ef topCandidates candidates met best waiting)
include h

theorem length_eq :
    topCandidates.length = best.card := by
  rw [← Multiset.coe_card, h.top_eq, Multiset.card_map]

theorem candidates_length_eq :
    candidates.length = waiting.card := by
  rw [← Multiset.coe_card, h.candidates_eq, Multiset.card_map]

theorem comparable_of_mem {v : ℕ} (hv : v ∈ best) : (qdis v).Comparable :=
  h.comparable v (Multiset.mem_of_le h.smallest.sub hv)

/-- The top of the queue of the nearest is the farthest of them. -/
theorem top_spec :
    (best = 0 ∧ top nodeLt topCandidates = none) ∨
      ∃ t ∈ best, top nodeLt topCandidates = some (node qdis t) ∧
        ∀ u ∈ best, (qdis u).key ≤ (qdis t).key := by
  cases hpop : pop nodeLt topCandidates with
  | none =>
      refine Or.inl ⟨?_, by rw [top, hpop]; rfl⟩
      have htop := h.top_eq
      rw [pop_eq_none.mp hpop] at htop
      exact Multiset.map_eq_zero.mp htop.symm
  | some r =>
      obtain ⟨y, q'⟩ := r
      obtain ⟨t, M', rfl, hM, -⟩ := pop_nodes h.top_eq hpop
      have hmem : ∀ {u : ℕ}, u ∈ best → node qdis u ∈ topCandidates := fun hu ↦ by
        rw [← Multiset.mem_coe, h.top_eq]; exact Multiset.mem_map_of_mem _ hu
      refine Or.inr ⟨t, by rw [hM]; exact Multiset.mem_cons_self _ _, top_eq_some.mpr ⟨q', hpop⟩,
        fun u hu ↦ le_pop nodeLt_refines (fun x hx ↦ ?_) hpop (node qdis u) (hmem hu)⟩
      rw [← Multiset.mem_coe, h.top_eq] at hx
      obtain ⟨u, hu, rfl⟩ := Multiset.mem_map.mp hx
      exact h.comparable_of_mem hu

end

/-- A vertex is taken in if it is among the `ef` nearest of those met so far. -/
theorem addToHeap {q : Queues} (h : TwoQueues qdis ef q.topCandidates q.candidates met best waiting)
    {v : ℕ} (hv : (qdis v).Comparable) :
    ∃ best' waiting',
      TwoQueues qdis ef (q.addToHeap ef v (qdis v)).topCandidates
        (q.addToHeap ef v (qdis v)).candidates (v ::ₘ met) best' waiting' ∧
      (waiting' = v ::ₘ waiting ∨ waiting' = waiting ∧ best' = best ∧ best.card = ef) := by
  obtain ⟨topCandidates, candidates, ndis⟩ := q
  simp only at h
  have hcomp : ∀ u ∈ v ::ₘ met, (qdis u).Comparable :=
    Multiset.forall_mem_cons.mpr ⟨hv, h.comparable⟩
  have hlen := h.length_eq
  have hle := h.smallest.card_le
  have hcons : (↑((qdis v, v) :: topCandidates) : Multiset Node) = (v ::ₘ best).map (node qdis) := by
    rw [← Multiset.cons_coe, h.top_eq, Multiset.map_cons]; rfl
  have hcand : (↑((qdis v, v) :: candidates) : Multiset Node) =
      (v ::ₘ waiting).map (node qdis) := by
    rw [← Multiset.cons_coe, h.candidates_eq, Multiset.map_cons]; rfl
  have hsub : ∀ u ∈ v ::ₘ waiting, u ∈ v ::ₘ met := fun u hu ↦ by
    rcases Multiset.mem_cons.mp hu with rfl | hu
    · exact Multiset.mem_cons_self _ _
    · exact Multiset.mem_cons_of_mem (h.sub u hu)
  by_cases hroom : topCandidates.length < ef
  · -- there is room, so that everything met so far is among the nearest
    have hmet : met.card < ef := by
      have := h.smallest.card_eq
      omega
    have hq : Queues.addToHeap ef ⟨topCandidates, candidates, ndis⟩ v (qdis v) =
        ⟨(qdis v, v) :: topCandidates, (qdis v, v) :: candidates, ndis⟩ := by
      rw [Queues.addToHeap, if_pos (Or.inr hroom)]
      simp only [List.length_cons, if_neg (show ¬ ef < topCandidates.length + 1 by omega)]
    rw [hq]
    exact ⟨_, _, ⟨hcons, hcand, hcomp, h.smallest.cons_of_card_lt hmet, hsub⟩, Or.inl rfl⟩
  · have hfull : best.card = ef := by omega
    by_cases habove : topAbove topCandidates (qdis v) = true
    · have hq : Queues.addToHeap ef ⟨topCandidates, candidates, ndis⟩ v (qdis v) =
          ⟨popTop ((qdis v, v) :: topCandidates), (qdis v, v) :: candidates, ndis⟩ := by
        rw [Queues.addToHeap, if_pos (Or.inl habove)]
        simp only [List.length_cons, if_pos (show ef < topCandidates.length + 1 by omega)]
      rw [hq]
      cases hpop : pop nodeLt ((qdis v, v) :: topCandidates) with
      | none => exact absurd (pop_eq_none.mp hpop) (List.cons_ne_nil _ _)
      | some r =>
          obtain ⟨y, q'⟩ := r
          obtain ⟨t, best', rfl, hbest, hq'⟩ := pop_nodes hcons hpop
          have hcomp' : ∀ x ∈ (qdis v, v) :: topCandidates, x.1.Comparable := fun x hx ↦ by
            rw [← Multiset.mem_coe, hcons] at hx
            obtain ⟨u, hu, rfl⟩ := Multiset.mem_map.mp hx
            rcases Multiset.mem_cons.mp hu with rfl | hu
            · exact hv
            · exact h.comparable_of_mem hu
          have hmax : ∀ u ∈ v ::ₘ best, (qdis u).key ≤ (qdis t).key := fun u hu ↦ by
            refine le_pop nodeLt_refines hcomp' hpop (node qdis u) ?_
            rw [← Multiset.mem_coe, hcons]
            exact Multiset.mem_map_of_mem _ hu
          refine ⟨best', _, ⟨?_, hcand, hcomp, h.smallest.cons_drop hfull hbest hmax, hsub⟩,
            Or.inl rfl⟩
          rw [popTop, hpop]
          exact hq'
    · have hq : Queues.addToHeap ef ⟨topCandidates, candidates, ndis⟩ v (qdis v) =
          ⟨topCandidates, candidates, ndis⟩ := by
        rw [Queues.addToHeap, if_neg (by simp only [habove, hroom]; simp)]
      rw [hq]
      refine ⟨best, waiting, ⟨h.top_eq, h.candidates_eq, hcomp, ?_, fun u hu ↦
        Multiset.mem_cons_of_mem (h.sub u hu)⟩, Or.inr ⟨rfl, rfl, hfull⟩⟩
      refine h.smallest.cons_of_le hfull fun u hu ↦ ?_
      rcases h.top_spec with ⟨rfl, -⟩ | ⟨t, ht, htop, hmax⟩
      · exact absurd hu (Multiset.notMem_zero _)
      · rw [topAbove, htop] at habove
        exact (hmax u hu).trans ((F32.not_lt_iff hv (h.comparable_of_mem ht)).mp fun hlt ↦
          habove (decide_eq_true hlt))

end TwoQueues

/-! ## One turn -/

def Queues.addAll (ef : ℕ) (qdis : ℕ → F32) (s : Queues) (l : List ℕ) : Queues :=
  l.foldl (fun s v ↦ s.addToHeap ef v (qdis v)) s

@[simp] theorem Queues.ndis_addToHeap (ef v : ℕ) (d : F32) (s : Queues) :
    (s.addToHeap ef v d).ndis = s.ndis := by
  unfold Queues.addToHeap
  split <;> rfl

@[simp] theorem Queues.ndis_addAll (ef : ℕ) (l : List ℕ) (s : Queues) :
    (s.addAll ef qdis l).ndis = s.ndis := by
  induction l generalizing s with
  | nil => rfl
  | cons v l ih => exact (ih _).trans (Queues.ndis_addToHeap ef v (qdis v) s)

theorem Queues.addAll_ndis (ef : ℕ) (l : List ℕ) (s : Queues) (n : ℕ) :
    ({ s with ndis := n } : Queues).addAll ef qdis l = { s.addAll ef qdis l with ndis := n } := by
  induction l generalizing s with
  | nil => rfl
  | cons v l ih =>
      have hone : ({ s with ndis := n } : Queues).addToHeap ef v (qdis v) =
          { s.addToHeap ef v (qdis v) with ndis := n } := by
        unfold Queues.addToHeap
        split <;> rfl
      rw [Queues.addAll, List.foldl_cons, hone]
      exact ih _

theorem Queues.foldl_addOne (ef : ℕ) (l : List ℕ) (s : Queues) :
    l.foldl (Queues.addOne ef qdis) s =
      { s.addAll ef qdis l with ndis := s.ndis + l.length } := by
  induction l generalizing s with
  | nil => rfl
  | cons v l ih =>
      rw [List.foldl_cons, ih, Queues.addOne, Queues.addAll_ndis, Queues.ndis_addToHeap,
        List.length_cons, Nat.add_right_comm, Nat.add_assoc]
      rfl

theorem Queues.addFour_eq (ef : ℕ) (s : Queues) (l : List ℕ) (hl : l.length = 4) :
    s.addFour ef qdis l = l.foldl (Queues.addOne ef qdis) s := by
  rw [Queues.foldl_addOne, Queues.addFour, List.foldl_map, hl]
  change { s.addAll ef qdis l with ndis := (s.addAll ef qdis l).ndis + 4 } = _
  rw [Queues.ndis_addAll]

theorem expandUnbounded_eq (g : HNSW) (qdis : ℕ → F32) (ef v0 : ℕ) (s : UnboundedLoop) :
    g.expandUnbounded qdis ef v0 s =
      let new := (entered enterFresh (g.neighborList v0 0) s.vt).2
      let q := Queues.addAll ef qdis ⟨s.topCandidates, s.candidates, s.ndis⟩ new
      { topCandidates := q.topCandidates
        candidates := q.candidates
        vt := (entered enterFresh (g.neighborList v0 0) s.vt).1
        ndis := s.ndis + new.length
        nhops := s.nhops + 1 } := by
  rw [HNSW.expandUnbounded, buffered_eq (Queues.addFour_eq ef), List.nil_append,
    Queues.foldl_addOne]

/-- Adding several vertices; all of them wait if there is room for everything met. -/
theorem TwoQueues.addAll {ef : ℕ} {q : Queues} {met best waiting : Multiset ℕ}
    (h : TwoQueues qdis ef q.topCandidates q.candidates met best waiting) {l : List ℕ}
    (hl : ∀ v ∈ l, (qdis v).Comparable) :
    ∃ best' waiting',
      TwoQueues qdis ef (q.addAll ef qdis l).topCandidates (q.addAll ef qdis l).candidates
        (↑l + met) best' waiting' ∧
      waiting'.card ≤ l.length + waiting.card ∧
      ((↑l + met).card ≤ ef → waiting' = ↑l + waiting) := by
  induction l generalizing q met best waiting with
  | nil => exact ⟨best, waiting, by simpa [Queues.addAll] using h, by simp⟩
  | cons v l ih =>
      obtain ⟨b, w, h', hw⟩ := h.addToHeap (hl v List.mem_cons_self)
      obtain ⟨b', w', h'', hcard, hall⟩ := ih h' fun u hu ↦ hl u (List.mem_cons_of_mem _ hu)
      have hshift : ∀ M : Multiset ℕ, (↑(v :: l) : Multiset ℕ) + M = ↑l + v ::ₘ M := fun M ↦ by
        rw [← Multiset.cons_coe, Multiset.cons_add, ← Multiset.add_cons]
      rw [hshift, hshift, List.length_cons]
      refine ⟨b', w', h'', ?_, fun hroom ↦ ?_⟩
      · rcases hw with rfl | ⟨rfl, -⟩
        · rw [Multiset.card_cons] at hcard; omega
        · omega
      · rcases hw with rfl | ⟨-, -, hfull⟩
        · exact hall hroom
        · have hle := Multiset.card_le_card h.smallest.sub
          rw [Multiset.card_add, Multiset.card_cons] at hroom
          omega

theorem expandUnbounded_spec {ef v : ℕ} {s : UnboundedLoop} {met best waiting : Multiset ℕ}
    (h : TwoQueues qdis ef s.topCandidates s.candidates met best waiting)
    (hq : ∀ u, g.Edge v u → (qdis u).Comparable) :
    ∃ new best' waiting',
      Visits (fun _ ↦ true) s.vt (g.expandUnbounded qdis ef v s).vt new ∧
      (∀ u, g.Edge v u → (g.expandUnbounded qdis ef v s).vt.get u = true) ∧
      (∀ u ∈ new, g.Edge v u) ∧
      TwoQueues qdis ef (g.expandUnbounded qdis ef v s).topCandidates
        (g.expandUnbounded qdis ef v s).candidates (↑new + met) best' waiting' ∧
      waiting'.card ≤ new.length + waiting.card ∧
      ((↑new + met).card ≤ ef → waiting' = ↑new + waiting) := by
  obtain ⟨hvis, hedges, hsub⟩ := visits_entered (g.neighborList v 0) s.vt
  have hadd : TwoQueues qdis ef (⟨s.topCandidates, s.candidates, s.ndis⟩ : Queues).topCandidates
    (⟨s.topCandidates, s.candidates, s.ndis⟩ : Queues).candidates met best waiting := h
  obtain ⟨best', waiting', hq', hcard, hall⟩ := hadd.addAll fun u hu ↦ hq u (hsub u hu)
  rw [expandUnbounded_eq]
  exact ⟨_, best', waiting', hvis, hedges, hsub, hq', hcard, hall⟩

/-- What one turn does: it takes out a nearest waiting vertex, which it expands unless all of the
nearest are nearer. -/
theorem unboundedTurn_cases {ef : ℕ} {s : UnboundedLoop} {met best waiting : Multiset ℕ}
    (h : TwoQueues qdis ef s.topCandidates s.candidates met best waiting) :
    (waiting = 0 ∧ g.unboundedTurn qdis ef s = .done s) ∨
      ∃ (v : ℕ) (waiting' : Multiset ℕ) (candidates : List Node), waiting = v ::ₘ waiting' ∧
        TwoQueues qdis ef s.topCandidates candidates met best waiting' ∧
        (∀ u ∈ waiting, (qdis v).key ≤ (qdis u).key) ∧
        ((g.unboundedTurn qdis ef s = .done s ∧ ∀ u ∈ best, (qdis u).key < (qdis v).key) ∨
          g.unboundedTurn qdis ef s =
              .next (g.expandUnbounded qdis ef v { s with candidates }) ∧
            ∃ u ∈ best, (qdis v).key ≤ (qdis u).key) := by
  cases hpop : pop nodeGt s.candidates with
  | none =>
      refine Or.inl ⟨?_, by rw [HNSW.unboundedTurn, hpop]⟩
      have hcand := h.candidates_eq
      rw [pop_eq_none.mp hpop] at hcand
      exact Multiset.map_eq_zero.mp hcand.symm
  | some r =>
      obtain ⟨y, candidates⟩ := r
      obtain ⟨v, waiting', rfl, rfl, hcand'⟩ := pop_nodes h.candidates_eq hpop
      have hcomp : ∀ u ∈ v ::ₘ waiting', (qdis u).Comparable := fun u hu ↦
        h.comparable u (h.sub u hu)
      have hmin : ∀ u ∈ v ::ₘ waiting', (qdis v).key ≤ (qdis u).key := fun u hu ↦ by
        have hmem : node qdis u ∈ s.candidates := by
          rw [← Multiset.mem_coe, h.candidates_eq]; exact Multiset.mem_map_of_mem _ hu
        refine neg_le_neg_iff.mp (le_pop nodeGt_refines (fun x hx ↦ ?_) hpop (node qdis u) hmem)
        rw [← Multiset.mem_coe, h.candidates_eq] at hx
        obtain ⟨w, hw, rfl⟩ := Multiset.mem_map.mp hx
        exact hcomp w hw
      refine Or.inr ⟨v, waiting', candidates, rfl, ⟨h.top_eq, hcand', h.comparable, h.smallest,
        fun u hu ↦ h.sub u (Multiset.mem_cons_of_mem hu)⟩, hmin, ?_⟩
      have hv := hcomp v (Multiset.mem_cons_self _ _)
      rw [HNSW.unboundedTurn, hpop]
      rcases h.top_spec with ⟨rfl, htop⟩ | ⟨t, ht, htop, hmax⟩
      · rw [htop]
        exact Or.inl ⟨rfl, fun u hu ↦ absurd hu (Multiset.notMem_zero _)⟩
      · rw [htop]
        have htc := h.comparable_of_mem ht
        by_cases hlt : qdis t < qdis v
        · exact Or.inl ⟨if_pos hlt, fun u hu ↦ (hmax u hu).trans_lt (F32.lt_iff.mp hlt).2.2⟩
        · exact Or.inr ⟨if_neg hlt, t, ht, (F32.not_lt_iff htc hv).mp hlt⟩

/-! ## The whole loop -/

/-- What every turn keeps; when there is room for all vertices, those met that do not wait have
been expanded. -/
structure UnboundedRunning (g : HNSW) (qdis : ℕ → F32) (ef : ℕ) (vt₀ : VisitedTable) (e : ℕ)
    (s : UnboundedLoop) (met : List ℕ) (best waiting : Multiset ℕ) : Prop where
  visits : Visits (fun _ ↦ true) vt₀ s.vt met
  reach : ∀ v ∈ met, v ∈ reachable g.Edge {e}
  queues : TwoQueues qdis ef s.topCandidates s.candidates met best waiting
  wide : g.ntotal ≤ ef → ∃ taken : Multiset ℕ, waiting + taken = ↑met ∧
    Traversal g.Edge {e} {v | v ∈ met} {v | v ∈ taken}

def unboundedRemaining (g : HNSW) (s : UnboundedLoop) : ℕ :=
  s.candidates.length + unvisited (fun _ ↦ true) g.ntotal s.vt

variable {ef : ℕ} {vt₀ : VisitedTable} {e : ℕ} {s : UnboundedLoop}

theorem UnboundedRunning.turn (hg : g.WellFormed) (he : e < g.ntotal)
    (hclean : vt₀.Clean g.ntotal) (hq : ∀ v < g.ntotal, (qdis v).Comparable)
    (hs : ∃ met best waiting, UnboundedRunning g qdis ef vt₀ e s met best waiting) :
    (∃ s', g.unboundedTurn qdis ef s = .done s' ∧
        ∃ met best waiting, UnboundedRunning g qdis ef vt₀ e s' met best waiting ∧
          (g.ntotal ≤ ef → reachable g.Edge {e} ⊆ {v | v ∈ met})) ∨
      ∃ s', g.unboundedTurn qdis ef s = .next s' ∧
        (∃ met best waiting, UnboundedRunning g qdis ef vt₀ e s' met best waiting) ∧
        unboundedRemaining g s' < unboundedRemaining g s := by
  obtain ⟨met, best, waiting, h⟩ := hs
  have hlen : met.length ≤ g.ntotal :=
    length_le_of_nodup h.visits.nodup fun v hv ↦ reachable_lt hg he (h.reach v hv)
  rcases unboundedTurn_cases (g := g) h.queues with
    ⟨hw, hturn⟩ | ⟨v, waiting', candidates, rfl, hq', hmin, hturn⟩
  · refine Or.inl ⟨s, hturn, met, best, waiting, h, fun hef ↦ ?_⟩
    obtain ⟨taken, hall, htrav⟩ := h.wide hef
    rw [hw, zero_add] at hall
    exact htrav.reachable_subset fun u hu ↦ hall.symm ▸ Multiset.mem_coe.mpr hu
  · have hv : v ∈ met := h.queues.sub v (Multiset.mem_cons_self _ _)
    rcases hturn with ⟨hturn, hfar⟩ | ⟨hturn, -⟩
    · refine Or.inl ⟨s, hturn, met, best, _, h, fun hef ↦ ?_⟩
      -- everything met is among the nearest, `v` itself included
      have hbest := h.queues.smallest.eq_of_card_le (by rw [Multiset.coe_card]; omega)
      exact absurd (hfar v (by rw [hbest]; exact Multiset.mem_coe.mpr hv)) (lt_irrefl _)
    · have hvlt : v < g.ntotal := reachable_lt hg he (h.reach v hv)
      obtain ⟨new, best', waiting'', hvis, hedges, hsub, hq'', hcard, hall⟩ :=
        expandUnbounded_spec (s := { s with candidates }) hq' fun u hu ↦ hq u (hg.edge_lt hvlt hu)
      have hmet : (↑new + ↑met : Multiset ℕ) = ↑(met ++ new) := by
        rw [Multiset.coe_add]; exact Multiset.coe_eq_coe.mpr List.perm_append_comm
      have hvis' := h.visits.append hvis
      have hreach' : ∀ u ∈ met ++ new, u ∈ reachable g.Edge {e} := fun u hu ↦ by
        rcases List.mem_append.mp hu with hu | hu
        · exact h.reach u hu
        · exact reachable_step (h.reach v hv) (hsub u hu)
      rw [hmet] at hq'' hall
      refine Or.inr ⟨_, hturn, ⟨_, best', waiting'', hvis', hreach', hq'', fun hef ↦ ?_⟩, ?_⟩
      · obtain ⟨taken, hsplit, htrav⟩ := h.wide hef
        have hlen' : (met ++ new).length ≤ g.ntotal :=
          length_le_of_nodup hvis'.nodup fun u hu ↦ reachable_lt hg he (hreach' u hu)
        refine ⟨v ::ₘ taken, ?_, ?_⟩
        · rw [hall (by rw [Multiset.coe_card]; omega), ← Multiset.coe_add, ← hsplit,
            add_comm _ (↑new : Multiset ℕ), Multiset.add_cons, Multiset.cons_add,
            Multiset.add_cons, add_assoc]
        · have hseen := htrav.expand (u := v) (show v ∈ {v | v ∈ met} from hv)
            (show {v | v ∈ met} ⊆ {u | u ∈ met ++ new} from fun u hu ↦ List.mem_append_left _ hu)
            fun u hu ↦ hvis'.mem_of_get rfl (hclean u (hg.edge_lt hvlt hu)) (hedges u hu)
          convert hseen using 1
          ext u
          simp [Multiset.mem_cons]
      · have hun := hvis.unvisited_add_length fun u hu ↦ hg.edge_lt hvlt (hsub u hu)
        rw [unboundedRemaining, unboundedRemaining, hq''.candidates_length_eq,
          h.queues.candidates_length_eq, Multiset.card_cons]
        simp only at hun
        omega

/-- The variables that the loop starts with. -/
def unboundedStart (qdis : ℕ → F32) (e : ℕ) (vt : VisitedTable) : UnboundedLoop where
  topCandidates := [node qdis e]
  candidates := [node qdis e]
  vt := vt.set e
  ndis := 0
  nhops := 0

/-- The statistics after the loop. -/
def unboundedStats (stats : HNSWStats) (s : UnboundedLoop) : HNSWStats where
  n1 := stats.n1 + 1
  n2 := if s.candidates.length = 0 then stats.n2 + 1 else stats.n2
  ndis := stats.ndis + s.ndis
  nhops := stats.nhops + s.nhops

theorem searchFromCandidateUnbounded_eq (g : HNSW) (qdis : ℕ → F32) (e ef : ℕ) (vt : VisitedTable)
    (stats : HNSWStats) :
    g.searchFromCandidateUnbounded qdis (node qdis e) ef vt stats =
      (iterate (g.unboundedTurn qdis ef) (g.ntotal + 2) (unboundedStart qdis e vt)).map fun s ↦
        (s, unboundedStats stats s) := by
  rw [HNSW.searchFromCandidateUnbounded]
  change Option.bind (iterate (g.unboundedTurn qdis ef) (g.ntotal + 2) (unboundedStart qdis e vt)) _ = _
  cases iterate (g.unboundedTurn qdis ef) (g.ntotal + 2) (unboundedStart qdis e vt) <;> rfl

theorem unboundedRunning_start (he : e < g.ntotal) (hclean : vt₀.Clean g.ntotal)
    (hq : ∀ v < g.ntotal, (qdis v).Comparable) (hef : 1 ≤ ef) :
    UnboundedRunning g qdis ef vt₀ e (unboundedStart qdis e vt₀) [e] {e} {e} := by
  have htrav : Traversal g.Edge {e} {v | v ∈ [e]} {v : ℕ | v ∈ (0 : Multiset ℕ)} := by
    have hempty : {v : ℕ | v ∈ (0 : Multiset ℕ)} = ∅ := by ext v; simp
    rw [hempty]
    exact Traversal.start (by simp)
  exact ⟨Visits.mark rfl (hclean e he), fun v hv ↦ subset_reachable (by simpa using hv),
    TwoQueues.start hef (hq e he), fun _ ↦ ⟨0, by simp, htrav⟩⟩

/-- The loop ends with the `ef` nearest of the vertices met, which are all the reachable ones if
there is room for all vertices. -/
theorem searchFromCandidateUnbounded_total (hg : g.WellFormed) (he : e < g.ntotal)
    (hclean : vt₀.Clean g.ntotal) (hq : ∀ v < g.ntotal, (qdis v).Comparable) (hef : 1 ≤ ef)
    (stats : HNSWStats) :
    ∃ s stats' met best waiting,
      g.searchFromCandidateUnbounded qdis (node qdis e) ef vt₀ stats = some (s, stats') ∧
      UnboundedRunning g qdis ef vt₀ e s met best waiting ∧
      (g.ntotal ≤ ef → ∀ v, v ∈ met ↔ v ∈ reachable g.Edge {e}) := by
  have hμ := unvisited_le (fun _ ↦ true) g.ntotal (vt₀.set e)
  obtain ⟨s, hs, met, best, waiting, hrun, hall⟩ := iterate_total (unboundedRemaining g)
    (fun (s : UnboundedLoop)
        (hs : ∃ met best waiting, UnboundedRunning g qdis ef vt₀ e s met best waiting) ↦
      UnboundedRunning.turn hg he hclean hq hs)
    (g.ntotal + 2) _ ⟨_, _, _, unboundedRunning_start he hclean hq hef⟩
    (by simp only [unboundedRemaining, unboundedStart, List.length_singleton]; omega)
  refine ⟨s, unboundedStats stats s, met, best, waiting, ?_, hrun,
    fun hef v ↦ ⟨hrun.reach v, fun hv ↦ hall hef hv⟩⟩
  rw [searchFromCandidateUnbounded_eq, hs]
  rfl

/-- The last lines of a search: the `k` nearest go to the handler. -/
theorem addTopCandidates_eq {H : Type} [ResultHandler H] {topCandidates candidates : List Node}
    {met best waiting : Multiset ℕ}
    (h : TwoQueues qdis ef topCandidates candidates met best waiting) (k : ℕ) (res : H) :
    ∃ L : List ℕ, KSmallest (fun v ↦ (qdis v).key) k best ↑L ∧
      HNSW.addTopCandidates k topCandidates res =
        L.foldl (fun res v ↦ (ResultHandler.addResult res (qdis v) v).1) res := by
  have hcomp : ∀ x ∈ topCandidates, x.1.Comparable := fun x hx ↦ by
    rw [← Multiset.mem_coe, h.top_eq] at hx
    obtain ⟨u, hu, rfl⟩ := Multiset.mem_map.mp hx
    exact h.comparable_of_mem hu
  have hsm := kSmallest_shrink (k := k) nodeLt_refines topCandidates.length
    topCandidates (Nat.le_add_right _ _) hcomp
  generalize hshrink : shrink nodeLt k topCandidates.length topCandidates = q at hsm
  have hdrain : (drain nodeLt q.length q).Perm q := drain_perm q.length q le_rfl
  rw [h.top_eq, ← Multiset.coe_eq_coe.mpr hdrain] at hsm
  obtain ⟨T, hT, hTmap⟩ := hsm.of_map
  have hnode : ∀ x ∈ drain nodeLt q.length q, x = node qdis x.2 := fun x hx ↦ by
    rw [← Multiset.mem_coe, ← hTmap] at hx
    obtain ⟨v, -, rfl⟩ := Multiset.mem_map.mp hx
    rfl
  refine ⟨(drain nodeLt q.length q).map Prod.snd, ?_, ?_⟩
  · have hTL : T = ↑((drain nodeLt q.length q).map Prod.snd) := by
      rw [← Multiset.map_coe, ← hTmap, Multiset.map_map]
      exact (Multiset.map_id' T).symm
    rw [← hTL]
    exact hT
  · rw [HNSW.addTopCandidates, hshrink, List.foldl_map]
    refine List.foldl_ext _ _ _ fun res x hx ↦ ?_
    rw [show x.1 = qdis x.2 from congrArg Prod.fst (hnode x hx)]

end FaissNavix
