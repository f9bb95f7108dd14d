import FaissNavix.HNSW.Results

/-!
# The two queue modes

The bounded and the unbounded search are the same algorithm, as long as the distances are all
different and the relative distance is checked.

The simulation is between the candidate heap, whose entries wait or are taken, and the two queues.
The distances in the heap are those of the `ef` nearest vertices met, like `top_candidates`.  The
vertices waiting in it are those of `candidates` that are still among these; the others of
`candidates` have been dropped from the heap, and the unbounded search stops before it gets to one
of them (`Mirrors`).
-/

namespace FaissNavix

open Lib
open MinimaxHeap (Selects selects_new pushAll)

variable {H : Type} [ResultHandler H] {g : HNSW} {qdis : ℕ → F32} {ef : ℕ}

/-- The candidate heap and the two queues hold the same vertices. -/
structure Mirrors (qdis : ℕ → F32) (ef : ℕ) (c : MinimaxHeap) (topCandidates candidates : List Node)
    (met waiting taken opened : Multiset ℕ) : Prop where
  heap : Selects qdis c met waiting taken
  n_eq : c.n = ef
  queues : TwoQueues qdis ef topCandidates candidates met (waiting + taken) opened
  nodup : met.Nodup
  opened_nodup : opened.Nodup
  waiting_sub : ∀ v ∈ waiting, v ∈ opened
  waiting_of_opened : ∀ v ∈ opened, v ∈ waiting + taken → v ∈ waiting

namespace Mirrors

variable {c : MinimaxHeap} {topCandidates candidates : List Node}
  {met waiting taken opened : Multiset ℕ}

theorem nodup_best (h : Mirrors qdis ef c topCandidates candidates met waiting taken opened) :
    (waiting + taken).Nodup :=
  Multiset.nodup_of_le h.heap.smallest.sub h.nodup

theorem le_of_notMem (h : Mirrors qdis ef c topCandidates candidates met waiting taken opened)
    {u v : ℕ} (hu : u ∈ waiting + taken) (hv : v ∈ met) (hv' : v ∉ waiting + taken) :
    (qdis u).key ≤ (qdis v).key := by
  obtain ⟨R, hR, hkeep⟩ := h.heap.smallest
  have hvR : v ∈ R := by
    rw [hR] at hv
    exact (Multiset.mem_add.mp hv).resolve_left hv'
  exact hkeep.le u hu v hvR

/-- Pushing a new vertex on one side and adding it on the other. -/
theorem push {q : Queues}
    (h : Mirrors qdis ef c q.topCandidates q.candidates met waiting taken opened) {v : ℕ}
    (hv : v ∉ met) (hq : (qdis v).Comparable)
    (hinj : Set.InjOn (fun v ↦ (qdis v).key) {u | u ∈ v ::ₘ met}) :
    ∃ waiting' taken' opened',
      Mirrors qdis ef (c.push v (qdis v)) (q.addToHeap ef v (qdis v)).topCandidates
        (q.addToHeap ef v (qdis v)).candidates (v ::ₘ met) waiting' taken' opened' := by
  obtain ⟨waiting', taken', hs, hw, ht⟩ := h.heap.push hq
  obtain ⟨best', opened', hq', hcase⟩ := h.queues.addToHeap hq
  have hn : (c.push v (qdis v)).n = ef := by rw [MinimaxHeap.n_push, h.n_eq]
  have hsm := hs.smallest
  rw [hn] at hsm
  obtain rfl := hq'.smallest.unique hsm hinj
  have hvbest : v ∉ waiting + taken := fun hc ↦ hv (Multiset.mem_of_le h.heap.smallest.sub hc)
  refine ⟨waiting', taken', opened', hs, hn, hq', Multiset.nodup_cons.mpr ⟨hv, h.nodup⟩, ?_, ?_, ?_⟩
  · rcases hcase with rfl | ⟨rfl, -⟩
    · exact Multiset.nodup_cons.mpr ⟨fun hc ↦ hv (h.queues.sub v hc), h.opened_nodup⟩
    · exact h.opened_nodup
  · intro u hu
    rcases Multiset.mem_cons.mp (Multiset.mem_of_le hw hu) with rfl | hu'
    · rcases hcase with rfl | ⟨-, hsame, -⟩
      · exact Multiset.mem_cons_self _ _
      · exact absurd (hsame ▸ Multiset.mem_add.mpr (Or.inl hu)) hvbest
    · rcases hcase with rfl | ⟨rfl, -⟩
      · exact Multiset.mem_cons_of_mem (h.waiting_sub u hu')
      · exact h.waiting_sub u hu'
  · intro u hu hbest
    rcases Multiset.mem_add.mp hbest with hu' | hu'
    · exact hu'
    -- a vertex taken was taken before, so that it did not wait then
    · have hutaken : u ∈ taken := Multiset.mem_of_le ht hu'
      have huopened : u ∈ opened := by
        rcases hcase with rfl | ⟨rfl, -⟩
        · rcases Multiset.mem_cons.mp hu with rfl | hu
          · exact absurd (Multiset.mem_add.mpr (Or.inr hutaken)) hvbest
          · exact hu
        · exact hu
      have huwaiting := h.waiting_of_opened u huopened (Multiset.mem_add.mpr (Or.inr hutaken))
      exact absurd hutaken (Multiset.disjoint_left.mp (Multiset.nodup_add.mp h.nodup_best).2.2
        huwaiting)

theorem pushAll {q : Queues}
    (h : Mirrors qdis ef c q.topCandidates q.candidates met waiting taken opened) {l : List ℕ}
    (hl : (↑l + met).Nodup) (hq : ∀ v ∈ l, (qdis v).Comparable)
    (hinj : Set.InjOn (fun v ↦ (qdis v).key) {u | u ∈ ↑l + met}) :
    ∃ waiting' taken' opened',
      Mirrors qdis ef (MinimaxHeap.pushAll qdis c l) (q.addAll ef qdis l).topCandidates
        (q.addAll ef qdis l).candidates (↑l + met) waiting' taken' opened' := by
  induction l generalizing c q met waiting taken opened with
  | nil => exact ⟨waiting, taken, opened, by simpa [Queues.addAll] using h⟩
  | cons v l ih =>
      have hshift : (↑(v :: l) : Multiset ℕ) + met = ↑l + v ::ₘ met := by
        rw [← Multiset.cons_coe, Multiset.cons_add, ← Multiset.add_cons]
      rw [hshift] at hl hinj ⊢
      have hv : v ∉ met := fun hv ↦ (Multiset.nodup_cons.mp (Multiset.nodup_add.mp hl).2.1).1 hv
      obtain ⟨w, t, o, h'⟩ := h.push hv (hq v List.mem_cons_self)
        (hinj.mono fun u hu ↦ Multiset.mem_add.mpr (Or.inr hu))
      exact ih h' hl (fun u hu ↦ hq u (List.mem_cons_of_mem _ hu)) hinj

end Mirrors

theorem Mirrors.pop {c c' : MinimaxHeap} {topCandidates candidates candidates' : List Node}
    {met waiting taken opened : Multiset ℕ} {v : ℕ}
    (h : Mirrors qdis ef c topCandidates candidates met (v ::ₘ waiting) taken (v ::ₘ opened))
    (hs : Selects qdis c' met waiting (v ::ₘ taken)) (hn : c'.n = c.n)
    (hq : TwoQueues qdis ef topCandidates candidates' met (v ::ₘ waiting + taken) opened) :
    Mirrors qdis ef c' topCandidates candidates' met waiting (v ::ₘ taken) opened := by
  have hmove : v ::ₘ waiting + taken = waiting + v ::ₘ taken := by
    rw [Multiset.cons_add, Multiset.add_cons]
  have hvw : v ∉ waiting := (Multiset.nodup_cons.mp (Multiset.nodup_add.mp h.nodup_best).1).1
  obtain ⟨hvo, hopened⟩ := Multiset.nodup_cons.mp h.opened_nodup
  refine ⟨hs, hn.trans h.n_eq, hmove ▸ hq, h.nodup, hopened, fun u hu ↦ ?_, fun u hu hbest ↦ ?_⟩
  · rcases Multiset.mem_cons.mp (h.waiting_sub u (Multiset.mem_cons_of_mem hu)) with rfl | hu'
    · exact absurd hu hvw
    · exact hu'
  · rcases Multiset.mem_cons.mp
      (h.waiting_of_opened u (Multiset.mem_cons_of_mem hu) (hmove ▸ hbest)) with rfl | hu'
    · exact absurd hu hvo
    · exact hu'

/-! ## The loops -/

variable {res₀ : H} {vt₀ : VisitedTable} {e : ℕ}

/-- The states of the two loops. -/
def InStep (g : HNSW) (qdis : ℕ → F32) (ef : ℕ) (res₀ : H) (vt₀ : VisitedTable) (e : ℕ)
    (s : CandidateLoop H) (t : UnboundedLoop) : Prop :=
  s.vt = t.vt ∧ ∃ met waiting taken opened, Met g qdis none res₀ vt₀ e s met ∧
    Mirrors qdis ef s.candidates t.topCandidates t.candidates ↑met waiting taken opened

/-- The two loops take the same decisions and mark the same vertices. -/
theorem InStep.turn [LawfulResultHandler H] (hg : g.WellFormed) (he : e < g.ntotal)
    (hq : ∀ v < g.ntotal, (qdis v).Comparable)
    (hinj : Set.InjOn (fun v ↦ (qdis v).key) {v | v < g.ntotal})
    {s : CandidateLoop H} {t : UnboundedLoop} (h : InStep g qdis ef res₀ vt₀ e s t) :
    (∃ s' t', g.candidateTurn qdis none true ef 0 s = .done s' ∧
        g.unboundedTurn qdis ef t = .done t' ∧ s'.vt = t'.vt) ∨
      ∃ s' t', g.candidateTurn qdis none true ef 0 s = .next s' ∧
        g.unboundedTurn qdis ef t = .next t' ∧ InStep g qdis ef res₀ vt₀ e s' t' := by
  obtain ⟨hvt, met, waiting, taken, opened, hmet, hm⟩ := h
  have hlt : ∀ v ∈ met, v < g.ntotal := fun v hv ↦ reachable_lt hg he (hmet.reach v hv)
  have hbest : ∀ {v}, v ∈ waiting + taken → v ∈ met := fun hv ↦
    Multiset.mem_coe.mp (Multiset.mem_of_le hm.heap.smallest.sub hv)
  -- a vertex of the heap and one dropped from it are never at the same distance
  have hfar : ∀ {u v}, u ∈ waiting + taken → v ∈ met → v ∉ waiting + taken →
      (qdis u).key < (qdis v).key := by
    intro u v hu hv hv'
    refine lt_of_le_of_ne (hm.le_of_notMem hu (Multiset.mem_coe.mpr hv) hv') fun heq ↦ hv' ?_
    rw [← hinj (hlt u (hbest hu)) (hlt v hv) heq]
    exact hu
  have hturn := unboundedTurn_cases (g := g) hm.queues
  by_cases hw : waiting = 0
  · have hdone : g.candidateTurn qdis none true ef 0 s = .done s :=
      candidateTurn_done (by rw [hm.heap.size_eq, hw, Multiset.card_zero])
    rcases hturn with ⟨-, hturn⟩ | ⟨v, opened', cand, rfl, -, -, ⟨hturn, -⟩ | ⟨hturn, u, hu, hle⟩⟩
    · exact Or.inl ⟨s, t, hdone, hturn, hvt⟩
    · exact Or.inl ⟨s, t, hdone, hturn, hvt⟩
    · have hvmet : v ∈ met :=
        Multiset.mem_coe.mp (hm.queues.sub v (Multiset.mem_cons_self _ _))
      have hv : v ∉ waiting + taken := fun hv ↦ by
        have := hm.waiting_of_opened v (Multiset.mem_cons_self _ _) hv
        rw [hw] at this
        exact Multiset.notMem_zero _ this
      exact absurd hle (not_le.mpr (hfar hu hvmet hv))
  · obtain ⟨v, waiting', c, hpop, rfl, hs, hmin, hn⟩ := hm.heap.popMin hw
    have hvbest : v ∈ v ::ₘ waiting' + taken :=
      Multiset.mem_add.mpr (Or.inl (Multiset.mem_cons_self _ _))
    have hvopened : v ∈ opened := hm.waiting_sub v (Multiset.mem_cons_self _ _)
    rcases hturn with ⟨hopened, -⟩ | ⟨u, opened', cand, rfl, hqs, hmin', hturn⟩
    · rw [hopened] at hvopened
      exact absurd hvopened (Multiset.notMem_zero _)
    · have humet : u ∈ met :=
        Multiset.mem_coe.mp (hm.queues.sub u (Multiset.mem_cons_self _ _))
      -- both take the same vertex
      obtain rfl : v = u := by
        have hle := hmin' v hvopened
        by_cases hu : u ∈ v ::ₘ waiting' + taken
        · have hu' := hm.waiting_of_opened u (Multiset.mem_cons_self _ _) hu
          exact hinj (hlt v (hbest hvbest)) (hlt u humet) (le_antisymm (hmin u hu') hle)
        · exact absurd hle (not_le.mpr (hfar hvbest humet hu))
      have hnext : g.unboundedTurn qdis ef t =
          .next (g.expandUnbounded qdis ef v { t with candidates := cand }) := by
        rcases hturn with ⟨-, hall⟩ | ⟨hturn, -⟩
        · exact absurd (hall v hvbest) (lt_irrefl _)
        · exact hturn
      have hpopped := hm.pop hs hn hqs
      obtain ⟨new, hmet', -, hcand, -, -, hentered⟩ := hmet.expand (hbest hvbest) c
      have hsize : s.candidates.size ≠ 0 := by
        rw [hm.heap.size_eq]; exact mt Multiset.card_eq_zero.mp hw
      -- as many distances as the heap has room for are never all below the one taken out
      have hgo : ¬ ef ≤ c.countBelow (qdis v) := by
        have h1 := hs.countBelow_lt
        have h2 := hs.valid.le
        have h3 := hpopped.n_eq
        omega
      have hexp := expandUnbounded_eq g qdis ef v { t with candidates := cand }
      rw [(congrArg (entered enterFresh (g.neighborList v 0)) hvt.symm).trans hentered] at hexp
      rw [candidateTurn_eq hsize hpop, if_neg (by simp [hgo]), if_neg (by simp), hnext, hexp]
      have hadd : Mirrors qdis ef c (⟨t.topCandidates, cand, t.ndis⟩ : Queues).topCandidates
        (⟨t.topCandidates, cand, t.ndis⟩ : Queues).candidates ↑met waiting' (v ::ₘ taken) opened' :=
        hpopped
      have hperm : (↑new + ↑met : Multiset ℕ) = ↑(met ++ new) := by
        rw [Multiset.coe_add]; exact Multiset.coe_eq_coe.mpr List.perm_append_comm
      have hlt' : ∀ u ∈ met ++ new, u < g.ntotal := fun u hu ↦
        reachable_lt hg he (hmet'.reach u hu)
      obtain ⟨w, tk, o, hm'⟩ := hadd.pushAll
        (by rw [hperm]; exact Multiset.coe_nodup.mpr hmet'.visits.nodup)
        (fun u hu ↦ hq u (hlt' u (List.mem_append_right _ hu)))
        (hinj.mono fun u hu ↦ hlt' u (by rw [hperm] at hu; exact Multiset.mem_coe.mp hu))
      rw [hperm] at hm'
      refine Or.inr ⟨_, _, rfl, rfl, rfl, _, w, tk, o, hmet', ?_⟩
      rw [hcand]
      exact hm'

/-- The two loops end together, with the same vertices marked. -/
theorem loops_agree [LawfulResultHandler H] (hg : g.WellFormed) (he : e < g.ntotal)
    (hclean : vt₀.Clean g.ntotal) (hq : ∀ v < g.ntotal, (qdis v).Comparable)
    (hinj : Set.InjOn (fun v ↦ (qdis v).key) {v | v < g.ntotal}) (hef : 1 ≤ ef) (res₀ : H)
    {params : Option SearchParameters} (hsel : HNSW.selOf params = none)
    (hcheck : g.doDisCheckOf params = true) (hefs : g.efSearchOf params = ef) {nresIn : ℕ}
    {s : CandidateLoop H} {t : UnboundedLoop} {stats stats' : HNSWStats}
    (hs : g.candidateLoop qdis res₀ ((MinimaxHeap.new ef).push e (qdis e)) vt₀ 0 nresIn params =
      some s)
    (ht : g.searchFromCandidateUnbounded qdis (node qdis e) ef vt₀ stats = some (t, stats')) :
    s.vt = t.vt := by
  obtain ⟨s₀, hmet, hcand, -, hvt, -, hloop⟩ :=
    candidateLoop_eq g qdis res₀ params nresIn hef (hclean e he)
  rw [hloop, hsel, hcheck, hefs] at hs
  rw [hsel] at hmet
  obtain ⟨waiting, taken, hstart, hw, htk⟩ :=
    (selects_new qdis hef).push (hq e he)
  have hfull : waiting + taken = {e} := hstart.smallest.eq_of_card_le (by
    rw [MinimaxHeap.n_push]; exact hef)
  obtain rfl : taken = 0 := Multiset.le_zero.mp htk
  rw [add_zero] at hfull
  subst hfull
  have hqueues : TwoQueues qdis ef [node qdis e] [node qdis e] {e} ({e} + 0) {e} :=
    TwoQueues.start hef (hq e he)
  have hmirrors : Mirrors qdis ef ((MinimaxHeap.new ef).push e (qdis e)) [node qdis e]
      [node qdis e] {e} {e} 0 {e} :=
    ⟨hstart, by rw [MinimaxHeap.n_push]; rfl, hqueues, Multiset.nodup_singleton e,
      Multiset.nodup_singleton e, fun _ hv ↦ hv, fun _ hv _ ↦ hv⟩
  have hstep : InStep g qdis ef res₀ vt₀ e s₀ (unboundedStart qdis e vt₀) :=
    ⟨hvt, [e], {e}, 0, {e}, hmet, by rw [hcand]; exact hmirrors⟩
  obtain ⟨t', ht', hvt'⟩ := iterate_sim (fun s t ↦ InStep.turn hg he hq hinj) (g.ntotal + 2) s₀ _ s
    hstep hs
  rw [searchFromCandidateUnbounded_eq, ht'] at ht
  rw [hvt', ← (Prod.mk.inj (Option.some.inj ht)).1]

/-- Two sorted selections of the nearest of the same vertices are the same list. -/
theorem eq_of_kSmallest {k n : ℕ} {met met' L L' : List ℕ} (hperm : met.Perm met')
    (hlt : ∀ v ∈ met, v < n) (hinj : Set.InjOn (fun v ↦ (qdis v).key) {v | v < n})
    (hL : KSmallest (fun v ↦ (qdis v).key) k ↑met ↑L)
    (hL' : KSmallest (fun v ↦ (qdis v).key) k ↑met' ↑L')
    (hs : L.Pairwise fun u v ↦ qdis u ≤ qdis v) (hs' : L'.Pairwise fun u v ↦ qdis u ≤ qdis v) :
    L = L' := by
  rw [← Multiset.coe_eq_coe.mpr hperm] at hL'
  have hmem : ∀ {M : List ℕ}, (↑M : Multiset ℕ) ≤ ↑met → ∀ v ∈ M, v < n := fun hM v hv ↦
    hlt v (Multiset.mem_coe.mp (Multiset.mem_of_le hM (Multiset.mem_coe.mpr hv)))
  have hset : (↑L : Multiset ℕ) = ↑L' :=
    hL.unique hL' (hinj.mono fun v hv ↦ hlt v (Multiset.mem_coe.mp hv))
  refine List.Perm.eq_of_pairwise (fun u v hu hv huv hvu ↦ ?_) hs hs' (Multiset.coe_eq_coe.mp hset)
  exact hinj (hmem hL.sub u hu) (hmem hL'.sub v hv)
    (le_antisymm (F32.le_iff.mp huv).2.2 (F32.le_iff.mp hvu).2.2)

namespace HeapHandler

/-- Both queue modes yield the same results, when the distances to the vertices are different. -/
theorem search_modes_agree {vt : VisitedTable} {params params' : Option SearchParameters} {k : ℕ}
    (tab : ℕ → F32 × ℤ) (hg : g.WellFormed) (hclean : vt.Clean g.ntotal)
    (hq : ∀ v < g.ntotal, qdis v < F32.max)
    (hdistinct : ∀ u < g.ntotal, ∀ v < g.ntotal, (qdis u).feq (qdis v) = true → u = v)
    (hk : 1 ≤ k) (hkef : k ≤ g.efSearchOf params) (hef : g.efSearchOf params' = g.efSearchOf params)
    (hsel : HNSW.selOf params = none)
    (hcheck : g.doDisCheckOf params = true) (hbounded : g.boundedQueueOf params = true)
    (hunbounded : g.boundedQueueOf params' = false) :
    ∃ stats h vt₁ stats' h' vt₁', g.search qdis (begin k tab) vt params = some (stats, h, vt₁) ∧
      g.search qdis (begin k tab) vt params' = some (stats', h', vt₁') ∧ h.results = h'.results := by
  by_cases hentry : g.entryPoint = -1
  · exact ⟨_, _, _, _, _, _, search_of_entryPoint hentry, search_of_entryPoint hentry, rfl⟩
  have hcomp : ∀ v < g.ntotal, (qdis v).Comparable := fun v hv ↦ F32.Comparable.of_lt (hq v hv)
  have hinj : Set.InjOn (fun v ↦ (qdis v).key) {v | v < g.ntotal} := fun u hu v hv huv ↦
    hdistinct u hu v hv (F32.feq_iff.mpr ⟨hcomp u hu, hcomp v hv, huv⟩)
  have hmax : max (g.efSearchOf params) (HNSW.extractK (begin k tab)) = g.efSearchOf params :=
    max_eq_left hkef
  have hpos : 1 ≤ max (g.efSearchOf params) (HNSW.extractK (begin k tab)) :=
    hk.trans (le_max_right _ _)
  obtain ⟨stats, s, met, hsearch, hmet, -, hloop⟩ :=
    search_bounded qdis hg hentry hbounded hclean hpos
  obtain ⟨stats', t, met', L₀, hsearch', ⟨best, waiting, hrun⟩, hL₀, -, stats₀, stats₁, hloop'⟩ :=
    search_unbounded (begin k tab) hg hentry hunbounded hclean hcomp (by rw [hef]; exact hpos)
  have hlt := (HNSW.greedyEntry_spec qdis hg hentry).1
  have hvt : s.vt = t.vt := by
    rw [hef] at hloop'
    rw [hmax] at hloop hloop' hpos
    exact loops_agree hg hlt hclean hcomp hinj hpos _ hsel hcheck rfl hloop hloop'
  rw [hsel] at hmet
  have hmetlt : ∀ v ∈ met, v < g.ntotal := fun v hv ↦ reachable_lt hg hlt (hmet.reach v hv)
  have hmetlt' : ∀ v ∈ met', v < g.ntotal := fun v hv ↦ reachable_lt hg hlt (hrun.reach v hv)
  -- the vertices met are the ones marked
  have hperm : met.Perm met' := by
    refine (List.perm_ext_iff_of_nodup hmet.visits.nodup hrun.visits.nodup).mpr fun v ↦ ⟨?_, ?_⟩
    · intro hv
      refine hrun.visits.mem_of_get rfl (hclean v (hmetlt v hv)) ?_
      rw [← hvt]
      exact (hmet.visits.get_iff v rfl).mpr (Or.inr hv)
    · intro hv
      refine hmet.visits.mem_of_get rfl (hclean v (hmetlt' v hv)) ?_
      rw [hvt]
      exact (hrun.visits.get_iff v rfl).mpr (Or.inr hv)
  obtain ⟨L, hL, hs, hres⟩ := results_of_met hk hmet fun v hv ↦ hq v (hmetlt v hv)
  obtain ⟨L', hL', hs', hres'⟩ := results_of_kSmallest tab hk hL₀ fun v hv ↦ hq v (hmetlt' v hv)
  refine ⟨stats, _, _, stats', _, _, hsearch, hsearch', ?_⟩
  rw [hres, hres', eq_of_kSmallest hperm hmetlt hinj hL hL' hs hs']

theorem search_modes_agree_pair :
    ∃ stats h vt₁ stats' h' vt₁',
      HNSW.pair.search HNSW.pairDistance (begin 2 fun _ ↦ (F32.max, -1)) (VisitedTable.new 2) none =
          some (stats, h, vt₁) ∧
        HNSW.pair.search HNSW.pairDistance (begin 2 fun _ ↦ (F32.max, -1)) (VisitedTable.new 2)
          (some (unboundedParameters none)) = some (stats', h', vt₁') ∧ h.results = h'.results :=
  search_modes_agree _ HNSW.wellFormed_pair (VisitedTable.clean_new 2 2) HNSW.pairDistance_lt_max
    (by decide) (by decide) (by decide) rfl rfl rfl rfl rfl

end HeapHandler

end FaissNavix
