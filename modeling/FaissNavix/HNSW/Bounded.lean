import FaissNavix.HNSW.Candidates
import FaissNavix.HNSW.Search
import FaissNavix.Lib.Traversal

/-!
# The bounded search

`search_from_candidates` on level 0, from the one vertex that the greedy descent ends at.

Every turn takes the nearest waiting vertex, marks its neighbours, and offers and pushes those that
were not marked before, each once and in their order (`expandCandidate_spec`).  So whatever the
distances are and however many entries the heap has to drop, the vertices met are all different and
reachable from the start, the handler has been offered those that the selector accepts, and the
search ends (`candidateLoop_total`).

When the heap has room for all vertices, none is dropped and neither of the two stopping rules can
hold before every reachable vertex is met (`candidateLoop_wide`).
-/

namespace FaissNavix

open Lib
open MinimaxHeap (Tracks tracks_new pushAll)

variable {H : Type} [ResultHandler H] {g : HNSW} {qdis : ℕ → F32}
  {sel : Option (ℤ → Bool)}

theorem Collected.foldl_addOne (l : List ℕ) (s : Collected H) :
    l.foldl (Collected.addOne sel qdis) s =
      { off := s.off.offerEach qdis (l.filter fun v ↦ isSelected sel v)
        candidates := pushAll qdis s.candidates l
        ndis := s.ndis + l.length } := by
  induction l generalizing s with
  | nil => rfl
  | cons v l ih =>
      rw [List.foldl_cons, ih, List.filter_cons, List.length_cons]
      simp only [Collected.addOne, Collected.addToHeap, MinimaxHeap.pushAll_cons]
      rw [Nat.add_right_comm, Nat.add_assoc]
      split <;> rfl

theorem Collected.addFour_eq (s : Collected H) (l : List ℕ) (hl : l.length = 4) :
    s.addFour sel qdis l = l.foldl (Collected.addOne sel qdis) s := by
  have hfold : ∀ (l : List ℕ) (s : Collected H),
      (l.map fun v ↦ (v, qdis v)).foldl (fun s p ↦ s.addToHeap sel p.1 p.2) s =
        { off := s.off.offerEach qdis (l.filter fun v ↦ isSelected sel v)
          candidates := pushAll qdis s.candidates l
          ndis := s.ndis } := by
    intro l
    induction l with
    | nil => intro s; rfl
    | cons v l ih =>
        intro s
        rw [List.map_cons, List.foldl_cons, ih, List.filter_cons]
        simp only [Collected.addToHeap, MinimaxHeap.pushAll_cons]
        split <;> rfl
  rw [Collected.addFour, hfold, Collected.foldl_addOne, hl]

theorem expandCandidate_eq (g : HNSW) (qdis : ℕ → F32) (sel : Option (ℤ → Bool)) (level v0 : ℕ)
    (s : CandidateLoop H) :
    g.expandCandidate qdis sel level v0 s =
      { toCollected := (entered enterFresh (g.neighborList v0 level) s.vt).2.foldl
          (Collected.addOne sel qdis)
          { s.toCollected with
            off := { s.off with threshold := ResultHandler.threshold s.off.res } }
        vt := (entered enterFresh (g.neighborList v0 level) s.vt).1
        nstep := s.nstep + 1 } := by
  rw [HNSW.expandCandidate, buffered_eq Collected.addFour_eq, List.nil_append]

/-- One expansion: the neighbours that were not marked are offered and pushed. -/
theorem expandCandidate_spec [LawfulResultHandler H] (g : HNSW) (qdis : ℕ → F32)
    (sel : Option (ℤ → Bool)) (level v0 : ℕ) (s : CandidateLoop H) :
    ∃ new, Visits (fun _ ↦ true) s.vt (g.expandCandidate qdis sel level v0 s).vt new ∧
      (∀ v ∈ g.neighborList v0 level, (g.expandCandidate qdis sel level v0 s).vt.get v = true) ∧
      (∀ v ∈ new, v ∈ g.neighborList v0 level) ∧
      (g.expandCandidate qdis sel level v0 s).candidates = pushAll qdis s.candidates new ∧
      (g.expandCandidate qdis sel level v0 s).off.res =
        offerAll qdis s.off.res (new.filter fun v ↦ isSelected sel v) ∧
      (g.expandCandidate qdis sel level v0 s).nstep = s.nstep + 1 ∧
      entered enterFresh (g.neighborList v0 level) s.vt =
        ((g.expandCandidate qdis sel level v0 s).vt, new) := by
  obtain ⟨hvis, hall, hsub⟩ := visits_entered (g.neighborList v0 level) s.vt
  rw [expandCandidate_eq, Collected.foldl_addOne]
  have hsync : Offering.Synced { s.off with threshold := ResultHandler.threshold s.off.res } := rfl
  exact ⟨_, hvis, hall, hsub, rfl, (hsync.offerEach _).2, rfl, rfl⟩

/-! ## The vertices met -/

/-- The vertices met so far, in their order: `e`, where the search starts, and those that became
known by an expansion. -/
structure Met (g : HNSW) (qdis : ℕ → F32) (sel : Option (ℤ → Bool)) (res₀ : H)
    (vt₀ : VisitedTable) (e : ℕ) (s : CandidateLoop H) (met : List ℕ) : Prop where
  visits : Visits (fun _ ↦ true) vt₀ s.vt met
  reach : ∀ v ∈ met, v ∈ reachable g.Edge {e}
  res_eq : s.off.res = offerAll qdis res₀ (met.filter fun v ↦ isSelected sel v)

variable {res₀ : H} {vt₀ : VisitedTable} {e : ℕ} {s : CandidateLoop H} {met : List ℕ}

theorem reachable_lt (hg : g.WellFormed) (he : e < g.ntotal) {v : ℕ}
    (hv : v ∈ reachable g.Edge {e}) : v < g.ntotal := by
  obtain ⟨r, rfl, hrv⟩ := hv
  induction hrv with
  | refl => exact he
  | tail _ hedge ih => exact hg.edge_lt ih hedge

theorem Met.length_le (h : Met g qdis sel res₀ vt₀ e s met) (hg : g.WellFormed)
    (he : e < g.ntotal) : met.length ≤ g.ntotal :=
  length_le_of_nodup h.visits.nodup fun v hv ↦ reachable_lt hg he (h.reach v hv)

theorem Met.expand [LawfulResultHandler H] (h : Met g qdis sel res₀ vt₀ e s met) {v : ℕ} (hv : v ∈ met)
    (c : MinimaxHeap) :
    ∃ new, Met g qdis sel res₀ vt₀ e (g.expandCandidate qdis sel 0 v { s with candidates := c })
        (met ++ new) ∧
      (∀ u, g.Edge v u →
        (g.expandCandidate qdis sel 0 v { s with candidates := c }).vt.get u = true) ∧
      (g.expandCandidate qdis sel 0 v { s with candidates := c }).candidates =
        pushAll qdis c new ∧
      (g.expandCandidate qdis sel 0 v { s with candidates := c }).nstep = s.nstep + 1 ∧
      Visits (fun _ ↦ true) s.vt
        (g.expandCandidate qdis sel 0 v { s with candidates := c }).vt new ∧
      entered enterFresh (g.neighborList v 0) s.vt =
        ((g.expandCandidate qdis sel 0 v { s with candidates := c }).vt, new) := by
  obtain ⟨new, hvis, hall, hsub, hcand, hres, hstep, hentered⟩ :=
    expandCandidate_spec g qdis sel 0 v { s with candidates := c }
  refine ⟨new, ⟨h.visits.append hvis, fun u hu ↦ ?_, ?_⟩, hall, hcand, hstep, hvis, hentered⟩
  · rcases List.mem_append.mp hu with hu | hu
    · exact h.reach u hu
    · exact reachable_step (h.reach v hv) (hsub u hu)
  · rw [hres, List.filter_append, offerAll_append]
    exact congrArg (fun r ↦ offerAll qdis r _) h.res_eq

theorem candidateTurn_eq {doDisCheck : Bool} {efSearch v : ℕ} {d : F32} {c : MinimaxHeap}
    (hsize : s.candidates.size ≠ 0) (hpop : s.candidates.popMin = some ((v : ℤ), d, c)) :
    g.candidateTurn qdis sel doDisCheck efSearch 0 s =
      if doDisCheck = true ∧ efSearch ≤ c.countBelow d then .done { s with candidates := c }
      else if doDisCheck = false ∧
          efSearch < (g.expandCandidate qdis sel 0 v { s with candidates := c }).nstep then
        .done (g.expandCandidate qdis sel 0 v { s with candidates := c })
      else .next (g.expandCandidate qdis sel 0 v { s with candidates := c }) := by
  rw [HNSW.candidateTurn, if_neg hsize, hpop]
  simp only [Int.toNat_natCast, Bool.not_eq_true']

theorem candidateTurn_done {doDisCheck : Bool} {efSearch : ℕ} (hsize : s.candidates.size = 0) :
    g.candidateTurn qdis sel doDisCheck efSearch 0 s = .done s := by
  rw [HNSW.candidateTurn, if_pos hsize]

/-! ## The whole loop -/

section
variable (g : HNSW) (qdis : ℕ → F32) (sel : Option (ℤ → Bool)) (res₀ : H)

theorem tracks_start (e : ℕ) {ef : ℕ} (hef : 1 ≤ ef) :
    Tracks qdis ((MinimaxHeap.new ef).push e (qdis e)) {e} 0 := by
  rcases (tracks_new qdis hef).push_cases e with ⟨-, h⟩ | ⟨hk, -⟩ | ⟨hk, -⟩
  · exact h
  · exact absurd hk (Nat.ne_of_lt hef)
  · exact absurd hk (Nat.ne_of_lt hef)

/-- The variables that the loop starts with. -/
def candidateStart (e ef nresIn : ℕ)
    (vt : VisitedTable) : CandidateLoop H where
  off := if isSelected sel e then
      { (Offering.start res₀ nresIn).offer (qdis e) e with nres := nresIn }
    else Offering.start res₀ nresIn
  candidates := (MinimaxHeap.new ef).push e (qdis e)
  ndis := 0
  vt := vt.set e
  nstep := 0

/-- The loop, from the state that the lines before it set up. -/
theorem candidateLoop_eq (params : Option SearchParameters)
    (nresIn : ℕ) {ef : ℕ} (hef : 1 ≤ ef) (hclean : vt₀.get e = false) :
    ∃ s₀ : CandidateLoop H, Met g qdis (HNSW.selOf params) res₀ vt₀ e s₀ [e] ∧
      s₀.candidates = (MinimaxHeap.new ef).push e (qdis e) ∧ s₀.nstep = 0 ∧
      s₀.vt = vt₀.set e ∧ s₀ = candidateStart qdis (HNSW.selOf params) res₀ e ef nresIn vt₀ ∧
      g.candidateLoop qdis res₀ ((MinimaxHeap.new ef).push e (qdis e)) vt₀ 0 nresIn params =
        iterate (g.candidateTurn qdis (HNSW.selOf params) (g.doDisCheckOf params) (g.efSearchOf params) 0)
          (g.ntotal + 2) s₀ := by
  have ht := tracks_start qdis e hef
  have hsize : ((MinimaxHeap.new ef).push e (qdis e)).size = 1 := by
    rw [ht.size_eq, Multiset.card_singleton]
  have htop : ((MinimaxHeap.new ef).push e (qdis e)).heap 0 = (qdis e, (e : ℤ)) := by
    have hk : 1 ≤ ((MinimaxHeap.new ef).push e (qdis e)).k := by rw [ht.k_eq]; simp
    rcases ht.top_cases hk with ⟨t, hmem, htop⟩ | ⟨t, hmem, -⟩
    · rw [Multiset.mem_singleton] at hmem
      rw [← htop, hmem]
      rfl
    · exact absurd hmem (Multiset.notMem_zero _)
  refine ⟨candidateStart qdis (HNSW.selOf params) res₀ e ef nresIn vt₀,
    ⟨Visits.mark rfl hclean, ?_, ?_⟩, rfl, rfl, rfl, rfl, ?_⟩
  · exact fun v hv ↦ subset_reachable (by simpa using hv)
  · have hsync := Offering.synced_start res₀ nresIn
    simp only [List.filter_cons, List.filter_nil, candidateStart]
    split
    · rw [offerAll_cons, offerAll_nil]
      exact hsync.offer_res (qdis e) e
    · rfl
  · rw [HNSW.candidateLoop, hsize, List.range_one, List.foldl_cons, List.foldl_nil,
      HNSW.initCandidates, htop, Nat.add_comm 1]
    rfl

/-- What every turn keeps: the vertices waiting are among those met. -/
def Running (vt₀ : VisitedTable)
    (e : ℕ) (s : CandidateLoop H) : Prop :=
  ∃ met waiting taken, Met g qdis sel res₀ vt₀ e s met ∧ Tracks qdis s.candidates waiting taken ∧
    ∀ v ∈ waiting, v ∈ met

/-- What is left to do: the candidates that wait, and the vertices that are not marked. -/
def remaining (s : CandidateLoop H) : ℕ :=
  s.candidates.size + unvisited (fun _ ↦ true) g.ntotal s.vt

end

theorem Running.turn [LawfulResultHandler H] (hg : g.WellFormed) (he : e < g.ntotal)
    (doDisCheck : Bool) (efSearch : ℕ) (hs : Running g qdis sel res₀ vt₀ e s) :
    (∃ s', g.candidateTurn qdis sel doDisCheck efSearch 0 s = .done s' ∧
        ∃ met, Met g qdis sel res₀ vt₀ e s' met) ∨
      ∃ s', g.candidateTurn qdis sel doDisCheck efSearch 0 s = .next s' ∧
        Running g qdis sel res₀ vt₀ e s' ∧ remaining g s' < remaining g s := by
  obtain ⟨met, waiting, taken, hmet, ht, hsub⟩ := hs
  by_cases hw : waiting = 0
  · refine Or.inl ⟨s, candidateTurn_done ?_, met, hmet⟩
    rw [ht.size_eq, hw, Multiset.card_zero]
  · have hsize : s.candidates.size ≠ 0 := by rw [ht.size_eq]; exact mt Multiset.card_eq_zero.mp hw
    obtain ⟨v, waiting', c, hpop, rfl, ht', -⟩ := ht.popMin hw
    have hv : v ∈ met := hsub v (Multiset.mem_cons_self _ _)
    obtain ⟨new, hmet', -, hcand, -, hvis, -⟩ := hmet.expand hv c
    rw [candidateTurn_eq hsize hpop]
    split
    · exact Or.inl ⟨_, rfl, met, hmet.visits, hmet.reach, hmet.res_eq⟩
    · split
      · exact Or.inl ⟨_, rfl, _, hmet'⟩
      · obtain ⟨waiting'', taken'', ht'', hw'', -⟩ := ht'.pushAll new
        refine Or.inr ⟨_, rfl, ⟨_, waiting'', taken'', hmet', by rw [hcand]; exact ht'', ?_⟩, ?_⟩
        · intro u hu
          rcases Multiset.mem_add.mp (Multiset.mem_of_le hw'' hu) with hu | hu
          · exact List.mem_append_right _ (Multiset.mem_coe.mp hu)
          · exact List.mem_append_left _ (hsub u (Multiset.mem_cons_of_mem hu))
        · have hlt : ∀ u ∈ new, u < g.ntotal := fun u hu ↦
            reachable_lt hg he (hmet'.reach u (List.mem_append_right _ hu))
          have hun := hvis.unvisited_add_length hlt
          have hcard := Multiset.card_le_card hw''
          rw [Multiset.card_add, Multiset.coe_card] at hcard
          rw [remaining, remaining, hcand, ht''.size_eq, ht.size_eq, Multiset.card_cons]
          omega

/-- The loop ends, whatever it has to drop, and what it has offered are different vertices that
the selector accepts, reachable from the start. -/
theorem candidateLoop_total [LawfulResultHandler H] (res₀ : H)
    (params : Option SearchParameters) (nresIn : ℕ) {ef : ℕ} (hg : g.WellFormed) (he : e < g.ntotal) (hef : 1 ≤ ef)
    (hclean : vt₀.Clean g.ntotal) :
    ∃ s met, g.candidateLoop qdis res₀ ((MinimaxHeap.new ef).push e (qdis e)) vt₀ 0 nresIn params =
        some s ∧ Met g qdis (HNSW.selOf params) res₀ vt₀ e s met := by
  obtain ⟨s₀, hmet, hcand, -, hvt, -, hloop⟩ :=
    candidateLoop_eq g qdis res₀ params nresIn hef (hclean e he)
  have ht : Tracks qdis s₀.candidates {e} 0 := by rw [hcand]; exact tracks_start qdis e hef
  have hrun : Running g qdis (HNSW.selOf params) res₀ vt₀ e s₀ :=
    ⟨[e], {e}, 0, hmet, ht, fun v hv ↦ by simpa using hv⟩
  have hμ : remaining g s₀ < g.ntotal + 2 := by
    have := unvisited_le (fun _ ↦ true) g.ntotal s₀.vt
    rw [remaining, ht.size_eq, Multiset.card_singleton]
    omega
  obtain ⟨s, hs, met, hmet⟩ :=
    iterate_total (remaining g) (fun _ ↦ Running.turn hg he _ _) (g.ntotal + 2) s₀ hrun hμ
  exact ⟨s, met, hloop.trans hs, hmet⟩

/-! ## Room for all vertices -/

/-- What every turn keeps when the heap has room for all vertices: all those met are in it, and the
neighbours of those taken out are met. -/
structure Wide (g : HNSW) (qdis : ℕ → F32) (sel : Option (ℤ → Bool)) (res₀ : H)
    (vt₀ : VisitedTable) (e : ℕ) (s : CandidateLoop H) (met : List ℕ) (waiting taken : Multiset ℕ) :
    Prop extends Met g qdis sel res₀ vt₀ e s met where
  tracks : Tracks qdis s.candidates waiting taken
  all : waiting + taken = ↑met
  room : g.ntotal ≤ s.candidates.n
  traversal : Traversal g.Edge {e} {v | v ∈ met} {v | v ∈ taken}
  nstep_eq : s.nstep = taken.card

theorem Wide.turn [LawfulResultHandler H] (hg : g.WellFormed) (he : e < g.ntotal)
    (hclean : vt₀.Clean g.ntotal) (doDisCheck : Bool) {efSearch : ℕ} (hef : g.ntotal ≤ efSearch)
    (hs : ∃ met waiting taken, Wide g qdis sel res₀ vt₀ e s met waiting taken) :
    (∃ s', g.candidateTurn qdis sel doDisCheck efSearch 0 s = .done s' ∧
        ∃ met, Met g qdis sel res₀ vt₀ e s' met ∧ reachable g.Edge {e} ⊆ {v | v ∈ met}) ∨
      ∃ s', g.candidateTurn qdis sel doDisCheck efSearch 0 s = .next s' ∧
        (∃ met waiting taken, Wide g qdis sel res₀ vt₀ e s' met waiting taken) ∧
        remaining g s' < remaining g s := by
  obtain ⟨met, waiting, taken, h⟩ := hs
  have hlen : s.candidates.k = met.length := by
    rw [h.tracks.k_eq, ← Multiset.card_add, h.all, Multiset.coe_card]
  by_cases hw : waiting = 0
  · refine Or.inl ⟨s, candidateTurn_done ?_, met, h.toMet, h.traversal.reachable_subset fun v hv ↦ ?_⟩
    · rw [h.tracks.size_eq, hw, Multiset.card_zero]
    · have hall := h.all
      rw [hw, zero_add] at hall
      exact hall.symm ▸ Multiset.mem_coe.mpr hv
  · have hsize : s.candidates.size ≠ 0 := by
      rw [h.tracks.size_eq]; exact mt Multiset.card_eq_zero.mp hw
    obtain ⟨v, waiting', c, hpop, rfl, ht', -, hn, hk, -⟩ := h.tracks.popMin hw
    have hv : v ∈ met := by
      rw [← Multiset.mem_coe, ← h.all]
      exact Multiset.mem_add.mpr (Or.inl (Multiset.mem_cons_self _ _))
    obtain ⟨new, hmet', hedges, hcand, hstep, hvis, -⟩ := h.expand hv c
    have hle := h.toMet.length_le hg he
    have hle' := hmet'.length_le hg he
    rw [List.length_append] at hle'
    have hbelow := ht'.countBelow_lt
    have htaken : taken.card + 1 ≤ met.length := by
      rw [← hlen, ← hk, ht'.k_eq, Multiset.card_cons]; omega
    -- neither stopping rule holds: both count vertices that have been met
    rw [candidateTurn_eq hsize hpop, if_neg (by omega), if_neg (by rw [hstep, h.nstep_eq]; omega)]
    have hall' : ↑new + waiting' + v ::ₘ taken = (↑(met ++ new) : Multiset ℕ) := by
      rw [← Multiset.coe_add, ← h.all, add_comm _ (↑new : Multiset ℕ), Multiset.add_cons,
        Multiset.cons_add, Multiset.add_cons, add_assoc]
    have ht'' := ht'.pushAll_of_le (l := new) (by rw [hk, hn, hlen]; exact hle'.trans h.room)
    refine Or.inr ⟨_, rfl, ⟨met ++ new, ↑new + waiting', v ::ₘ taken, hmet', ?_, hall', ?_, ?_, ?_⟩, ?_⟩
    · rw [hcand]; exact ht''
    · rw [hcand, MinimaxHeap.n_pushAll, hn]; exact h.room
    · have hseen := h.traversal.expand (u := v) (show v ∈ {v | v ∈ met} from hv)
        (show {v | v ∈ met} ⊆ {u | u ∈ met ++ new} from fun u hu ↦ List.mem_append_left _ hu) fun u hu ↦ by
          have hlt : u < g.ntotal := reachable_lt hg he (reachable_step (h.reach v hv) hu)
          exact hmet'.visits.mem_of_get rfl (hclean u hlt) (hedges u hu)
      convert hseen using 1
      ext u
      simp [Multiset.mem_cons]
    · rw [hstep, h.nstep_eq, Multiset.card_cons]
    · have hlt : ∀ u ∈ new, u < g.ntotal := fun u hu ↦
        reachable_lt hg he (hmet'.reach u (List.mem_append_right _ hu))
      have hun := hvis.unvisited_add_length hlt
      rw [remaining, remaining, hcand, ht''.size_eq, h.tracks.size_eq, Multiset.card_cons,
        Multiset.card_add, Multiset.coe_card]
      omega

/-- With room for all vertices, the search meets everything that is reachable. -/
theorem candidateLoop_wide [LawfulResultHandler H] (res₀ : H)
    (params : Option SearchParameters) (nresIn : ℕ) {ef : ℕ} (hg : g.WellFormed) (he : e < g.ntotal)
    (hclean : vt₀.Clean g.ntotal) (hef : g.ntotal ≤ ef) (hefs : g.ntotal ≤ g.efSearchOf params) :
    ∃ s met, g.candidateLoop qdis res₀ ((MinimaxHeap.new ef).push e (qdis e)) vt₀ 0 nresIn params =
        some s ∧ Met g qdis (HNSW.selOf params) res₀ vt₀ e s met ∧
        ∀ v, v ∈ met ↔ v ∈ reachable g.Edge {e} := by
  have hef1 : 1 ≤ ef := by omega
  obtain ⟨s₀, hmet, hcand, hnstep, hvt, -, hloop⟩ :=
    candidateLoop_eq g qdis res₀ params nresIn hef1 (hclean e he)
  have ht : Tracks qdis s₀.candidates {e} 0 := by rw [hcand]; exact tracks_start qdis e hef1
  have htrav : Traversal g.Edge {e} {v | v ∈ [e]} {v : ℕ | v ∈ (0 : Multiset ℕ)} := by
    have hempty : {v : ℕ | v ∈ (0 : Multiset ℕ)} = ∅ := by ext v; simp
    rw [hempty]
    exact Traversal.start (by simp)
  have hroom : g.ntotal ≤ s₀.candidates.n := by rw [hcand, MinimaxHeap.n_push]; exact hef
  have hwide : Wide g qdis (HNSW.selOf params) res₀ vt₀ e s₀ [e] {e} 0 :=
    ⟨hmet, ht, rfl, hroom, htrav, hnstep⟩
  have hμ : remaining g s₀ < g.ntotal + 2 := by
    have := unvisited_le (fun _ ↦ true) g.ntotal s₀.vt
    rw [remaining, ht.size_eq, Multiset.card_singleton]
    omega
  obtain ⟨s, hs, met, hmet, hsub⟩ := iterate_total (remaining g)
    (fun (s : CandidateLoop H)
        (hs : ∃ met waiting taken,
          Wide g qdis (HNSW.selOf params) res₀ vt₀ e s met waiting taken) ↦
      Wide.turn hg he hclean (g.doDisCheckOf params) hefs hs)
    (g.ntotal + 2) s₀ ⟨_, _, _, hwide⟩ hμ
  exact ⟨s, met, hloop.trans hs, hmet, fun v ↦ ⟨hmet.reach v, fun hv ↦ hsub hv⟩⟩

end FaissNavix
