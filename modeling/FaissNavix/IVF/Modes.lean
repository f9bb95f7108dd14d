import FaissNavix.IVF.Scan
import FaissNavix.Lib.Loop
import Mathlib.Algebra.BigOperators.Group.Finset.Piecewise

/-!
# The parallel modes

However the iterations are shared among the threads, and in whatever order the threads get to the
critical sections, the row of a query is made of a heap that selects from all that the scans of its
probes offer.  In mode 1 the heaps of the threads together hold what was offered so far, and are
merged in the end; in mode 2 every scan has a heap of its own, which is merged into the row at once.
-/

namespace FaissNavix

open Function
open TopK (ofHeap Holds)
open Lib

namespace IVFIndex

variable {Q QP : Type} (ivf : IVFIndex Q QP) (ctx : SearchContext)

/-- The results that come before the neutral value, of those that are offered. -/
def below (offers : List (F32 × ℤ)) : Multiset (F32 × ℤ) :=
  ↑(offers.filter fun x ↦ ivf.metricType.order.cmp ivf.metricType.order.neutral x.1)

def candidates (query : Q) (probes : List (ℤ × F32)) : Multiset (F32 × ℤ) :=
  ivf.below (ivf.rowOffers ctx query probes)

/-- The row is made of a heap that selects from `S`. -/
def RowHolds (S : Multiset (F32 × ℤ)) (row : ResultHeap) : Prop :=
  ∃ heap, (ofHeap ctx.k heap).Holds ivf.metricType.order ivf.metricType.key S ∧
    row = (heapReorder ivf.metricType.order ctx.k heap).2

/-- A schedule of `n` queries with `nprobe` probes each: every iteration is done once, by one of the
threads, and every thread gets to every critical section of its own. -/
structure Schedule.Valid (schedule : Schedule) (n nprobe : ℕ) : Prop where
  queries : schedule.queries.Perm (List.range n)
  probes : ∀ i < n, ((schedule.probes i).map Prod.snd).Perm (List.range nprobe)
  threads : ∀ i < n, ∀ p ∈ schedule.probes i, p.1 < schedule.threads
  merges : ∀ i < n, (schedule.merges i).Perm (List.range schedule.threads)
  pairs : (schedule.pairs.map Prod.snd).Perm (List.range (n * nprobe))
  pairThreads : ∀ p ∈ schedule.pairs, p.1 < schedule.threads

/-- What the searches below share: the heaps are theirs to initialise, and no label that may be
offered is that of the filling. -/
structure Plain (x : ℕ → Q) (assign : ℕ → ℤ × F32) (n : ℕ) : Prop where
  pos : 1 ≤ ctx.k
  readable : ctx.Readable
  iterator : ivf.useIterator = false
  heapInit : ctx.doHeapInit = true
  keys : ∀ p < n * ctx.nprobe, (assign p).1 < ivf.nlist
  real : ∀ p < n * ctx.nprobe, 0 ≤ (assign p).1 → ∀ j < (ivf.list (assign p).1.toNat).length,
    label ctx (assign p).1 (ivf.list (assign p).1.toNat) j ≠ -1

variable {ivf ctx} {schedule : Schedule} {x : ℕ → Q} {assign : ℕ → ℤ × F32} {n i : ℕ}

theorem below_append (offers offers' : List (F32 × ℤ)) :
    ivf.below (offers ++ offers') = ivf.below offers + ivf.below offers' := by
  rw [below, List.filter_append, ← Multiset.coe_add]
  rfl

theorem below_perm {offers offers' : List (F32 × ℤ)} (h : offers.Perm offers') :
    ivf.below offers = ivf.below offers' :=
  Multiset.coe_eq_coe.mpr (h.filter _)

theorem mem_probesOf {probe : ℤ × F32} (h : probe ∈ probesOf ctx assign i) (hi : i < n) :
    ∃ p < n * ctx.nprobe, probe = assign p := by
  obtain ⟨ik, hik, rfl⟩ := List.mem_map.mp h
  have := List.mem_range.mp hik
  refine ⟨i * ctx.nprobe + ik, ?_, rfl⟩
  calc i * ctx.nprobe + ik < (i + 1) * ctx.nprobe := by rw [Nat.add_mul, Nat.one_mul]; omega
    _ ≤ n * ctx.nprobe := Nat.mul_le_mul_right _ hi

theorem keyed (ivf : IVFIndex Q QP) :
    ivf.metricType.order.Keyed ivf.metricType.key F32.Comparable :=
  ivf.metricType.keyed

section
variable (h : ivf.Plain ctx x assign n) {p : ℕ}
include h

theorem Plain.holds_init (heap : ResultHeap) :
    (ofHeap ctx.k (ivf.initResult ctx heap)).Holds ivf.metricType.order ivf.metricType.key 0 := by
  rw [initResult, h.heapInit, if_pos rfl]
  exact TopK.holds_heapHeapify h.pos heap

theorem Plain.reorder (heap : ResultHeap) :
    ivf.reorderResult ctx heap = (heapReorder ivf.metricType.order ctx.k heap).2 := by
  rw [reorderResult, h.heapInit, if_pos rfl]

theorem Plain.real_offers (hp : p < n * ctx.nprobe)
    (query : Q) {listSizeMax : Option ℕ} :
    ∀ y ∈ ivf.offersOf ctx query (assign p) listSizeMax, y.2 ≠ -1 := by
  intro y hy
  obtain ⟨j, hj, rfl⟩ := List.mem_map.mp hy
  obtain ⟨hpos, hlt⟩ := mem_scannedOf h.readable hj
  exact h.real p hp hpos j hlt

theorem Plain.scanAll (hp : p < n * ctx.nprobe) (query : Q)
    {heap : ResultHeap} {S : Multiset (F32 × ℤ)}
    (hheap : (ofHeap ctx.k heap).Holds ivf.metricType.order ivf.metricType.key S) :
    ∃ heap', ivf.scanAll ctx query (assign p) heap = .ok heap' ∧
      (ofHeap ctx.k heap').Holds ivf.metricType.order ivf.metricType.key
        (ivf.below (ivf.offersOf ctx query (assign p) none) + S) :=
  ⟨_, scanAll_eq h.readable h.iterator (h.keys p hp) query heap,
    hheap.heapOffers ivf.keyed (h.real_offers hp query)⟩

/-! ## Modes 0 and 3 -/

theorem searchRow_holds (hi : i < n) (heap : ResultHeap) :
    ∃ row, ivf.searchRow ctx x assign i heap = .ok row ∧
      ivf.RowHolds ctx (ivf.candidates ctx (x i) (probesOf ctx assign i)) row := by
  have hkeys : ∀ probe ∈ probesOf ctx assign i, probe.1 < ivf.nlist := fun probe hprobe ↦ by
    obtain ⟨p, hp, rfl⟩ := mem_probesOf hprobe hi
    exact h.keys p hp
  have hreal : ∀ y ∈ ivf.rowOffers ctx (x i) (probesOf ctx assign i), y.2 ≠ -1 := by
    intro y hy
    obtain ⟨q, hq, rfl⟩ := List.mem_map.mp hy
    obtain ⟨hlt, hpos, hj⟩ := mem_places h.readable hq
    obtain ⟨p, hp, hprobe⟩ := mem_probesOf (probeAt_mem hlt) hi
    rw [hprobe] at hpos hj
    have := h.real p hp hpos q.2 hj
    rwa [← hprobe] at this
  have hscan := scanProbes_eq h.readable h.iterator hkeys (x i) (ivf.initResult ctx heap)
  refine ⟨_, by rw [searchRow, hscan]; rfl, _, ?_, h.reorder _⟩
  have := (h.holds_init heap).heapOffers ivf.keyed hreal
  rwa [add_zero] at this

theorem searchByQuery_holds (hs : schedule.queries.Perm (List.range n)) (rows : ℕ → ResultHeap) :
    ∃ rows', ivf.searchByQuery ctx schedule x assign rows = .ok rows' ∧
      ∀ i < n, ivf.RowHolds ctx (ivf.candidates ctx (x i) (probesOf ctx assign i)) (rows' i) := by
  have hrow : ∀ i, ∃ row, i < n → ivf.searchRow ctx x assign i (rows i) = .ok row ∧
      ivf.RowHolds ctx (ivf.candidates ctx (x i) (probesOf ctx assign i)) row := fun i ↦ by
    by_cases hi : i < n
    · obtain ⟨row, hrow⟩ := searchRow_holds h hi (rows i)
      exact ⟨row, fun _ ↦ hrow⟩
    · exact ⟨rows i, fun hi' ↦ absurd hi' hi⟩
  choose g hg using hrow
  have hmem : ∀ i, i ∈ schedule.queries ↔ i < n := fun i ↦ hs.mem_iff.trans List.mem_range
  obtain ⟨rows', hrun, hrows, -⟩ := foldlM_updateCell_of_ok (hs.nodup_iff.mpr List.nodup_range)
    fun i hi ↦ (hg i ((hmem i).mp hi)).1
  refine ⟨rows', hrun, fun i hi ↦ ?_⟩
  rw [hrows i ((hmem i).mpr hi)]
  exact (hg i hi).2

/-! ## Mode 1 -/

/-- The scans of the probes of a query: whatever thread a scan is done by, what it offers is added
to what the heaps of the threads hold together. -/
theorem scanProbeSteps_holds (hi : i < n) (threads : ℕ)
    {ps : List (ℕ × ℕ)} (hps : ∀ p ∈ ps, p.1 < threads ∧ p.2 < ctx.nprobe)
    {locals : ℕ → ResultHeap} {S : ℕ → Multiset (F32 × ℤ)}
    (hlocals : ∀ t, (ofHeap ctx.k (locals t)).Holds ivf.metricType.order ivf.metricType.key (S t)) :
    ∃ (locals' : ℕ → ResultHeap) (S' : ℕ → Multiset (F32 × ℤ)),
      ps.foldlM (ivf.scanProbeStep ctx x assign i) locals = .ok locals' ∧
      (∀ t, (ofHeap ctx.k (locals' t)).Holds ivf.metricType.order ivf.metricType.key (S' t)) ∧
      ∑ t ∈ Finset.range threads, S' t =
        ivf.below ((ps.map Prod.snd).flatMap fun ik ↦
          ivf.offersOf ctx (x i) (assign (i * ctx.nprobe + ik)) none) +
        ∑ t ∈ Finset.range threads, S t := by
  induction ps generalizing locals S with
  | nil => exact ⟨locals, S, rfl, hlocals, (zero_add _).symm⟩
  | cons p ps ih =>
      obtain ⟨ht, hik⟩ := hps p List.mem_cons_self
      have hp : i * ctx.nprobe + p.2 < n * ctx.nprobe :=
        calc i * ctx.nprobe + p.2 < (i + 1) * ctx.nprobe := by
              rw [Nat.add_mul, Nat.one_mul]
              omega
          _ ≤ n * ctx.nprobe := Nat.mul_le_mul_right _ hi
      obtain ⟨heap, hscan, hheap⟩ := h.scanAll hp (x i) (hlocals p.1)
      have hstep : ivf.scanProbeStep ctx x assign i locals p = .ok (update locals p.1 heap) := by
        rw [scanProbeStep, hscan]
        rfl
      have hnew : ∀ t, (ofHeap ctx.k (update locals p.1 heap t)).Holds ivf.metricType.order
          ivf.metricType.key (update S p.1 (ivf.below (ivf.offersOf ctx (x i)
            (assign (i * ctx.nprobe + p.2)) none) + S p.1) t) := fun t ↦ by
        by_cases htp : t = p.1
        · rw [htp, update_self, update_self]
          exact hheap
        · rw [update_of_ne htp, update_of_ne htp]
          exact hlocals t
      obtain ⟨locals', S', hrun, hlocals', hsum⟩ :=
        ih (fun q hq ↦ hps q (List.mem_cons_of_mem p hq)) hnew
      refine ⟨locals', S', by rw [List.foldlM_cons, hstep]; exact hrun, hlocals', ?_⟩
      have htmem := Finset.mem_range.mpr ht
      rw [hsum, Finset.sum_update_of_mem htmem, Finset.sum_eq_add_sum_sdiff_singleton_of_mem htmem S,
        List.map_cons, List.flatMap_cons, below_append]
      ac_rfl

end

theorem mergeLocals_holds (ts : List ℕ) {locals : ℕ → ResultHeap} {S : ℕ → Multiset (F32 × ℤ)}
    (hlocals : ∀ t, (ofHeap ctx.k (locals t)).Holds ivf.metricType.order ivf.metricType.key (S t))
    {heap : ResultHeap} {S₀ : Multiset (F32 × ℤ)}
    (hheap : (ofHeap ctx.k heap).Holds ivf.metricType.order ivf.metricType.key S₀) :
    (ofHeap ctx.k (ts.foldl (fun heap t ↦ ivf.addLocalResults ctx heap (locals t)) heap)).Holds
      ivf.metricType.order ivf.metricType.key (S₀ + (ts.map S).sum) := by
  induction ts generalizing heap S₀ with
  | nil => rwa [List.map_nil, List.sum_nil, add_zero]
  | cons t ts ih =>
      rw [List.foldl_cons, List.map_cons, List.sum_cons, ← add_assoc]
      exact ih (hheap.heapAddn ivf.keyed (hlocals t))

theorem searchProbesStep_holds (h : ivf.Plain ctx x assign n) (hs : schedule.Valid n ctx.nprobe)
    (hmax : ctx.maxCodes = none) (hi : i < n) (s : (ℕ → ResultHeap) × (ℕ → ResultHeap)) :
    ∃ locals' row, ivf.searchProbesStep ctx schedule x assign s i = .ok (locals', update s.2 i row) ∧
      ivf.RowHolds ctx (ivf.candidates ctx (x i) (probesOf ctx assign i)) row := by
  have hps : ∀ p ∈ schedule.probes i, p.1 < schedule.threads ∧ p.2 < ctx.nprobe := fun p hp ↦
    ⟨hs.threads i hi p hp,
      List.mem_range.mp ((hs.probes i hi).mem_iff.mp (List.mem_map_of_mem hp))⟩
  obtain ⟨locals', S', hrun, hlocals', hsum⟩ := scanProbeSteps_holds h hi schedule.threads hps
    (S := fun _ ↦ 0) fun t ↦ h.holds_init (s.1 t)
  refine ⟨locals', _, by rw [searchProbesStep, hrun]; rfl, _, ?_, h.reorder _⟩
  have hmerged := mergeLocals_holds (schedule.merges i) hlocals' (h.holds_init (s.2 i))
  have hall : ((schedule.merges i).map S').sum = ∑ t ∈ Finset.range schedule.threads, S' t :=
    ((hs.merges i hi).map S').sum_eq.trans (Multiset.sum_coe _).symm
  rw [zero_add, hall, hsum, Finset.sum_const_zero, add_zero,
    below_perm ((hs.probes i hi).flatMap_right _)] at hmerged
  rw [candidates, rowOffers_unlimited hmax, probesOf, List.flatMap_map]
  exact hmerged

theorem searchByProbe_holds (h : ivf.Plain ctx x assign n) (hs : schedule.Valid n ctx.nprobe)
    (hmax : ctx.maxCodes = none) (locals rows : ℕ → ResultHeap) :
    ∃ rows', ivf.searchByProbe ctx schedule x assign n locals rows = .ok rows' ∧
      ∀ i < n, ivf.RowHolds ctx (ivf.candidates ctx (x i) (probesOf ctx assign i)) (rows' i) := by
  have hrun : ∀ m ≤ n, ∃ s, (List.range m).foldlM (ivf.searchProbesStep ctx schedule x assign)
      (locals, rows) = .ok s ∧
      ∀ i < m, ivf.RowHolds ctx (ivf.candidates ctx (x i) (probesOf ctx assign i)) (s.2 i) := by
    intro m
    induction m with
    | zero => exact fun _ ↦ ⟨_, rfl, fun i hi ↦ absurd hi (Nat.not_lt_zero i)⟩
    | succ m ih =>
        intro hm
        obtain ⟨s, hs', hrows⟩ := ih (by omega)
        obtain ⟨locals', row, hstep, hrow⟩ := searchProbesStep_holds h hs hmax (show m < n by omega) s
        refine ⟨_, by rw [List.range_succ, foldlM_concat, hs']; exact hstep, fun i hi ↦ ?_⟩
        change ivf.RowHolds ctx _ (update s.2 m row i)
        by_cases him : i = m
        · rw [him, update_self]
          exact hrow
        · rw [update_of_ne him]
          exact hrows i (by omega)
  obtain ⟨s, hs', hrows⟩ := hrun n le_rfl
  exact ⟨s.2, by rw [searchByProbe, hs']; rfl, hrows⟩

/-! ## Mode 2 -/

/-- The scans of any probes of any queries, each merged into the row of its query. -/
theorem scanPairSteps_holds (h : ivf.Plain ctx x assign n) {ps : List (ℕ × ℕ)}
    (hps : ∀ p ∈ ps, p.2 < n * ctx.nprobe) (locals : ℕ → ResultHeap) {rows : ℕ → ResultHeap}
    {S : ℕ → Multiset (F32 × ℤ)}
    (hrows : ∀ i < n, (ofHeap ctx.k (rows i)).Holds ivf.metricType.order ivf.metricType.key (S i)) :
    ∃ s, ps.foldlM (ivf.scanPairStep ctx x assign) (locals, rows) = .ok s ∧
      ∀ i < n, (ofHeap ctx.k (s.2 i)).Holds ivf.metricType.order ivf.metricType.key
        (S i + ivf.below (((ps.map Prod.snd).filter (· / ctx.nprobe = i)).flatMap fun ij ↦
          ivf.offersOf ctx (x i) (assign ij) none)) := by
  induction ps generalizing locals rows S with
  | nil => exact ⟨_, rfl, fun i hi ↦ by rw [below]; exact (add_zero (S i)).symm ▸ hrows i hi⟩
  | cons p ps ih =>
      have hp := hps p List.mem_cons_self
      obtain ⟨heap, hscan, hheap⟩ := h.scanAll hp (x (p.2 / ctx.nprobe)) (h.holds_init (locals p.1))
      have hstep : ivf.scanPairStep ctx x assign (locals, rows) p =
          .ok (update locals p.1 heap, update rows (p.2 / ctx.nprobe)
            (ivf.addLocalResults ctx (rows (p.2 / ctx.nprobe)) heap)) := by
        rw [scanPairStep, hscan]
        rfl
      rw [add_zero] at hheap
      have hnew : ∀ i < n, (ofHeap ctx.k (update rows (p.2 / ctx.nprobe)
          (ivf.addLocalResults ctx (rows (p.2 / ctx.nprobe)) heap) i)).Holds ivf.metricType.order
          ivf.metricType.key (S i + ivf.below (([p.2].filter (· / ctx.nprobe = i)).flatMap fun ij ↦
            ivf.offersOf ctx (x i) (assign ij) none)) := fun i hi ↦ by
        by_cases hip : i = p.2 / ctx.nprobe
        · have hone : [p.2].filter (· / ctx.nprobe = i) = [p.2] :=
            List.filter_cons_of_pos (decide_eq_true hip.symm)
          rw [hone, List.flatMap_singleton, hip, update_self]
          exact (hrows _ (hip ▸ hi)).heapAddn ivf.keyed hheap
        · have hnone : [p.2].filter (· / ctx.nprobe = i) = [] :=
            List.filter_cons_of_neg (by rw [decide_eq_true_iff]; exact fun he ↦ hip he.symm)
          rw [hnone, update_of_ne hip]
          exact (add_zero (S i)).symm ▸ hrows i hi
      obtain ⟨s, hrun, hs⟩ := ih (fun q hq ↦ hps q (List.mem_cons_of_mem p hq)) _ hnew
      refine ⟨s, by rw [List.foldlM_cons, hstep]; exact hrun, fun i hi ↦ ?_⟩
      have hsplit : ((p :: ps).map Prod.snd).filter (· / ctx.nprobe = i) =
          [p.2].filter (· / ctx.nprobe = i) ++
            (ps.map Prod.snd).filter (· / ctx.nprobe = i) := by
        rw [← List.filter_append]
        rfl
      rw [hsplit, List.flatMap_append, below_append, ← add_assoc]
      exact hs i hi

theorem filter_div_eq (nprobe : ℕ) (hi : i < n) :
    (List.range (n * nprobe)).filter (· / nprobe = i) =
      (List.range nprobe).map (i * nprobe + ·) := by
  have hend : i * nprobe + nprobe ≤ n * nprobe :=
    calc i * nprobe + nprobe = (i + 1) * nprobe := by rw [Nat.add_mul, Nat.one_mul]
      _ ≤ n * nprobe := Nat.mul_le_mul_right _ hi
  have h := filter_range_eq (n := n * nprobe) (q := (· / nprobe = i)) (a := i * nprobe)
    (b := i * nprobe + nprobe) (fun j hj ↦ ?_) (Nat.le_add_right _ _) hend
  · rwa [Nat.add_sub_cancel_left] at h
  · have hpos : 0 < nprobe := Nat.pos_of_ne_zero fun h0 ↦ by
      rw [h0, Nat.mul_zero] at hj
      exact Nat.not_lt_zero j hj
    rw [decide_eq_true_iff, Nat.div_eq_iff hpos]
    omega

theorem searchByPair_holds (h : ivf.Plain ctx x assign n)
    (hs : (schedule.pairs.map Prod.snd).Perm (List.range (n * ctx.nprobe)))
    (hmax : ctx.maxCodes = none) (locals rows : ℕ → ResultHeap) :
    ∃ rows', ivf.searchByPair ctx schedule x assign n locals rows = .ok rows' ∧
      ∀ i < n, ivf.RowHolds ctx (ivf.candidates ctx (x i) (probesOf ctx assign i)) (rows' i) := by
  have hps : ∀ p ∈ schedule.pairs, p.2 < n * ctx.nprobe := fun p hp ↦
    List.mem_range.mp (hs.mem_iff.mp (List.mem_map_of_mem hp))
  have hinit : ∀ i < n, (ofHeap ctx.k (if i < n then ivf.initResult ctx (rows i) else rows i)).Holds
      ivf.metricType.order ivf.metricType.key ((fun _ ↦ 0 : ℕ → Multiset (F32 × ℤ)) i) :=
    fun i hi ↦ by
      rw [if_pos hi]
      exact h.holds_init (rows i)
  obtain ⟨s, hrun, hrows⟩ := scanPairSteps_holds h hps locals hinit
  refine ⟨_, by rw [searchByPair, hrun]; rfl, fun i hi ↦ ⟨s.2 i, ?_, ?_⟩⟩
  · have hi' := hrows i hi
    rw [zero_add, below_perm ((hs.filter _).flatMap_right _), filter_div_eq _ hi,
      List.flatMap_map] at hi'
    rw [candidates, rowOffers_unlimited hmax, probesOf, List.flatMap_map]
    exact hi'
  · rw [if_pos hi, h.reorder]

theorem searchLoops_holds (h : ivf.Plain ctx x assign n) (hs : schedule.Valid n ctx.nprobe)
    (hmode : ivf.pmode = 0 ∨ ivf.pmode = 3 ∨ (ivf.pmode = 1 ∨ ivf.pmode = 2) ∧ ctx.maxCodes = none)
    (rows : ℕ → ResultHeap) :
    ∃ rows', ivf.searchLoops ctx schedule x assign n rows = .ok rows' ∧
      ∀ i < n, ivf.RowHolds ctx (ivf.candidates ctx (x i) (probesOf ctx assign i)) (rows' i) := by
  unfold searchLoops
  rcases hmode with h0 | h3 | ⟨h1 | h2, hmax⟩
  · rw [if_pos (Or.inl h0)]
    exact searchByQuery_holds h hs.queries rows
  · rw [if_pos (Or.inr h3)]
    exact searchByQuery_holds h hs.queries rows
  · rw [h1, if_neg (by decide), if_pos rfl]
    exact searchByProbe_holds h hs hmax zeroHeaps rows
  · rw [h2, if_neg (by decide), if_neg (by decide), if_pos rfl]
    exact searchByPair_holds h hs.pairs hmax zeroHeaps rows

/-- A call of `search_preassigned` that passes its checks in one of the modes 0 to 3. -/
theorem searchPreassigned_holds {k : ℕ} {storePairs : Bool}
    {params : Option (IVFSearchParameters QP)}
    (h : ivf.Plain (ivf.context k storePairs params) x assign n)
    (hs : schedule.Valid n (ivf.nprobeOf params))
    (hcheck : ivf.checkSearch k storePairs params = .ok ())
    (hmode : ivf.pmode = 0 ∨ ivf.pmode = 3 ∨ (ivf.pmode = 1 ∨ ivf.pmode = 2) ∧
      (ivf.context k storePairs params).maxCodes = none) (rows : ℕ → ResultHeap) :
    let ctx := ivf.context k storePairs params
    ∃ rows', ivf.searchPreassigned schedule x assign n k rows storePairs params = .ok rows' ∧
      ∀ i < n, ivf.RowHolds ctx (ivf.candidates ctx (x i) (probesOf ctx assign i)) (rows' i) := by
  intro ctx
  obtain ⟨rows', hrun, hrows⟩ := searchLoops_holds h hs hmode rows
  refine ⟨rows', ?_, hrows⟩
  rw [searchPreassigned, hcheck]
  exact hrun

end IVFIndex

end FaissNavix
