import FaissNavix.IVF.Modes

/-!
# What a row reports

A row that is selected from what is scanned for a query has results of places: the numbers of probes,
with offsets in their lists.  Two rows that are selected from the same places have the same
distances.
-/

namespace FaissNavix

open Lib (KSmallest)

theorem exists_map_eq_of_perm {α β : Type} {f : α → β} {l : List α} {L : List β}
    (h : (l.map f).Perm L) : ∃ l' : List α, l'.Perm l ∧ l'.map f = L := by
  have hmap : List.Forall₂ (fun b a ↦ b = f a) (l.map f) l :=
    List.forall₂_map_left_iff.mpr (List.forall₂_same.mpr fun _ _ ↦ rfl)
  obtain ⟨l', hl', hperm⟩ := List.perm_comp_forall₂ h.symm hmap
  exact ⟨l', hperm, (List.forall₂_eq_eq_eq ▸ List.forall₂_map_right_iff.mpr hl').symm⟩

namespace IVFIndex

variable {Q QP : Type} (ivf : IVFIndex Q QP) (ctx : SearchContext)

def SameDistances (rs rs' : List (F32 × ℤ)) : Prop :=
  List.Forall₂ (fun r r' ↦ F32.feq r.1 r'.1 = true) rs rs'

def distanceAt (query : Q) (probes : List (ℤ × F32)) (p : ℕ × ℕ) : F32 :=
  let probe := probeAt probes p.1
  ivf.distanceToCode query probe.1 probe.2 (codeAt (ivf.list probe.1.toNat) p.2)

/-- The scanned places with a distance that comes before the neutral value. -/
def placesBelow (query : Q) (probes : List (ℤ × F32)) : List (ℕ × ℕ) :=
  (ivf.places ctx probes).filter fun p ↦
    ivf.metricType.order.cmp ivf.metricType.order.neutral (ivf.distanceAt query probes p)

/-- The row has the results at the places `found`, and then the filling.  The places are scanned
ones, they are entries of the lists of the probes, and no place is reported twice. -/
structure Reports (query : Q) (probes : List (ℤ × F32)) (row : ResultHeap) (found : List (ℕ × ℕ)) :
    Prop where
  nodup : found.Nodup
  scanned : ∀ p ∈ found, p ∈ ivf.places ctx probes
  probed : ∀ p ∈ found, p.1 < probes.length ∧ 0 ≤ (probeAt probes p.1).1 ∧
    p.2 < (ivf.list (probeAt probes p.1).1.toNat).length
  results : firstEntries ctx.k row = found.map (ivf.resultOf ctx query probes) ++
    List.replicate (ctx.k - found.length) (ivf.metricType.order.neutral, -1)

/-- The places `found` are the best ones, in their order. -/
structure Best (query : Q) (probes : List (ℤ × F32)) (found : List (ℕ × ℕ)) : Prop where
  smallest : KSmallest (fun p ↦ ivf.metricType.key (ivf.distanceAt query probes p)) ctx.k
    ↑(ivf.placesBelow ctx query probes) ↑found
  sorted : found.Pairwise fun p q ↦ ivf.metricType.key (ivf.distanceAt query probes p) ≤
    ivf.metricType.key (ivf.distanceAt query probes q)

def DistinctKeys (probes : List (ℤ × F32)) : Prop :=
  ∀ a < probes.length, ∀ b < probes.length, 0 ≤ (probeAt probes a).1 →
    (probeAt probes a).1 = (probeAt probes b).1 → a = b

variable {ivf ctx} {query : Q} {probes : List (ℤ × F32)} {row row' : ResultHeap}
  {found found' : List (ℕ × ℕ)}

theorem mem_placesBelow {p : ℕ × ℕ} :
    p ∈ ivf.placesBelow ctx query probes ↔ p ∈ ivf.places ctx probes ∧
      ivf.metricType.order.cmp ivf.metricType.order.neutral (ivf.distanceAt query probes p) = true :=
  List.mem_filter

theorem candidates_eq_map (query : Q) (probes : List (ℤ × F32)) :
    ivf.candidates ctx query probes =
      (↑(ivf.placesBelow ctx query probes) : Multiset (ℕ × ℕ)).map
        (ivf.resultOf ctx query probes) := by
  rw [candidates, below, rowOffers, List.filter_map, Multiset.map_coe]
  rfl

theorem RowHolds.exists_found (hctx : ctx.Readable)
    (h : ivf.RowHolds ctx (ivf.candidates ctx query probes) row) :
    ∃ found, ivf.Reports ctx query probes row found ∧ ivf.Best ctx query probes found := by
  obtain ⟨heap, hheap, rfl⟩ := h
  obtain ⟨L, hL, hsorted, hres⟩ := hheap.results ivf.keyed
  rw [candidates_eq_map] at hL
  obtain ⟨T, hT, hmap⟩ := hL.of_map
  obtain ⟨l, rfl⟩ := Quotient.exists_rep T
  have hperm : (l.map (ivf.resultOf ctx query probes)).Perm L := Multiset.coe_eq_coe.mp hmap
  obtain ⟨found, hfound, rfl⟩ := exists_map_eq_of_perm hperm
  have hbest : ivf.Best ctx query probes found := by
    constructor
    · rw [Multiset.coe_eq_coe.mpr hfound]
      exact hT
    · rw [List.pairwise_map] at hsorted
      exact hsorted
  have hsub := hbest.smallest.sub
  have hscanned : ∀ p ∈ found, p ∈ ivf.places ctx probes := fun p hp ↦
    (mem_placesBelow.mp (Multiset.mem_coe.mp (Multiset.mem_of_le hsub (Multiset.mem_coe.mpr hp)))).1
  refine ⟨found, ⟨?_, hscanned, fun p hp ↦ mem_places hctx (hscanned p hp), ?_⟩, hbest⟩
  · have hnodup : (ivf.placesBelow ctx query probes).Nodup := (places_nodup hctx probes).filter _
    exact Multiset.coe_nodup.mp (Multiset.nodup_of_le hsub (Multiset.coe_nodup.mpr hnodup))
  · rw [List.length_map] at hres
    exact hres

theorem Reports.nodup_entries (h : ivf.Reports ctx query probes row found)
    (hkeys : DistinctKeys probes) : (found.map fun p ↦ ((probeAt probes p.1).1, p.2)).Nodup := by
  refine h.nodup.map_on fun p hp q hq heq ↦ ?_
  obtain ⟨hlt, hpos, -⟩ := h.probed p hp
  obtain ⟨hlt', -, -⟩ := h.probed q hq
  obtain ⟨hkey, hj⟩ := Prod.mk.injEq .. ▸ heq
  exact Prod.ext (hkeys p.1 hlt q.1 hlt' hpos hkey) hj

/-! ## Rows that are selected from the same places -/

theorem feq_of_key_eq {a b : F32} (ha : a.Comparable) (hb : b.Comparable)
    (h : ivf.metricType.key a = ivf.metricType.key b) : F32.feq a b = true := by
  refine F32.feq_iff.mpr ⟨ha, hb, ?_⟩
  cases hm : ivf.metricType with
  | innerProduct =>
      rw [hm] at h
      exact neg_inj.mp h
  | _ =>
      rw [hm] at h
      exact h

theorem Best.comparable (h : ivf.Best ctx query probes found) {p : ℕ × ℕ} (hp : p ∈ found) :
    (ivf.distanceAt query probes p).Comparable := by
  have hmem := Multiset.mem_of_le h.smallest.sub (Multiset.mem_coe.mpr hp)
  exact (ivf.keyed.cmp_iff.mp (mem_placesBelow.mp (Multiset.mem_coe.mp hmem)).2).2.1

theorem Best.of_places {ctx' : SearchContext} (h : ivf.Best ctx' query probes found)
    (hk : ctx'.k = ctx.k) (hplaces : ivf.places ctx' probes = ivf.places ctx probes) :
    ivf.Best ctx query probes found := by
  refine ⟨?_, h.sorted⟩
  have hsmallest := h.smallest
  rwa [placesBelow, hplaces, hk] at hsmallest

section
variable (h : ivf.Best ctx query probes found) (h' : ivf.Best ctx query probes found')
include h h'

theorem Best.map_key_eq :
    (found.map fun p ↦ ivf.metricType.key (ivf.distanceAt query probes p)) =
      found'.map fun p ↦ ivf.metricType.key (ivf.distanceAt query probes p) := by
  have hperm : (found.map fun p ↦ ivf.metricType.key (ivf.distanceAt query probes p)).Perm
      (found'.map fun p ↦ ivf.metricType.key (ivf.distanceAt query probes p)) := by
    rw [← Multiset.coe_eq_coe, ← Multiset.map_coe, ← Multiset.map_coe]
    exact h.smallest.map_eq h'.smallest
  exact hperm.eq_of_pairwise' (List.pairwise_map.mpr h.sorted) (List.pairwise_map.mpr h'.sorted)

/-- Of the places that are better than some reported one, all are reported; and so are all places if
there are fewer than `k`. -/
theorem Best.filter_perm {d : F32}
    (hd : found.length < ctx.k ∨
      ∃ p ∈ found, ivf.metricType.key d < ivf.metricType.key (ivf.distanceAt query probes p)) :
    (found.filter fun p ↦ ivf.metricType.key (ivf.distanceAt query probes p) =
        ivf.metricType.key d).Perm
      (found'.filter fun p ↦ ivf.metricType.key (ivf.distanceAt query probes p) =
        ivf.metricType.key d) := by
  have hmap := h.map_key_eq h'
  have hd' : found'.length < ctx.k ∨
      ∃ p ∈ found', ivf.metricType.key d < ivf.metricType.key (ivf.distanceAt query probes p) := by
    rcases hd with hlt | ⟨p, hp, hlt⟩
    · have := congrArg List.length hmap
      rw [List.length_map, List.length_map] at this
      exact Or.inl (this ▸ hlt)
    · have hmem := List.mem_map_of_mem (f := fun p ↦ ivf.metricType.key (ivf.distanceAt query probes p)) hp
      rw [hmap] at hmem
      obtain ⟨p', hp', heq⟩ := List.mem_map.mp hmem
      exact Or.inr ⟨p', hp', heq ▸ hlt⟩
  have hfilter := (h.smallest.filter_eq hd).trans (h'.smallest.filter_eq hd').symm
  rw [Multiset.filter_coe, Multiset.filter_coe] at hfilter
  exact Multiset.coe_eq_coe.mp hfilter

theorem Best.eq_of_injOn
    (hinj : Set.InjOn (fun p ↦ ivf.metricType.key (ivf.distanceAt query probes p))
      {p | p ∈ ivf.places ctx probes}) : found = found' := by
  have hinj' : Set.InjOn (fun p ↦ ivf.metricType.key (ivf.distanceAt query probes p))
      {p | p ∈ (↑(ivf.placesBelow ctx query probes) : Multiset (ℕ × ℕ))} :=
    hinj.mono fun p hp ↦ (mem_placesBelow.mp (Multiset.mem_coe.mp hp)).1
  have hperm : found.Perm found' := Multiset.coe_eq_coe.mp (h.smallest.unique h'.smallest hinj')
  refine hperm.eq_of_pairwise (fun p q hp hq hpq hqp ↦ ?_) h.sorted h'.sorted
  exact hinj' (Multiset.mem_of_le h.smallest.sub hp) (Multiset.mem_of_le h'.smallest.sub hq)
    (le_antisymm hpq hqp)

end

/-- Lists of places with the same keys have the same distances. -/
theorem sameDistances_of_map_eq
    (h : (found.map fun p ↦ ivf.metricType.key (ivf.distanceAt query probes p)) =
      found'.map fun p ↦ ivf.metricType.key (ivf.distanceAt query probes p))
    (hfound : ∀ p ∈ found, (ivf.distanceAt query probes p).Comparable)
    (hfound' : ∀ p ∈ found', (ivf.distanceAt query probes p).Comparable) :
    SameDistances (found.map (ivf.resultOf ctx query probes))
      (found'.map (ivf.resultOf ctx query probes)) := by
  induction found generalizing found' with
  | nil =>
      rw [List.map_nil, eq_comm, List.map_eq_nil_iff] at h
      rw [h]
      exact List.Forall₂.nil
  | cons p found ih =>
      cases found' with
      | nil => cases h
      | cons p' found' =>
          rw [List.map_cons, List.map_cons, List.cons.injEq] at h
          refine List.Forall₂.cons
            (feq_of_key_eq (hfound p List.mem_cons_self) (hfound' p' List.mem_cons_self) h.1) ?_
          exact ih h.2 (fun q hq ↦ hfound q (List.mem_cons_of_mem p hq))
            fun q hq ↦ hfound' q (List.mem_cons_of_mem p' hq)

/-- Rows that are selected from the same places have the same distances. -/
theorem Best.sameDistances (h : ivf.Best ctx query probes found)
    (h' : ivf.Best ctx query probes found') (hrow : ivf.Reports ctx query probes row found)
    (hrow' : ivf.Reports ctx query probes row' found') :
    SameDistances (firstEntries ctx.k row) (firstEntries ctx.k row') := by
  have hmap := h.map_key_eq h'
  have hlen : found'.length = found.length := by
    have := congrArg List.length hmap
    rw [List.length_map, List.length_map] at this
    exact this.symm
  rw [hrow.results, hrow'.results, hlen]
  refine List.rel_append (sameDistances_of_map_eq hmap (fun _ ↦ h.comparable)
    fun _ ↦ h'.comparable) (List.forall₂_same.mpr fun x hx ↦ ?_)
  rw [List.eq_of_mem_replicate hx]
  exact F32.feq_iff.mpr ⟨ivf.keyed.ok_neutral, ivf.keyed.ok_neutral, rfl⟩

end IVFIndex

end FaissNavix

/-!
# The parallel modes find the same results

In all of the parallel modes the rows are selected from the same places.  With
`PARALLEL_MODE_NO_HEAP_INIT`, the heaps that the caller provides select from what they had and from
what is scanned, as long as no other heaps come into play.
-/

namespace FaissNavix

open Function
open TopK (ofHeap Holds)
open Lib (KSmallest foldlM_updateCell_of_ok)

namespace IVFIndex

variable {Q QP : Type} {ivf : IVFIndex Q QP} {ctx : SearchContext}

/-! ## The modes of `search_preassigned` -/

def inMode (ivf : IVFIndex Q QP) (mode : Int32) : IVFIndex Q QP :=
  { ivf with parallelMode := mode }

/-- A call of `search_preassigned` that passes its checks, on lists without iterators, without a
limit on the codes to visit, and with keys that are lists or `-1`. -/
structure Searchable (ivf : IVFIndex Q QP) (k : ℕ) (storePairs : Bool)
    (params : Option (IVFSearchParameters QP)) (assign : ℕ → ℤ × F32) (n : ℕ) : Prop where
  check : ivf.checkSearch k storePairs params = .ok ()
  iterator : ivf.useIterator = false
  maxCodes : ivf.maxCodesOf params = 0
  pairs : storePairs = true → params.bind IVFSearchParameters.sel = none
  keys : ∀ p < n * ivf.nprobeOf params, -1 ≤ (assign p).1 ∧ (assign p).1 < ivf.nlist

def RealLabels (ivf : IVFIndex Q QP) (ctx : SearchContext) : Prop :=
  ∀ l < ivf.nlist, ∀ j < (ivf.list l).length, label ctx l (ivf.list l) j ≠ -1

variable {k n : ℕ} {storePairs : Bool} {params : Option (IVFSearchParameters QP)}
  {assign : ℕ → ℤ × F32} {mode : Int32}

theorem checkSearch_inMode (hmax : ivf.maxCodesOf params = 0) (mode : Int32) :
    (ivf.inMode mode).checkSearch k storePairs params = ivf.checkSearch k storePairs params := by
  have hmax' : (ivf.inMode mode).maxCodesOf params = 0 := hmax
  simp only [checkSearch, hmax, hmax', decide_true, Bool.true_or]
  rfl

theorem context_inMode (hflag : mode &&& noHeapInit = 0) :
    (ivf.inMode mode).context k storePairs params = (ivf.inMode 0).context k storePairs params := by
  have hinit : decide (mode &&& noHeapInit = 0) = decide ((0 : Int32) &&& noHeapInit = 0) := by
    rw [hflag]
    decide
  exact congrArg
    (fun doHeapInit ↦ ({ ivf.context k storePairs params with doHeapInit } : SearchContext)) hinit

theorem rowOffers_inMode (mode : Int32) (query : Q) (probes : List (ℤ × F32)) :
    (ivf.inMode mode).rowOffers ((ivf.inMode mode).context k storePairs params) query probes =
      ivf.rowOffers ((ivf.inMode 0).context k storePairs params) query probes := by
  have hplaces : (ivf.inMode mode).places ((ivf.inMode mode).context k storePairs params) probes =
      ivf.places ((ivf.inMode 0).context k storePairs params) probes := by
    apply places_congr <;> rfl
  rw [rowOffers, hplaces]
  rfl

theorem Searchable.pos (h : ivf.Searchable k storePairs params assign n) : 1 ≤ k := by
  obtain ⟨_, hpos, -⟩ := Fault.bind_eq_ok.mp h.check
  by_contra hk
  rw [decide_eq_false (by omega)] at hpos
  cases hpos

theorem readable_context (mode : Int32)
    (hpairs : storePairs = true → params.bind IVFSearchParameters.sel = none) :
    ((ivf.inMode mode).context k storePairs params).Readable := by
  have hsplit : ∀ sel : Option IDSelector, (splitSel sel).2 = none ∨
      (splitSel sel).1 = none ∧ ∃ selr, (splitSel sel).2 = some selr ∧ selr.assumeSorted = true := by
    intro sel
    unfold splitSel
    split
    · split
      · rename_i selr hsorted
        exact Or.inr ⟨rfl, selr, rfl, hsorted⟩
      · exact Or.inl rfl
    · exact Or.inl rfl
  constructor
  · intro h
    change (splitSel (params.bind IVFSearchParameters.sel)).1 = none
    rw [hpairs h]
    rfl
  · intro selr hselr
    change (splitSel (params.bind IVFSearchParameters.sel)).2 = some selr at hselr
    refine ⟨?_, ?_⟩
    · cases hsp : storePairs with
      | false => rfl
      | true =>
          rw [hpairs hsp] at hselr
          cases hselr
    · rcases hsplit (params.bind IVFSearchParameters.sel) with hnone | ⟨hsel, selr', hselr', hsorted⟩
      · rw [hnone] at hselr
        cases hselr
      · rw [hselr', Option.some_inj] at hselr
        exact ⟨hsel, hselr ▸ hsorted⟩

theorem Searchable.real (h : ivf.Searchable k storePairs params assign n)
    (hlabels : ivf.RealLabels ctx) {p : ℕ} (hp : p < n * ivf.nprobeOf params)
    (hpos : 0 ≤ (assign p).1) {j : ℕ} (hj : j < (ivf.list (assign p).1.toNat).length) :
    label ctx (assign p).1 (ivf.list (assign p).1.toNat) j ≠ -1 := by
  have hkey := (h.keys p hp).2
  have hlist : (((assign p).1.toNat : ℕ) : ℤ) = (assign p).1 := Int.toNat_of_nonneg hpos
  have := hlabels (assign p).1.toNat (by omega) j hj
  rwa [hlist] at this

/-- In each of the four modes, the rows hold what is scanned. -/
theorem Searchable.searchPreassigned_holds (h : ivf.Searchable k storePairs params assign n)
    (hmode : mode = 0 ∨ mode = 1 ∨ mode = 2 ∨ mode = 3)
    (hlabels : ivf.RealLabels ((ivf.inMode 0).context k storePairs params)) {schedule : Schedule}
    (hs : schedule.Valid n (ivf.nprobeOf params)) (x : ℕ → Q) (rows : ℕ → ResultHeap) :
    let ctx := (ivf.inMode 0).context k storePairs params
    ∃ rows', (ivf.inMode mode).searchPreassigned schedule x assign n k rows storePairs params =
        .ok rows' ∧
      ∀ i < n, ivf.RowHolds ctx (ivf.candidates ctx (x i) (probesOf ctx assign i)) (rows' i) := by
  intro ctx
  have hctx : (ivf.inMode mode).context k storePairs params = ctx := by
    refine context_inMode ?_
    rcases hmode with rfl | rfl | rfl | rfl <;> decide
  have hnone : ctx.maxCodes = none := if_pos h.maxCodes
  have hpmode : (ivf.inMode mode).pmode = 0 ∨ (ivf.inMode mode).pmode = 3 ∨
      ((ivf.inMode mode).pmode = 1 ∨ (ivf.inMode mode).pmode = 2) ∧ ctx.maxCodes = none := by
    have h0123 : mode &&& ~~~noHeapInit = 0 ∨ mode &&& ~~~noHeapInit = 3 ∨
        mode &&& ~~~noHeapInit = 1 ∨ mode &&& ~~~noHeapInit = 2 := by
      rcases hmode with rfl | rfl | rfl | rfl <;> decide
    exact h0123.imp_right (Or.imp_right fun h12 ↦ ⟨h12, hnone⟩)
  have hread : ctx.Readable := readable_context 0 h.pairs
  have hflag : (0 : Int32) &&& noHeapInit = 0 := by decide
  have hinit : ctx.doHeapInit = true := decide_eq_true hflag
  have hplain : (ivf.inMode mode).Plain ctx x assign n :=
    ⟨h.pos, hread, h.iterator, hinit, fun p hp ↦ (h.keys p hp).2,
      fun p hp hpos j hj ↦ h.real hlabels hp hpos hj⟩
  have hcheck : (ivf.inMode mode).checkSearch k storePairs params = .ok () :=
    (checkSearch_inMode h.maxCodes mode).trans h.check
  rw [← hctx] at hplain hpmode
  obtain ⟨rows', hrun, hrows⟩ := IVFIndex.searchPreassigned_holds hplain hs hcheck hpmode rows
  refine ⟨rows', hrun, fun i hi ↦ ?_⟩
  have hrow := hrows i hi
  rw [candidates, rowOffers_inMode] at hrow
  rwa [hctx] at hrow

/-- With `PARALLEL_MODE_NO_HEAP_INIT`, the heaps of modes 0 and 3 select from what they had and what
is scanned. -/
theorem Searchable.searchPreassigned_selects (h : ivf.Searchable k storePairs params assign n)
    (hmode : mode = 0 ∨ mode = 3) {schedule : Schedule}
    (hs : schedule.Valid n (ivf.nprobeOf params)) (x : ℕ → Q) {rows : ℕ → ResultHeap}
    (hrows : ∀ i < n, HeapOrdered ivf.metricType.key k (rows i) ∧
      ∀ y ∈ entries k (rows i), y.1.Comparable) :
    let ctx := (ivf.inMode 0).context k storePairs params
    ∃ rows', (ivf.inMode (mode ||| noHeapInit)).searchPreassigned schedule x assign n k rows
        storePairs params = .ok rows' ∧
      ∀ i < n, HeapSelects ivf.metricType.order ivf.metricType.key F32.Comparable k (rows' i)
        (↑((ivf.rowOffers ctx (x i) (probesOf ctx assign i)).filter fun y ↦
          y.1.Comparable) + entries k (rows i)) := by
  intro ctx
  let ivf' := ivf.inMode (mode ||| noHeapInit)
  let ctx' := ivf'.context k storePairs params
  have hinit : ctx'.doHeapInit = false := by
    change decide ((mode ||| noHeapInit) &&& noHeapInit = 0) = false
    rcases hmode with rfl | rfl <;> decide
  have hpmode : ivf'.pmode = 0 ∨ ivf'.pmode = 3 := by
    change (mode ||| noHeapInit) &&& ~~~noHeapInit = 0 ∨ (mode ||| noHeapInit) &&& ~~~noHeapInit = 3
    rcases hmode with rfl | rfl <;> decide
  have hread : ctx'.Readable := readable_context _ h.pairs
  have hrow : ∀ i ∈ schedule.queries, ivf'.searchRow ctx' x assign i (rows i) =
      .ok (heapOffers ivf.metricType.order k (rows i)
        (ivf.rowOffers ctx (x i) (probesOf ctx assign i))) := by
    intro i hi
    have hlt : i < n := List.mem_range.mp (hs.queries.mem_iff.mp hi)
    have hkeys : ∀ probe ∈ probesOf ctx' assign i, probe.1 < ivf'.nlist := fun probe hprobe ↦ by
      obtain ⟨p, hp, rfl⟩ := mem_probesOf hprobe hlt
      exact (h.keys p hp).2
    have hiter : ivf'.useIterator = false := h.iterator
    have hscan := scanProbes_eq hread hiter hkeys (x i) (ivf'.initResult ctx' (rows i))
    rw [searchRow, hscan]
    refine congrArg Except.ok ?_
    rw [reorderResult, initResult, hinit, if_neg Bool.false_ne_true, if_neg Bool.false_ne_true,
      rowOffers_inMode]
    rfl
  obtain ⟨rows', hrun, hrows', -⟩ :=
    foldlM_updateCell_of_ok (hs.queries.nodup_iff.mpr List.nodup_range) hrow
  refine ⟨rows', ?_, fun i hi ↦ ?_⟩
  · rw [searchPreassigned, checkSearch_inMode h.maxCodes, h.check]
    exact (if_pos hpmode).trans hrun
  · rw [hrows' i (hs.queries.mem_iff.mpr (List.mem_range.mpr hi))]
    obtain ⟨hheap, hcomp⟩ := hrows i hi
    exact (heapSelects_self h.pos hheap hcomp).heapOffers ivf.keyed _

/-- Every parallel mode gives the distances of mode 0, each beside the label of a place that was
scanned for it, and every place at most once; and with `PARALLEL_MODE_NO_HEAP_INIT`, the heaps that
modes 0 and 3 are given end up with the best of what they had and what is scanned. -/
theorem searchPreassigned_modes (h : ivf.Searchable k storePairs params assign n)
    (x : ℕ → Q) (rows : ℕ → ResultHeap) :
    let ctx := (ivf.inMode 0).context k storePairs params
    (ivf.RealLabels ctx → ∀ mode : Int32, mode = 0 ∨ mode = 1 ∨ mode = 2 ∨ mode = 3 →
      ∀ schedule₀ schedule : Schedule, schedule₀.Valid n (ivf.nprobeOf params) →
        schedule.Valid n (ivf.nprobeOf params) →
      ∃ rows₀ rows' : ℕ → ResultHeap,
        (ivf.inMode 0).searchPreassigned schedule₀ x assign n k rows storePairs params =
          .ok rows₀ ∧
        (ivf.inMode mode).searchPreassigned schedule x assign n k rows storePairs params =
          .ok rows' ∧
        ∀ i < n, SameDistances (firstEntries k (rows₀ i)) (firstEntries k (rows' i)) ∧
          ∃ found, ivf.Reports ctx (x i) (probesOf ctx assign i) (rows' i) found ∧
            (DistinctKeys (probesOf ctx assign i) → (found.map fun p ↦
              ((probeAt (probesOf ctx assign i) p.1).1, p.2)).Nodup)) ∧
    ((∀ i < n, HeapOrdered ivf.metricType.key k (rows i) ∧
        ∀ y ∈ entries k (rows i), y.1.Comparable) →
      ∀ mode : Int32, mode = 0 ∨ mode = 3 → ∀ schedule : Schedule,
        schedule.Valid n (ivf.nprobeOf params) →
      ∃ rows' : ℕ → ResultHeap,
        (ivf.inMode (mode ||| noHeapInit)).searchPreassigned schedule x assign n k rows storePairs
          params = .ok rows' ∧
        ∀ i < n, HeapOrdered ivf.metricType.key k (rows' i) ∧
          KSmallest (fun y ↦ ivf.metricType.key y.1) k
            (↑((ivf.rowOffers ctx (x i) (probesOf ctx assign i)).filter fun y ↦
              y.1.Comparable) + entries k (rows i)) (entries k (rows' i))) := by
  intro ctx
  constructor
  · intro hlabels mode hmode schedule₀ schedule hs₀ hs
    obtain ⟨rows₀, hrun₀, hrows₀⟩ := h.searchPreassigned_holds (Or.inl rfl) hlabels hs₀ x rows
    obtain ⟨rows', hrun, hrows'⟩ := h.searchPreassigned_holds hmode hlabels hs x rows
    refine ⟨rows₀, rows', hrun₀, hrun, fun i hi ↦ ?_⟩
    obtain ⟨found₀, hreports₀, hbest₀⟩ := (hrows₀ i hi).exists_found (readable_context 0 h.pairs)
    obtain ⟨found, hreports, hbest⟩ := (hrows' i hi).exists_found (readable_context 0 h.pairs)
    exact ⟨hbest₀.sameDistances hbest hreports₀ hreports,
      found, hreports, hreports.nodup_entries⟩
  · intro hrows mode hmode schedule hs
    obtain ⟨rows', hrun, hsel⟩ := h.searchPreassigned_selects hmode hs x hrows
    exact ⟨rows', hrun, fun i hi ↦ ⟨(hsel i hi).ordered, (hsel i hi).smallest⟩⟩

/-- Two lists with an entry each, at distance 1 from any query. -/
def twoLists (id₀ id₁ : Idx) : IVFIndex Unit Unit where
  nlist := 2
  nprobe := 2
  maxCodes := 0
  parallelMode := 0
  metricType := .l2
  quantizer := fun _ _ _ column ↦ (column, ⟨0#32⟩)
  distanceToCode := fun _ _ _ _ ↦ ⟨0x3f800000#32⟩
  takesSel := true
  useIterator := false
  list := fun l ↦ if l = 0 then [⟨id₀, []⟩] else [⟨id₁, []⟩]

/-- Two threads share the two probes of one query, and the second one is the first to merge. -/
def twoThreads : Schedule where
  threads := 2
  queries := [0]
  probes := fun _ ↦ [(0, 0), (1, 1)]
  merges := fun _ ↦ [1, 0]
  pairs := [(1, 1), (0, 0)]

theorem twoThreads_valid : twoThreads.Valid 1 2 where
  queries := List.Perm.refl _
  probes := fun _ _ ↦ List.Perm.refl _
  threads := fun _ _ ↦ (by decide : ∀ p ∈ [(0, 0), (1, 1)], p.1 < 2)
  merges := fun _ _ ↦ List.Perm.swap 0 1 []
  pairs := List.Perm.swap 0 1 []
  pairThreads := (by decide : ∀ p ∈ [(1, 1), (0, 0)], p.1 < 2)

/-- A query for two results in mode 2, and one for the heaps of a caller. -/
theorem searchPreassigned_modes_two :
    let ivf := twoLists 7 5
    let assign : ℕ → ℤ × F32 := fun p ↦ (p % 2, ⟨0#32⟩)
    let ctx := (ivf.inMode 0).context 2 false none
    (∃ rows₀ rows' : ℕ → ResultHeap,
      (ivf.inMode 0).searchPreassigned twoThreads (fun _ ↦ ()) assign 1 2 zeroHeaps false none =
        .ok rows₀ ∧
      (ivf.inMode 2).searchPreassigned twoThreads (fun _ ↦ ()) assign 1 2 zeroHeaps false none =
        .ok rows' ∧
      ∀ i < 1, SameDistances (firstEntries 2 (rows₀ i)) (firstEntries 2 (rows' i)) ∧
        ∃ found, ivf.Reports ctx () (probesOf ctx assign i) (rows' i) found ∧
          (DistinctKeys (probesOf ctx assign i) → (found.map fun p ↦
            ((probeAt (probesOf ctx assign i) p.1).1, p.2)).Nodup)) ∧
    ∃ rows' : ℕ → ResultHeap,
      (ivf.inMode (3 ||| noHeapInit)).searchPreassigned twoThreads (fun _ ↦ ()) assign 1 2 zeroHeaps
        false none = .ok rows' ∧
      ∀ i < 1, HeapOrdered F32.key 2 (rows' i) ∧
        KSmallest (fun y ↦ F32.key y.1) 2
          (↑((ivf.rowOffers ctx () (probesOf ctx assign i)).filter fun y ↦
            y.1.Comparable) + entries 2 (zeroHeaps i)) (entries 2 (rows' i)) := by
  intro ivf assign ctx
  have h : ivf.Searchable 2 false none assign 1 :=
    ⟨rfl, rfl, rfl, fun h ↦ absurd h Bool.false_ne_true, by decide⟩
  have hmodes := searchPreassigned_modes h (fun _ ↦ ()) zeroHeaps
  have hlabels : ivf.RealLabels ctx := by
    unfold RealLabels
    decide
  refine ⟨hmodes.1 hlabels 2 (by decide) _ _ twoThreads_valid twoThreads_valid,
    hmodes.2 (fun i _ ↦ ⟨?_, ?_⟩) 3 (by decide) _ twoThreads_valid⟩
  · exact fun _ _ _ ↦ le_rfl
  · intro y hy
    obtain ⟨j, -, rfl⟩ := mem_entries.mp hy
    exact (rfl : F32.isNaN ⟨0#32⟩ = false)

/-- When a query probes a list twice, its entry is reported twice.  An entry with the id `-1` is
found in mode 0, where it keeps the other one out, and is no result; in mode 2 the other one may be
first.  With `PARALLEL_MODE_NO_HEAP_INIT`, the heaps of the threads in modes 1 and 2 start with
zeros, and these get into the heap of the caller. -/
theorem searchPreassigned_modes_fails :
    let one : ℕ → ℤ × F32 := fun _ ↦ (0, ⟨0#32⟩)
    let both : ℕ → ℤ × F32 := fun p ↦ (p % 2, ⟨0#32⟩)
    let given : ℕ → ResultHeap := fun _ _ ↦ (⟨0x40000000#32⟩, 9)
    (((twoLists 7 5).inMode 0).searchPreassigned twoThreads (fun _ ↦ ()) one 1 2 zeroHeaps false
      none).map (fun rows ↦ firstEntries 2 (rows 0)) =
        .ok [(⟨0x3f800000#32⟩, 7), (⟨0x3f800000#32⟩, 7)] ∧
    (((twoLists (-1) 5).inMode 0).searchPreassigned twoThreads (fun _ ↦ ()) both 1 1 zeroHeaps false
      none).map (fun rows ↦ rows 0 0) = .ok (F32.max, -1) ∧
    (((twoLists (-1) 5).inMode 2).searchPreassigned twoThreads (fun _ ↦ ()) both 1 1 zeroHeaps false
      none).map (fun rows ↦ rows 0 0) = .ok (⟨0x3f800000#32⟩, 5) ∧
    (((twoLists 7 5).inMode (1 ||| noHeapInit)).searchPreassigned twoThreads (fun _ ↦ ()) both 1 1
      given false none).map (fun rows ↦ rows 0 0) = .ok (⟨0#32⟩, 0) ∧
    (((twoLists 7 5).inMode (2 ||| noHeapInit)).searchPreassigned twoThreads (fun _ ↦ ()) both 1 1
      given false none).map (fun rows ↦ rows 0 0) = .ok (⟨0#32⟩, 0) :=
  ⟨rfl, rfl, rfl, rfl, rfl⟩

end IVFIndex

end FaissNavix
