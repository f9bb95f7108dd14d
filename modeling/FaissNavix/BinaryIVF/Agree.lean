import FaissNavix.BinaryIVF.CountSearch
import FaissNavix.BinaryIVF.ListSearch
import FaissNavix.IVF.ParallelModes

/-!
# The three binary searches

The search with heaps and the search with counters always agree on the distances.  The search list by list
agrees with them where its sort returns, and then reports entries of the probed lists once each unless a
query probes a list twice.
-/

namespace FaissNavix

open Function
open Lib

namespace IndexBinaryIVF

variable {QP : Type}

/-- The row has the distances and the ids of some entries of the lists with these keys, of each of them once,
and then the missing results. -/
def ReportsEntries (ivf : IndexBinaryIVF) (x : ℕ → UInt8) (i k : ℕ) (keys : List ℤ) (row : List (ℤ × ℤ)) : Prop :=
  ∃ (places : List (ℕ × ℕ)) (found : List (ℤ × ℤ)), places.Nodup ∧
    List.Forall₂ (fun p y ↦ (p.1 : ℤ) ∈ keys ∧
      ∃ e, (ivf.list p.1)[p.2]? = some e ∧ y = (ivf.distance x i e, e.id.toInt)) places found ∧
    found.length ≤ k ∧ row = found ++ List.replicate (k - found.length) (intMax, -1)

/-- The searches return with each of the three algorithms, have the same distances, and report entries. -/
def SearchesAgree (ivf : IndexBinaryIVF) (params : Option (IVFSearchParameters QP)) (assertions : Bool) (n : ℕ)
    (x : ℕ → UInt8) (k : ℕ) (keys : ℕ → ℤ) (tab : ℕ → ℤ × ℤ) (allIdsPerDis : ℕ → ℤ) : Prop :=
  ∃ turns perInvlist heap count,
    { ivf with perInvlistSearch := true }.searchPreassigned params assertions turns n x k keys tab allIdsPerDis
      false = some perInvlist ∧
    { ivf with perInvlistSearch := false, useHeap := true }.searchPreassigned params assertions turns n x k keys
      tab allIdsPerDis false = some heap ∧
    { ivf with perInvlistSearch := false, useHeap := false }.searchPreassigned params assertions turns n x k keys
      tab allIdsPerDis false = some count ∧
    perInvlist.map (List.map Prod.fst) = heap.map (List.map Prod.fst) ∧
    count.map (List.map Prod.fst) = heap.map (List.map Prod.fst) ∧
    ∀ rows ∈ [perInvlist, heap, count], rows.length = n ∧ ∀ i < n, ∀ row, rows[i]? = some row →
      ivf.ReportsEntries x i k (keysOf (ivf.nprobeOf params) keys i) row

/-- What a search with these numbers of lists and probes reads. -/
structure HasShape (ivf : IndexBinaryIVF) (params : Option (IVFSearchParameters QP))
    (codeSize nlist nprobe : ℕ) : Prop where
  codeSize_eq : ivf.codeSize = codeSize
  nlist_eq : ivf.nlist = nlist
  nprobe_eq : ivf.nprobeOf params = nprobe
  maxCodes_eq : ivf.maxCodesOf params = 0

/-- The batches that the search list by list can sort: with more probes than lists, no fewer queries than
lists, and missing probes only before the first that is assigned.  An `assert` also asks for a probe of the
list 0. -/
def Sorts (assertions : Bool) (nlist n nprobe : ℕ) (keys : ℕ → ℤ) : Prop :=
  nlist < n * nprobe ∧ nlist ≤ n ∧ AssignedLast (n * nprobe) keys ∧
    (assertions = true → ∃ p < n * nprobe, keys p = 0)

variable {ivf : IndexBinaryIVF} {params : Option (IVFSearchParameters QP)} {assertions : Bool}
  {codeSize nlist n nprobe k : ℕ} {keys : ℕ → ℤ} {x : ℕ → UInt8} {tab : ℕ → ℤ × ℤ} {allIdsPerDis : ℕ → ℤ}

/-! ## Entries that are reported -/

def placesOf (ivf : IndexBinaryIVF) (ls : List ℕ) : List (ℕ × ℕ) :=
  ls.flatMap fun l ↦ (List.range (ivf.list l).length).map fun j ↦ (l, j)

theorem mem_placesOf {ls : List ℕ} {p : ℕ × ℕ} :
    p ∈ ivf.placesOf ls ↔ p.1 ∈ ls ∧ p.2 < (ivf.list p.1).length := by
  constructor
  · intro hp
    obtain ⟨l, hl, hp⟩ := List.mem_flatMap.mp hp
    obtain ⟨j, hj, rfl⟩ := List.mem_map.mp hp
    exact ⟨hl, List.mem_range.mp hj⟩
  · rintro ⟨hl, hj⟩
    exact List.mem_flatMap.mpr ⟨p.1, hl, List.mem_map.mpr ⟨p.2, List.mem_range.mpr hj, rfl⟩⟩

theorem nodup_placesOf {ls : List ℕ} (h : ls.Nodup) : (ivf.placesOf ls).Nodup := by
  refine List.nodup_flatMap.mpr ⟨fun l _ ↦ ?_, h.imp fun {l l'} hne ↦ ?_⟩
  · exact List.nodup_range.map fun j j' heq ↦ (Prod.mk.inj heq).2
  · intro p hp hp'
    obtain ⟨j, -, rfl⟩ := List.mem_map.mp hp
    obtain ⟨j', -, heq⟩ := List.mem_map.mp hp'
    exact hne (Prod.mk.inj heq).1.symm

def resultAt (ivf : IndexBinaryIVF) (x : ℕ → UInt8) (i : ℕ) (p : ℕ × ℕ) : ℤ × ℤ :=
  ((ivf.list p.1)[p.2]?.map fun e ↦ (ivf.distance x i e, e.id.toInt)).getD (intMax, -1)

theorem map_resultAt (ivf : IndexBinaryIVF) (x : ℕ → UInt8) (i : ℕ) (ls : List ℕ) :
    (ivf.placesOf ls).map (ivf.resultAt x i) = ls.flatMap (ivf.offersOf false x i) := by
  unfold placesOf
  rw [List.map_flatMap]
  refine List.flatMap_congr fun l _ ↦ ?_
  rw [offersOf_false, List.map_map]
  refine List.ext_getElem (by simp) fun j hj _ ↦ ?_
  rw [List.length_map, List.length_range] at hj
  rw [List.getElem_map, List.getElem_map, List.getElem_range, Function.comp_apply, resultAt,
    List.getElem?_eq_getElem hj]
  rfl

/-- A row that is selected from the entries reports them, if no list is there twice, or for one result. -/
theorem reportsEntries_of_selects {i : ℕ} {keys : List ℤ} {row : List (ℤ × ℤ)}
    (h : RowSelects k ↑(ivf.candidates x i keys) row) (htwice : k = 1 ∨ (probedLists keys).Nodup) :
    ivf.ReportsEntries x i k keys row := by
  obtain ⟨L, hL, -, rfl⟩ := h
  have hmap : (↑(ivf.candidates x i keys) : Multiset (ℤ × ℤ)) =
      (↑(ivf.placesOf (probedLists keys)) : Multiset (ℕ × ℕ)).map (ivf.resultAt x i) := by
    rw [Multiset.map_coe, map_resultAt]
    rfl
  rw [hmap] at hL
  have hle := hL.card_le
  obtain ⟨T, hT, hTmap⟩ := hL.of_map
  obtain ⟨t, rfl⟩ := Quotient.exists_rep T
  have hperm : (t.map (ivf.resultAt x i)).Perm L := Multiset.coe_eq_coe.mp hTmap
  obtain ⟨places, hplaces, rfl⟩ := exists_map_eq_of_perm hperm
  have hmem : ∀ p ∈ places, p ∈ ivf.placesOf (probedLists keys) := fun p hp ↦
    Multiset.mem_coe.mp (Multiset.mem_of_le hT.sub (Multiset.mem_coe.mpr (hplaces.subset hp)))
  refine ⟨places, _, ?_, List.forall₂_map_right_iff.mpr (List.forall₂_same.mpr fun p hp ↦ ?_), hle, rfl⟩
  · rcases htwice with rfl | hnodup
    · rw [Multiset.coe_card, List.length_map] at hle
      match places, hle with
      | [], _ => exact List.nodup_nil
      | [p], _ => exact List.nodup_singleton p
    · have hsub : (↑places : Multiset (ℕ × ℕ)) ≤ ↑(ivf.placesOf (probedLists keys)) := by
        rw [Multiset.coe_eq_coe.mpr hplaces]
        exact hT.sub
      exact Multiset.coe_nodup.mp (Multiset.nodup_of_le hsub (Multiset.coe_nodup.mpr (nodup_placesOf hnodup)))
  · obtain ⟨hl, hj⟩ := mem_placesOf.mp (hmem p hp)
    obtain ⟨key, hkey, hp1⟩ := List.mem_map.mp hl
    obtain ⟨hkey, hpos⟩ := List.mem_filter.mp hkey
    refine ⟨?_, _, List.getElem?_eq_getElem hj, ?_⟩
    · rw [← hp1, Int.toNat_of_nonneg (of_decide_eq_true hpos)]
      exact hkey
    · rw [resultAt, List.getElem?_eq_getElem hj]
      rfl

/-! ## When the sort returns -/

theorem SearchesAgree.sorts (hkeys : ∀ p < n * ivf.nprobeOf params, -1 ≤ keys p ∧ keys p < ivf.nlist)
    (h : ivf.SearchesAgree params assertions n x k keys tab allIdsPerDis) :
    Sorts assertions ivf.nlist n (ivf.nprobeOf params) keys := by
  obtain ⟨turns, rows, _, _, hrows, -⟩ := h
  unfold searchPreassigned searchKnnHammingPerInvlist at hrows
  rw [if_pos rfl] at hrows
  split at hrows
  · cases hrows
  rw [if_neg Bool.false_ne_true] at hrows
  obtain ⟨⟨vals, lims⟩, hsort, -⟩ := Option.bind_eq_some_iff.mp hrows
  have hkeys' : ∀ p < n * ivf.nprobeOf params, -1 ≤ keys p ∧ keys p < (ivf.nlist : ℕ) := hkeys
  obtain ⟨hlt, hroom, hlast, hassert, -⟩ := bucketSortInplaceRef_spec hkeys' hsort
  exact ⟨hlt, Nat.le_of_succ_le_succ hroom, hlast, hassert⟩

theorem map_fst_eq_of_selects {S : ℕ → Multiset (ℤ × ℤ)} {rows rows' : ℕ → List (ℤ × ℤ)}
    (h : ∀ i < n, RowSelects k (S i) (rows i)) (h' : ∀ i < n, RowSelects k (S i) (rows' i)) :
    ((List.range n).map rows).map (List.map Prod.fst) = ((List.range n).map rows').map (List.map Prod.fst) := by
  rw [List.map_map, List.map_map]
  refine List.map_congr_left fun i hi ↦ ?_
  have hi := List.mem_range.mp hi
  exact (h i hi).unique (h' i hi)

/-- The searches agree on a batch that can be sorted, if no query probes a list twice, or for one result. -/
theorem searchesAgree_of_sorts (hk : 1 ≤ k) (hcodes : ivf.maxCodesOf params = 0)
    (hkeys : ∀ p < n * ivf.nprobeOf params, -1 ≤ keys p ∧ keys p < ivf.nlist)
    (hsorts : Sorts assertions ivf.nlist n (ivf.nprobeOf params) keys)
    (htwice : k = 1 ∨ NoneTwice n (ivf.nprobeOf params) keys) (x : ℕ → UInt8) (tab : ℕ → ℤ × ℤ)
    (allIdsPerDis : ℕ → ℤ) : ivf.SearchesAgree params assertions n x k keys tab allIdsPerDis := by
  obtain ⟨hlt, hle, hlast, hassert⟩ := hsorts
  obtain ⟨turns, vals, lims, hsort⟩ :=
    bucketSortInplaceRef_total hkeys hlt (Nat.succ_le_succ hle) hlast hassert
  have hkeys' := fun p hp ↦ (hkeys p hp).2
  obtain ⟨perInvlist, hperInvlist, hselects⟩ : ∃ rows : ℕ → List (ℤ × ℤ),
      { ivf with perInvlistSearch := true }.searchPreassigned params assertions turns n x k keys tab allIdsPerDis
        false = some ((List.range n).map rows) ∧
      ∀ i < n, RowSelects k ↑(ivf.candidates x i (keysOf (ivf.nprobeOf params) keys i)) (rows i) :=
    @searchKnnHammingPerInvlist_selects QP { ivf with perInvlistSearch := true } params k assertions turns n keys
      vals lims hk x tab hcodes hkeys hsort htwice
  obtain ⟨heap, hheap, hselects'⟩ : ∃ rows : ℕ → List (ℤ × ℤ),
      { ivf with perInvlistSearch := false, useHeap := true }.searchPreassigned params assertions turns n x k keys
        tab allIdsPerDis false = some ((List.range n).map rows) ∧
      ∀ i < n, RowSelects k ↑(ivf.candidates x i (keysOf (ivf.nprobeOf params) keys i)) (rows i) :=
    @searchKnnHammingHeap_selects QP { ivf with perInvlistSearch := false, useHeap := true } params n k keys hk x
      tab hcodes hkeys'
  obtain ⟨count, hcount, hselects''⟩ : ∃ rows : ℕ → List (ℤ × ℤ),
      { ivf with perInvlistSearch := false, useHeap := false }.searchPreassigned params assertions turns n x k keys
        tab allIdsPerDis false = some ((List.range n).map rows) ∧
      ∀ i < n, RowSelects k ↑(ivf.candidates x i (keysOf (ivf.nprobeOf params) keys i)) (rows i) :=
    @searchKnnHammingCount_selects k QP { ivf with perInvlistSearch := false, useHeap := false } params n keys hk x
      allIdsPerDis hcodes hkeys'
  refine ⟨turns, _, _, _, hperInvlist, hheap, hcount, map_fst_eq_of_selects hselects hselects',
    map_fst_eq_of_selects hselects'' hselects', fun rows hrows ↦ ?_⟩
  have hreports : ∀ rows : ℕ → List (ℤ × ℤ),
      (∀ i < n, RowSelects k ↑(ivf.candidates x i (keysOf (ivf.nprobeOf params) keys i)) (rows i)) →
      ((List.range n).map rows).length = n ∧ ∀ i < n, ∀ row, ((List.range n).map rows)[i]? = some row →
        ivf.ReportsEntries x i k (keysOf (ivf.nprobeOf params) keys i) row := fun rows hrows ↦ by
    refine ⟨by rw [List.length_map, List.length_range], fun i hi row hrow ↦ ?_⟩
    rw [List.getElem?_map, List.getElem?_range hi] at hrow
    obtain rfl := Option.some.inj hrow
    exact reportsEntries_of_selects (hrows i hi) (htwice.imp_right fun h ↦ h i hi)
  rcases List.mem_cons.mp hrows with rfl | hrows
  · exact hreports _ hselects
  rcases List.mem_pair.mp hrows with rfl | rfl
  · exact hreports _ hselects'
  · exact hreports _ hselects''

/-! ## A list that is probed twice -/

/-- An index in which the list `l` has one entry, and the other lists have none. -/
def oneEntry {codeSize : ℕ} (hd : 8 * codeSize < 2 ^ 31) (nlist nprobe l : ℕ) : IndexBinaryIVF where
  codeSize := codeSize
  nlist := nlist
  nprobe := nprobe
  maxCodes := 0
  useHeap := true
  perInvlistSearch := false
  list l' := if l' = l then [⟨0, []⟩] else []
  codeSize_lt := hd
  id_ne l' e he := by
    split at he
    · rw [List.mem_singleton.mp he]
      decide
    · cases he

theorem oneEntry_shape (QP : Type) (hd : 8 * codeSize < 2 ^ 31) (hprobe : nprobe ≤ nlist) (l : ℕ) :
    (oneEntry hd nlist nprobe l).HasShape (none : Option (IVFSearchParameters QP)) codeSize nlist nprobe :=
  ⟨rfl, rfl, min_eq_right hprobe, rfl⟩

theorem length_candidates_oneEntry {hd : 8 * codeSize < 2 ^ 31} (l i : ℕ) (keys : List ℤ) :
    ((oneEntry hd nlist nprobe l).candidates x i keys).length = (probedLists keys).count l := by
  unfold candidates
  induction probedLists keys with
  | nil => rfl
  | cons l' ls ih =>
      rw [List.flatMap_cons, List.length_append, ih, List.count_cons, Nat.add_comm]
      refine congrArg _ ?_
      rw [offersOf_false, List.length_map]
      change (if l' = l then [(⟨0, []⟩ : Entry)] else []).length = _
      by_cases hl : l' = l
      · rw [if_pos hl, if_pos (by simpa using hl)]
        rfl
      · rw [if_neg hl, if_neg (by simpa using hl)]
        rfl

theorem countP_row {found : List (ℤ × ℤ)} (h : ∀ y ∈ found, y.1 < intMax) (m : ℕ) :
    (found ++ List.replicate m (intMax, -1)).countP (fun y : ℤ × ℤ ↦ y.1 < intMax) = found.length := by
  rw [List.countP_append, List.countP_eq_length.mpr fun y hy ↦ decide_eq_true (h y hy),
    List.countP_eq_zero.mpr fun y hy ↦ ?_, Nat.add_zero]
  rw [(List.mem_replicate.mp hy).2]
  simp

theorem exists_of_mem_forall₂ {α β : Type} {R : α → β → Prop} {as : List α} {bs : List β}
    (h : List.Forall₂ R as bs) {a : α} (ha : a ∈ as) : ∃ b ∈ bs, R a b := by
  induction h with
  | nil => cases ha
  | @cons a' b as bs hR _ ih =>
      rcases List.mem_cons.mp ha with rfl | ha
      · exact ⟨b, List.mem_cons_self, hR⟩
      · obtain ⟨b', hb', hR'⟩ := ih ha
        exact ⟨b', List.mem_cons_of_mem b hb', hR'⟩

/-- The one entry is reported twice. -/
theorem not_searchesAgree_oneEntry {hd : 8 * codeSize < 2 ^ 31} (hprobe : nprobe ≤ nlist) (hk : 2 ≤ k)
    (hkeys : ∀ p < n * nprobe, keys p < nlist) {i l : ℕ} (hi : i < n)
    (hl : 2 ≤ (probedLists (keysOf nprobe keys i)).count l) :
    ¬ (oneEntry hd nlist nprobe l).SearchesAgree (none : Option (IVFSearchParameters QP)) assertions n x k keys
      tab allIdsPerDis := by
  rintro ⟨turns, perInvlist, heap, count, -, hheap, -, -, -, hreports⟩
  have hshape : (oneEntry hd nlist nprobe l).HasShape (none : Option (IVFSearchParameters QP)) codeSize nlist
      nprobe := oneEntry_shape QP hd hprobe l
  have hkeys' : ∀ p < n * (oneEntry hd nlist nprobe l).nprobeOf (none : Option (IVFSearchParameters QP)),
      keys p < (oneEntry hd nlist nprobe l).nlist := by
    rw [hshape.nprobe_eq]
    exact hkeys
  obtain ⟨rows, hrows, hselects⟩ :=
    searchKnnHammingHeap_selects (show 1 ≤ k by omega) x tab hshape.maxCodes_eq hkeys'
  obtain rfl := Option.some.inj (hrows.symm.trans hheap)
  obtain ⟨places, found, hnodup, hfound, -, hrow⟩ := (hreports ((List.range n).map rows)
      (List.mem_cons_of_mem _ List.mem_cons_self)).2 i hi (rows i) (by
    rw [List.getElem?_map, List.getElem?_range hi, Option.map_some])
  obtain ⟨L, hL, -, hrow'⟩ := hselects i hi
  rw [hshape.nprobe_eq] at hL hfound
  have hbelow : ∀ y ∈ L, y.1 < intMax := fun y hy ↦ by
    obtain ⟨l', -, e, -, rfl⟩ := real_candidates (Multiset.mem_coe.mp (Multiset.mem_of_le hL.sub
      (Multiset.mem_coe.mpr hy)))
    exact (distance_bounds _ x i e).2.2
  have hbelow' : ∀ y ∈ found, y.1 < intMax := fun y hy ↦ by
    obtain ⟨p, -, -, e, -, rfl⟩ := exists_of_mem_forall₂ hfound.flip hy
    exact (distance_bounds _ x i e).2.2
  have hlength := congrArg (List.countP fun y ↦ decide (y.1 < intMax)) (hrow.symm.trans hrow')
  rw [countP_row hbelow, countP_row hbelow', ← hfound.length_eq] at hlength
  have hcard := hL.card_eq
  rw [Multiset.coe_card, Multiset.coe_card, length_candidates_oneEntry] at hcard
  have hplaces : places ⊆ [(l, 0)] := fun p hp ↦ by
    obtain ⟨y, -, -, e, he, -⟩ := exists_of_mem_forall₂ hfound hp
    obtain ⟨l', j⟩ := p
    change (if l' = l then [(⟨0, []⟩ : Entry)] else [])[j]? = some e at he
    split at he
    · rename_i hl'
      obtain ⟨hj, -⟩ := List.getElem?_eq_some_iff.mp he
      rw [hl', Nat.lt_one_iff.mp hj]
      exact List.mem_singleton_self _
    · cases he
  have hone := (hnodup.subperm hplaces).length_le
  rw [List.length_singleton] at hone
  omega

end IndexBinaryIVF

end FaissNavix
