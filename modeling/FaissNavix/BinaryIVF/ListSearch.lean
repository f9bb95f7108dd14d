import FaissNavix.BinaryIVF.HeapSearch
import FaissNavix.BucketSortRuns

/-!
# The binary search list by list

A block keeps the tops of the heaps of its four queries, and does not see that a heap has changed when a
query is in it twice.  As long as no query probes a list twice, or there is a single result, each query
has its heap offered the entries of all lists that it probes, in the order of the lists.
-/

namespace FaissNavix

open Function
open TopK (ofHeap)

namespace IndexBinaryIVF

variable {QP : Type} {ivf : IndexBinaryIVF} {params : Option (IVFSearchParameters QP)} {k : ℕ}
  {x : ℕ → UInt8} {l : ℕ} {rows : ℕ → ℕ → ℤ × ℤ} {queries : List ℕ}

/-! ## One entry -/

theorem heapReplaceTop_one (heap : ℕ → ℤ × ℤ) (dis id : ℤ) :
    heapReplaceTop CMaxInt 1 heap dis id = update heap 0 (dis, id) := by
  funext j
  unfold heapReplaceTop Lib.BinaryHeap.replaceTop Lib.BinaryHeap.siftDown
  rw [if_pos (by decide)]
  unfold zeroBased
  cases j with
  | zero => rw [update_self, update_self]
  | succ j =>
      rw [update_of_ne (by omega), update_of_ne (by omega)]
      rfl

/-- The heaps of some queries, after an entry has been offered to them. -/
def offered (k : ℕ) (dis : ℕ → ℤ) (id : ℤ) (done : List ℕ) (rows : ℕ → ℕ → ℤ × ℤ) : ℕ → ℕ → ℤ × ℤ :=
  fun i ↦ if i ∈ done then heapOffer CMaxInt k (rows i) (dis i, id) else rows i

section
variable {heap : ℕ → ℤ × ℤ} {dis id : ℤ}

theorem heapOffer_of_lt (h : dis < (heap 0).1) :
    heapOffer CMaxInt k heap (dis, id) = heapReplaceTop CMaxInt k heap dis id :=
  if_pos (CMaxInt_keyed.cmp_iff.mpr ⟨trivial, trivial, h⟩)

theorem heapOffer_of_le (h : (heap 0).1 ≤ dis) :
    heapOffer CMaxInt k heap (dis, id) = heap :=
  if_neg fun hcmp ↦ absurd (CMaxInt_keyed.cmp_iff.mp hcmp).2.2 (not_lt.mpr h)

theorem heapReplaceTop_offered (h : dis < (heap 0).1) :
    heapReplaceTop CMaxInt 1 (heapOffer CMaxInt 1 heap (dis, id)) dis id =
      heapOffer CMaxInt 1 heap (dis, id) := by
  rw [heapOffer_of_lt h, heapReplaceTop_one, heapReplaceTop_one, update_idem]

end

/-- `add_bcode`, with the tops that the heaps had before the entry. -/
theorem addBcode_eq (dis : ℕ → ℤ) (id : ℤ) (rows : ℕ → ℕ → ℤ × ℤ) (done rest : List ℕ)
    (h : (done ++ rest).Nodup ∨ k = 1) :
    addBcode k dis id (rest.map fun q ↦ (q, (rows q 0).1)) (offered k dis id done rows) =
      (offered k dis id (done ++ rest) rows,
        rest.map fun q ↦ (q, (offered k dis id (done ++ rest) rows q 0).1)) := by
  induction rest generalizing done with
  | nil => rw [List.append_nil]; rfl
  | cons q rest ih =>
      have hassoc : done ++ q :: rest = done ++ [q] ++ rest := by rw [List.append_assoc, List.singleton_append]
      rw [hassoc] at h ⊢
      have hq : offered k dis id (done ++ [q] ++ rest) rows q = heapOffer CMaxInt k (rows q) (dis q, id) :=
        if_pos (by simp)
      rw [List.map_cons, List.map_cons, hq]
      unfold addBcode
      by_cases hlt : dis q < (rows q 0).1
      · have hheap : heapReplaceTop CMaxInt k (offered k dis id done rows q) (dis q) id =
            heapOffer CMaxInt k (rows q) (dis q, id) := by
          unfold offered
          split
          · rename_i hdone
            rcases h with h | rfl
            · have hnodup := (List.nodup_append.mp (List.nodup_append.mp h).1).2.2
              exact absurd rfl (hnodup q hdone q List.mem_cons_self)
            · exact heapReplaceTop_offered hlt
          · exact (heapOffer_of_lt hlt).symm
        have hnext : update (offered k dis id done rows) q (heapOffer CMaxInt k (rows q) (dis q, id)) =
            offered k dis id (done ++ [q]) rows := by
          funext i
          by_cases hi : i = q
          · rw [hi, update_self]
            exact (if_pos (by simp)).symm
          · rw [update_of_ne hi]
            exact if_congr (by simp [hi]) rfl rfl
        rw [if_pos hlt]
        dsimp only
        rw [hheap, hnext, ih _ h]
      · have hsame : heapOffer CMaxInt k (rows q) (dis q, id) = rows q := heapOffer_of_le (not_lt.mp hlt)
        have hnext : offered k dis id done rows = offered k dis id (done ++ [q]) rows := by
          funext i
          unfold offered
          by_cases hi : i = q
          · rw [hi, hsame, ite_self, ite_self]
          · exact if_congr (by simp [hi]) rfl rfl
        rw [if_neg hlt]
        dsimp only
        rw [hnext, ih _ h, hsame]

/-! ## The entries of a list -/

/-- The heap of query `q` after the entries of the list `l`. -/
def scanned (ivf : IndexBinaryIVF) (k : ℕ) (x : ℕ → UInt8) (l q : ℕ) (heap : ℕ → ℤ × ℤ) : ℕ → ℤ × ℤ :=
  heapOffers CMaxInt k heap (ivf.offersOf false x q l)

theorem leftover_eq (ivf : IndexBinaryIVF) (k : ℕ) (x : ℕ → UInt8) (l : ℕ) (rows : ℕ → ℕ → ℤ × ℤ) (q : ℕ) :
    ivf.leftover k x l rows q = update rows q (ivf.scanned k x l q (rows q)) := by
  have hfold : ∀ (es : List Entry) (heap : ℕ → ℤ × ℤ),
      es.foldl (fun (s : (ℕ → ℤ × ℤ) × ℤ) e ↦
        if ivf.distance x q e < s.2 then
          let heap := heapReplaceTop CMaxInt k s.1 (ivf.distance x q e) e.id.toInt
          (heap, (heap 0).1)
        else s) (heap, (heap 0).1) =
      (heapOffers CMaxInt k heap (es.map fun e ↦ (ivf.distance x q e, e.id.toInt)),
        (heapOffers CMaxInt k heap (es.map fun e ↦ (ivf.distance x q e, e.id.toInt)) 0).1) := by
    intro es
    induction es with
    | nil => exact fun heap ↦ rfl
    | cons e es ih =>
        intro heap
        rw [List.foldl_cons, List.map_cons]
        unfold heapOffers at ih ⊢
        rw [List.foldl_cons]
        dsimp only
        by_cases hlt : ivf.distance x q e < (heap 0).1
        · rw [if_pos hlt, heapOffer_of_lt hlt]
          exact ih _
        · rw [if_neg hlt, heapOffer_of_le (not_lt.mp hlt)]
          exact ih _
  unfold leftover scanned
  rw [hfold, offersOf_false]

theorem blockSearch_eq (h : queries.Nodup ∨ k = 1) (rows : ℕ → ℕ → ℤ × ℤ) :
    ivf.blockSearch k x l rows queries =
      fun i ↦ if i ∈ queries then ivf.scanned k x l i (rows i) else rows i := by
  have hfold : ∀ (es : List Entry) (rows : ℕ → ℕ → ℤ × ℤ),
      (es.foldl (fun s e ↦ addBcode k (ivf.distance x · e) e.id.toInt s.2 s.1)
        (rows, queries.map fun q ↦ (q, (rows q 0).1))).1 =
      fun i ↦ if i ∈ queries then
        heapOffers CMaxInt k (rows i) (es.map fun e ↦ (ivf.distance x i e, e.id.toInt)) else rows i := by
    intro es
    induction es with
    | nil => exact fun rows ↦ funext fun i ↦ (ite_self _).symm
    | cons e es ih =>
        intro rows
        have hstep := addBcode_eq (ivf.distance x · e) e.id.toInt rows [] queries h
        have hstart : offered k (ivf.distance x · e) e.id.toInt [] rows = rows :=
          funext fun i ↦ if_neg List.not_mem_nil
        rw [hstart, List.nil_append] at hstep
        rw [List.foldl_cons, hstep, ih]
        funext i
        unfold offered
        split
        · rfl
        · rfl
  unfold blockSearch scanned
  rw [hfold]
  funext i
  rw [offersOf_false]

/-- What is not nearer than the top of a heap with one result is offered in vain. -/
theorem heapOffers_one (heap : ℕ → ℤ × ℤ) (offers : List (ℤ × ℤ)) :
    (heapOffers CMaxInt 1 heap offers 0).1 ≤ (heap 0).1 ∧
      ∀ y ∈ offers, (heapOffers CMaxInt 1 heap offers 0).1 ≤ y.1 := by
  induction offers generalizing heap with
  | nil => exact ⟨le_rfl, fun y hy ↦ absurd hy List.not_mem_nil⟩
  | cons y offers ih =>
      obtain ⟨hle, hall⟩ := ih (heapOffer CMaxInt 1 heap y)
      have htop : (heapOffer CMaxInt 1 heap y 0).1 ≤ (heap 0).1 ∧ (heapOffer CMaxInt 1 heap y 0).1 ≤ y.1 := by
        by_cases hlt : y.1 < (heap 0).1
        · rw [show y = (y.1, y.2) from rfl, heapOffer_of_lt hlt, heapReplaceTop_one, update_self]
          exact ⟨hlt.le, le_rfl⟩
        · rw [show y = (y.1, y.2) from rfl, heapOffer_of_le (not_lt.mp hlt)]
          exact ⟨le_rfl, not_lt.mp hlt⟩
      refine ⟨hle.trans htop.1, fun z hz ↦ ?_⟩
      rcases List.mem_cons.mp hz with rfl | hz
      · exact hle.trans htop.2
      · exact hall z hz

theorem heapOffers_of_le {heap : ℕ → ℤ × ℤ} {offers : List (ℤ × ℤ)} (h : ∀ y ∈ offers, (heap 0).1 ≤ y.1) :
    heapOffers CMaxInt k heap offers = heap := by
  unfold heapOffers
  induction offers with
  | nil => rfl
  | cons y offers ih =>
      rw [List.foldl_cons, show y = (y.1, y.2) from rfl, heapOffer_of_le (h y List.mem_cons_self)]
      exact ih fun z hz ↦ h z (List.mem_cons_of_mem _ hz)

theorem scanned_one (ivf : IndexBinaryIVF) (x : ℕ → UInt8) (l q : ℕ) (heap : ℕ → ℤ × ℤ) :
    ivf.scanned 1 x l q (ivf.scanned 1 x l q heap) = ivf.scanned 1 x l q heap :=
  heapOffers_of_le (heapOffers_one heap (ivf.offersOf false x q l)).2

theorem foldl_leftover (queries : List ℕ) (rows : ℕ → ℕ → ℤ × ℤ) (i : ℕ) :
    queries.foldl (ivf.leftover k x l) rows i = (ivf.scanned k x l i)^[queries.count i] (rows i) := by
  induction queries generalizing rows with
  | nil => rfl
  | cons q queries ih =>
      rw [List.foldl_cons, ih, leftover_eq]
      by_cases hi : i = q
      · rw [hi, update_self, List.count_cons_self, iterate_succ_apply]
      · rw [update_of_ne hi, List.count_cons_of_ne (Ne.symm hi)]

/-- A block does what its queries do one after the other. -/
theorem blockSearch_eq_foldl (h : queries.Nodup ∨ k = 1) (rows : ℕ → ℕ → ℤ × ℤ) :
    ivf.blockSearch k x l rows queries = queries.foldl (ivf.leftover k x l) rows := by
  rw [blockSearch_eq h]
  funext i
  rw [foldl_leftover]
  split
  · rename_i hi
    rcases h with h | rfl
    · rw [List.count_eq_one_of_mem h hi, iterate_one]
    · obtain ⟨c, hc⟩ := Nat.exists_eq_succ_of_ne_zero (List.count_pos_iff.mpr hi).ne'
      rw [hc, iterate_succ_apply]
      clear hc
      induction c with
      | zero => rfl
      | succ c ih => rw [iterate_succ_apply, scanned_one]; exact ih
  · rename_i hi
    rw [List.count_eq_zero_of_not_mem hi]
    rfl

theorem searchList_eq (h : queries.Nodup ∨ k = 1) (rows : ℕ → ℕ → ℤ × ℤ) :
    ivf.searchList k x l queries rows = queries.foldl (ivf.leftover k x l) rows := by
  induction queries, rows using searchList.induct ivf k x l with
  | case1 q₀ q₁ q₂ q₃ queries rows ih =>
      have hsplit : (q₀ :: q₁ :: q₂ :: q₃ :: queries) = [q₀, q₁, q₂, q₃] ++ queries := rfl
      rw [searchList, ih (h.imp_left fun h ↦ (List.nodup_append.mp (hsplit ▸ h)).2.1),
        blockSearch_eq_foldl (h.imp_left fun h ↦ (List.nodup_append.mp (hsplit ▸ h)).1), hsplit, List.foldl_append]
  | case2 queries rows hshort => rw [searchList]; exact hshort

/-! ## All lists -/

/-- The queries that the sort leaves for the list `l`. -/
def queriesOf (rows : ℕ → ℤ) (lims : ℕ → ℕ) (l : ℕ) : List ℕ :=
  (List.range' (lims l) (lims (l + 1) - lims l)).map fun p ↦ (rows p).toNat

def NoneTwice (n nprobe : ℕ) (keys : ℕ → ℤ) : Prop :=
  ∀ i < n, (probedLists (keysOf nprobe keys i)).Nodup

theorem count_probedLists (keys : List ℤ) (l : ℕ) : (probedLists keys).count l = keys.count (l : ℤ) := by
  unfold probedLists
  induction keys with
  | nil => rfl
  | cons key keys ih =>
      rw [List.filter_cons, List.count_cons]
      by_cases hkey : 0 ≤ key
      · rw [if_pos (by simpa using hkey), List.map_cons, List.count_cons, ih]
        refine congrArg _ (if_congr ?_ rfl rfl)
        rw [beq_iff_eq, beq_iff_eq]
        omega
      · rw [if_neg (by simpa using hkey), ih, if_neg (by rw [beq_iff_eq]; omega), Nat.add_zero]

theorem coe_queriesOf {nval nprobe nlist : ℕ} {keys vals : ℕ → ℤ} {lims : ℕ → ℕ}
    (hlims : ∀ b ≤ nlist, lims b = valuesBelow nval keys b) (hsorted : Sorted nprobe nval nlist keys vals)
    (hl : l < nlist) : (↑(queriesOf vals lims l) : Multiset ℕ) =
      (rowsAt nprobe keys (Finset.Ico (valuesBelow nval keys 0) nval) l).map Int.toNat := by
  rw [← hsorted l hl, ← hlims l hl.le, ← hlims (l + 1) hl]
  unfold writtenAt queriesOf
  rw [Multiset.map_map]
  rfl

theorem lt_of_mem_queriesOf {n nprobe nlist : ℕ} {keys vals : ℕ → ℤ} {lims : ℕ → ℕ}
    (hlims : ∀ b ≤ nlist, lims b = valuesBelow (n * nprobe) keys b)
    (hsorted : Sorted nprobe (n * nprobe) nlist keys vals) (hl : l < nlist) {i : ℕ}
    (hi : i ∈ queriesOf vals lims l) : i < n := by
  rw [← Multiset.mem_coe, coe_queriesOf hlims hsorted hl, rowsAt, Multiset.map_map] at hi
  obtain ⟨p, hp, rfl⟩ := Multiset.mem_map.mp hi
  have hp := (Finset.mem_Ico.mp (Finset.mem_filter.mp (Finset.mem_val.mp hp)).1).2
  exact Nat.div_lt_of_lt_mul (Nat.mul_comm n nprobe ▸ hp)

/-- A query is there as often as it probes the list. -/
theorem count_queriesOf {n nprobe nlist : ℕ} {keys vals : ℕ → ℤ} {lims : ℕ → ℕ}
    (hlast : AssignedLast (n * nprobe) keys) (hkeys : ∀ p < n * nprobe, -1 ≤ keys p ∧ keys p < nlist)
    (hlims : ∀ b ≤ nlist, lims b = valuesBelow (n * nprobe) keys b)
    (hsorted : Sorted nprobe (n * nprobe) nlist keys vals) {i l : ℕ} (hi : i < n) (hl : l < nlist) :
    (queriesOf vals lims l).count i = (probedLists (keysOf nprobe keys i)).count l := by
  rw [← Multiset.coe_count, coe_queriesOf hlims hsorted hl, rowsAt, Multiset.map_map, Multiset.count_map, count_probedLists]
  unfold keysOf
  rw [List.count_eq_countP, List.countP_map, List.countP_eq_length_filter]
  have hpos : 0 < nprobe := by
    obtain ⟨p, hp, -⟩ := hlast.2
    exact Nat.pos_of_ne_zero fun h ↦ by simp [h] at hp
  have hcard : (((Finset.Ico (valuesBelow (n * nprobe) keys 0) (n * nprobe)).filter fun p ↦ keys p = l).filter
      fun p ↦ i = p / nprobe).card = ((Finset.range nprobe).filter fun ik ↦ keys (i * nprobe + ik) = l).card := by
    refine Finset.card_nbij' (fun p ↦ p % nprobe) (fun ik ↦ i * nprobe + ik) (fun p hp ↦ ?_) (fun ik hik ↦ ?_)
      (fun p hp ↦ ?_) fun ik hik ↦ ?_
    · obtain ⟨hmem, rfl⟩ := Finset.mem_filter.mp (Finset.mem_coe.mp hp)
      refine Finset.mem_coe.mpr (Finset.mem_filter.mpr ⟨Finset.mem_range.mpr (Nat.mod_lt p hpos), ?_⟩)
      rw [Nat.mul_comm, Nat.div_add_mod]
      exact (Finset.mem_filter.mp hmem).2
    · obtain ⟨hik, hkey⟩ := Finset.mem_filter.mp (Finset.mem_coe.mp hik)
      have hik := Finset.mem_range.mp hik
      have hkey : keys (i * nprobe + ik) = l := hkey
      have hp : i * nprobe + ik < n * nprobe := by
        calc i * nprobe + ik < (i + 1) * nprobe := by rw [Nat.add_mul, Nat.one_mul]; omega
          _ ≤ n * nprobe := Nat.mul_le_mul_right _ hi
      refine Finset.mem_coe.mpr (Finset.mem_filter.mpr ⟨Finset.mem_filter.mpr ⟨Finset.mem_Ico.mpr ⟨?_, hp⟩, hkey⟩, ?_⟩)
      · by_contra hlt
        have hnone : keys (i * nprobe + ik) = -1 := hlast.before (Nat.not_le.mp hlt) hp (fun p hp ↦ (hkeys p hp).1)
        omega
      · rw [Nat.mul_comm, Nat.mul_add_div hpos, Nat.div_eq_of_lt hik, Nat.add_zero]
    · obtain ⟨-, rfl⟩ := Finset.mem_filter.mp (Finset.mem_coe.mp hp)
      dsimp only
      rw [Nat.mul_comm, Nat.div_add_mod]
    · obtain ⟨hik, -⟩ := Finset.mem_filter.mp (Finset.mem_coe.mp hik)
      dsimp only
      rw [Nat.mul_comm, Nat.mul_add_mod, Nat.mod_eq_of_lt (Finset.mem_range.mp hik)]
  exact hcard

/-- The lists of a query, in the order in which it meets them. -/
def listsMet (nlist : ℕ) (queries : ℕ → List ℕ) (i : ℕ) : List ℕ :=
  (List.range nlist).flatMap fun l ↦ List.replicate ((queries l).count i) l

theorem foldl_replicate (ivf : IndexBinaryIVF) (k : ℕ) (x : ℕ → UInt8) (i l c : ℕ) (heap : ℕ → ℤ × ℤ) :
    (List.replicate c l).foldl (fun heap l ↦ ivf.scanned k x l i heap) heap = (ivf.scanned k x l i)^[c] heap := by
  induction c generalizing heap with
  | zero => rfl
  | succ c ih =>
      rw [List.replicate_succ, List.foldl_cons, ih, iterate_succ_apply]

theorem foldl_searchList {nlist : ℕ} {queries : ℕ → List ℕ} (h : ∀ l < nlist, (queries l).Nodup ∨ k = 1)
    (rows : ℕ → ℕ → ℤ × ℤ) (i : ℕ) :
    (List.range nlist).foldl (fun rows l ↦ ivf.searchList k x l (queries l) rows) rows i =
      (listsMet nlist queries i).foldl (fun heap l ↦ heapOffers CMaxInt k heap (ivf.offersOf false x i l))
        (rows i) := by
  induction nlist with
  | zero => rfl
  | succ nlist ih =>
      unfold listsMet at ih ⊢
      rw [List.range_succ, List.foldl_append, List.flatMap_append, List.foldl_append, List.flatMap_singleton,
        ← ih fun l hl ↦ h l (Nat.lt_succ_of_lt hl), List.foldl_cons, List.foldl_nil,
        searchList_eq (h nlist (Nat.lt_succ_self _)), foldl_leftover]
      exact (foldl_replicate ivf k x i nlist _ _).symm

theorem listsMet_perm {n nprobe nlist : ℕ} {keys vals : ℕ → ℤ} {lims : ℕ → ℕ}
    (hlast : AssignedLast (n * nprobe) keys) (hkeys : ∀ p < n * nprobe, -1 ≤ keys p ∧ keys p < nlist)
    (hlims : ∀ b ≤ nlist, lims b = valuesBelow (n * nprobe) keys b)
    (hsorted : Sorted nprobe (n * nprobe) nlist keys vals) {i : ℕ} (hi : i < n) :
    (listsMet nlist (queriesOf vals lims) i).Perm (probedLists (keysOf nprobe keys i)) := by
  have hcount : ∀ m l, (listsMet m (queriesOf vals lims) i).count l =
      if l < m then (queriesOf vals lims l).count i else 0 := by
    intro m l
    induction m with
    | zero => rfl
    | succ m ih =>
        unfold listsMet at ih ⊢
        rw [List.range_succ, List.flatMap_append, List.count_append, ih, List.flatMap_singleton,
          List.count_replicate]
        by_cases hl : l = m
        · rw [hl, if_neg (Nat.lt_irrefl m), if_pos (by simp), if_pos (Nat.lt_succ_self m), Nat.zero_add]
        · rw [if_neg (show ¬ (m == l) = true by simpa using Ne.symm hl), Nat.add_zero]
          exact if_congr (by omega) rfl rfl
  refine List.perm_iff_count.mpr fun l ↦ ?_
  rw [hcount]
  split
  · rename_i hl
    exact count_queriesOf hlast hkeys hlims hsorted hi hl
  · rename_i hl
    rw [count_probedLists, eq_comm]
    refine List.count_eq_zero_of_not_mem fun hmem ↦ hl ?_
    have hlt := keysOf_lt (fun p hp ↦ (hkeys p hp).2) hi _ hmem
    exact Int.ofNat_lt.mp hlt

/-- The search list by list returns what is to be selected, if the sort returns. -/
theorem searchKnnHammingPerInvlist_selects {assertions : Bool} {turns n : ℕ} {keys vals : ℕ → ℤ} {lims : ℕ → ℕ}
    (hk : 1 ≤ k) (x : ℕ → UInt8) (tab : ℕ → ℤ × ℤ) (hcodes : ivf.maxCodesOf params = 0)
    (hkeys : ∀ p < n * ivf.nprobeOf params, -1 ≤ keys p ∧ keys p < ivf.nlist)
    (hsort : bucketSortInplaceRef assertions turns n (ivf.nprobeOf params) keys ivf.nlist (n + 1) =
      some (vals, lims)) (htwice : k = 1 ∨ NoneTwice n (ivf.nprobeOf params) keys) :
    ∃ rows : ℕ → List (ℤ × ℤ), ivf.searchKnnHammingPerInvlist params assertions turns n x k keys tab false =
        some ((List.range n).map rows) ∧
      ∀ i < n, RowSelects k ↑(ivf.candidates x i (keysOf (ivf.nprobeOf params) keys i)) (rows i) := by
  obtain ⟨-, -, hlast, -, hlims, hsorted⟩ := bucketSortInplaceRef_spec hkeys hsort
  have hnodup : ∀ l < ivf.nlist, (queriesOf vals lims l).Nodup ∨ k = 1 := fun l hl ↦ by
    rcases htwice with hone | hnone
    · exact Or.inr hone
    refine Or.inl (List.nodup_iff_count_le_one.mpr fun i ↦ ?_)
    by_cases hi : i < n
    · rw [count_queriesOf hlast hkeys hlims hsorted hi hl]
      exact List.nodup_iff_count_le_one.mp (hnone i hi) l
    · rw [List.count_eq_zero_of_not_mem fun hmem ↦ hi (lt_of_mem_queriesOf hlims hsorted hl hmem)]
      exact Nat.zero_le 1
  refine ⟨fun i ↦ firstEntries k (heapReorder CMaxInt k ((List.range ivf.nlist).foldl
    (fun rows l ↦ ivf.searchList k x l (queriesOf vals lims l) rows)
    (fun i ↦ heapHeapify CMaxInt k fun j ↦ tab (k * i + j)) i)).2, ?_, fun i hi ↦ ?_⟩
  · unfold searchKnnHammingPerInvlist
    rw [if_neg (not_not.mpr hcodes), if_neg Bool.false_ne_true, hsort]
    rfl
  · have hholds := ivf.foldl_holds (TopK.holds_heapHeapify hk fun j ↦ tab (k * i + j)) x i
      (listsMet ivf.nlist (queriesOf vals lims) i) fun l _ ↦ ivf.real_offersOf x i l
    rw [add_zero, ← foldl_searchList hnodup (fun i ↦ heapHeapify CMaxInt k fun j ↦ tab (k * i + j)) i,
      Multiset.coe_eq_coe.mpr ((listsMet_perm hlast hkeys hlims hsorted hi).flatMap_right _)] at hholds
    exact selects_of_holds hholds

end IndexBinaryIVF

end FaissNavix
