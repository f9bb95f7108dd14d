import FaissNavix.Heap

/-!
# The heap result handler

`HeapBlockResultHandler<C>::SingleResultHandler` of `faiss/impl/ResultHandler.h`, for any order `C`.
It *holds* the multiset of the results that were offered to it and come before the neutral value
when its heap is a selection of the `k` best of these, filled up with the neutral value.  What it
leaves in the result tables is read off this multiset.
-/

namespace FaissNavix

open Lib (KSmallest)

variable {T K : Type} [LinearOrder K]

structure TopK (T : Type) where
  k : ℕ
  heap : ℕ → T × ℤ
  threshold : T

namespace TopK

section Model

variable (C : KeyValueOrder T)

/-- `begin`, on the part of the result tables that belongs to the query. -/
def begin (k : ℕ) (tab : ℕ → T × ℤ) : TopK T where
  k := k
  heap := heapHeapify C k tab
  threshold := (heapHeapify C k tab 0).1

/-- `add_result` -/
def addResult (h : TopK T) (dis : T) (idx : ℤ) : TopK T × Bool :=
  if C.cmp h.threshold dis then
    let heap := heapReplaceTop C h.k h.heap dis idx
    ({ h with heap, threshold := (heap 0).1 }, true)
  else (h, false)

/-- `end`: what it leaves in the tables. -/
def «end» (h : TopK T) : ℕ → T × ℤ := (heapReorder C h.k h.heap).2

/-- The results of the query after `end`. -/
def results (h : TopK T) : List (T × ℤ) := firstEntries h.k (h.end C)

/-- `add_result` on each of several results. -/
def addResults (h : TopK T) (offers : List (T × ℤ)) : TopK T :=
  offers.foldl (fun h x ↦ (h.addResult C x.1 x.2).1) h

end Model

variable {C : KeyValueOrder T} {key : T → K} {ok : T → Prop} {h : TopK T} {S : Multiset (T × ℤ)}

/-- The heap is a selection of the `k` best of `S`, filled up with the neutral value. -/
structure Holds (C : KeyValueOrder T) (key : T → K) (h : TopK T) (S : Multiset (T × ℤ)) :
    Prop where
  pos : 1 ≤ h.k
  threshold_eq : h.threshold = (h.heap 0).1
  heap : HeapOrdered key h.k h.heap
  real : ∀ x ∈ S, isReal x
  below : ∀ x ∈ S, C.cmp C.neutral x.1 = true
  smallest : KSmallest (fun x ↦ key x.1) h.k (S + Multiset.replicate h.k (C.neutral, -1))
    (entries h.k h.heap)

theorem holds_begin {k : ℕ} (hk : 1 ≤ k) (tab : ℕ → T × ℤ) : (begin C k tab).Holds C key 0 where
  pos := hk
  threshold_eq := rfl
  heap := heapOrdered_heapHeapify tab
  real := fun _ hx ↦ absurd hx (Multiset.notMem_zero _)
  below := fun _ hx ↦ absurd hx (Multiset.notMem_zero _)
  smallest := by
    have he : entries k (heapHeapify C k tab) = Multiset.replicate k (C.neutral, -1) :=
      entries_heapHeapify tab
    change KSmallest (fun x ↦ key x.1) k (0 + Multiset.replicate k (C.neutral, -1))
      (entries k (heapHeapify C k tab))
    rw [he, zero_add]
    exact KSmallest.self (by simp)

theorem Holds.mem_cases (hh : h.Holds C key S) {x : T × ℤ} (hx : x ∈ entries h.k h.heap) :
    x ∈ S ∨ x = (C.neutral, -1) := by
  rcases Multiset.mem_add.mp (Multiset.mem_of_le hh.smallest.sub hx) with hx | hx
  · exact Or.inl hx
  · exact Or.inr (Multiset.eq_of_mem_replicate hx)

theorem Holds.ok_of_mem (hC : C.Keyed key ok) (hh : h.Holds C key S) {x : T × ℤ}
    (hx : x ∈ entries h.k h.heap) : ok x.1 := by
  rcases hh.mem_cases hx with hx | rfl
  · exact (hC.cmp_iff.mp (hh.below x hx)).2.1
  · exact hC.ok_neutral

theorem Holds.top_mem (hh : h.Holds C key S) : h.heap 0 ∈ entries h.k h.heap :=
  mem_entries.mpr ⟨0, hh.pos, rfl⟩

theorem Holds.threshold_ok (hC : C.Keyed key ok) (hh : h.Holds C key S) : ok h.threshold := by
  rw [hh.threshold_eq]
  exact hh.ok_of_mem hC hh.top_mem

theorem Holds.le_threshold (hh : h.Holds C key S) {x : T × ℤ} (hx : x ∈ entries h.k h.heap) :
    key x.1 ≤ key h.threshold := by
  rw [hh.threshold_eq]
  exact hh.heap.le_top hx

theorem Holds.threshold_le_neutral (hC : C.Keyed key ok) (hh : h.Holds C key S) :
    key h.threshold ≤ key C.neutral := by
  rw [hh.threshold_eq]
  rcases hh.mem_cases hh.top_mem with hx | hx
  · exact (hC.cmp_iff.mp (hh.below _ hx)).2.2.le
  · rw [hx]

theorem Holds.exists_cons (hh : h.Holds C key S) :
    ∃ R, entries h.k h.heap = h.heap 0 ::ₘ R :=
  Multiset.exists_cons_of_mem hh.top_mem

/-- A value comes before the threshold exactly when the offers that are no worse than it do not
fill the heap. -/
theorem Holds.cmp_threshold_iff (hC : C.Keyed key ok) (hh : h.Holds C key S) {d : T}
    (hd : C.cmp C.neutral d = true) :
    C.cmp h.threshold d = true ↔ S.countP (fun x ↦ key x.1 ≤ key d) < h.k := by
  obtain ⟨R, hR⟩ := hh.exists_cons
  have hsm := hh.smallest
  have hcard : (h.heap 0 ::ₘ R).card = h.k := by rw [← hR, card_entries]
  rw [hR] at hsm
  have hmax : ∀ y ∈ R, key y.1 ≤ key (h.heap 0).1 := fun y hy ↦
    hh.heap.le_top (x := y) (by rw [hR]; exact Multiset.mem_cons_of_mem hy)
  have hrep : (Multiset.replicate h.k (C.neutral, (-1 : ℤ))).countP
      (fun x ↦ key x.1 ≤ key d) = 0 :=
    Multiset.countP_eq_zero.mpr fun x hx ↦ by
      rw [Multiset.eq_of_mem_replicate hx]
      exact not_le.mpr (hC.cmp_iff.mp hd).2.2
  have := hsm.lt_heaviest_iff hcard hmax (key d)
  rw [Multiset.countP_add, hrep, add_zero] at this
  rw [hC.cmp_iff, and_iff_right (hh.threshold_ok hC), and_iff_right (hC.cmp_iff.mp hd).2.1,
    hh.threshold_eq]
  exact this

/-- Offering a result: it is one of the results to select from if it comes before the neutral
value. -/
theorem Holds.addResult (hC : C.Keyed key ok) (hh : h.Holds C key S) (d : T) {i : ℤ}
    (hi : i ≠ -1) :
    (h.addResult C d i).1.Holds C key (if C.cmp C.neutral d = true then (d, i) ::ₘ S else S) ∧
      (h.addResult C d i).1.k = h.k := by
  obtain ⟨R, hR⟩ := hh.exists_cons
  have hsm := hh.smallest
  have hcard : (h.heap 0 ::ₘ R).card = h.k := by rw [← hR, card_entries]
  rw [hR] at hsm
  unfold TopK.addResult
  split
  · rename_i hcmp
    obtain ⟨-, hc2, hlt⟩ := hC.cmp_iff.mp hcmp
    have hdmax : C.cmp C.neutral d = true :=
      hC.cmp_iff.mpr ⟨hC.ok_neutral, hc2, hlt.trans_le (hh.threshold_le_neutral hC)⟩
    have hnew : entries h.k (heapReplaceTop C h.k h.heap d i) = (d, i) ::ₘ R := by
      have := cons_entries_heapReplaceTop (C := C) hh.pos h.heap d i
      rw [hR, Multiset.cons_swap] at this
      exact (Multiset.cons_inj_right _).mp this
    rw [if_pos hdmax]
    refine ⟨⟨hh.pos, rfl, ?_, ?_, ?_, ?_⟩, rfl⟩
    · exact hh.heap.heapReplaceTop hC hh.pos i hc2 fun x hx ↦ hh.ok_of_mem hC hx
    · exact Multiset.forall_mem_cons.mpr ⟨hi, hh.real⟩
    · exact Multiset.forall_mem_cons.mpr ⟨hdmax, hh.below⟩
    · change KSmallest (fun x ↦ key x.1) h.k _ (entries h.k (heapReplaceTop C h.k h.heap d i))
      rw [hnew, Multiset.cons_add]
      refine hsm.cons_replace hcard (fun y hy ↦ ?_) ?_
      · exact hh.heap.le_top (x := y) (by rw [hR]; exact Multiset.mem_cons_of_mem hy)
      · rw [hh.threshold_eq] at hlt
        exact hlt.le
  · rename_i hcmp
    split
    · rename_i hd
      refine ⟨⟨hh.pos, hh.threshold_eq, hh.heap, ?_, ?_, ?_⟩, rfl⟩
      · exact Multiset.forall_mem_cons.mpr ⟨hi, hh.real⟩
      · exact Multiset.forall_mem_cons.mpr ⟨hd, hh.below⟩
      · rw [Multiset.cons_add]
        refine hh.smallest.cons_of_le (card_entries _) fun y hy ↦ (hh.le_threshold hy).trans ?_
        by_contra hlt
        exact hcmp (hC.cmp_iff.mpr
          ⟨hh.threshold_ok hC, (hC.cmp_iff.mp hd).2.1, not_le.mp hlt⟩)
    · exact ⟨hh, rfl⟩

section
variable (hC : C.Keyed key ok) (hh : h.Holds C key S)
include hC hh

/-- Dropping the filling from a selection of the best. -/
theorem Holds.smallest_real :
    KSmallest (fun x ↦ key x.1) h.k S ((entries h.k h.heap).filter isReal) := by
  obtain ⟨R, hSR, hkeep⟩ := hh.smallest
  have hS : S.filter isReal = S := Multiset.filter_eq_self.mpr hh.real
  have hrep : (Multiset.replicate h.k (C.neutral, (-1 : ℤ))).filter isReal = 0 :=
    Multiset.filter_eq_nil.mpr fun x hx ↦ by
      rw [Multiset.eq_of_mem_replicate hx]
      simp [isReal]
  have hfil := congrArg (Multiset.filter isReal) hSR
  rw [Multiset.filter_add, Multiset.filter_add, hS, hrep, add_zero] at hfil
  refine ⟨R.filter isReal, hfil, ?_, ?_, ?_⟩
  · exact (Multiset.card_le_card (Multiset.filter_le _ _)).trans hkeep.card_le
  · intro hne
    obtain ⟨y, hy⟩ := Multiset.exists_mem_of_ne_zero hne
    have hyR := Multiset.mem_of_mem_filter hy
    have hyS : y ∈ S := by rw [hfil]; exact Multiset.mem_add.mpr (Or.inr hy)
    -- a filling entry among the kept ones would be no worse than the dropped `y`
    have hall : (entries h.k h.heap).filter isReal = entries h.k h.heap := by
      refine Multiset.filter_eq_self.mpr fun x hx ↦ ?_
      rcases hh.mem_cases hx with hxS | rfl
      · exact hh.real x hxS
      · exact absurd (hkeep.le _ hx y hyR)
          (not_le.mpr (hC.cmp_iff.mp (hh.below y hyS)).2.2)
    rw [hall, card_entries]
  · exact fun x hx y hy ↦
      hkeep.le x (Multiset.mem_of_mem_filter hx) y (Multiset.mem_of_mem_filter hy)

theorem Holds.results :
    ∃ L : List (T × ℤ), KSmallest (fun x ↦ key x.1) h.k S ↑L ∧
      L.Pairwise (fun x y ↦ key x.1 ≤ key y.1) ∧
      h.results C = L ++ List.replicate (h.k - L.length) (C.neutral, -1) := by
  obtain ⟨L, hL, hsorted, -, hfirst⟩ := heapReorder_spec hC hh.heap fun x hx ↦ hh.ok_of_mem hC hx
  exact ⟨L, by rw [hL]; exact hh.smallest_real hC, hsorted, hfirst⟩

theorem Holds.addResults (offers : List (T × ℤ))
    (hid : ∀ x ∈ offers, x.2 ≠ -1) :
    (h.addResults C offers).Holds C key
        (↑(offers.filter fun x ↦ C.cmp C.neutral x.1) + S) ∧
      (h.addResults C offers).k = h.k := by
  induction offers generalizing h S with
  | nil => exact ⟨by rw [List.filter_nil, Multiset.coe_nil, zero_add]; exact hh, rfl⟩
  | cons x offers ih =>
      obtain ⟨hx, hk⟩ := hh.addResult hC x.1 (hid x List.mem_cons_self)
      obtain ⟨hrest, hk'⟩ := ih hx fun y hy ↦ hid y (List.mem_cons_of_mem _ hy)
      refine ⟨?_, hk'.trans hk⟩
      rw [List.filter_cons]
      split at hrest
      · rename_i hcmp
        rw [if_pos hcmp, ← Multiset.cons_coe, Multiset.cons_add, ← Multiset.add_cons]
        exact hrest
      · rename_i hcmp
        rw [if_neg hcmp]
        exact hrest

theorem Holds.mem_entries_of_mem_results
    {y : T × ℤ} (hy : y ∈ h.results C) : y ∈ entries h.k h.heap := by
  obtain ⟨L, hL, -, -, hfirst⟩ := heapReorder_spec hC hh.heap fun x hx ↦ hh.ok_of_mem hC hx
  have hres : h.results C = L ++ List.replicate (h.k - L.length) (C.neutral, -1) := hfirst
  rw [hres] at hy
  rcases List.mem_append.mp hy with hy | hy
  · rw [← Multiset.mem_coe, hL] at hy
    exact Multiset.mem_of_mem_filter hy
  · obtain ⟨hn, rfl⟩ := List.mem_replicate.mp hy
    -- the heap is not full of true results
    have hne : (entries h.k h.heap).filter isReal ≠ entries h.k h.heap := fun heq ↦ by
      have hlen := congrArg Multiset.card hL
      rw [heq, card_entries, Multiset.coe_card] at hlen
      omega
    have hex : ∃ x ∈ entries h.k h.heap, ¬ isReal x := by
      by_contra hall
      exact hne (Multiset.filter_eq_self.mpr fun x hx ↦ by_contra fun hx' ↦ hall ⟨x, hx, hx'⟩)
    obtain ⟨x, hx, hreal⟩ := hex
    rcases hh.mem_cases hx with hxS | rfl
    · exact absurd (hh.real x hxS) hreal
    · exact hx

theorem Holds.not_better {d : T} {i : ℤ}
    (hfalse : (h.addResult C d i).2 = false) : ∀ y ∈ h.results C, C.cmp y.1 d = false := by
  have hthreshold : ¬ C.cmp h.threshold d = true := fun hcmp ↦ by
    rw [TopK.addResult, if_pos hcmp] at hfalse
    exact absurd hfalse (by simp)
  intro y hy
  refine Bool.eq_false_iff.mpr fun hbetter ↦ hthreshold ?_
  obtain ⟨-, hd, hlt⟩ := hC.cmp_iff.mp hbetter
  exact hC.cmp_iff.mpr ⟨hh.threshold_ok hC, hd,
    hlt.trans_le (hh.le_threshold (hh.mem_entries_of_mem_results hC hy))⟩

end

theorem addResults_eq_heapAddn (k : ℕ) (bh x : ℕ → T × ℤ) (n : ℕ) :
    addResults C ⟨k, bh, (bh 0).1⟩ ((List.range n).map x) =
      ⟨k, heapAddn C k bh x n, (heapAddn C k bh x n 0).1⟩ := by
  induction n with
  | zero => rfl
  | succ n ih =>
      rw [TopK.addResults] at ih ⊢
      rw [List.range_succ, List.map_append, List.foldl_append, ih, heapAddn, heapAddn,
        List.range_succ, List.foldl_append]
      simp only [List.map_cons, List.map_nil, List.foldl_cons, List.foldl_nil]
      rw [TopK.addResult]
      split <;> rfl

/-! ## The exact top `k` -/

/-- Offering `offers` to the handler of an order gives the `k` best of those before the neutral
value, in order and filled up with it, and what is not added is not better than the results so
far. -/
structure Exact (C : KeyValueOrder T) (key : T → K) (k : ℕ) (tab : ℕ → T × ℤ)
    (offers : List (T × ℤ)) : Prop where
  results : ∃ L : List (T × ℤ),
    KSmallest (fun x : T × ℤ ↦ key x.1) k ↑(offers.filter fun x ↦ C.cmp C.neutral x.1) ↑L ∧
    L.Pairwise (fun x y ↦ key x.1 ≤ key y.1) ∧
    ((begin C k tab).addResults C offers).results C =
      L ++ List.replicate (k - L.length) (C.neutral, -1)
  not_better : ∀ l₁ x l₂, offers = l₁ ++ x :: l₂ →
    (((begin C k tab).addResults C l₁).addResult C x.1 x.2).2 = false →
    ∀ y ∈ ((begin C k tab).addResults C l₁).results C, C.cmp y.1 x.1 = false

theorem exact_of_keyed (hC : C.Keyed key ok) {k : ℕ} (hk : 1 ≤ k) (tab : ℕ → T × ℤ)
    {offers : List (T × ℤ)} (hid : ∀ x ∈ offers, x.2 ≠ -1) : Exact C key k tab offers where
  results := by
    have hbegin : (begin C k tab).Holds C key 0 := holds_begin hk tab
    obtain ⟨hh, hk'⟩ := hbegin.addResults hC offers hid
    obtain ⟨L, hL, hsorted, hres⟩ := hh.results hC
    rw [hk', add_zero] at hL
    rw [hk'] at hres
    exact ⟨L, hL, hsorted, hres⟩
  not_better := by
    rintro l₁ x l₂ rfl hfalse
    have hbegin : (begin C k tab).Holds C key 0 := holds_begin hk tab
    obtain ⟨hh, -⟩ := hbegin.addResults hC l₁ fun y hy ↦ hid y (List.mem_append_left _ hy)
    exact hh.not_better hC hfalse

/-- The handler returns the exact top `k`, for the smallest distances and for the largest ones. -/
theorem topK_exact {k : ℕ} (hk : 1 ≤ k) (tab : ℕ → F32 × ℤ) {offers : List (F32 × ℤ)}
    (hid : ∀ x ∈ offers, 0 ≤ x.2) :
    Exact CMax F32.key k tab offers ∧ Exact CMin (fun d ↦ -d.key) k tab offers := by
  have hreal : ∀ x ∈ offers, x.2 ≠ -1 := fun x hx h ↦ by
    have := hid x hx
    omega
  exact ⟨exact_of_keyed CMax_keyed hk tab hreal, exact_of_keyed CMin_keyed hk tab hreal⟩

/-- Two results of which the better one is kept. -/
theorem topK_exact_two :
    Exact CMax F32.key 1 (fun _ ↦ (F32.max, -1)) [(⟨0x3f800000#32⟩, 7), (⟨0x00000000#32⟩, 3)] ∧
      Exact CMin (fun d ↦ -d.key) 1 (fun _ ↦ (F32.max, -1))
        [(⟨0x3f800000#32⟩, 7), (⟨0x00000000#32⟩, 3)] :=
  topK_exact le_rfl _ (by decide)

end TopK

end FaissNavix

/-!
# Heaps that are merged

Results may be selected by several heaps, one for each of several threads, that are merged with
`heap_addn`.  A merged heap is a selection from all that was offered to either of the two.

A heap may also be taken over with what is in it.  It *selects* from its former content and the
results offered since.
-/

namespace FaissNavix

open Lib (KSmallest)

variable {T K : Type} [LinearOrder K]

/-- One result is put in a heap if it comes before its top. -/
def heapOffer (C : KeyValueOrder T) (k : ℕ) (heap : ℕ → T × ℤ) (x : T × ℤ) : ℕ → T × ℤ :=
  if C.cmp (heap 0).1 x.1 then heapReplaceTop C k heap x.1 x.2 else heap

/-- Several results, in their order. -/
def heapOffers (C : KeyValueOrder T) (k : ℕ) (heap : ℕ → T × ℤ) (offers : List (T × ℤ)) :
    ℕ → T × ℤ :=
  offers.foldl (heapOffer C k) heap

variable {C : KeyValueOrder T} {k : ℕ} {heap bh : ℕ → T × ℤ} {key : T → K} {ok : T → Prop}
  {S S' : Multiset (T × ℤ)} {offers : List (T × ℤ)}

theorem heapAddn_eq_heapOffers (bh x : ℕ → T × ℤ) (n : ℕ) :
    heapAddn C k bh x n = heapOffers C k bh (firstEntries n x) := by
  rw [heapOffers, firstEntries, List.foldl_map]
  rfl

theorem heapOffers_append (offers' : List (T × ℤ)) :
    heapOffers C k heap (offers ++ offers') = heapOffers C k (heapOffers C k heap offers) offers' :=
  List.foldl_append

theorem coe_firstEntries (bh : ℕ → T × ℤ) :
    (↑(firstEntries k bh) : Multiset (T × ℤ)) = entries k bh :=
  (entries_eq_coe_range bh).symm

namespace TopK

/-- The handler of a heap. -/
def ofHeap (k : ℕ) (heap : ℕ → T × ℤ) : TopK T where
  k := k
  heap := heap
  threshold := (heap 0).1

theorem addResult_ofHeap (x : T × ℤ) :
    ((ofHeap k heap).addResult C x.1 x.2).1 = ofHeap k (heapOffer C k heap x) := by
  rw [addResult, heapOffer]
  change (if C.cmp (heap 0).1 x.1 then _ else _ : TopK T × Bool).1 = _
  split <;> rfl

theorem addResults_ofHeap (offers : List (T × ℤ)) :
    (ofHeap k heap).addResults C offers = ofHeap k (heapOffers C k heap offers) := by
  induction offers generalizing heap with
  | nil => rfl
  | cons x offers ih =>
      rw [addResults, List.foldl_cons, addResult_ofHeap]
      exact ih

/-! ## Merging -/

theorem holds_heapHeapify (hk : 1 ≤ k) (bh : ℕ → T × ℤ) :
    (ofHeap k (heapHeapify C k bh)).Holds C key 0 :=
  holds_begin hk bh

variable (hC : C.Keyed key ok) (h : (ofHeap k heap).Holds C key S)
include hC h

theorem Holds.heapOffers (hreal : ∀ x ∈ offers, x.2 ≠ -1) :
    (ofHeap k (FaissNavix.heapOffers C k heap offers)).Holds C key
      (↑(offers.filter fun x ↦ C.cmp C.neutral x.1) + S) := by
  rw [← addResults_ofHeap]
  exact (h.addResults hC offers hreal).1

theorem Holds.heapOffer_neutral :
    heapOffer C k heap (C.neutral, -1) = heap := by
  refine if_neg fun hcmp ↦ ?_
  exact absurd (hC.cmp_iff.mp hcmp).2.2 (not_lt.mpr (h.threshold_le_neutral hC))

/-- Offering the entries of a heap, of which some may be its filling. -/
theorem Holds.heapOffers_entries
    (hoffers : ∀ x ∈ offers, (isReal x ∧ C.cmp C.neutral x.1 = true) ∨ x = (C.neutral, -1)) :
    (ofHeap k (FaissNavix.heapOffers C k heap offers)).Holds C key
      (S + ↑(offers.filter fun x ↦ isReal x)) := by
  induction offers generalizing heap S with
  | nil =>
      rw [List.filter_nil, Multiset.coe_nil, add_zero]
      exact h
  | cons x offers ih =>
      have hrest := fun y hy ↦ hoffers y (List.mem_cons_of_mem x hy)
      rw [FaissNavix.heapOffers, List.foldl_cons]
      rcases hoffers x List.mem_cons_self with ⟨hreal, hcmp⟩ | rfl
      · have hx := (h.addResult hC x.1 hreal).1
        rw [if_pos hcmp, addResult_ofHeap] at hx
        have hcons : (x :: offers).filter (fun x ↦ isReal x) =
            x :: offers.filter fun x ↦ isReal x :=
          List.filter_cons_of_pos (decide_eq_true hreal)
        rw [hcons, ← Multiset.cons_coe, Multiset.add_cons, ← Multiset.cons_add]
        exact ih hx hrest
      · rw [h.heapOffer_neutral hC, List.filter_cons_of_neg (by simp [isReal])]
        exact ih h hrest

theorem Holds.heapAddn (h' : (ofHeap k bh).Holds C key S') :
    (ofHeap k (FaissNavix.heapAddn C k heap bh k)).Holds C key (S + S') := by
  have hmem : ∀ x ∈ firstEntries k bh,
      (isReal x ∧ C.cmp C.neutral x.1 = true) ∨ x = (C.neutral, -1) := fun x hx ↦ by
    rw [← Multiset.mem_coe, coe_firstEntries] at hx
    exact (h'.mem_cases hx).imp_left fun hxS ↦ ⟨h'.real x hxS, h'.below x hxS⟩
  have hsel := h.heapOffers_entries hC hmem
  have hkept : KSmallest (fun x ↦ key x.1) k S'
      ↑((firstEntries k bh).filter fun x ↦ isReal x) := by
    have := h'.smallest_real hC
    rw [← Multiset.filter_coe, coe_firstEntries]
    exact this
  rw [heapAddn_eq_heapOffers]
  refine ⟨hsel.pos, rfl, hsel.heap, ?_, ?_, ?_⟩
  · exact fun x hx ↦ (Multiset.mem_add.mp hx).elim (h.real x) (h'.real x)
  · exact fun x hx ↦ (Multiset.mem_add.mp hx).elim (h.below x) (h'.below x)
  · have hsmall := hsel.smallest
    rw [add_right_comm] at hsmall ⊢
    exact hsmall.add_smallest hkept

end TopK

/-! ## Heaps that are taken over -/

/-- The heap is a selection of the `k` best of `S`. -/
structure HeapSelects (C : KeyValueOrder T) (key : T → K) (ok : T → Prop) (k : ℕ)
    (heap : ℕ → T × ℤ) (S : Multiset (T × ℤ)) : Prop where
  pos : 1 ≤ k
  ordered : HeapOrdered key k heap
  comparable : ∀ x ∈ S, ok x.1
  smallest : KSmallest (fun x ↦ key x.1) k S (entries k heap)

theorem heapSelects_self (hk : 1 ≤ k) (hheap : HeapOrdered key k heap)
    (hok : ∀ x ∈ entries k heap, ok x.1) : HeapSelects C key ok k heap (entries k heap) where
  pos := hk
  ordered := hheap
  comparable := hok
  smallest := KSmallest.self (card_entries heap).le

theorem HeapSelects.ok_of_mem (h : HeapSelects C key ok k heap S) {x : T × ℤ}
    (hx : x ∈ entries k heap) : ok x.1 :=
  h.comparable x (Multiset.mem_of_le h.smallest.sub hx)

/-- Offering a result, which counts if it compares. -/
theorem HeapSelects.heapOffer [DecidablePred ok] (hC : C.Keyed key ok) (h : HeapSelects C key ok k heap S)
    (x : T × ℤ) :
    HeapSelects C key ok k (FaissNavix.heapOffer C k heap x) (if ok x.1 then x ::ₘ S else S) := by
  have htop : heap 0 ∈ entries k heap := mem_entries.mpr ⟨0, h.pos, rfl⟩
  obtain ⟨R, hR⟩ := Multiset.exists_cons_of_mem htop
  have hmax : ∀ y ∈ entries k heap, key y.1 ≤ key (heap 0).1 := fun y hy ↦ h.ordered.le_top hy
  rw [FaissNavix.heapOffer]
  split
  · rename_i hcmp
    obtain ⟨-, hx, hlt⟩ := hC.cmp_iff.mp hcmp
    have hnew : entries k (heapReplaceTop C k heap x.1 x.2) = x ::ₘ R := by
      have := cons_entries_heapReplaceTop (C := C) h.pos heap x.1 x.2
      rw [hR, Multiset.cons_swap] at this
      exact (Multiset.cons_inj_right _).mp this
    rw [if_pos hx]
    refine ⟨h.pos, h.ordered.heapReplaceTop hC h.pos x.2 hx fun y hy ↦ h.ok_of_mem hy,
      Multiset.forall_mem_cons.mpr ⟨hx, h.comparable⟩, ?_⟩
    have hsmall := h.smallest
    rw [hR] at hsmall hmax
    rw [hnew]
    exact hsmall.cons_replace (by rw [← hR, card_entries])
      (fun y hy ↦ hmax y (Multiset.mem_cons_of_mem hy)) hlt.le
  · rename_i hcmp
    split
    · rename_i hx
      refine ⟨h.pos, h.ordered, Multiset.forall_mem_cons.mpr ⟨hx, h.comparable⟩, ?_⟩
      refine h.smallest.cons_of_le (card_entries _) fun y hy ↦ (hmax y hy).trans ?_
      by_contra hlt
      exact hcmp (hC.cmp_iff.mpr ⟨h.ok_of_mem htop, hx, not_le.mp hlt⟩)
    · exact h

theorem HeapSelects.heapOffers [DecidablePred ok] (hC : C.Keyed key ok) (h : HeapSelects C key ok k heap S)
    (offers : List (T × ℤ)) :
    HeapSelects C key ok k (FaissNavix.heapOffers C k heap offers) (↑(offers.filter fun x ↦ ok x.1) + S) := by
  induction offers generalizing heap S with
  | nil =>
      rw [List.filter_nil, Multiset.coe_nil, zero_add]
      exact h
  | cons x offers ih =>
      have hx := h.heapOffer hC x
      rw [FaissNavix.heapOffers, List.foldl_cons, List.filter_cons]
      split at hx
      · rename_i hok
        rw [if_pos (decide_eq_true hok), ← Multiset.cons_coe, Multiset.cons_add,
          ← Multiset.add_cons]
        exact ih hx
      · rename_i hok
        rw [if_neg (by simpa using hok)]
        exact ih hx

end FaissNavix

/-!
# Heaps of integer distances

`CMax<int32_t, idx_t>` of `ordered_key_value.h`, and what a row of integer distances is to be.
-/

namespace FaissNavix

open Lib (KSmallest)

/-- `std::numeric_limits<int32_t>::max()` -/
def intMax : ℤ :=
  2147483647

/-- `CMax<int32_t, idx_t>` -/
def CMaxInt : KeyValueOrder ℤ where
  cmp a b := decide (b < a)
  cmp2 a1 b1 a2 b2 := decide (b1 < a1) || (a1 == b1 && decide (b2 < a2))
  neutral := intMax

theorem CMaxInt_keyed : CMaxInt.Keyed id fun _ : ℤ ↦ True where
  cmp_iff {a b} := by
    rw [CMaxInt, decide_eq_true_iff]
    exact ⟨fun h ↦ ⟨trivial, trivial, h⟩, fun h ↦ h.2.2⟩
  le_of_cmp2 {a b i j} _ _ h := by
    simp only [CMaxInt, Bool.or_eq_true, Bool.and_eq_true, decide_eq_true_eq, beq_iff_eq] at h
    rcases h with h | h
    · exact h.le
    · exact h.1.ge
  le_of_not_cmp2 {a b i j} _ _ h := by
    simp only [CMaxInt, Bool.or_eq_false_iff, decide_eq_false_iff_not] at h
    exact not_lt.mp h.1
  ok_neutral := trivial

/-- A row of results has the `k` smallest of the distances, in order, and then those that stand for
missing results. -/
def HasSmallest (k : ℕ) (distances : Multiset ℤ) (row : List (ℤ × ℤ)) : Prop :=
  ∃ T : List ℤ, KSmallest id k distances ↑T ∧ T.Pairwise (· ≤ ·) ∧
    row.map Prod.fst = T ++ List.replicate (k - T.length) intMax

theorem hasSmallest_results {k : ℕ} (hk : 1 ≤ k) (tab : ℕ → ℤ × ℤ) {offers : List (ℤ × ℤ)}
    (hid : ∀ x ∈ offers, x.2 ≠ -1) :
    HasSmallest k ((offers.map Prod.fst).filter (· < intMax) : List ℤ)
      (((TopK.begin CMaxInt k tab).addResults CMaxInt offers).results CMaxInt) := by
  obtain ⟨L, hL, hsorted, hres⟩ := (TopK.exact_of_keyed CMaxInt_keyed hk tab hid).results
  refine ⟨L.map Prod.fst, ?_, List.pairwise_map.mpr hsorted, ?_⟩
  · have hmap := hL.map_id
    rw [Multiset.map_coe, Multiset.map_coe] at hmap
    rw [List.filter_map]
    exact hmap
  · rw [hres, List.map_append, List.map_replicate, List.length_map]
    rfl

end FaissNavix
