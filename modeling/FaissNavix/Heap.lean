import FaissNavix.Float32
import FaissNavix.Lib.PriorityQueue

/-!
# Heaps of values and ids

`faiss/utils/ordered_key_value.h` and `faiss/utils/Heap.h`.  A heap lives in two arrays, the values
and the ids, which are always moved together and make one array of pairs here.  An array is a
function of the index, as a pointer is; the number `k` of elements goes with it as an argument.
-/

namespace FaissNavix

open Function
open Lib.BinaryHeap (IsHeap Refines)

variable {T K : Type} [LinearOrder K]

/-- The class `C` of `ordered_key_value.h`: which of two values comes first, the same with ties
broken by the ids, and the value that nothing is worse than. -/
structure KeyValueOrder (T : Type) where
  cmp : T → T → Bool
  cmp2 : T → T → ℤ → ℤ → Bool
  neutral : T

/-- `CMax<float, TI>`: the largest value is on top. -/
def CMax : KeyValueOrder F32 where
  cmp a b := decide (b < a)
  cmp2 a1 b1 a2 b2 := decide (b1 < a1) || (a1.feq b1 && decide (b2 < a2))
  neutral := F32.max

/-- `CMin<float, TI>`: the smallest value is on top. -/
def CMin : KeyValueOrder F32 where
  cmp a b := decide (a < b)
  cmp2 a1 b1 a2 b2 := decide (a1 < b1) || (a1.feq b1 && decide (a2 < b2))
  neutral := F32.lowest

/-- The values in `ok` compare as their keys do: `cmp a b` says that `a` has the larger key. -/
structure KeyValueOrder.Keyed (C : KeyValueOrder T) (key : T → K) (ok : T → Prop) : Prop where
  cmp_iff : ∀ {a b : T}, C.cmp a b = true ↔ ok a ∧ ok b ∧ key b < key a
  le_of_cmp2 : ∀ {a b : T} {i j : ℤ}, ok a → ok b → C.cmp2 a b i j = true → key b ≤ key a
  le_of_not_cmp2 : ∀ {a b : T} {i j : ℤ}, ok a → ok b → C.cmp2 a b i j = false → key a ≤ key b
  ok_neutral : ok C.neutral

theorem CMax_keyed : CMax.Keyed F32.key F32.Comparable where
  cmp_iff {a b} := by
    rw [CMax, decide_eq_true_iff, F32.lt_iff]
    exact ⟨fun h ↦ ⟨h.2.1, h.1, h.2.2⟩, fun h ↦ ⟨h.2.1, h.1, h.2.2⟩⟩
  le_of_cmp2 {a b i j} ha hb h := by
    simp only [CMax, Bool.or_eq_true, Bool.and_eq_true, decide_eq_true_eq, F32.feq_iff,
      F32.lt_iff] at h
    rcases h with h | h
    · exact h.2.2.le
    · exact h.1.2.2.ge
  le_of_not_cmp2 {a b i j} ha hb h := by
    simp only [CMax, Bool.or_eq_false_iff, decide_eq_false_iff_not] at h
    exact (F32.not_lt_iff hb ha).mp h.1
  ok_neutral := F32.comparable_max

theorem CMin_keyed : CMin.Keyed (fun x ↦ -x.key) F32.Comparable where
  cmp_iff {a b} := by
    rw [CMin, decide_eq_true_iff, F32.lt_iff, neg_lt_neg_iff]
  le_of_cmp2 {a b i j} ha hb h := by
    simp only [CMin, Bool.or_eq_true, Bool.and_eq_true, decide_eq_true_eq, F32.feq_iff,
      F32.lt_iff] at h
    rcases h with h | h
    · exact neg_le_neg h.2.2.le
    · exact neg_le_neg h.1.2.2.le
  le_of_not_cmp2 {a b i j} ha hb h := by
    simp only [CMin, Bool.or_eq_false_iff, decide_eq_false_iff_not] at h
    exact neg_le_neg ((F32.not_lt_iff ha hb).mp h.1)
  ok_neutral := F32.comparable_lowest

/-- `cmp2` on an entry of a heap. -/
def KeyValueOrder.gt (C : KeyValueOrder T) (x y : T × ℤ) : Bool := C.cmp2 x.1 y.1 x.2 y.2

theorem KeyValueOrder.Keyed.refines {C : KeyValueOrder T} {key : T → K} {ok : T → Prop}
    (hC : C.Keyed key ok) : Refines C.gt (fun x ↦ key x.1) (fun x ↦ ok x.1) where
  le_of_gt := hC.le_of_cmp2
  le_of_not_gt := hC.le_of_not_cmp2

/-! ## The heap functions -/

/-- `bh--`: 1-based indexing. -/
def oneBased {α : Type} (bh : ℕ → α) : ℕ → α := fun i ↦ bh (i - 1)

/-- Back to 0-based indexing. -/
def zeroBased {α : Type} (a : ℕ → α) : ℕ → α := fun i ↦ a (i + 1)

variable (C : KeyValueOrder T)

section
variable (k : ℕ) (bh : ℕ → T × ℤ) (val : T) (id : ℤ)

/-- `heap_pop`: the entry at `k - 1` is the last one moved, and not part of the heap any more. -/
def heapPop : ℕ → T × ℤ :=
  zeroBased (Lib.BinaryHeap.pop C.gt k (oneBased bh))

/-- `heap_push`: `k` counts the new entry. -/
def heapPush : ℕ → T × ℤ :=
  zeroBased (Lib.BinaryHeap.push C.gt k (val, id) (oneBased bh))

/-- `heap_replace_top` -/
def heapReplaceTop : ℕ → T × ℤ :=
  zeroBased (Lib.BinaryHeap.replaceTop C.gt k (val, id) (oneBased bh))

/-- `heap_heapify` with no initial elements. -/
def heapHeapify : ℕ → T × ℤ :=
  fun i ↦ if i < k then (C.neutral, -1) else bh i

/-- `heap_addn` -/
def heapAddn (x : ℕ → T × ℤ) (n : ℕ) : ℕ → T × ℤ :=
  (List.range n).foldl (fun bh i ↦
    if C.cmp (bh 0).1 (x i).1 then heapReplaceTop C k bh (x i).1 (x i).2 else bh) bh

/-- One turn of the first loop of `heap_reorder`, on the arrays and on `ii`. -/
def heapReorderStep (s : (ℕ → T × ℤ) × ℕ) (i : ℕ) : (ℕ → T × ℤ) × ℕ :=
  let top := s.1 0
  let bh := update (heapPop C (k - i) s.1) (k - s.2 - 1) top
  (bh, if top.2 ≠ -1 then s.2 + 1 else s.2)

/-- `heap_reorder`: the number of true elements, and the arrays with these in front, sorted. -/
def heapReorder : ℕ × (ℕ → T × ℤ) :=
  let s := (List.range k).foldl (heapReorderStep C k) (bh, 0)
  (s.2, fun j ↦
    if j < s.2 then s.1 (k - s.2 + j) else if j < k then (C.neutral, -1) else s.1 j)

end

/-- The first `k` entries of an array. -/
def entries {α : Type} (k : ℕ) (bh : ℕ → α) : Multiset α :=
  Lib.BinaryHeap.contents k (oneBased bh)

section Lemmas

variable {α : Type} {C} {k : ℕ} {bh : ℕ → T × ℤ} {key : T → K} {ok : T → Prop}

theorem mem_entries {bh : ℕ → α} {x : α} : x ∈ entries k bh ↔ ∃ i, i < k ∧ bh i = x := by
  rw [entries, Lib.BinaryHeap.mem_contents]
  constructor
  · rintro ⟨i, h1, h2, h⟩
    exact ⟨i - 1, by omega, h⟩
  · rintro ⟨i, h1, h⟩
    exact ⟨i + 1, by omega, by omega, h⟩

@[simp] theorem card_entries (bh : ℕ → α) : (entries k bh).card = k :=
  Lib.BinaryHeap.card_contents _ _

@[simp] theorem entries_zero (bh : ℕ → α) : entries 0 bh = 0 := rfl

theorem entries_succ (bh : ℕ → α) : entries (k + 1) bh = bh k ::ₘ entries k bh :=
  Lib.BinaryHeap.contents_succ _ _

theorem entries_congr {bh bh' : ℕ → α} (h : ∀ i < k, bh i = bh' i) :
    entries k bh = entries k bh' :=
  Lib.BinaryHeap.contents_congr fun i h1 h2 ↦ h (i - 1) (by omega)

theorem cons_entries_update {i : ℕ} (hi : i < k) (bh : ℕ → α) (x : α) :
    bh i ::ₘ entries k (update bh i x) = x ::ₘ entries k bh := by
  have hc : entries k (update bh i x) =
      Lib.BinaryHeap.contents k (update (oneBased bh) (i + 1) x) :=
    Lib.BinaryHeap.contents_congr fun j h1 _ ↦ by
      by_cases hj : j = i + 1
      · subst hj; simp [oneBased]
      · rw [update_of_ne hj, oneBased, update_of_ne (by omega), oneBased]
  rw [hc]
  exact Lib.BinaryHeap.cons_contents_update (by omega) hi (oneBased bh) x

theorem entries_eq_coe_range (bh : ℕ → α) : entries k bh = ↑((List.range k).map bh) := by
  induction k with
  | zero => rfl
  | succ k ih =>
      rw [entries_succ, ih, List.range_succ, List.map_append, List.map_singleton,
        Multiset.cons_coe]
      exact Multiset.coe_eq_coe.mpr (List.perm_append_singleton _ _).symm

/-- The first `k` entries are in heap order for `key`. -/
def HeapOrdered (key : T → K) (k : ℕ) (bh : ℕ → T × ℤ) : Prop :=
  IsHeap (fun x ↦ key x.1) k (oneBased bh)

theorem HeapOrdered.le_top (h : HeapOrdered key k bh) {x : T × ℤ} (hx : x ∈ entries k bh) :
    key x.1 ≤ key (bh 0).1 :=
  IsHeap.le_root_of_mem h hx

theorem HeapOrdered.congr {bh' : ℕ → T × ℤ} (h : HeapOrdered key k bh)
    (hbh : ∀ i < k, (bh i).1 = (bh' i).1) : HeapOrdered key k bh' :=
  IsHeap.congr h fun i h1 h2 ↦ by
    simp only [oneBased, hbh (i - 1) (by omega)]

theorem entries_zeroBased (a : ℕ → α) :
    entries k (zeroBased a) = Lib.BinaryHeap.contents k a :=
  Lib.BinaryHeap.contents_congr fun _ h1 _ ↦ congrArg a (Nat.sub_add_cancel h1)

theorem heapOrdered_zeroBased {a : ℕ → T × ℤ} (h : IsHeap (fun x ↦ key x.1) k a) :
    HeapOrdered key k (zeroBased a) :=
  IsHeap.congr h fun i h1 _ ↦ by
    rw [oneBased, zeroBased, Nat.sub_add_cancel h1]

theorem cons_entries_heapPop (bh : ℕ → T × ℤ) :
    bh 0 ::ₘ entries k (heapPop C (k + 1) bh) = entries (k + 1) bh := by
  rw [heapPop, entries_zeroBased]
  exact Lib.BinaryHeap.cons_contents_pop (oneBased bh)

theorem entries_heapPush (bh : ℕ → T × ℤ) (val : T) (id : ℤ) :
    entries (k + 1) (heapPush C (k + 1) bh val id) = (val, id) ::ₘ entries k bh := by
  rw [heapPush, entries_zeroBased]
  exact Lib.BinaryHeap.contents_push (val, id) (oneBased bh)

theorem cons_entries_heapReplaceTop (hk : 1 ≤ k) (bh : ℕ → T × ℤ) (val : T) (id : ℤ) :
    bh 0 ::ₘ entries k (heapReplaceTop C k bh val id) = (val, id) ::ₘ entries k bh := by
  rw [heapReplaceTop, entries_zeroBased]
  exact Lib.BinaryHeap.cons_contents_replaceTop C.gt hk (val, id) (oneBased bh)

theorem HeapOrdered.heapPop (hC : C.Keyed key ok) (h : HeapOrdered key (k + 1) bh)
    (hok : ∀ x ∈ entries (k + 1) bh, ok x.1) : HeapOrdered key k (heapPop C (k + 1) bh) :=
  heapOrdered_zeroBased (IsHeap.pop hC.refines h hok)

theorem HeapOrdered.heapPush (hC : C.Keyed key ok) (h : HeapOrdered key k bh) {val : T}
    (id : ℤ) (hval : ok val) (hok : ∀ x ∈ entries k bh, ok x.1) :
    HeapOrdered key (k + 1) (heapPush C (k + 1) bh val id) :=
  heapOrdered_zeroBased (IsHeap.push hC.refines (x := (val, id)) h hval hok)

theorem HeapOrdered.heapReplaceTop (hC : C.Keyed key ok) (h : HeapOrdered key k bh)
    (hk : 1 ≤ k) {val : T} (id : ℤ) (hval : ok val) (hok : ∀ x ∈ entries k bh, ok x.1) :
    HeapOrdered key k (heapReplaceTop C k bh val id) :=
  heapOrdered_zeroBased (IsHeap.replaceTop hC.refines (x := (val, id)) h hk hval hok)

theorem heapPop_of_le {j : ℕ} (bh : ℕ → T × ℤ) (hk : 1 ≤ k) (hj : k ≤ j) :
    heapPop C k bh j = bh j :=
  Lib.BinaryHeap.siftDown_of_lt _ (by omega) k 1 (oneBased bh) hk

theorem entries_heapHeapify (bh : ℕ → T × ℤ) :
    entries k (heapHeapify C k bh) = Multiset.replicate k (C.neutral, -1) := by
  refine Multiset.eq_replicate.mpr ⟨card_entries _, fun x hx ↦ ?_⟩
  obtain ⟨i, hi, rfl⟩ := mem_entries.mp hx
  rw [heapHeapify, if_pos hi]

theorem heapOrdered_heapHeapify (bh : ℕ → T × ℤ) : HeapOrdered key k (heapHeapify C k bh) := by
  intro i h1 h2
  simp only [oneBased, heapHeapify]
  rw [if_pos (show i - 1 < k by omega), if_pos (show i / 2 - 1 < k by omega)]

/-! ## Sorting a heap -/

/-- A true element, as opposed to the filling that `heap_heapify` puts in. -/
def isReal (x : T × ℤ) : Prop := x.2 ≠ -1

instance (x : T × ℤ) : Decidable (isReal x) := inferInstanceAs (Decidable (_ ≠ _))

/-- The elements `heap_reorder` has put at the back of the array. -/
def reordered (k : ℕ) (s : (ℕ → T × ℤ) × ℕ) : List (T × ℤ) :=
  (List.range s.2).map fun j ↦ s.1 (k - s.2 + j)

/-- What `heap_reorder` keeps after `i` turns: a heap of the elements not popped yet, and the true
elements among the popped ones, sorted, at the back. -/
structure Reordering (key : T → K) (ok : T → Prop) (k : ℕ) (bh : ℕ → T × ℤ) (i : ℕ)
    (s : (ℕ → T × ℤ) × ℕ) : Prop where
  le : s.2 ≤ i
  heap : HeapOrdered key (k - i) s.1
  ok : ∀ x ∈ entries (k - i) s.1, ok x.1
  split : ↑(reordered k s) + (entries (k - i) s.1).filter isReal = (entries k bh).filter isReal
  sorted : (reordered k s).Pairwise fun x y ↦ key x.1 ≤ key y.1
  below : ∀ x ∈ entries (k - i) s.1, ∀ y ∈ reordered k s, key x.1 ≤ key y.1

theorem Reordering.step (hC : C.Keyed key ok) {i : ℕ} {s : (ℕ → T × ℤ) × ℕ}
    (h : Reordering key ok k bh i s) (hi : i < k) :
    Reordering key ok k bh (i + 1) (heapReorderStep C k s i) := by
  obtain ⟨a, ii⟩ := s
  obtain ⟨m, hm⟩ : ∃ m, k - i = m + 1 := ⟨k - i - 1, by omega⟩
  obtain ⟨hle, hheap, hok, hsplit, hsorted, hbelow⟩ := h
  simp only at hle
  have hm' : k - (i + 1) = m := by omega
  rw [hm] at hheap hok hsplit hbelow
  have hpop := cons_entries_heapPop (C := C) (k := m) a
  -- the cell `k - ii - 1` that the popped element goes to lies behind the remaining heap
  have hcell : m ≤ k - ii - 1 := by omega
  have hsame : ∀ j < m, heapPop C (m + 1) a j =
      update (heapPop C (m + 1) a) (k - ii - 1) (a 0) j := fun j hj ↦
    (update_of_ne (by omega) _ _).symm
  have hback : ∀ j, update (heapPop C (m + 1) a) (k - ii - 1) (a 0) (k - ii + j) =
      a (k - ii + j) := fun j ↦ by
    rw [update_of_ne (by omega), heapPop_of_le a (by omega) (by omega)]
  have htop : a 0 ∈ entries (m + 1) a := by rw [← hpop]; exact Multiset.mem_cons_self _ _
  have hsub : ∀ x ∈ entries m (heapPop C (m + 1) a), x ∈ entries (m + 1) a := fun x hx ↦ by
    rw [← hpop]; exact Multiset.mem_cons_of_mem hx
  have hstep : heapReorderStep C k (a, ii) i =
      (update (heapPop C (m + 1) a) (k - ii - 1) (a 0),
        if (a 0).2 ≠ -1 then ii + 1 else ii) := by
    rw [heapReorderStep, hm]
  have hheap' : HeapOrdered key m (update (heapPop C (m + 1) a) (k - ii - 1) (a 0)) :=
    (hheap.heapPop hC hok).congr fun j hj ↦ by rw [hsame j hj]
  have hold : reordered k (update (heapPop C (m + 1) a) (k - ii - 1) (a 0), ii) =
      reordered k (a, ii) :=
    List.map_congr_left fun j _ ↦ hback j
  rw [hstep]
  split
  · rename_i hne
    have hreal : isReal (a 0) := hne
    have hnew : reordered k (update (heapPop C (m + 1) a) (k - ii - 1) (a 0), ii + 1) =
        a 0 :: reordered k (a, ii) := by
      rw [← hold, reordered, List.range_succ_eq_map, List.map_cons, List.map_map]
      refine congrArg₂ _ ?_ (List.map_congr_left fun j _ ↦ ?_)
      · exact (congrArg _ (show k - (ii + 1) + 0 = k - ii - 1 by omega)).trans (update_self _ _ _)
      · exact congrArg _ (show k - (ii + 1) + (j + 1) = k - ii + j by omega)
    refine ⟨by simp only; omega, ?_, ?_, ?_, ?_, ?_⟩
    · rw [hm']; exact hheap'
    · rw [hm', ← entries_congr hsame]; exact fun x hx ↦ hok x (hsub x hx)
    · rw [hm', ← entries_congr hsame, hnew, ← hsplit, ← hpop, Multiset.filter_cons_of_pos _ hreal,
        ← Multiset.cons_coe, Multiset.cons_add, Multiset.add_cons]
    · rw [hnew]
      exact List.pairwise_cons.mpr ⟨fun y hy ↦ hbelow _ htop y hy, hsorted⟩
    · rw [hm', ← entries_congr hsame, hnew]
      intro x hx y hy
      rcases List.mem_cons.mp hy with rfl | hy
      · exact hheap.le_top (hsub x hx)
      · exact hbelow x (hsub x hx) y hy
  · rename_i hne
    have hreal : ¬ isReal (a 0) := hne
    refine ⟨by simp only; omega, ?_, ?_, ?_, ?_, ?_⟩
    · rw [hm']; exact hheap'
    · rw [hm', ← entries_congr hsame]; exact fun x hx ↦ hok x (hsub x hx)
    · rw [hm', ← entries_congr hsame, hold, ← hsplit, ← hpop, Multiset.filter_cons_of_neg _ hreal]
    · rw [hold]; exact hsorted
    · rw [hm', ← entries_congr hsame, hold]
      exact fun x hx y hy ↦ hbelow x (hsub x hx) y hy

theorem Reordering.run (hC : C.Keyed key ok) (hheap : HeapOrdered key k bh)
    (hok : ∀ x ∈ entries k bh, ok x.1) :
    ∀ i ≤ k, Reordering key ok k bh i ((List.range i).foldl (heapReorderStep C k) (bh, 0)) := by
  intro i
  induction i with
  | zero =>
      intro _
      exact ⟨le_rfl, hheap, hok, by simp [reordered], by simp [reordered], by simp [reordered]⟩
  | succ i ih =>
      intro hi
      rw [List.range_succ, List.foldl_append]
      exact (ih (by omega)).step hC (by omega)

/-- The first entries of the array, in their order. -/
def firstEntries {α : Type} (k : ℕ) (bh : ℕ → α) : List α := (List.range k).map bh

/-- `heap_reorder` puts the true elements in front, sorted, and fills up with the neutral value
and `-1`. -/
theorem heapReorder_spec (hC : C.Keyed key ok) (hheap : HeapOrdered key k bh)
    (hok : ∀ x ∈ entries k bh, ok x.1) :
    ∃ L : List (T × ℤ), (↑L : Multiset (T × ℤ)) = (entries k bh).filter isReal ∧
      L.Pairwise (fun x y ↦ key x.1 ≤ key y.1) ∧ (heapReorder C k bh).1 = L.length ∧
      firstEntries k (heapReorder C k bh).2 =
        L ++ List.replicate (k - L.length) (C.neutral, -1) := by
  have h := Reordering.run hC hheap hok k le_rfl
  rw [heapReorder]
  generalize (List.range k).foldl (heapReorderStep C k) (bh, 0) = s at h
  obtain ⟨a, ii⟩ := s
  have hle : ii ≤ k := h.le
  have hlen : (reordered k (a, ii)).length = ii := by simp [reordered]
  refine ⟨reordered k (a, ii), ?_, h.sorted, hlen.symm, ?_⟩
  · rw [← h.split, Nat.sub_self, entries_zero, Multiset.filter_zero, Multiset.add_zero]
  · obtain ⟨r, rfl⟩ : ∃ r, k = ii + r := ⟨k - ii, by omega⟩
    rw [firstEntries, hlen, List.range_add, List.map_append, List.map_map, Nat.add_sub_cancel_left]
    congr 1
    · exact List.map_congr_left fun j hj ↦ by
        simp only [if_pos (List.mem_range.mp hj), Nat.add_sub_cancel_left]
    · refine List.eq_replicate_iff.mpr ⟨by simp, fun x hx ↦ ?_⟩
      obtain ⟨j, hj, rfl⟩ := List.mem_map.mp hx
      have := List.mem_range.mp hj
      simp only [Function.comp_apply]
      rw [if_neg (by omega), if_pos (by omega)]

end Lemmas

end FaissNavix
