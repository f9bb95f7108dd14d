import FaissNavix.Heap
import FaissNavix.Lib.Region

/-!
# Merging the results of several shards

`merge_knn_results` of `faiss/utils/Heap.cpp`.  The heap has, for each shard that has results left, the
distance of the next one of these, with the number of the shard.
-/

namespace FaissNavix

open Function
open Lib

variable {T : Type}

/-- What the loops over the results of a query work on: `heap_size`, `heap_vals` with `shard_ids`, and
`pointer`. -/
structure KnnMerge (T : Type) where
  heapSize : ℕ
  heap : ℕ → T × ℤ
  pointer : ℕ → ℕ

section Loops

variable (C Crev : KeyValueOrder T) (k : ℕ) (rows : ℕ → ℕ → T × ℤ)

/-- The result at the pointer of a shard is pushed, if it is one. -/
def pushResult (s : ℕ) (m : KnnMerge T) : KnnMerge T :=
  let x := rows s (m.pointer s)
  if 0 ≤ x.2 then
    { m with heapSize := m.heapSize + 1, heap := heapPush C (m.heapSize + 1) m.heap x.1 s }
  else m

def pushFirst (nshard : ℕ) (m : KnnMerge T) : KnnMerge T :=
  (List.range nshard).foldl
    (fun m s ↦ pushResult C rows s { m with pointer := update m.pointer s 0 }) m

/-- A turn of the loop that pops the best shard: the result, and what is left. -/
def popBest (m : KnnMerge T) : (T × ℤ) × KnnMerge T :=
  let s := (m.heap 0).2.toNat
  let p := m.pointer s
  let popped : KnnMerge T :=
    ⟨m.heapSize - 1, heapPop C m.heapSize m.heap, update m.pointer s (p + 1)⟩
  (((m.heap 0).1, (rows s p).2),
    if p + 1 < k then pushResult C rows s popped else popped)

/-- The two loops over `j`, of which `n` turns are left, and the results that they write. -/
def mergeLoop : ℕ → KnnMerge T → List (T × ℤ)
  | 0, _ => []
  | n + 1, m =>
    if 0 < m.heapSize then (popBest C k rows m).1 :: mergeLoop n (popBest C k rows m).2
    else List.replicate (n + 1) (Crev.neutral, -1)

/-- The results of a query, with what the memory of the heap and the pointers has at first. -/
def mergeRow (nshard : ℕ) (heap : ℕ → T × ℤ) (pointer : ℕ → ℕ) : List (T × ℤ) :=
  mergeLoop C Crev k rows k (pushFirst C rows nshard ⟨0, heap, pointer⟩)

/-- `merge_knn_results` -/
def mergeKnnResults (n nshard : ℕ) (all tab : ℕ → T × ℤ) : ℕ → T × ℤ :=
  if k = 0 then tab
  else
    let stride := n * k
    (List.range n).foldl (fun tab i ↦ Lib.write tab (i * k)
      (mergeRow C Crev k (fun s p ↦ all (i * k + (stride * s + p))) nshard (fun _ ↦ (C.neutral, 0))
        fun _ ↦ 0)) tab

end Loops

@[simp] theorem length_mergeLoop (C Crev : KeyValueOrder T) (k : ℕ) (rows : ℕ → ℕ → T × ℤ) (n : ℕ)
    (m : KnnMerge T) : (mergeLoop C Crev k rows n m).length = n := by
  induction n generalizing m with
  | zero => rfl
  | succ n ih =>
      rw [mergeLoop]
      split
      · rw [List.length_cons, ih]
      · rw [List.length_replicate]

theorem read_mergeKnnResults (C Crev : KeyValueOrder T) {n k nshard i : ℕ} (all tab : ℕ → T × ℤ)
    (hk : 0 < k) (hi : i < n) :
    Lib.read (mergeKnnResults C Crev k n nshard all tab) (i * k) k =
      mergeRow C Crev k (fun s p ↦ all (i * k + (n * k * s + p))) nshard (fun _ ↦ (C.neutral, 0))
        fun _ ↦ 0 := by
  rw [mergeKnnResults, if_neg (by omega)]
  exact read_foldl_write (fun j _ ↦ length_mergeLoop C Crev k _ k _) hi

/-! ## The results that are left -/

/-- The results of a shard from a position on, up to the first one that is none. -/
def resultsLeft (k : ℕ) (row : ℕ → T × ℤ) (p : ℕ) : List (T × ℤ) :=
  ((List.range' p (k - p)).map row).takeWhile fun x ↦ decide (0 ≤ x.2)

def headEntry (s : ℕ) : List (T × ℤ) → Multiset (T × ℤ)
  | [] => 0
  | x :: _ => {(x.1, (s : ℤ))}

section Lemmas

variable {C Crev : KeyValueOrder T} {k p nshard : ℕ} {rows : ℕ → ℕ → T × ℤ} {w : T → ℤ}
  {ok : T → Prop} {m : KnnMerge T}

theorem resultsLeft_of_le {row : ℕ → T × ℤ} (hp : k ≤ p) : resultsLeft k row p = [] := by
  rw [resultsLeft, Nat.sub_eq_zero_of_le hp]
  rfl

theorem resultsLeft_of_lt {row : ℕ → T × ℤ} (hp : p < k) :
    resultsLeft k row p = if 0 ≤ (row p).2 then row p :: resultsLeft k row (p + 1) else [] := by
  obtain ⟨r, rfl⟩ : ∃ r, k = p + (r + 1) := ⟨k - p - 1, by omega⟩
  rw [resultsLeft, resultsLeft, Nat.add_sub_cancel_left, List.range'_succ, List.map_cons,
    List.takeWhile_cons, show p + (r + 1) - (p + 1) = r by omega]
  by_cases h : 0 ≤ (row p).2
  · rw [if_pos (decide_eq_true h), if_pos h]
  · rw [if_neg (by rwa [decide_eq_true_eq]), if_neg h]

def KnnMerge.runs (k nshard : ℕ) (rows : ℕ → ℕ → T × ℤ) (m : KnnMerge T) (s : ℕ) : List (T × ℤ) :=
  if s < nshard then resultsLeft k (rows s) (m.pointer s) else []

/-- The heap of a state has the first result of each of the first shards. -/
structure KnnMerge.Valid (w : T → ℤ) (ok : T → Prop) (k nshard : ℕ) (rows : ℕ → ℕ → T × ℤ)
    (m : KnnMerge T) : Prop where
  heap : HeapOrdered (fun d ↦ -w d) m.heapSize m.heap
  heads : entries m.heapSize m.heap = ∑ s ∈ Finset.range nshard, headEntry s (m.runs k nshard rows s)
  ok : ∀ x ∈ entries m.heapSize m.heap, ok x.1

theorem pointer_pushResult (s : ℕ) (m : KnnMerge T) :
    (pushResult C rows s m).pointer = m.pointer := by
  unfold pushResult
  dsimp only
  split <;> rfl

theorem pushResult_heap (hC : C.Keyed (fun d ↦ -w d) ok) {s : ℕ} (hp : m.pointer s < k)
    (hrow : ok (rows s (m.pointer s)).1) (hheap : HeapOrdered (fun d ↦ -w d) m.heapSize m.heap)
    (hok : ∀ x ∈ entries m.heapSize m.heap, ok x.1) :
    let m' := pushResult C rows s m
    HeapOrdered (fun d ↦ -w d) m'.heapSize m'.heap ∧
      entries m'.heapSize m'.heap =
        entries m.heapSize m.heap + headEntry s (resultsLeft k (rows s) (m.pointer s)) ∧
      ∀ x ∈ entries m'.heapSize m'.heap, ok x.1 := by
  intro m'
  rw [resultsLeft_of_lt hp]
  by_cases h : 0 ≤ (rows s (m.pointer s)).2
  · have hm' : m' = { m with
        heapSize := m.heapSize + 1
        heap := heapPush C (m.heapSize + 1) m.heap (rows s (m.pointer s)).1 s } := if_pos h
    rw [hm', if_pos h]
    dsimp only [headEntry]
    have hent := entries_heapPush (C := C) (k := m.heapSize) m.heap (rows s (m.pointer s)).1 (s : ℤ)
    refine ⟨hheap.heapPush hC _ hrow hok, ?_, fun x hx ↦ ?_⟩
    · rw [hent, ← Multiset.singleton_add, add_comm]
    · rw [hent] at hx
      rcases Multiset.mem_cons.mp hx with rfl | hx
      · exact hrow
      · exact hok x hx
  · have hm' : m' = m := if_neg h
    rw [hm', if_neg h]
    exact ⟨hheap, (add_zero _).symm, hok⟩

theorem pushFirst_valid (hC : C.Keyed (fun d ↦ -w d) ok) (hk : 0 < k)
    (hrows : ∀ s < nshard, ok (rows s 0).1) (heap : ℕ → T × ℤ) (pointer : ℕ → ℕ) :
    (pushFirst C rows nshard ⟨0, heap, pointer⟩).Valid w ok k nshard rows ∧
      ∀ s < nshard, (pushFirst C rows nshard ⟨0, heap, pointer⟩).pointer s = 0 := by
  induction nshard with
  | zero =>
      refine ⟨⟨fun i h1 h2 ↦ ?_, rfl, fun x hx ↦ ?_⟩, fun s hs ↦ ?_⟩
      · have h : 2 ≤ 0 := h1.trans h2
        exact absurd h (by decide)
      · exact absurd hx (Multiset.notMem_zero x)
      · exact absurd hs (Nat.not_lt_zero s)
  | succ n ih =>
      obtain ⟨hvalid, hzero⟩ := ih fun s hs ↦ hrows s (Nat.lt_succ_of_lt hs)
      have hfold : pushFirst C rows (n + 1) ⟨0, heap, pointer⟩ = pushResult C rows n
          { pushFirst C rows n ⟨0, heap, pointer⟩ with
            pointer := update (pushFirst C rows n ⟨0, heap, pointer⟩).pointer n 0 } := by
        rw [pushFirst, List.range_succ, List.foldl_append]
        rfl
      rw [hfold]
      generalize pushFirst C rows n ⟨0, heap, pointer⟩ = m at hvalid hzero ⊢
      obtain ⟨hheap, hheads, hok⟩ := hvalid
      have hself : update m.pointer n 0 n = 0 := update_self n 0 m.pointer
      have hpush := pushResult_heap (m := { m with pointer := update m.pointer n 0 }) (s := n) hC
        (hself.symm ▸ hk) (hself.symm ▸ hrows n (Nat.lt_succ_self n)) hheap hok
      have hpointer : (pushResult C rows n { m with pointer := update m.pointer n 0 }).pointer =
          update m.pointer n 0 :=
        pointer_pushResult n _
      have hall : ∀ s < n + 1, update m.pointer n 0 s = 0 := by
        intro s hs
        by_cases hsn : s = n
        · rw [hsn, hself]
        · rw [update_of_ne hsn]
          exact hzero s (by omega)
      refine ⟨⟨hpush.1, ?_, hpush.2.2⟩, fun s hs ↦ ?_⟩
      · rw [hpush.2.1, hheads, Finset.sum_range_succ]
        unfold KnnMerge.runs
        rw [if_pos (Nat.lt_succ_self n), hpointer]
        refine congrArg₂ _ (Finset.sum_congr rfl fun s hs ↦ ?_) rfl
        have hs' := Finset.mem_range.mp hs
        rw [if_pos hs', if_pos (Nat.lt_succ_of_lt hs'), hzero s hs', hall s (Nat.lt_succ_of_lt hs')]
      · rw [hpointer]
        exact hall s hs

theorem resultsLeft_eq_cons {row : ℕ → T × ℤ} {x : T × ℤ} {l : List (T × ℤ)}
    (h : resultsLeft k row p = x :: l) : p < k ∧ row p = x ∧ resultsLeft k row (p + 1) = l := by
  have hp : p < k := by
    by_contra hp
    rw [resultsLeft_of_le (not_lt.mp hp)] at h
    cases h
  rw [resultsLeft_of_lt hp] at h
  by_cases hlabel : 0 ≤ (row p).2
  · rw [if_pos hlabel] at h
    obtain ⟨hx, hl⟩ := List.cons.inj h
    exact ⟨hp, hx, hl⟩
  · rw [if_neg hlabel] at h
    cases h

/-- On top of the heap is the first result of a run, and no run has a better one. -/
theorem KnnMerge.Valid.exists_top (h : m.Valid w ok k nshard rows) (hm : 0 < m.heapSize) :
    ∃ s < nshard, ∃ x l, m.runs k nshard rows s = x :: l ∧ m.heap 0 = (x.1, (s : ℤ)) ∧
      ∀ j y l', m.runs k nshard rows j = y :: l' → w x.1 ≤ w y.1 := by
  have htop : m.heap 0 ∈ entries m.heapSize m.heap := mem_entries.mpr ⟨0, hm, rfl⟩
  obtain ⟨s, hs, hmem⟩ : ∃ s ∈ Finset.range nshard,
      m.heap 0 ∈ headEntry s (m.runs k nshard rows s) := by
    rw [h.heads] at htop
    exact Multiset.mem_sum.mp htop
  cases hrun : m.runs k nshard rows s with
  | nil =>
      rw [hrun] at hmem
      exact absurd hmem (Multiset.notMem_zero _)
  | cons x l =>
      rw [hrun] at hmem
      have hx : m.heap 0 = (x.1, (s : ℤ)) := Multiset.mem_singleton.mp hmem
      refine ⟨s, Finset.mem_range.mp hs, x, l, hrun, hx, fun j y l' hj ↦ ?_⟩
      have hjs : j ∈ Finset.range nshard := by
        rw [Finset.mem_range]
        by_contra hjs
        rw [KnnMerge.runs, if_neg hjs] at hj
        cases hj
      have hmem' : (y.1, (j : ℤ)) ∈ entries m.heapSize m.heap := by
        rw [h.heads]
        refine Multiset.mem_sum.mpr ⟨j, hjs, ?_⟩
        rw [hj]
        exact Multiset.mem_singleton_self _
      have hle := h.heap.le_top hmem'
      rw [hx] at hle
      exact neg_le_neg_iff.mp hle

theorem runs_update {s : ℕ} {x : T × ℤ} {l : List (T × ℤ)}
    (h : m.runs k nshard rows s = x :: l) {m' : KnnMerge T}
    (hm' : m'.pointer = update m.pointer s (m.pointer s + 1)) :
    m'.runs k nshard rows = update (m.runs k nshard rows) s l := by
  have hs : s < nshard := by
    by_contra hs
    rw [KnnMerge.runs, if_neg hs] at h
    cases h
  rw [KnnMerge.runs, if_pos hs] at h
  funext j
  by_cases hj : j = s
  · rw [hj, update_self, KnnMerge.runs, if_pos hs, hm', update_self, (resultsLeft_eq_cons h).2.2]
  · rw [update_of_ne hj, KnnMerge.runs, KnnMerge.runs, hm', update_of_ne hj]

/-- A turn takes the first result off a run that has a best one. -/
theorem KnnMerge.Valid.popBest (hC : C.Keyed (fun d ↦ -w d) ok)
    (hrows : ∀ s < nshard, ∀ p < k, ok (rows s p).1) (h : m.Valid w ok k nshard rows)
    (hm : 0 < m.heapSize) :
    ∃ s x l, m.runs k nshard rows s = x :: l ∧
      (∀ j y l', m.runs k nshard rows j = y :: l' → w x.1 ≤ w y.1) ∧
      (popBest C k rows m).1 = x ∧ (popBest C k rows m).2.Valid w ok k nshard rows ∧
      (popBest C k rows m).2.runs k nshard rows = update (m.runs k nshard rows) s l := by
  obtain ⟨s, hs, x, l, hrun, hx, hbest⟩ := h.exists_top hm
  have hrem : resultsLeft k (rows s) (m.pointer s) = x :: l := by
    rw [← hrun, KnnMerge.runs, if_pos hs]
  obtain ⟨-, hx', hl⟩ := resultsLeft_eq_cons hrem
  obtain ⟨size, hsize⟩ : ∃ r, m.heapSize = r + 1 := ⟨m.heapSize - 1, by omega⟩
  obtain ⟨hheap, hheads, hok⟩ := h
  rw [hsize] at hheap hok hheads
  have hpop := cons_entries_heapPop (C := C) (k := size) m.heap
  have hshard : (m.heap 0).2.toNat = s := by rw [hx, Int.toNat_natCast]
  -- what is left after the pop, before the next result is pushed
  obtain ⟨popped, hpopped⟩ : ∃ popped : KnnMerge T, popped =
    ⟨size, heapPop C (size + 1) m.heap, update m.pointer s (m.pointer s + 1)⟩ := ⟨_, rfl⟩
  have hself : popped.pointer s = m.pointer s + 1 := by
    rw [hpopped]
    exact update_self _ _ _
  have hheap' : HeapOrdered (fun d ↦ -w d) popped.heapSize popped.heap := by
    rw [hpopped]
    exact hheap.heapPop hC hok
  have hok' : ∀ y ∈ entries popped.heapSize popped.heap, ok y.1 := by
    rw [hpopped]
    intro y hy
    refine hok y ?_
    rw [← hpop]
    exact Multiset.mem_cons_of_mem hy
  have hleft : entries popped.heapSize popped.heap + headEntry s l =
      ∑ j ∈ Finset.range nshard, headEntry j (update (m.runs k nshard rows) s l j) := by
    have hsum := sum_update_exchange (Finset.mem_range.mpr hs) headEntry (m.runs k nshard rows) l
    rw [hrun, ← hheads, ← hpop, hx, headEntry, Multiset.cons_add, ← Multiset.singleton_add,
      add_comm ({(x.1, (s : ℤ))} : Multiset (T × ℤ))] at hsum
    rw [hpopped]
    exact (add_right_cancel hsum).symm
  have heq : FaissNavix.popBest C k rows m =
      (x, if popped.pointer s < k then pushResult C rows s popped else popped) := by
    rw [hself, hpopped]
    unfold FaissNavix.popBest
    dsimp only
    rw [hshard, hx, hx', hsize, Nat.add_sub_cancel]
  rw [heq]
  refine ⟨s, x, l, hrun, hbest, rfl, ?_⟩
  dsimp only
  by_cases hnext : popped.pointer s < k
  · rw [if_pos hnext]
    obtain ⟨hheap'', hadded, hok''⟩ :=
      pushResult_heap hC hnext (hrows s hs _ hnext) hheap' hok'
    have hruns : (pushResult C rows s popped).runs k nshard rows =
        update (m.runs k nshard rows) s l :=
      runs_update hrun (by rw [pointer_pushResult, hpopped])
    refine ⟨⟨hheap'', ?_, hok''⟩, hruns⟩
    rw [hadded, hself, hl, hleft, hruns]
  · rw [if_neg hnext]
    have hruns : popped.runs k nshard rows = update (m.runs k nshard rows) s l :=
      runs_update hrun (by rw [hpopped])
    refine ⟨⟨hheap', ?_, hok'⟩, hruns⟩
    have hnil : l = [] := by rw [← hl, ← hself, resultsLeft_of_le (not_lt.mp hnext)]
    rw [hruns, ← hleft, hnil]
    exact (add_zero _).symm

theorem KnnMerge.Valid.mergeLoop (hC : C.Keyed (fun d ↦ -w d) ok)
    (hrows : ∀ s < nshard, ∀ p < k, ok (rows s p).1) (h : m.Valid w ok k nshard rows) (n : ℕ) :
    ∃ L, Merges (fun x : T × ℤ ↦ w x.1) n (m.runs k nshard rows) L ∧
      mergeLoop C Crev k rows n m = L ++ List.replicate (n - L.length) (Crev.neutral, -1) := by
  induction n generalizing m with
  | zero => exact ⟨[], .full _, rfl⟩
  | succ n ih =>
      rw [FaissNavix.mergeLoop]
      by_cases hm : 0 < m.heapSize
      · obtain ⟨s, x, l, hrun, hbest, hx, hvalid, hruns⟩ := h.popBest hC hrows hm
        obtain ⟨L, hL, heq⟩ := ih hvalid
        rw [hruns] at hL
        refine ⟨x :: L, .take hrun hbest hL, ?_⟩
        rw [if_pos hm, hx, heq, List.length_cons, Nat.add_sub_add_right, List.cons_append]
      · refine ⟨[], .empty _ fun j ↦ ?_, ?_⟩
        · by_contra hj
          obtain ⟨y, l, hrun⟩ := List.exists_cons_of_ne_nil hj
          have hjs : j < nshard := by
            by_contra hjs
            exact hj (if_neg hjs)
          -- a run with a result has an entry in the heap
          have hmem : (y.1, (j : ℤ)) ∈ entries m.heapSize m.heap := by
            rw [h.heads]
            refine Multiset.mem_sum.mpr ⟨j, Finset.mem_range.mpr hjs, ?_⟩
            rw [hrun]
            exact Multiset.mem_singleton_self _
          rw [Nat.eq_zero_of_not_pos hm, entries_zero] at hmem
          exact Multiset.notMem_zero _ hmem
        · rw [if_neg hm]
          rfl

/-- The results of a query are those of the shards, merged, and filled up. -/
theorem mergeRow_merges (hC : C.Keyed (fun d ↦ -w d) ok) (hk : 0 < k)
    (hrows : ∀ s < nshard, ∀ p < k, ok (rows s p).1) (heap : ℕ → T × ℤ) (pointer : ℕ → ℕ) :
    ∃ L, Merges (fun x : T × ℤ ↦ w x.1) k
        (fun s ↦ if s < nshard then resultsLeft k (rows s) 0 else []) L ∧
      mergeRow C Crev k rows nshard heap pointer =
        L ++ List.replicate (k - L.length) (Crev.neutral, -1) := by
  obtain ⟨hvalid, hzero⟩ := pushFirst_valid hC hk (fun s hs ↦ hrows s hs 0 hk) heap pointer
  obtain ⟨L, hL, heq⟩ := hvalid.mergeLoop hC hrows k
  refine ⟨L, ?_, heq⟩
  have hruns : (pushFirst C rows nshard ⟨0, heap, pointer⟩).runs k nshard rows =
      fun s ↦ if s < nshard then resultsLeft k (rows s) 0 else [] := by
    funext s
    rw [KnnMerge.runs]
    by_cases hs : s < nshard
    · rw [if_pos hs, if_pos hs, hzero s hs]
    · rw [if_neg hs, if_neg hs]
  rwa [hruns] at hL

/-! ## Sorted rows -/

/-- A row of results from the best to the worst, with the entries that are none at its end. -/
structure SortedRow (w : T → ℤ) (k : ℕ) (row : ℕ → T × ℤ) : Prop where
  nonneg : ∀ p q, p < q → q < k → 0 ≤ (row q).2 → 0 ≤ (row p).2
  le : ∀ p q, p < q → q < k → 0 ≤ (row q).2 → w (row p).1 ≤ w (row q).1

def validEntries (k : ℕ) (row : ℕ → T × ℤ) : List (T × ℤ) :=
  ((List.range k).map row).filter fun x ↦ decide (0 ≤ x.2)

variable {row : ℕ → T × ℤ} (h : SortedRow w k row)
include h

/-- Those left of a sorted row are the valid entries. -/
theorem resultsLeft_eq_filter (hp : p ≤ k) :
    resultsLeft k row p =
      ((List.range' p (k - p)).map row).filter fun x ↦ decide (0 ≤ x.2) := by
  induction hr : k - p generalizing p with
  | zero =>
      rw [resultsLeft_of_le (by omega)]
      rfl
  | succ r ih =>
      rw [resultsLeft_of_lt (by omega), List.range'_succ, List.map_cons]
      by_cases hlabel : 0 ≤ (row p).2
      · rw [if_pos hlabel, List.filter_cons, if_pos (decide_eq_true hlabel), ih (by omega) (by omega)]
      · -- behind an entry that is none there are no others
        rw [if_neg hlabel, eq_comm, List.filter_eq_nil_iff]
        intro x hx hnonneg
        have hx' : 0 ≤ x.2 := of_decide_eq_true hnonneg
        rcases List.mem_cons.mp hx with rfl | hx
        · exact hlabel hx'
        · obtain ⟨q, hq, rfl⟩ := List.mem_map.mp hx
          obtain ⟨hq1, hq2⟩ := List.mem_range'_1.mp hq
          exact hlabel (h.nonneg p q (by omega) (by omega) hx')

theorem resultsLeft_zero :
    resultsLeft k row 0 = validEntries k row := by
  rw [resultsLeft_eq_filter h (Nat.zero_le k), Nat.sub_zero, ← List.range_eq_range']
  rfl

theorem pairwise_validEntries :
    (validEntries k row).Pairwise fun x y ↦ w x.1 ≤ w y.1 := by
  unfold validEntries
  rw [List.filter_map]
  refine List.pairwise_map.mpr ?_
  refine (List.pairwise_lt_range.filter _).imp_of_mem fun {p q} _ hq hpq ↦ ?_
  obtain ⟨hq, hlabel⟩ := List.mem_filter.mp hq
  exact h.le p q hpq (List.mem_range.mp hq) (of_decide_eq_true hlabel)

end Lemmas

/-- `merge_knn_results` writes for each query the best valid entries of its rows in all shards, each
with its own distance and at most as often as it is there, from the best to the worst, and fills the rest
with `-1` and the neutral value. -/
theorem mergeKnnResults_exact {C Crev : KeyValueOrder T} {w : T → ℤ} {ok : T → Prop}
    (hC : C.Keyed (fun d ↦ -w d) ok) {k n nshard : ℕ} {all : ℕ → T × ℤ} (tab : ℕ → T × ℤ)
    (hok : ∀ i < n, ∀ s < nshard, ∀ p < k, ok (all (i * k + (n * k * s + p))).1)
    (hrows : ∀ i < n, ∀ s < nshard, SortedRow w k fun p ↦ all (i * k + (n * k * s + p))) {i : ℕ}
    (hi : i < n) :
    ∃ L : List (T × ℤ), Lib.read (mergeKnnResults C Crev k n nshard all tab) (i * k) k =
        L ++ List.replicate (k - L.length) (Crev.neutral, -1) ∧
      (L.Pairwise fun x y ↦ w x.1 ≤ w y.1) ∧
      KSmallest (fun x : T × ℤ ↦ w x.1) k
        (∑ s ∈ Finset.range nshard,
          (↑(validEntries k fun p ↦ all (i * k + (n * k * s + p))) : Multiset (T × ℤ))) ↑L := by
  rcases Nat.eq_zero_or_pos k with rfl | hk
  · refine ⟨[], rfl, List.Pairwise.nil, ?_⟩
    have hnone : ∑ s ∈ Finset.range nshard, (↑(validEntries 0 fun p ↦
        all (i * 0 + (n * 0 * s + p))) : Multiset (T × ℤ)) = 0 :=
      Finset.sum_eq_zero fun _ _ ↦ rfl
    rw [hnone]
    exact .self le_rfl
  obtain ⟨L, hL, hrow⟩ := @mergeRow_merges _ C Crev k nshard _ w ok hC hk
    (hok i hi) (fun _ ↦ (C.neutral, 0)) fun _ ↦ 0
  have hruns : ∀ s < nshard, resultsLeft k (fun p ↦ all (i * k + (n * k * s + p))) 0 =
      validEntries k fun p ↦ all (i * k + (n * k * s + p)) := fun s hs ↦
    resultsLeft_zero (hrows i hi s hs)
  obtain ⟨hsmall, hsorted⟩ := hL.kSmallest
    (fun s (hs : s ∉ Finset.range nshard) ↦ if_neg (mt Finset.mem_range.mpr hs)) fun s ↦ by
      by_cases hs : s < nshard
      · rw [if_pos hs, hruns s hs]
        exact pairwise_validEntries (hrows i hi s hs)
      · rw [if_neg hs]
        exact List.Pairwise.nil
  refine ⟨L, (read_mergeKnnResults C Crev all tab hk hi).trans hrow, hsorted, ?_⟩
  rwa [Finset.sum_congr rfl fun s hs ↦ by
    rw [if_pos (Finset.mem_range.mp hs), hruns s (Finset.mem_range.mp hs)]] at hsmall

/-- Two shards with two rows each, one of which has only one result. -/
theorem mergeKnnResults_exact_two :
    ∃ L : List (F32 × ℤ), Lib.read (mergeKnnResults CMin CMax 2 1 2
          (fun a ↦ [(⟨5⟩, 7), (F32.max, -1), (⟨3⟩, 4), (⟨6⟩, 1)].getD a (⟨0⟩, -1)) fun _ ↦ (⟨0⟩, 0))
          (0 * 2) 2 = L ++ List.replicate (2 - L.length) (F32.max, -1) ∧
      (L.Pairwise fun x y ↦ x.1.key ≤ y.1.key) ∧
      KSmallest (fun x : F32 × ℤ ↦ x.1.key) 2 {(⟨5⟩, 7), (⟨3⟩, 4), (⟨6⟩, 1)} ↑L := by
  have hall : ∀ s < 2, ∀ q < 2, ∀ p < q,
      let row := fun p ↦ [((⟨5⟩ : F32), (7 : ℤ)), (F32.max, -1), (⟨3⟩, 4), (⟨6⟩, 1)].getD
        (0 * 2 + (1 * 2 * s + p)) (⟨0⟩, -1)
      0 ≤ (row q).2 → 0 ≤ (row p).2 ∧ (row p).1.key ≤ (row q).1.key := by
    decide
  exact @mergeKnnResults_exact _ CMin CMax F32.key _ CMin_keyed 2 1 2 _ _ (by decide)
    (fun i hi s hs ↦ Nat.lt_one_iff.mp hi ▸
      ⟨fun p q hpq hq h ↦ (hall s hs q hq p hpq h).1, fun p q hpq hq h ↦ (hall s hs q hq p hpq h).2⟩)
    0 Nat.one_pos

end FaissNavix
