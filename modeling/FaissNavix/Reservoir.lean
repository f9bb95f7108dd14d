import FaissNavix.HeapBlock

/-!
# The reservoir result handler

`ReservoirTopN<C>` and `ReservoirBlockResultHandler<C>::SingleResultHandler` of
`faiss/impl/ResultHandler.h`, for any order `C`.  The results below a threshold are put in a buffer
in the order they come in; when it is full, `partition_fuzzy` drops some of the worst and gives a
new threshold.

The buffer *reserves* the results offered so far when everything that was dropped, or turned away
by the threshold, has as many results in the buffer that are no worse as there are to return.
Neither accepting a result nor shrinking the buffer breaks this, and the `k` best of the buffer are
then the `k` best of all.
-/

namespace FaissNavix

open Lib

variable {T K : Type} [LinearOrder K]

/-- `partition_fuzzy`, called with the arrays of values and ids, `n`, `q_min` and `q_max`: the
threshold it returns, `q_out` and the arrays it leaves. -/
abbrev PartitionFuzzy (T : Type) := (ℕ → T × ℤ) → ℕ → ℕ → ℕ → T × ℕ × (ℕ → T × ℤ)

/-- A call on `n` values that compare keeps between `qMin` and `qMax` of them in front, no worse
than what it drops, and returns a threshold between the two groups. -/
def PartitionFuzzy.Separates (partitionFuzzy : PartitionFuzzy T) (key : T → K) (ok : T → Prop)
    (n qMin qMax : ℕ) : Prop :=
  ∀ vals : ℕ → T × ℤ, (∀ x ∈ entries n vals, ok x.1) →
    let (thresh, q, vals') := partitionFuzzy vals n qMin qMax
    qMin ≤ q ∧ q ≤ qMax ∧ ok thresh ∧ (∀ x ∈ entries q vals', key x.1 ≤ key thresh) ∧
      ∃ dropped, entries n vals = entries q vals' + dropped ∧
        ∀ y ∈ dropped, key thresh ≤ key y.1

structure ReservoirTopN (T : Type) where
  /-- `vals` and `ids` -/
  vals : ℕ → T × ℤ
  i : ℕ
  n : ℕ
  capacity : ℕ
  threshold : T

namespace ReservoirTopN

section Model

variable (C : KeyValueOrder T) (partitionFuzzy : PartitionFuzzy T)

variable (r : ReservoirTopN T) (k : ℕ)

/-- `ReservoirBlockResultHandler`'s constructor: the capacity for `k` results. -/
def blockCapacity : ℕ := (2 * k + 15) / 16 * 16

/-- `begin`: `vals` is what the arrays of the handler happen to hold. -/
def begin (vals : ℕ → T × ℤ) : ReservoirTopN T where
  vals := vals
  i := 0
  n := k
  capacity := blockCapacity k
  threshold := C.neutral

/-- `shrink_fuzzy` -/
def shrinkFuzzy : ReservoirTopN T :=
  let (threshold, i, vals) := partitionFuzzy r.vals r.capacity r.n ((r.capacity + r.n) / 2)
  { r with threshold, i, vals }

/-- `add_result` -/
def addResult (val : T) (id : ℤ) : ReservoirTopN T × Bool :=
  if C.cmp r.threshold val then
    let updatedThreshold := decide (r.i = r.capacity)
    let r := if r.i = r.capacity then r.shrinkFuzzy partitionFuzzy else r
    ({ r with vals := Function.update r.vals r.i (val, id), i := r.i + 1 }, updatedThreshold)
  else (r, false)

/-- `add_result` on each of several results. -/
def addResults (offers : List (T × ℤ)) : ReservoirTopN T :=
  offers.foldl (fun r x ↦ (r.addResult C partitionFuzzy x.1 x.2).1) r

/-- The first loop of `to_result`. -/
def pushed (m : ℕ) (heap : ℕ → T × ℤ) : ℕ → T × ℤ :=
  (List.range m).foldl (fun heap j ↦ heapPush C (j + 1) heap (r.vals j).1 (r.vals j).2) heap

/-- `to_result` -/
def toResult (heap : ℕ → T × ℤ) : ℕ → T × ℤ :=
  let heap := r.pushed C (min r.i r.n) heap
  if r.i < r.n then
    let heap := (heapReorder C r.i heap).2
    fun j ↦ if j < r.i then heap j
      else heapHeapify C (r.n - r.i) (fun m ↦ heap (r.i + m)) (j - r.i)
  else
    (heapReorder C r.n (heapAddn C r.n heap (fun j ↦ r.vals (r.n + j)) (r.i - r.n))).2

/-- The results of the query after `end`, which writes to `tab`. -/
def results (tab : ℕ → T × ℤ) : List (T × ℤ) :=
  firstEntries r.n (r.toResult C tab)

end Model

theorem lt_blockCapacity {k : ℕ} (hk : 1 ≤ k) : k < blockCapacity k := by
  unfold blockCapacity
  omega

variable {C : KeyValueOrder T} {partitionFuzzy : PartitionFuzzy T} {key : T → K} {ok : T → Prop}
  {r : ReservoirTopN T} {S : Multiset (T × ℤ)}

/-- How many results in the buffer are no worse than `d`. -/
def noWorse (key : T → K) (r : ReservoirTopN T) (d : T) : ℕ :=
  (entries r.i r.vals).countP fun x ↦ key x.1 ≤ key d

/-- The buffer and what was dropped from it make up `S`, and a result that is dropped, or that the
threshold turns away, has `n` results in the buffer that are no worse. -/
structure Reserves (C : KeyValueOrder T) (key : T → K) (r : ReservoirTopN T)
    (S : Multiset (T × ℤ)) : Prop where
  lt : r.n < r.capacity
  le : r.i ≤ r.capacity
  below : ∀ x ∈ S, C.cmp C.neutral x.1 = true
  real : ∀ x ∈ S, isReal x
  threshold_le : key r.threshold ≤ key C.neutral
  split : ∃ dropped, S = entries r.i r.vals + dropped ∧ ∀ y ∈ dropped, r.n ≤ noWorse key r y.1
  turned_away : ∀ d, C.cmp C.neutral d = true → C.cmp r.threshold d = false → r.n ≤ noWorse key r d

theorem reserves_begin (C : KeyValueOrder T) (key : T → K) {k : ℕ} (hk : 1 ≤ k) (vals : ℕ → T × ℤ) :
    (begin C k vals).Reserves C key 0 where
  lt := lt_blockCapacity hk
  le := Nat.zero_le _
  below := fun _ hx ↦ absurd hx (Multiset.notMem_zero _)
  real := fun _ hx ↦ absurd hx (Multiset.notMem_zero _)
  threshold_le := le_rfl
  split := ⟨0, rfl, fun _ hy ↦ absurd hy (Multiset.notMem_zero _)⟩
  turned_away := fun _ hd hd' ↦ absurd hd (Bool.eq_false_iff.mp hd')

theorem Reserves.mem (hr : r.Reserves C key S) {x : T × ℤ} (hx : x ∈ entries r.i r.vals) :
    x ∈ S := by
  obtain ⟨dropped, rfl, -⟩ := hr.split
  exact Multiset.mem_add.mpr (Or.inl hx)

theorem Reserves.ok_of_mem (hC : C.Keyed key ok) (hr : r.Reserves C key S) {x : T × ℤ}
    (hx : x ∈ entries r.i r.vals) : ok x.1 :=
  (hC.cmp_iff.mp (hr.below x (hr.mem hx))).2.1

theorem Reserves.smallest (hr : r.Reserves C key S) {L : Multiset (T × ℤ)}
    (hL : KSmallest (fun x ↦ key x.1) r.n (entries r.i r.vals) L) :
    KSmallest (fun x ↦ key x.1) r.n S L := by
  obtain ⟨dropped, rfl, hdropped⟩ := hr.split
  exact hL.add_of_le_countP hdropped

/-- Shrinking a full buffer makes room, and the results in it stay reserved. -/
theorem Reserves.shrinkFuzzy (hC : C.Keyed key ok) (hr : r.Reserves C key S)
    (hi : r.i = r.capacity)
    (hp : partitionFuzzy.Separates key ok r.capacity r.n ((r.capacity + r.n) / 2)) :
    (r.shrinkFuzzy partitionFuzzy).Reserves C key S ∧
      (r.shrinkFuzzy partitionFuzzy).i < r.capacity := by
  have hlt := hr.lt
  obtain ⟨dropped, rfl, hdropped⟩ := hr.split
  have hvals := hp r.vals fun x hx ↦ hr.ok_of_mem hC (by rw [hi]; exact hx)
  unfold ReservoirTopN.shrinkFuzzy
  rcases hcall : partitionFuzzy r.vals r.capacity r.n ((r.capacity + r.n) / 2) with
    ⟨thresh, q, vals'⟩
  rw [hcall] at hvals
  obtain ⟨hq, hq', hthresh, hkept, dropped', hsplit, hdropped'⟩ := hvals
  rw [← hi] at hsplit
  have hroom : q < r.capacity := by omega
  -- the partition is a selection of the `q` best of the buffer
  have hsel : KSmallest (fun x : T × ℤ ↦ key x.1) q (entries r.i r.vals) (entries q vals') :=
    ⟨dropped', hsplit, (card_entries vals').le, fun _ ↦ card_entries vals',
      fun x hx y hy ↦ (hkept x hx).trans (hdropped' y hy)⟩
  have hcount : ∀ b : K, (entries q vals').countP (fun x ↦ key x.1 ≤ b) =
      min q ((entries r.i r.vals).countP fun x ↦ key x.1 ≤ b) := fun b ↦
    hsel.countP_eq (· ≤ b) fun _ _ ↦ le_trans
  -- what the threshold separates from the buffer has all of it before it
  have hall : ∀ d : T, key thresh ≤ key d →
      r.n ≤ (entries q vals').countP fun x ↦ key x.1 ≤ key d := by
    intro d hd
    rw [Multiset.countP_eq_card.mpr fun x hx ↦ (hkept x hx).trans hd, card_entries]
    exact hq
  have hne : dropped' ≠ 0 := by
    rintro rfl
    have hcard := congrArg Multiset.card hsplit
    rw [add_zero, card_entries, card_entries] at hcard
    omega
  obtain ⟨y, hy⟩ := Multiset.exists_mem_of_ne_zero hne
  have hyS : y ∈ entries r.i r.vals := by rw [hsplit]; exact Multiset.mem_add.mpr (Or.inr hy)
  refine ⟨⟨hlt, hroom.le, hr.below, hr.real, ?_, ⟨dropped' + dropped, ?_, ?_⟩, ?_⟩, hroom⟩
  · exact (hdropped' y hy).trans (hC.cmp_iff.mp (hr.below y (hr.mem hyS))).2.2.le
  · change entries r.i r.vals + dropped = entries q vals' + (dropped' + dropped)
    rw [hsplit, add_assoc]
  · intro z hz
    change r.n ≤ (entries q vals').countP fun x ↦ key x.1 ≤ key z.1
    rcases Multiset.mem_add.mp hz with hz | hz
    · exact hall z.1 (hdropped' z hz)
    · rw [hcount]
      exact le_min hq (hdropped z hz)
  · intro d hd hd'
    refine hall d (not_lt.mp fun hlt' ↦ Bool.eq_false_iff.mp hd' ?_)
    exact hC.cmp_iff.mpr ⟨hthresh, (hC.cmp_iff.mp hd).2.1, hlt'⟩

theorem Reserves.push (hr : r.Reserves C key S) (hi : r.i < r.capacity) {val : T} {id : ℤ}
    (hval : C.cmp C.neutral val = true) (hid : id ≠ -1) :
    ReservoirTopN.Reserves C key
      { r with vals := Function.update r.vals r.i (val, id), i := r.i + 1 } ((val, id) ::ₘ S) := by
  have hnew : entries (r.i + 1) (Function.update r.vals r.i (val, id)) =
      (val, id) ::ₘ entries r.i r.vals := by
    rw [entries_succ, Function.update_self]
    refine congrArg _ (entries_congr fun j hj ↦ ?_)
    exact Function.update_of_ne hj.ne _ _
  have hmono : ∀ d, noWorse key r d ≤ noWorse key
      { r with vals := Function.update r.vals r.i (val, id), i := r.i + 1 } d := by
    intro d
    change _ ≤ (entries (r.i + 1) (Function.update r.vals r.i (val, id))).countP _
    rw [hnew, Multiset.countP_cons]
    exact Nat.le_add_right _ _
  obtain ⟨dropped, hsplit, hdropped⟩ := hr.split
  refine ⟨hr.lt, hi, Multiset.forall_mem_cons.mpr ⟨hval, hr.below⟩,
    Multiset.forall_mem_cons.mpr ⟨hid, hr.real⟩, hr.threshold_le, ⟨dropped, ?_, ?_⟩, ?_⟩
  · change _ = entries (r.i + 1) (Function.update r.vals r.i (val, id)) + dropped
    rw [hnew, Multiset.cons_add, hsplit]
  · exact fun y hy ↦ (hdropped y hy).trans (hmono y.1)
  · exact fun d hd hle ↦ (hr.turned_away d hd hle).trans (hmono d)

theorem Reserves.turn_away (hr : r.Reserves C key S) {val : T} {id : ℤ}
    (hval : C.cmp C.neutral val = true) (hid : id ≠ -1) (hle : C.cmp r.threshold val = false) :
    r.Reserves C key ((val, id) ::ₘ S) := by
  obtain ⟨dropped, hsplit, hdropped⟩ := hr.split
  refine ⟨hr.lt, hr.le, Multiset.forall_mem_cons.mpr ⟨hval, hr.below⟩,
    Multiset.forall_mem_cons.mpr ⟨hid, hr.real⟩, hr.threshold_le,
    ⟨(val, id) ::ₘ dropped, by rw [hsplit, Multiset.add_cons], ?_⟩, hr.turned_away⟩
  exact Multiset.forall_mem_cons.mpr ⟨hr.turned_away val hval hle, hdropped⟩

/-- Offering a result: it is reserved if it comes before the neutral value. -/
theorem Reserves.addResult (hC : C.Keyed key ok) (hr : r.Reserves C key S) (val : T) {id : ℤ}
    (hid : id ≠ -1)
    (hp : partitionFuzzy.Separates key ok r.capacity r.n ((r.capacity + r.n) / 2)) :
    (r.addResult C partitionFuzzy val id).1.Reserves C key
        (if C.cmp C.neutral val = true then (val, id) ::ₘ S else S) ∧
      (r.addResult C partitionFuzzy val id).1.n = r.n ∧
      (r.addResult C partitionFuzzy val id).1.capacity = r.capacity := by
  unfold ReservoirTopN.addResult
  by_cases hcmp : C.cmp r.threshold val = true
  · obtain ⟨-, hok, hlt⟩ := hC.cmp_iff.mp hcmp
    have hval : C.cmp C.neutral val = true :=
      hC.cmp_iff.mpr ⟨hC.ok_neutral, hok, hlt.trans_le hr.threshold_le⟩
    rw [if_pos hcmp, if_pos hval]
    by_cases hi : r.i = r.capacity
    · obtain ⟨hshrunk, hroom⟩ := hr.shrinkFuzzy hC hi hp
      rw [if_pos hi]
      exact ⟨hshrunk.push hroom hval hid, rfl, rfl⟩
    · rw [if_neg hi]
      exact ⟨hr.push (lt_of_le_of_ne hr.le hi) hval hid, rfl, rfl⟩
  · rw [if_neg hcmp]
    by_cases hval : C.cmp C.neutral val = true
    · rw [if_pos hval]
      exact ⟨hr.turn_away hval hid (Bool.eq_false_iff.mpr hcmp), rfl, rfl⟩
    · rw [if_neg hval]
      exact ⟨hr, rfl, rfl⟩

theorem Reserves.addResults (hC : C.Keyed key ok) (hr : r.Reserves C key S)
    (offers : List (T × ℤ)) (hid : ∀ x ∈ offers, x.2 ≠ -1)
    (hp : partitionFuzzy.Separates key ok r.capacity r.n ((r.capacity + r.n) / 2)) :
    (r.addResults C partitionFuzzy offers).Reserves C key
        (↑(offers.filter fun x ↦ C.cmp C.neutral x.1) + S) ∧
      (r.addResults C partitionFuzzy offers).n = r.n := by
  induction offers generalizing r S with
  | nil => exact ⟨by rw [List.filter_nil, Multiset.coe_nil, zero_add]; exact hr, rfl⟩
  | cons x offers ih =>
      obtain ⟨hx, hn, hcap⟩ := hr.addResult hC x.1 (hid x List.mem_cons_self) hp
      obtain ⟨hrest, hn'⟩ := ih hx (fun y hy ↦ hid y (List.mem_cons_of_mem _ hy))
        (by rw [hn, hcap]; exact hp)
      refine ⟨?_, hn'.trans hn⟩
      rw [List.filter_cons]
      split at hrest
      · rename_i hcmp
        rw [if_pos hcmp, ← Multiset.cons_coe, Multiset.cons_add, ← Multiset.add_cons]
        exact hrest
      · rename_i hcmp
        rw [if_neg hcmp]
        exact hrest

/-! ## Reading the results off the buffer -/

theorem pushed_succ (m : ℕ) (heap : ℕ → T × ℤ) :
    r.pushed C (m + 1) heap =
      heapPush C (m + 1) (r.pushed C m heap) (r.vals m).1 (r.vals m).2 := by
  rw [pushed, List.range_succ, List.foldl_append]
  rfl

/-- The first loop of `to_result` makes a heap of the first results of the buffer. -/
theorem pushed_spec (hC : C.Keyed key ok) (heap : ℕ → T × ℤ) {m : ℕ}
    (hok : ∀ x ∈ entries m r.vals, ok x.1) :
    HeapOrdered key m (r.pushed C m heap) ∧
      entries m (r.pushed C m heap) = entries m r.vals := by
  induction m with
  | zero => exact ⟨fun i h1 h2 ↦ by omega, rfl⟩
  | succ m ih =>
      have hsub : ∀ x ∈ entries m r.vals, ok x.1 := fun x hx ↦
        hok x (by rw [entries_succ]; exact Multiset.mem_cons_of_mem hx)
      have hlast : ok (r.vals m).1 :=
        hok (r.vals m) (by rw [entries_succ]; exact Multiset.mem_cons_self _ _)
      obtain ⟨hheap, hentries⟩ := ih hsub
      rw [pushed_succ]
      refine ⟨hheap.heapPush hC _ hlast (by rw [hentries]; exact hsub), ?_⟩
      rw [entries_heapPush, hentries, entries_succ]

theorem firstEntries_add {α : Type} (m k : ℕ) (bh : ℕ → α) :
    firstEntries (m + k) bh = firstEntries m bh ++ firstEntries k fun j ↦ bh (m + j) := by
  rw [firstEntries, List.range_add, List.map_append, List.map_map]
  rfl

/-- A buffer with fewer results than are asked for is sorted and filled up. -/
theorem Reserves.results_of_lt (hC : C.Keyed key ok) (hr : r.Reserves C key S) (hi : r.i < r.n)
    (tab : ℕ → T × ℤ) :
    ∃ L : List (T × ℤ), (↑L : Multiset (T × ℤ)) = entries r.i r.vals ∧
      L.Pairwise (fun x y ↦ key x.1 ≤ key y.1) ∧
      r.results C tab = L ++ List.replicate (r.n - L.length) (C.neutral, -1) := by
  obtain ⟨hheap, hentries⟩ := pushed_spec (r := r) hC tab fun x hx ↦ hr.ok_of_mem hC hx
  obtain ⟨L, hL, hsorted, -, hfirst⟩ := heapReorder_spec hC hheap fun x hx ↦ by
    rw [hentries] at hx
    exact hr.ok_of_mem hC hx
  rw [hentries, Multiset.filter_eq_self.mpr fun x hx ↦ hr.real x (hr.mem hx)] at hL
  have hlen : L.length = r.i := by
    have := congrArg Multiset.card hL
    rwa [Multiset.coe_card, card_entries] at this
  refine ⟨L, hL, hsorted, ?_⟩
  rw [hlen, Nat.sub_self, List.replicate_zero, List.append_nil] at hfirst
  obtain ⟨m, hm⟩ : ∃ m, r.n = r.i + m := ⟨r.n - r.i, by omega⟩
  rw [ReservoirTopN.results, toResult, if_pos hi, min_eq_left hi.le, hlen]
  rw [hm, Nat.add_sub_cancel_left, firstEntries_add]
  congr 1
  · rw [← hfirst]
    exact List.map_congr_left fun j hj ↦ if_pos (List.mem_range.mp hj)
  · refine List.eq_replicate_iff.mpr ⟨by simp [firstEntries], fun x hx ↦ ?_⟩
    obtain ⟨j, hj, rfl⟩ := List.mem_map.mp hx
    have hj' := List.mem_range.mp hj
    rw [if_neg (by omega), heapHeapify, if_pos (by omega)]

/-- From a buffer with at least as many results as are asked for the heap selects the best. -/
theorem Reserves.results_of_le (hC : C.Keyed key ok) (hr : r.Reserves C key S) (hn : 1 ≤ r.n)
    (hi : r.n ≤ r.i) (tab : ℕ → T × ℤ) :
    ∃ L : List (T × ℤ), KSmallest (fun x ↦ key x.1) r.n (entries r.i r.vals) ↑L ∧
      L.Pairwise (fun x y ↦ key x.1 ≤ key y.1) ∧
      r.results C tab = L ++ List.replicate (r.n - L.length) (C.neutral, -1) := by
  obtain ⟨m, hm⟩ : ∃ m, r.i = r.n + m := ⟨r.i - r.n, by omega⟩
  have hparts : entries r.i r.vals =
      ↑((List.range m).map fun j ↦ r.vals (r.n + j)) + entries r.n r.vals := by
    rw [hm, entries_eq_coe_range, entries_eq_coe_range, List.range_add, List.map_append,
      List.map_map, ← Multiset.coe_add, add_comm]
    rfl
  have hsub : ∀ x ∈ entries r.n r.vals, x ∈ entries r.i r.vals := fun x hx ↦ by
    rw [hparts]; exact Multiset.mem_add.mpr (Or.inr hx)
  have hrest : ∀ x ∈ (List.range m).map fun j ↦ r.vals (r.n + j), x ∈ entries r.i r.vals :=
    fun x hx ↦ by rw [hparts]; exact Multiset.mem_add.mpr (Or.inl hx)
  obtain ⟨hheap, hentries⟩ := pushed_spec (r := r) hC tab fun x hx ↦ hr.ok_of_mem hC (hsub x hx)
  -- the heap of the first results holds exactly these
  have hholds : TopK.Holds C key ⟨r.n, r.pushed C r.n tab, (r.pushed C r.n tab 0).1⟩
      (entries r.n r.vals) := by
    refine ⟨hn, rfl, hheap, fun x hx ↦ hr.real x (hr.mem (hsub x hx)),
      fun x hx ↦ hr.below x (hr.mem (hsub x hx)), ?_⟩
    change KSmallest _ r.n _ (entries r.n (r.pushed C r.n tab))
    rw [hentries]
    refine ⟨_, rfl, (card_entries _).le, fun _ ↦ card_entries _, fun x hx y hy ↦ ?_⟩
    rw [Multiset.eq_of_mem_replicate hy]
    exact (hC.cmp_iff.mp (hr.below x (hr.mem (hsub x hx)))).2.2.le
  obtain ⟨hall, hk⟩ := hholds.addResults hC ((List.range m).map fun j ↦ r.vals (r.n + j))
    fun x hx ↦ hr.real x (hr.mem (hrest x hx))
  rw [List.filter_eq_self.mpr fun x hx ↦ hr.below x (hr.mem (hrest x hx)), ← hparts] at hall
  obtain ⟨L, hL, hsorted, hres⟩ := hall.results hC
  rw [hk] at hL hres
  refine ⟨L, hL, hsorted, ?_⟩
  rw [TopK.addResults_eq_heapAddn] at hres
  rw [ReservoirTopN.results, toResult, if_neg (not_lt.mpr hi), min_eq_right hi, hm,
    Nat.add_sub_cancel_left]
  exact hres

/-- The results: the `n` best offers in order, then the filling. -/
theorem Reserves.results (hC : C.Keyed key ok) (hr : r.Reserves C key S) (hn : 1 ≤ r.n)
    (tab : ℕ → T × ℤ) :
    ∃ L : List (T × ℤ), KSmallest (fun x ↦ key x.1) r.n S ↑L ∧
      L.Pairwise (fun x y ↦ key x.1 ≤ key y.1) ∧
      r.results C tab = L ++ List.replicate (r.n - L.length) (C.neutral, -1) := by
  rcases lt_or_ge r.i r.n with hi | hi
  · obtain ⟨L, hL, hsorted, hres⟩ := hr.results_of_lt hC hi tab
    refine ⟨L, hr.smallest ?_, hsorted, hres⟩
    rw [hL]
    exact KSmallest.self (by rw [card_entries]; exact hi.le)
  · obtain ⟨L, hL, hsorted, hres⟩ := hr.results_of_le hC hn hi tab
    exact ⟨L, hr.smallest hL, hsorted, hres⟩

/-! ## Against the heap -/

/-- The results of two handlers that select from `offers` have the same distances, each beside an
id it was offered with, and the same filling. -/
def SameResults (C : KeyValueOrder T) (key : T → K) (k : ℕ) (offers rs hs : List (T × ℤ)) : Prop :=
  ∃ L L' : List (T × ℤ), rs = L ++ List.replicate (k - L.length) (C.neutral, -1) ∧
    hs = L' ++ List.replicate (k - L'.length) (C.neutral, -1) ∧
    L.map (fun x ↦ key x.1) = L'.map (fun x ↦ key x.1) ∧
    (L.map fun x ↦ key x.1).Pairwise (· ≤ ·) ∧
    L.length ≤ k ∧ (↑L : Multiset (T × ℤ)) ≤ ↑offers

/-- The reservoir returns what the heap returns, whatever it drops when it is full. -/
theorem reservoir_eq_heap (hC : C.Keyed key ok) {k : ℕ} (hk : 1 ≤ k)
    (hp : partitionFuzzy.Separates key ok (blockCapacity k) k ((blockCapacity k + k) / 2))
    (vals tab tab' : ℕ → T × ℤ) {offers : List (T × ℤ)} (hid : ∀ x ∈ offers, 0 ≤ x.2) :
    SameResults C key k offers
      (((begin C k vals).addResults C partitionFuzzy offers).results C tab)
      (((TopK.begin C k tab').addResults C offers).results C) := by
  have hreal : ∀ x ∈ offers, x.2 ≠ -1 := fun x hx h ↦ by
    have := hid x hx
    omega
  obtain ⟨hr, hn⟩ := (reserves_begin C key hk vals).addResults hC offers hreal hp
  replace hn : ((begin C k vals).addResults C partitionFuzzy offers).n = k := hn
  obtain ⟨L, hL, hsorted, hres⟩ := hr.results hC (by rw [hn]; exact hk) tab
  obtain ⟨L', hL', hsorted', hres'⟩ := (TopK.exact_of_keyed hC hk tab' hreal).results
  rw [hn, add_zero] at hL
  rw [hn] at hres
  have hmap : (L.map fun x ↦ key x.1) = L'.map fun x ↦ key x.1 := by
    have hperm : (L.map fun x ↦ key x.1).Perm (L'.map fun x ↦ key x.1) := by
      rw [← Multiset.coe_eq_coe, ← Multiset.map_coe, ← Multiset.map_coe]
      exact hL.map_eq hL'
    exact hperm.eq_of_pairwise' (List.pairwise_map.mpr hsorted) (List.pairwise_map.mpr hsorted')
  refine ⟨L, L', hres, hres', hmap, List.pairwise_map.mpr hsorted, ?_, ?_⟩
  · have := hL.card_le
    rwa [Multiset.coe_card] at this
  · exact hL.sub.trans (Multiset.coe_le.mpr (List.filter_sublist).subperm)

/-- The values sorted, of which the first `q` are put in front. -/
def sortedFront (key : T → K) (n q : ℕ) (vals : ℕ → T × ℤ) (j : ℕ) : T × ℤ :=
  if j < q then
    ((firstEntries n vals).insertionSort fun x y ↦ key x.1 ≤ key y.1).getD j (vals j)
  else vals j

def sortingPartition (key : T → K) : PartitionFuzzy T := fun vals n qMin _ ↦
  ((sortedFront key n qMin vals (qMin - 1)).1, qMin, sortedFront key n qMin vals)

theorem sortingPartition_separates (key : T → K) (ok : T → Prop) {n qMin qMax : ℕ}
    (hpos : 1 ≤ qMin) (hmax : qMin ≤ qMax) (hn : qMax < n) :
    (sortingPartition key).Separates key ok n qMin qMax := by
  intro vals hok
  have hperm := List.perm_insertionSort (fun x y : T × ℤ ↦ key x.1 ≤ key y.1) (firstEntries n vals)
  have hsorted := List.pairwise_insertionSort (fun x y : T × ℤ ↦ key x.1 ≤ key y.1)
    (firstEntries n vals)
  have hfront : ∀ j, j < qMin → sortedFront key n qMin vals j =
      ((firstEntries n vals).insertionSort fun x y ↦ key x.1 ≤ key y.1).getD j (vals j) :=
    fun j hj ↦ if_pos hj
  generalize (firstEntries n vals).insertionSort (fun x y : T × ℤ ↦ key x.1 ≤ key y.1) = sorted
    at hperm hsorted hfront
  have hlen : sorted.length = n := by rw [hperm.length_eq, firstEntries]; simp
  have hall : entries n vals = ↑sorted := by
    rw [entries_eq_coe_range]
    exact (Multiset.coe_eq_coe.mpr hperm).symm
  have hget : ∀ j (hj : j < qMin), sortedFront key n qMin vals j = sorted.get ⟨j, by omega⟩ :=
    fun j hj ↦ by
      have hj' : j < sorted.length := by omega
      rw [hfront j hj, List.getD, List.getElem?_eq_getElem hj']
      rfl
  have hkept : entries qMin (sortedFront key n qMin vals) = ↑(sorted.take qMin) := by
    rw [entries_eq_coe_range]
    refine congrArg _ (List.ext_getElem (by simp; omega) fun j h1 h2 ↦ ?_)
    rw [List.length_map, List.length_range] at h1
    rw [List.getElem_map, List.getElem_range, hget j h1, List.getElem_take]
    rfl
  have hthresh : ∀ i (hi : i < n), i ≤ qMin - 1 → key (sorted.get ⟨i, by omega⟩).1 ≤
      key (sorted.get ⟨qMin - 1, by omega⟩).1 := by
    intro i hi hle
    rcases hle.lt_or_eq with hlt | rfl
    · exact List.pairwise_iff_get.mp hsorted _ _ hlt
    · exact le_rfl
  have hmem : ∀ i (hi : i < n), sorted.get ⟨i, by omega⟩ ∈ entries n vals := fun i hi ↦ by
    rw [hall]
    exact List.get_mem _ _
  refine ⟨le_rfl, hmax, ?_, ?_, ↑(sorted.drop qMin), ?_, ?_⟩
  · rw [hget _ (by omega)]
    exact hok _ (hmem _ (by omega))
  · intro x hx
    rw [hkept] at hx
    obtain ⟨j, hj, rfl⟩ := List.mem_iff_getElem.mp (Multiset.mem_coe.mp hx)
    rw [List.length_take] at hj
    rw [List.getElem_take, hget _ (by omega)]
    exact hthresh j (by omega) (by omega)
  · rw [hkept, hall, Multiset.coe_add, List.take_append_drop]
  · intro y hy
    obtain ⟨j, hj, rfl⟩ := List.mem_iff_getElem.mp (Multiset.mem_coe.mp hy)
    rw [List.length_drop] at hj
    rw [List.getElem_drop, hget _ (by omega)]
    exact List.pairwise_iff_get.mp hsorted ⟨qMin - 1, by omega⟩ ⟨qMin + j, by omega⟩
      (by change qMin - 1 < qMin + j; omega)

/-- The seventeenth result, the best one, finds the buffer full. -/
theorem reservoir_eq_heap_seventeen :
    SameResults CMax F32.key 1
      ((List.range 16).map (fun i : ℕ ↦ (⟨0x3f800000#32⟩, (i : ℤ))) ++ [(⟨0x3f000000#32⟩, 16)])
      (((begin CMax 1 fun _ ↦ (F32.max, -1)).addResults CMax (sortingPartition F32.key)
        ((List.range 16).map (fun i : ℕ ↦ (⟨0x3f800000#32⟩, (i : ℤ))) ++
          [(⟨0x3f000000#32⟩, 16)])).results CMax fun _ ↦ (F32.max, -1))
      (((TopK.begin CMax 1 fun _ ↦ (F32.max, -1)).addResults CMax
        ((List.range 16).map (fun i : ℕ ↦ (⟨0x3f800000#32⟩, (i : ℤ))) ++
          [(⟨0x3f000000#32⟩, 16)])).results CMax) :=
  reservoir_eq_heap CMax_keyed le_rfl
    (sortingPartition_separates F32.key F32.Comparable le_rfl (by decide) (by decide))
    _ _ _ (by decide)

end ReservoirTopN

end FaissNavix
