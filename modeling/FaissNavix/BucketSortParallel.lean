import FaissNavix.Lib.Scatter
import FaissNavix.Lib.Tally

/-!
# The bucket sort

`bucket_sort` of `faiss/utils/sorting.cpp`, with one thread and with several.  Each of several threads counts
the values of its part, adds its counts to the common ones, takes as much room in each bucket as it has values
for it, and writes there.  The threads come to the two critical sections in any order, and their writes are
interleaved in any way.
-/

namespace FaissNavix

open Function
open Lib (bump bump_self bump_of_ne cumulate cumulate_apply tally tally_apply placeAt ofKey read)

/-! ## The model -/

section
variable (nval : ℕ) (vals : ℕ → ℕ) (vmax nt : ℕ)

/-- The loop `for (i = vmax; i > 0; i--) lims[i] = lims[i - 1]`, and `lims[0] = 0`. -/
def shiftBack (lims : ℕ → ℕ) : ℕ → ℕ :=
  update ((List.range vmax).foldr (fun i lims ↦ update lims (i + 1) (lims i)) lims) 0 0

/-- `bucket_sort_ref`: `lims` and `perm`, for the content that `perm` has at first. -/
def bucketSortRef (perm : ℕ → ℕ) : Option ((ℕ → ℕ) × (ℕ → ℕ)) := do
  let lims ← (List.range nval).foldlM (fun (lims : ℕ → ℕ) i ↦
    if vals i < vmax then some (bump lims (vals i + 1)) else none) fun _ ↦ 0
  let lims := cumulate vmax lims
  if lims vmax ≠ nval then none
  else
    -- `perm[lims[vals[i]]++] = i`
    let s := (List.range nval).foldl (placeAt vals id) (perm, lims)
    some (shiftBack vmax s.2, s.1)

/-- `i0` of a thread, which is `i1` of the one before it. -/
def firstOf (rank : ℕ) : ℕ :=
  nval * rank / nt

def sliceOf (rank : ℕ) : List ℕ :=
  List.range' (firstOf nval nt rank) (firstOf nval nt (rank + 1) - firstOf nval nt rank)

/-- The histogram in `local_lims` of a thread. -/
def localCounts (q : ℕ × ℕ) : ℕ :=
  tally ((sliceOf nval nt q.1).map vals) q.2

/-- The first critical section: `lims[i + 1] += local_lims[i]`. -/
def accumulateLims (localLims : ℕ × ℕ → ℕ) (lims : ℕ → ℕ) (rank : ℕ) : ℕ → ℕ :=
  (List.range vmax).foldl (fun lims i ↦ update lims (i + 1) (lims (i + 1) + localLims (rank, i))) lims

/-- The second critical section, on `lims` and the `local_lims` of all threads. -/
def grab (s : (ℕ → ℕ) × (ℕ × ℕ → ℕ)) (rank : ℕ) : (ℕ → ℕ) × (ℕ × ℕ → ℕ) :=
  (List.range vmax).foldl (fun s i ↦
    let nv := s.2 (rank, i)
    (update s.1 i (s.1 i + nv), update s.2 (rank, i) (s.1 i))) s

/-- Whose `local_lims` a write is at, and the bucket. -/
def cursorOf (x : ℕ × ℕ) : ℕ × ℕ :=
  (x.1, vals x.2)

/-- `bucket_sort_parallel`, for the orders in which the threads come to the critical sections, and the order of
their writes, each with the rank of the thread and the index. -/
def bucketSortParallel (counting grabbing : List ℕ)
    (placing : List (ℕ × ℕ)) (perm : ℕ → ℕ) : Option ((ℕ → ℕ) × (ℕ → ℕ)) :=
  let localLims := localCounts nval vals nt
  let lims := counting.foldl (accumulateLims vmax localLims) fun _ ↦ 0
  let lims := cumulate vmax lims
  if lims vmax ≠ nval then none
  else
    let (lims, localLims) := grabbing.foldl (grab vmax) (lims, localLims)
    -- `perm[local_lims[vals[i]]++] = i`
    let s := placing.foldl (placeAt (cursorOf vals) Prod.snd) (perm, localLims)
    some (shiftBack vmax lims, s.1)

def EachOnce (order : List ℕ) : Prop :=
  order.Perm (List.range nt)

end

/-- Each thread goes through its own indices in order. -/
structure Interleaved (nval nt : ℕ) (placing : List (ℕ × ℕ)) : Prop where
  rank_lt : ∀ x ∈ placing, x.1 < nt
  own : ∀ rank < nt, (ofKey Prod.fst placing rank).map Prod.snd = sliceOf nval nt rank

/-- The limits are those of the buckets, `perm` has the indices of each bucket between its limits, and nothing
has been written behind them. -/
structure BucketSorted (nval : ℕ) (vals : ℕ → ℕ) (vmax : ℕ) (before lims perm : ℕ → ℕ) : Prop where
  lims_eq : ∀ b ≤ vmax, lims b = (List.range nval).countP (vals · < b)
  slice : ∀ b < vmax, (read perm (lims b) (lims (b + 1) - lims b)).Perm
    ((List.range nval).filter (vals · = b))
  outside : ∀ a, nval ≤ a → perm a = before a

/-! ## The limits -/

section Limits

variable {nval vmax : ℕ} {vals : ℕ → ℕ} {b : ℕ}

section
variable (nval : ℕ) (vals : ℕ → ℕ) (b : ℕ)

/-- The number of values below `b`. -/
def below : ℕ :=
  (List.range nval).countP (vals · < b)

/-- The indices of the values in bucket `b`. -/
def bucketOf : List ℕ :=
  (List.range nval).filter (vals · = b)

theorem below_succ :
    below nval vals (b + 1) = below nval vals b + (bucketOf nval vals b).length := by
  unfold below bucketOf
  rw [← List.countP_eq_length_filter]
  induction List.range nval with
  | nil => rfl
  | cons i is ih =>
      simp only [List.countP_cons, ih, decide_eq_true_eq]
      split_ifs <;> omega

theorem below_mono : Monotone (below nval vals) := by
  refine monotone_nat_of_le_succ fun b ↦ ?_
  rw [below_succ]
  exact Nat.le_add_right _ _

@[simp] theorem below_zero : below nval vals 0 = 0 :=
  List.countP_eq_zero.mpr fun i _ ↦ by simp

end

theorem below_vmax (hvals : ∀ i < nval, vals i < vmax) : below nval vals vmax = nval := by
  unfold below
  rw [List.countP_eq_length.mpr fun i hi ↦ decide_eq_true (hvals i (List.mem_range.mp hi)), List.length_range]

theorem below_le (nval : ℕ) (vals : ℕ → ℕ) (b : ℕ) : below nval vals b ≤ nval := by
  have hle := List.countP_le_length (l := List.range nval) (p := fun i ↦ decide (vals i < b))
  rwa [List.length_range] at hle

theorem cumulate_eq_below {counts : ℕ → ℕ} (hzero : counts 0 = 0)
    (hsucc : ∀ b < vmax, counts (b + 1) = (bucketOf nval vals b).length) (hb : b ≤ vmax) :
    cumulate vmax counts b = below nval vals b := by
  rw [cumulate_apply, if_pos hb]
  induction b with
  | zero => rw [Finset.sum_range_one, hzero, below_zero]
  | succ b ih => rw [Finset.sum_range_succ, ih (by omega), hsucc b hb, below_succ]

/-- Limits that have moved to the ends of the buckets move back to their beginnings. -/
theorem shiftBack_apply {lims : ℕ → ℕ} (h : ∀ b < vmax, lims b = below nval vals (b + 1)) (hb : b ≤ vmax) :
    shiftBack vmax lims b = below nval vals b := by
  have hrun : ∀ n, ∀ f : ℕ → ℕ, ∀ b, (List.range n).foldr (fun i lims ↦ update lims (i + 1) (lims i)) f b =
      if 1 ≤ b ∧ b ≤ n then f (b - 1) else f b := by
    intro n
    induction n with
    | zero => exact fun f b ↦ (if_neg (by omega)).symm
    | succ n ih =>
        intro f b
        rw [List.range_succ, List.foldr_append, ih]
        change (if _ then update f (n + 1) (f n) _ else update f (n + 1) (f n) b) = _
        by_cases hlast : b = n + 1
        · rw [if_neg (by omega), if_pos (by omega), hlast, update_self]
          rfl
        · rw [update_of_ne hlast]
          by_cases hin : 1 ≤ b ∧ b ≤ n
          · rw [if_pos hin, if_pos (by omega), update_of_ne (by omega)]
          · rw [if_neg hin, if_neg (by omega)]
  unfold shiftBack
  cases b with
  | zero => rw [update_self, below_zero]
  | succ b =>
      rw [update_of_ne (Nat.succ_ne_zero b), hrun, if_pos ⟨Nat.succ_pos b, hb⟩]
      exact h b hb

end Limits

/-! ## One thread -/

section Reference

variable {nval vmax : ℕ} {vals : ℕ → ℕ} {b : ℕ}

theorem ofKey_range (nval : ℕ) (vals : ℕ → ℕ) (b : ℕ) : ofKey vals (List.range nval) b = bucketOf nval vals b := rfl

theorem mem_bucketOf {i : ℕ} : i ∈ bucketOf nval vals b ↔ i < nval ∧ vals i = b := by
  rw [bucketOf, List.mem_filter, List.mem_range, decide_eq_true_iff]

theorem lt_vmax_of_lt_length (hvals : ∀ i < nval, vals i < vmax) {a : ℕ} (h : a < (bucketOf nval vals b).length) :
    b < vmax := by
  obtain ⟨hi, heq⟩ := mem_bucketOf.mp (List.getElem_mem h)
  exact heq ▸ hvals _ hi

theorem below_add_ne {b' a a' : ℕ} (hne : b ≠ b') (ha : a < (bucketOf nval vals b).length)
    (ha' : a' < (bucketOf nval vals b').length) : below nval vals b + a ≠ below nval vals b' + a' := by
  have hsucc := below_succ nval vals b
  have hsucc' := below_succ nval vals b'
  rcases Nat.lt_or_gt_of_ne hne with hlt | hlt
  · have : below nval vals (b + 1) ≤ below nval vals b' := below_mono nval vals hlt
    omega
  · have : below nval vals (b' + 1) ≤ below nval vals b := below_mono nval vals hlt
    omega

theorem foldlM_bump (hvals : ∀ i < nval, vals i < vmax) : (List.range nval).foldlM (fun (lims : ℕ → ℕ) i ↦
    if vals i < vmax then some (bump lims (vals i + 1)) else none) (fun _ ↦ 0) =
      some (tally ((List.range nval).map fun i ↦ vals i + 1)) := by
  rw [tally, List.foldl_map]
  have hrun : ∀ is : List ℕ, (∀ i ∈ is, vals i < vmax) → ∀ lims : ℕ → ℕ, is.foldlM (fun (lims : ℕ → ℕ) i ↦
      if vals i < vmax then some (bump lims (vals i + 1)) else none) lims =
        some (is.foldl (fun lims i ↦ bump lims (vals i + 1)) lims) := by
    intro is his
    induction is with
    | nil => exact fun lims ↦ rfl
    | cons i is ih =>
        intro lims
        rw [List.foldlM_cons, if_pos (his i List.mem_cons_self)]
        exact ih (fun j hj ↦ his j (List.mem_cons_of_mem i hj)) _
  exact hrun _ (fun i hi ↦ hvals i (List.mem_range.mp hi)) _

/-- `bucket_sort_ref` sorts. -/
theorem bucketSortRef_sorted (hvals : ∀ i < nval, vals i < vmax) (perm : ℕ → ℕ) :
    ∃ lims perm', bucketSortRef nval vals vmax perm = some (lims, perm') ∧
      BucketSorted nval vals vmax perm lims perm' := by
  have hlims : ∀ b ≤ vmax, cumulate vmax (tally ((List.range nval).map fun i ↦ vals i + 1)) b =
      below nval vals b := by
    intro b hb
    refine cumulate_eq_below ?_ (fun b hb ↦ ?_) hb
    · rw [tally_apply]
      exact List.count_eq_zero_of_not_mem fun hmem ↦ by
        obtain ⟨i, -, hi⟩ := List.mem_map.mp hmem
        omega
    · rw [tally_apply, List.count, List.countP_map, bucketOf, ← List.countP_eq_length_filter]
      refine List.countP_congr fun i _ ↦ ?_
      simp
  generalize hstart : cumulate vmax (tally ((List.range nval).map fun i ↦ vals i + 1)) = start at hlims
  have hapart : Lib.Apart vals start (List.range nval) := by
    intro q q' hne a ha a' ha'
    rw [ofKey_range] at ha ha'
    rw [hlims q (lt_vmax_of_lt_length hvals ha).le, hlims q' (lt_vmax_of_lt_length hvals ha').le]
    exact below_add_ne hne ha ha'
  have hcursor : ∀ b < vmax, ((List.range nval).foldl (placeAt vals id) (perm, start)).2 b =
      below nval vals (b + 1) := by
    intro b hb
    rw [Lib.cursor_foldl_placeAt, hlims b hb.le, ofKey_range, below_succ]
  have hshift : ∀ b ≤ vmax, shiftBack vmax ((List.range nval).foldl (placeAt vals id) (perm, start)).2 b =
      below nval vals b := fun b hb ↦ shiftBack_apply hcursor hb
  refine ⟨_, ((List.range nval).foldl (placeAt vals id) (perm, start)).1, ?_, hshift, fun b hb ↦ ?_, fun a ha ↦ ?_⟩
  · unfold bucketSortRef
    rw [foldlM_bump hvals]
    change (if cumulate vmax _ vmax ≠ nval then none else _) = _
    rw [hstart, if_neg (not_not.mpr ((hlims vmax le_rfl).trans (below_vmax hvals)))]
  · have hread := Lib.read_foldl_placeAt id hapart perm b
    rw [List.map_id, hlims b hb.le] at hread
    rw [hshift b hb.le, hshift (b + 1) hb, below_succ, Nat.add_sub_cancel_left]
    exact List.Perm.of_eq hread
  · refine Lib.foldl_placeAt_of_outside (fun q c hc ↦ ?_) perm
    rw [ofKey_range] at hc
    have hq := lt_vmax_of_lt_length hvals hc
    rw [hlims q hq.le]
    have := below_succ nval vals q
    have := below_le nval vals (q + 1)
    omega

end Reference

/-! ## The parts of the threads -/

section Parts

variable {nval vmax nt : ℕ} {vals : ℕ → ℕ} {b rank : ℕ}

/-- The indices of a thread with values in bucket `b`. -/
def partOf (nval : ℕ) (vals : ℕ → ℕ) (nt b rank : ℕ) : List ℕ :=
  (sliceOf nval nt rank).filter (vals · = b)

theorem firstOf_mono (nval nt rank : ℕ) : firstOf nval nt rank ≤ firstOf nval nt (rank + 1) :=
  Nat.div_le_div_right (Nat.mul_le_mul_left nval (Nat.le_succ rank))

theorem flatMap_sliceOf (nval nt n : ℕ) :
    (List.range n).flatMap (sliceOf nval nt) = List.range (firstOf nval nt n) := by
  induction n with
  | zero => rw [firstOf, Nat.mul_zero, Nat.zero_div]; rfl
  | succ n ih =>
      have hle := firstOf_mono nval nt n
      rw [List.range_succ, List.flatMap_append, ih, List.flatMap_singleton, sliceOf, List.range_eq_range',
        List.range_eq_range', List.range'_eq_append_iff.mpr ⟨firstOf nval nt n, hle, rfl, ?_⟩]
      rw [Nat.mul_one, Nat.zero_add]

theorem flatMap_partOf (hnt : 0 < nt) (nval : ℕ) (vals : ℕ → ℕ) (b : ℕ) :
    (List.range nt).flatMap (partOf nval vals nt b) = bucketOf nval vals b := by
  have hall := flatMap_sliceOf nval nt nt
  rw [firstOf, Nat.mul_div_cancel _ hnt] at hall
  rw [bucketOf, ← hall, List.filter_flatMap]
  rfl

theorem length_partOf (nval : ℕ) (vals : ℕ → ℕ) (nt b rank : ℕ) :
    localCounts nval vals nt (rank, b) = (partOf nval vals nt b rank).length := by
  rw [localCounts, tally_apply, List.count, List.countP_map, partOf, ← List.countP_eq_length_filter]
  refine List.countP_congr fun i _ ↦ ?_
  simp

section
variable (hnt : 0 < nt) {order : List ℕ} (horder : EachOnce nt order) (nval : ℕ) (vals : ℕ → ℕ)
  (b : ℕ)
include hnt horder

theorem flatMap_partOf_perm
    : (order.flatMap (partOf nval vals nt b)).Perm (bucketOf nval vals b) := by
  rw [← flatMap_partOf hnt]
  exact List.Perm.flatMap_right _ horder

theorem sum_localCounts : (order.map fun rank ↦ localCounts nval vals nt (rank, b)).sum =
      (bucketOf nval vals b).length := by
  rw [← (flatMap_partOf_perm hnt horder nval vals b).length_eq, List.length_flatMap]
  exact congrArg List.sum (List.map_congr_left fun rank _ ↦ length_partOf nval vals nt b rank)

end

/-! ## The critical sections -/

theorem accumulateLims_apply (vmax : ℕ) (localLims : ℕ × ℕ → ℕ) (lims : ℕ → ℕ) (rank b : ℕ) :
    accumulateLims vmax localLims lims rank b =
      if 1 ≤ b ∧ b ≤ vmax then lims b + localLims (rank, b - 1) else lims b := by
  unfold accumulateLims
  induction vmax with
  | zero => rw [if_neg (by omega)]; rfl
  | succ n ih =>
      rw [List.range_succ, List.foldl_append]
      change update _ (n + 1) (_ + _) b = _
      by_cases hb : b = n + 1
      · subst hb
        rw [update_self, ih, if_neg (by omega), if_pos (by omega), Nat.add_sub_cancel]
      · rw [update_of_ne hb, ih]
        exact if_congr (by omega) rfl rfl

theorem foldl_accumulateLims (vmax : ℕ) (localLims : ℕ × ℕ → ℕ) (order : List ℕ) (lims : ℕ → ℕ) :
    order.foldl (accumulateLims vmax localLims) lims 0 = lims 0 ∧
      ∀ b < vmax, order.foldl (accumulateLims vmax localLims) lims (b + 1) =
        lims (b + 1) + (order.map fun rank ↦ localLims (rank, b)).sum := by
  induction order generalizing lims with
  | nil => exact ⟨rfl, fun b _ ↦ rfl⟩
  | cons rank order ih =>
      obtain ⟨hzero, hsucc⟩ := ih (accumulateLims vmax localLims lims rank)
      rw [List.foldl_cons]
      refine ⟨hzero.trans ?_, fun b hb ↦ (hsucc b hb).trans ?_⟩
      · rw [accumulateLims_apply, if_neg (by omega)]
      · rw [accumulateLims_apply, if_pos (by omega), Nat.add_sub_cancel, List.map_cons, List.sum_cons, Nat.add_assoc]

theorem grab_apply (vmax : ℕ) (s : (ℕ → ℕ) × (ℕ × ℕ → ℕ)) (rank : ℕ) :
    (∀ b, (grab vmax s rank).1 b = if b < vmax then s.1 b + s.2 (rank, b) else s.1 b) ∧
      ∀ q, (grab vmax s rank).2 q = if q.1 = rank ∧ q.2 < vmax then s.1 q.2 else s.2 q := by
  unfold grab
  induction vmax with
  | zero => exact ⟨fun b ↦ rfl, fun q ↦ (if_neg (by omega)).symm⟩
  | succ n ih =>
      rw [List.range_succ, List.foldl_append]
      obtain ⟨hlims, hloc⟩ := ih
      have hcell := hloc (rank, n)
      rw [if_neg (by dsimp only; omega)] at hcell
      constructor
      · intro b
        change update _ n (_ + _) b = _
        by_cases hb : b = n
        · rw [hb, update_self, hcell, hlims, if_neg (Nat.lt_irrefl n), if_pos (Nat.lt_succ_self n)]
        · rw [update_of_ne hb, hlims]
          exact if_congr (by omega) rfl rfl
      · intro q
        change update _ (rank, n) _ q = _
        by_cases hq : q = (rank, n)
        · rw [hq, update_self, hlims, if_neg (Nat.lt_irrefl n), if_pos ⟨rfl, Nat.lt_succ_self n⟩]
        · rw [update_of_ne hq, hloc]
          refine if_congr ?_ rfl rfl
          have : ¬ (q.1 = rank ∧ q.2 = n) := fun heq ↦ hq (Prod.ext heq.1 heq.2)
          omega

/-- The threads `done` have taken their room, one behind the other in each bucket. -/
structure Grabbed (vmax : ℕ) (counts : ℕ × ℕ → ℕ) (lims : ℕ → ℕ) (done : List ℕ)
    (s : (ℕ → ℕ) × (ℕ × ℕ → ℕ)) : Prop where
  lims_eq : ∀ b < vmax, s.1 b = lims b + (done.map fun rank ↦ counts (rank, b)).sum
  rest : ∀ rank ∉ done, ∀ b < vmax, s.2 (rank, b) = counts (rank, b)
  room : ∀ rank ∈ done, ∀ b < vmax, lims b ≤ s.2 (rank, b) ∧ s.2 (rank, b) + counts (rank, b) ≤ s.1 b
  apart : ∀ rank ∈ done, ∀ rank' ∈ done, rank ≠ rank' → ∀ b < vmax,
    s.2 (rank, b) + counts (rank, b) ≤ s.2 (rank', b) ∨ s.2 (rank', b) + counts (rank', b) ≤ s.2 (rank, b)
  run : ∀ b < vmax, ∀ m : ℕ → ℕ, read m (lims b) (done.map fun rank ↦ counts (rank, b)).sum =
    done.flatMap fun rank ↦ read m (s.2 (rank, b)) (counts (rank, b))

theorem grabbed_nil (vmax : ℕ) (counts : ℕ × ℕ → ℕ) (lims : ℕ → ℕ) : Grabbed vmax counts lims [] (lims, counts) where
  lims_eq _ _ := rfl
  rest _ _ _ _ := rfl
  room _ h := absurd h List.not_mem_nil
  apart _ h := absurd h List.not_mem_nil
  run _ _ _ := rfl

/-- One more thread. -/
theorem Grabbed.grab {counts : ℕ × ℕ → ℕ} {lims : ℕ → ℕ} {done : List ℕ} {s : (ℕ → ℕ) × (ℕ × ℕ → ℕ)}
    (h : Grabbed vmax counts lims done s) (hrank : rank ∉ done) :
    Grabbed vmax counts lims (done ++ [rank]) (grab vmax s rank) := by
  obtain ⟨hlims, hloc⟩ := grab_apply vmax s rank
  have hself : ∀ b < vmax, (FaissNavix.grab vmax s rank).2 (rank, b) = s.1 b := fun b hb ↦ by
    rw [hloc, if_pos ⟨rfl, hb⟩]
  have hother : ∀ rank' ≠ rank, ∀ b, (FaissNavix.grab vmax s rank).2 (rank', b) = s.2 (rank', b) :=
    fun rank' hne b ↦ by rw [hloc, if_neg fun h ↦ hne h.1]
  have hnew : ∀ b < vmax, (FaissNavix.grab vmax s rank).1 b = s.1 b + counts (rank, b) := fun b hb ↦ by
    rw [hlims, if_pos hb, h.rest rank hrank b hb]
  have hne : ∀ rank' ∈ done, rank' ≠ rank := fun rank' hmem heq ↦ hrank (heq ▸ hmem)
  have hsum : ∀ b, ((done ++ [rank]).map fun rank ↦ counts (rank, b)).sum =
      (done.map fun rank ↦ counts (rank, b)).sum + counts (rank, b) := fun b ↦ by
    rw [List.map_append, List.sum_append, List.map_singleton, List.sum_singleton]
  refine ⟨fun b hb ↦ ?_, fun rank' hmem b hb ↦ ?_, fun rank' hmem b hb ↦ ?_, ?_, fun b hb m ↦ ?_⟩
  · rw [hnew b hb, h.lims_eq b hb, hsum, Nat.add_assoc]
  · rw [List.mem_append, List.mem_singleton, not_or] at hmem
    rw [hother rank' hmem.2, h.rest rank' hmem.1 b hb]
  · rw [hnew b hb]
    rcases List.mem_append.mp hmem with hmem | hmem
    · have := h.room rank' hmem b hb
      rw [hother rank' (hne rank' hmem)]
      omega
    · obtain rfl := List.mem_singleton.mp hmem
      rw [hself b hb, h.lims_eq b hb]
      omega
  · intro rank₁ hmem₁ rank₂ hmem₂ hdiff b hb
    rcases List.mem_append.mp hmem₁ with hdone₁ | hlast₁
    · rcases List.mem_append.mp hmem₂ with hdone₂ | hlast₂
      · rw [hother rank₁ (hne rank₁ hdone₁), hother rank₂ (hne rank₂ hdone₂)]
        exact h.apart rank₁ hdone₁ rank₂ hdone₂ hdiff b hb
      · rw [List.mem_singleton.mp hlast₂, hother rank₁ (hne rank₁ hdone₁), hself b hb]
        exact Or.inl (h.room rank₁ hdone₁ b hb).2
    · rcases List.mem_append.mp hmem₂ with hdone₂ | hlast₂
      · rw [List.mem_singleton.mp hlast₁, hother rank₂ (hne rank₂ hdone₂), hself b hb]
        exact Or.inr (h.room rank₂ hdone₂ b hb).2
      · exact absurd ((List.mem_singleton.mp hlast₁).trans (List.mem_singleton.mp hlast₂).symm) hdiff
  · rw [hsum, Lib.read_add, h.run b hb, List.flatMap_append, List.flatMap_singleton, hself b hb,
      ← h.lims_eq b hb]
    refine congrArg (· ++ _) (List.flatMap_congr fun rank' hmem ↦ ?_)
    rw [hother rank' (hne rank' hmem)]

theorem grabbed_foldl (vmax : ℕ) (counts : ℕ × ℕ → ℕ) (lims : ℕ → ℕ) {order : List ℕ} (horder : order.Nodup) :
    Grabbed vmax counts lims order (order.foldl (FaissNavix.grab vmax) (lims, counts)) := by
  induction order using List.reverseRecOn with
  | nil => exact grabbed_nil vmax counts lims
  | append_singleton order rank ih =>
      obtain ⟨horder, -, hdisjoint⟩ := List.nodup_append.mp horder
      rw [List.foldl_append]
      exact (ih horder).grab fun hmem ↦ hdisjoint rank hmem rank List.mem_cons_self rfl

end Parts

/-! ## Several threads -/

section Threads

variable {nval vmax nt : ℕ} {vals : ℕ → ℕ}

theorem ofKey_cursorOf {placing : List (ℕ × ℕ)} (hplacing : Interleaved nval nt placing) (vals : ℕ → ℕ)
    {rank : ℕ} (hrank : rank < nt) (b : ℕ) :
    (ofKey (cursorOf vals) placing (rank, b)).map Prod.snd = partOf nval vals nt b rank := by
  have hsplit : ofKey (cursorOf vals) placing (rank, b) =
      (ofKey Prod.fst placing rank).filter ((fun i ↦ decide (vals i = b)) ∘ Prod.snd) := by
    unfold ofKey cursorOf
    rw [List.filter_filter]
    refine List.filter_congr fun x _ ↦ ?_
    simp only [Prod.mk.injEq, Bool.decide_and, comp_apply, Bool.and_comm]
  rw [hsplit, ← List.filter_map, hplacing.own rank hrank]
  rfl

theorem rank_lt_of_lt_length {placing : List (ℕ × ℕ)} (hplacing : Interleaved nval nt placing) {rank b a : ℕ}
    (ha : a < (ofKey (cursorOf vals) placing (rank, b)).length) : rank < nt := by
  obtain ⟨hmem, heq⟩ := List.mem_filter.mp (List.getElem_mem ha)
  have hrank : (ofKey (cursorOf vals) placing (rank, b))[a].1 = rank := congrArg Prod.fst (of_decide_eq_true heq)
  exact hrank ▸ hplacing.rank_lt _ hmem

/-- `bucket_sort_parallel` sorts, whatever the threads do first. -/
theorem bucketSortParallel_sorted (hvals : ∀ i < nval, vals i < vmax) (hnt : 0 < nt)
    {counting grabbing : List ℕ} {placing : List (ℕ × ℕ)} (hcounting : EachOnce nt counting)
    (hgrabbing : EachOnce nt grabbing) (hplacing : Interleaved nval nt placing) (perm : ℕ → ℕ) :
    ∃ lims perm', bucketSortParallel nval vals vmax nt counting grabbing placing perm = some (lims, perm') ∧
      BucketSorted nval vals vmax perm lims perm' := by
  obtain ⟨hzero, hsucc⟩ := foldl_accumulateLims vmax (localCounts nval vals nt) counting fun _ ↦ 0
  have hlims : ∀ b ≤ vmax, cumulate vmax (counting.foldl (accumulateLims vmax (localCounts nval vals nt)) fun _ ↦ 0) b =
      below nval vals b := by
    intro b hb
    refine cumulate_eq_below hzero (fun b hb ↦ ?_) hb
    rw [hsucc b hb, sum_localCounts hnt hcounting, Nat.zero_add]
  have hgrabbed := grabbed_foldl vmax (localCounts nval vals nt)
    (cumulate vmax (counting.foldl (accumulateLims vmax (localCounts nval vals nt)) fun _ ↦ 0))
    (hgrabbing.symm.nodup List.nodup_range)
  generalize hstart : cumulate vmax (counting.foldl (accumulateLims vmax (localCounts nval vals nt)) fun _ ↦ 0) =
    lims at hlims hgrabbed
  generalize hroom : grabbing.foldl (grab vmax) (lims, localCounts nval vals nt) = s at hgrabbed
  have hmem : ∀ {rank}, rank < nt → rank ∈ grabbing := fun hrank ↦
    hgrabbing.mem_iff.mpr (List.mem_range.mpr hrank)
  have hend : ∀ b < vmax, s.1 b = below nval vals (b + 1) := fun b hb ↦ by
    rw [hgrabbed.lims_eq b hb, hlims b hb.le, sum_localCounts hnt hgrabbing, below_succ]
  -- where the run of a key that is written lies
  have hrun : ∀ {rank b a}, a < (ofKey (cursorOf vals) placing (rank, b)).length → rank < nt ∧ b < vmax ∧
      below nval vals b ≤ s.2 (rank, b) ∧ a < localCounts nval vals nt (rank, b) ∧
      s.2 (rank, b) + localCounts nval vals nt (rank, b) ≤ below nval vals (b + 1) := by
    intro rank b a ha
    have hrank := rank_lt_of_lt_length hplacing ha
    have hlength := congrArg List.length (ofKey_cursorOf hplacing vals hrank b)
    rw [List.length_map, ← length_partOf] at hlength
    have hb : b < vmax := by
      have hpart : a < (partOf nval vals nt b rank).length := by rw [← length_partOf]; omega
      have hall : (partOf nval vals nt b rank)[a] ∈ bucketOf nval vals b := by
        rw [← flatMap_partOf hnt]
        exact List.mem_flatMap.mpr ⟨rank, List.mem_range.mpr hrank, List.getElem_mem hpart⟩
      obtain ⟨hi, heq⟩ := mem_bucketOf.mp hall
      exact heq ▸ hvals _ hi
    have hroom := hgrabbed.room rank (hmem hrank) b hb
    rw [hlims b hb.le, hend b hb] at hroom
    exact ⟨hrank, hb, hroom.1, by omega, hroom.2⟩
  have hapart : Lib.Apart (cursorOf vals) s.2 placing := by
    rintro ⟨rank, b⟩ ⟨rank', b'⟩ hne a ha a' ha'
    obtain ⟨hrank, hb, hlow, hin, hhigh⟩ := hrun ha
    obtain ⟨hrank', hb', hlow', hin', hhigh'⟩ := hrun ha'
    by_cases heq : b = b'
    · subst heq
      have hdiff : rank ≠ rank' := fun heq ↦ hne (by rw [heq])
      have := hgrabbed.apart rank (hmem hrank) rank' (hmem hrank') hdiff b hb
      omega
    · rcases Nat.lt_or_gt_of_ne heq with hlt | hlt
      · have : below nval vals (b + 1) ≤ below nval vals b' := below_mono nval vals hlt
        omega
      · have : below nval vals (b' + 1) ≤ below nval vals b := below_mono nval vals hlt
        omega
  have hshift : ∀ b ≤ vmax, shiftBack vmax s.1 b = below nval vals b := fun b hb ↦ shiftBack_apply hend hb
  refine ⟨_, (placing.foldl (placeAt (cursorOf vals) Prod.snd) (perm, s.2)).1, ?_, hshift, fun b hb ↦ ?_,
    fun a ha ↦ ?_⟩
  · unfold bucketSortParallel
    dsimp only
    rw [hstart, if_neg (not_not.mpr ((hlims vmax le_rfl).trans (below_vmax hvals))), hroom]
  · have hbucket := hgrabbed.run b hb (placing.foldl (placeAt (cursorOf vals) Prod.snd) (perm, s.2)).1
    have hparts : ∀ rank ∈ grabbing, read (placing.foldl (placeAt (cursorOf vals) Prod.snd) (perm, s.2)).1
        (s.2 (rank, b)) (localCounts nval vals nt (rank, b)) = partOf nval vals nt b rank := by
      intro rank hmem
      have hrank := List.mem_range.mp (hgrabbing.mem_iff.mp hmem)
      rw [length_partOf, ← ofKey_cursorOf hplacing vals hrank, List.length_map]
      exact Lib.read_foldl_placeAt Prod.snd hapart perm (rank, b)
    rw [List.flatMap_congr hparts, sum_localCounts hnt hgrabbing, hlims b hb.le] at hbucket
    rw [hshift b hb.le, hshift (b + 1) hb, below_succ, Nat.add_sub_cancel_left, hbucket]
    exact flatMap_partOf_perm hnt hgrabbing nval vals b
  · refine Lib.foldl_placeAt_of_outside (fun q c hc ↦ ?_) perm
    obtain ⟨-, -, -, hin, hhigh⟩ := @hrun q.1 q.2 c hc
    have := below_le nval vals (q.2 + 1)
    change a ≠ s.2 (q.1, q.2) + c
    omega

end Threads

/-! ## Both sorts -/

section Agreement

variable {nval vmax nt : ℕ} {vals before lims perm : ℕ → ℕ}

/-- The buckets together have every index once. -/
theorem BucketSorted.perm_range (h : BucketSorted nval vals vmax before lims perm) (hvals : ∀ i < nval, vals i < vmax) :
    (read perm 0 nval).Perm (List.range nval) := by
  have hbuckets : ∀ b ≤ vmax, (read perm 0 (below nval vals b)).Perm ((List.range nval).filter (vals · < b)) := by
    intro b hb
    induction b with
    | zero =>
        rw [below_zero, List.filter_eq_nil_iff.mpr fun i _ ↦ by simp]
        exact List.Perm.refl _
    | succ b ih =>
        have hslice := h.slice b hb
        rw [h.lims_eq b (by omega), h.lims_eq (b + 1) hb] at hslice
        change (read perm (below nval vals b) (below nval vals (b + 1) - below nval vals b)).Perm _ at hslice
        rw [below_succ, Nat.add_sub_cancel_left] at hslice
        rw [below_succ, Lib.read_add, Nat.zero_add]
        refine ((ih (by omega)).append hslice).trans ?_
        have hsplit := List.filter_append_perm (fun i ↦ decide (vals i < b))
          ((List.range nval).filter fun i ↦ vals i < b + 1)
        rw [List.filter_filter, List.filter_filter] at hsplit
        refine List.Perm.trans (List.Perm.of_eq (congrArg₂ (· ++ ·) ?_ ?_)) hsplit
        · refine List.filter_congr fun i _ ↦ ?_
          rw [← Bool.decide_and]
          exact decide_eq_decide.mpr (by omega)
        · refine List.filter_congr fun i _ ↦ ?_
          rw [← decide_not, ← Bool.decide_and]
          exact decide_eq_decide.mpr (by omega)
  have hall := hbuckets vmax le_rfl
  rwa [below_vmax hvals, List.filter_eq_self.mpr fun i hi ↦ decide_eq_true (hvals i (List.mem_range.mp hi))] at hall

theorem BucketSorted.flatMap_slice (h : BucketSorted nval vals vmax before lims perm)
    (hvals : ∀ i < nval, vals i < vmax) :
    (List.range vmax).flatMap (fun b ↦ read perm (lims b) (lims (b + 1) - lims b)) = read perm 0 nval := by
  have hfirst : ∀ n ≤ vmax, (List.range n).flatMap (fun b ↦ read perm (lims b) (lims (b + 1) - lims b)) =
      read perm 0 (below nval vals n) := by
    intro n hn
    induction n with
    | zero =>
        rw [below_zero]
        rfl
    | succ n ih =>
        rw [List.range_succ, List.flatMap_append, ih (by omega), List.flatMap_singleton, h.lims_eq n (by omega),
          h.lims_eq (n + 1) hn]
        change _ ++ read perm (below nval vals n) (below nval vals (n + 1) - below nval vals n) = _
        rw [below_succ, Nat.add_sub_cancel_left, Lib.read_add, Nat.zero_add]
  rw [hfirst vmax le_rfl, below_vmax hvals]

/-- With any number of threads, in any order, the limits are those of the sort with one thread, and the indices
are sorted into their buckets. -/
theorem bucketSortParallel_agrees (hvals : ∀ i < nval, vals i < vmax) (hnt : 0 < nt) {counting grabbing : List ℕ}
    {placing : List (ℕ × ℕ)} (hcounting : EachOnce nt counting) (hgrabbing : EachOnce nt grabbing)
    (hplacing : Interleaved nval nt placing) (before before' : ℕ → ℕ) :
    ∃ limsRef permRef lims perm, bucketSortRef nval vals vmax before = some (limsRef, permRef) ∧
      bucketSortParallel nval vals vmax nt counting grabbing placing before' = some (lims, perm) ∧
      (∀ b ≤ vmax, lims b = limsRef b) ∧ (read perm 0 nval).Perm (List.range nval) ∧
      (∀ b < vmax, (read perm (lims b) (lims (b + 1) - lims b)).Perm ((List.range nval).filter (vals · = b))) ∧
      ∀ a, nval ≤ a → perm a = before' a := by
  obtain ⟨limsRef, permRef, href, hsortedRef⟩ := bucketSortRef_sorted hvals before
  obtain ⟨lims, perm, hparallel, hsorted⟩ :=
    bucketSortParallel_sorted hvals hnt hcounting hgrabbing hplacing before'
  refine ⟨limsRef, permRef, lims, perm, href, hparallel, fun b hb ↦ ?_, hsorted.perm_range hvals, hsorted.slice,
    hsorted.outside⟩
  rw [hsorted.lims_eq b hb, hsortedRef.lims_eq b hb]

/-- Three values in two buckets and two threads, of which the second one comes first. -/
theorem bucketSortParallel_agrees_three :
    ∃ limsRef permRef lims perm,
      bucketSortRef 3 (fun i ↦ i % 2) 2 (fun _ ↦ 0) = some (limsRef, permRef) ∧
      bucketSortParallel 3 (fun i ↦ i % 2) 2 2 [0, 1] [1, 0] [(1, 1), (0, 0), (1, 2)] (fun _ ↦ 0) = some (lims, perm) ∧
      (∀ b ≤ 2, lims b = limsRef b) ∧ (read perm 0 3).Perm (List.range 3) ∧
      (∀ b < 2, (read perm (lims b) (lims (b + 1) - lims b)).Perm ((List.range 3).filter (· % 2 = b))) ∧
      ∀ a, 3 ≤ a → perm a = 0 :=
  bucketSortParallel_agrees (fun i _ ↦ Nat.mod_lt i Nat.two_pos) Nat.two_pos (List.Perm.refl _)
    (List.Perm.swap 0 1 []) ⟨by decide, by decide⟩ _ _

end Agreement

end FaissNavix
