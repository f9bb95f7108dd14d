import FaissNavix.Lib.Segments
import Mathlib.Data.List.Perm.Basic

/-!
# The order of insertion

`hnsw_add_vertices` of `faiss/IndexHNSW.cpp` inserts the vertices of a batch from the highest level
to the lowest.  It counts the vertices of every level, puts the ids of each in a bucket of its own,
and permutes the ids in a bucket at random before it inserts them.

Whatever the random numbers are, the bucket of a level holds the vertices of that level
(`segment_bucketSort`, `segment_shuffle_perm`).
-/

namespace FaissNavix

open Lib

/-- `while (pt_level >= hist.size()) hist.push_back(0); hist[pt_level]++;` -/
def countLevel (hist : List ℕ) (ptLevel : ℕ) : List ℕ :=
  let hist := hist ++ List.replicate (ptLevel + 1 - hist.length) 0
  hist.set ptLevel (hist.getD ptLevel 0 + 1)

/-- `hist` -/
def levelHist (ptLevel : ℕ → ℕ) (ids : List ℕ) : List ℕ :=
  ids.foldl (fun hist id ↦ countLevel hist (ptLevel id)) []

/-- `offsets`: the loop leaves the last entry alone. -/
def bucketOffsets (hist : List ℕ) : List ℕ :=
  (List.range (hist.length - 1)).foldl
    (fun offsets i ↦ offsets.set (i + 1) (offsets.getD i 0 + hist.getD i 0))
    (List.replicate (hist.length + 1) 0)

/-- `order[offsets[pt_level]++] = pt_id` -/
def putInBucket (ptLevel : ℕ → ℕ) (s : List ℕ × List ℕ) (ptId : ℕ) : List ℕ × List ℕ :=
  let o := s.2.getD (ptLevel ptId) 0
  (s.1.set o ptId, s.2.set (ptLevel ptId) (o + 1))

def bucketSort (ptLevel : ℕ → ℕ) (ids : List ℕ) : List ℕ :=
  (ids.foldl (putInBucket ptLevel)
    (List.replicate ids.length 0, bucketOffsets (levelHist ptLevel ids))).1

/-- `std::swap(order[j], order[k])` -/
def swapEntries (order : List ℕ) (j k : ℕ) : List ℕ :=
  (order.set j (order.getD k 0)).set k (order.getD j 0)

/-- The random permutation of the entries from `i0` to `i1`. -/
def shuffle (mt : ℕ → ℕ) (i0 i1 : ℕ) (order : List ℕ) : List ℕ :=
  (List.range' i0 (i1 - i0)).foldl (fun order j ↦ swapEntries order j (j + mt j % (i1 - j))) order

/-! ## The histogram -/

variable {ptLevel : ℕ → ℕ} {ids : List ℕ}

/-- The vertices of a level, in their order. -/
def onLevel (ptLevel : ℕ → ℕ) (ids : List ℕ) (l : ℕ) : List ℕ := ids.filter fun id ↦ ptLevel id = l

theorem onLevel_append (ids ids' : List ℕ) (l : ℕ) :
    onLevel ptLevel (ids ++ ids') l = onLevel ptLevel ids l ++ onLevel ptLevel ids' l :=
  List.filter_append ..

theorem onLevel_singleton (id l : ℕ) :
    onLevel ptLevel [id] l = if ptLevel id = l then [id] else [] := by
  rw [onLevel, List.filter_singleton]
  simp

theorem length_countLevel (hist : List ℕ) (l : ℕ) :
    (countLevel hist l).length = max hist.length (l + 1) := by
  rw [countLevel, List.length_set, List.length_append, List.length_replicate]
  omega

theorem getD_countLevel (hist : List ℕ) (l m : ℕ) :
    (countLevel hist l).getD m 0 = hist.getD m 0 + if l = m then 1 else 0 := by
  have hpad : ∀ m, (hist ++ List.replicate (l + 1 - hist.length) 0).getD m 0 = hist.getD m 0 := by
    intro m
    by_cases hm : m < hist.length
    · exact List.getD_append _ _ _ _ hm
    · rw [List.getD_append_right _ _ _ _ (by omega), List.getD_eq_getElem?_getD,
        List.getElem?_replicate, List.getD_eq_default _ _ (by omega)]
      split <;> rfl
  rw [countLevel, getD_set, hpad, hpad, List.length_append, List.length_replicate]
  by_cases hlm : l = m
  · rw [if_pos ⟨hlm, by omega⟩, if_pos hlm, hlm]
  · rw [if_neg fun h ↦ hlm h.1, if_neg hlm, Nat.add_zero]

theorem getD_levelHist (ids : List ℕ) (l : ℕ) :
    (levelHist ptLevel ids).getD l 0 = (onLevel ptLevel ids l).length := by
  induction ids using List.reverseRecOn with
  | nil => rfl
  | append_singleton ids id ih =>
      rw [levelHist, List.foldl_append, List.foldl_cons, List.foldl_nil, getD_countLevel,
        onLevel_append, List.length_append, ← ih, onLevel_singleton, levelHist]
      split <;> rfl

theorem lt_length_levelHist {id : ℕ} (h : id ∈ ids) :
    ptLevel id < (levelHist ptLevel ids).length := by
  induction ids using List.reverseRecOn with
  | nil => exact absurd h List.not_mem_nil
  | append_singleton ids id' ih =>
      rw [levelHist, List.foldl_append, List.foldl_cons, List.foldl_nil, length_countLevel]
      rcases List.mem_append.mp h with h | h
      · exact lt_of_lt_of_le (ih h) (le_max_left _ _)
      · rw [List.mem_singleton.mp h]
        omega

/-! ## The buckets -/

def bucketStart (ptLevel : ℕ → ℕ) (ids : List ℕ) (l : ℕ) : ℕ :=
  ((List.range l).map fun m ↦ (onLevel ptLevel ids m).length).sum

theorem bucketStart_succ (ids : List ℕ) (l : ℕ) :
    bucketStart ptLevel ids (l + 1) =
      bucketStart ptLevel ids l + (onLevel ptLevel ids l).length := by
  rw [bucketStart, List.range_succ, List.map_append, List.sum_append, List.map_singleton,
    List.sum_singleton]
  rfl

theorem bucketStart_mono (ids : List ℕ) {l m : ℕ} (h : l ≤ m) :
    bucketStart ptLevel ids l ≤ bucketStart ptLevel ids m := by
  induction m, h using Nat.le_induction with
  | base => exact le_rfl
  | succ m _ ih =>
      rw [bucketStart_succ]
      exact ih.trans (Nat.le_add_right _ _)

theorem bucketStart_eq (ids : List ℕ) (l : ℕ) :
    bucketStart ptLevel ids l = ids.countP fun id ↦ ptLevel id < l := by
  induction l with
  | zero => exact (List.countP_eq_zero.mpr fun _ _ ↦ by simp).symm
  | succ l ih =>
      rw [bucketStart_succ, ih, onLevel, ← List.countP_eq_length_filter]
      clear ih
      induction ids with
      | nil => rfl
      | cons id ids ih =>
          simp only [List.countP_cons, decide_eq_true_eq] at ih ⊢
          split_ifs <;> omega

theorem bucketStart_length (ids : List ℕ) :
    bucketStart ptLevel ids (levelHist ptLevel ids).length = ids.length := by
  rw [bucketStart_eq, List.countP_eq_length]
  exact fun id hid ↦ decide_eq_true (lt_length_levelHist hid)

/-- The first offsets are where the buckets start. -/
theorem getD_bucketOffsets {ids : List ℕ} {l : ℕ} (hl : l < (levelHist ptLevel ids).length) :
    (bucketOffsets (levelHist ptLevel ids)).getD l 0 = bucketStart ptLevel ids l ∧
      (bucketOffsets (levelHist ptLevel ids)).length = (levelHist ptLevel ids).length + 1 := by
  have hfold : ∀ k, k < (levelHist ptLevel ids).length →
      (∀ l ≤ k, ((List.range k).foldl (fun offsets i ↦
          offsets.set (i + 1) (offsets.getD i 0 + (levelHist ptLevel ids).getD i 0))
          (List.replicate ((levelHist ptLevel ids).length + 1) 0)).getD l 0 =
        bucketStart ptLevel ids l) ∧
      ((List.range k).foldl (fun offsets i ↦
          offsets.set (i + 1) (offsets.getD i 0 + (levelHist ptLevel ids).getD i 0))
          (List.replicate ((levelHist ptLevel ids).length + 1) 0)).length =
        (levelHist ptLevel ids).length + 1 := by
    intro k
    induction k with
    | zero =>
        intro _
        refine ⟨fun l hl ↦ ?_, List.length_replicate⟩
        rw [Nat.le_zero.mp hl]
        rfl
    | succ k ih =>
        intro hk
        obtain ⟨hstart, hlen⟩ := ih (by omega)
        rw [List.range_succ, List.foldl_append, List.foldl_cons, List.foldl_nil]
        refine ⟨fun l hl ↦ ?_, by rw [List.length_set, hlen]⟩
        rw [getD_set, hlen]
        rcases Nat.lt_or_eq_of_le hl with hlt | rfl
        · rw [if_neg (by omega), hstart l (by omega)]
        · rw [if_pos ⟨rfl, by omega⟩, hstart k le_rfl, getD_levelHist, bucketStart_succ]
  obtain ⟨hstart, hlen⟩ := hfold ((levelHist ptLevel ids).length - 1) (by omega)
  exact ⟨hstart l (by omega), hlen⟩

/-- The state of the bucket sort of `all` after the ids `pre`. -/
structure Bucketed (ptLevel : ℕ → ℕ) (all pre : List ℕ) (s : List ℕ × List ℕ) : Prop where
  length_eq : s.1.length = all.length
  offsets_length : s.2.length = (levelHist ptLevel all).length + 1
  offset : ∀ l < (levelHist ptLevel all).length,
    s.2.getD l 0 = bucketStart ptLevel all l + (onLevel ptLevel pre l).length
  bucket : ∀ l < (levelHist ptLevel all).length,
    segment 0 s.1 (bucketStart ptLevel all l) (onLevel ptLevel pre l).length =
      onLevel ptLevel pre l

/-- One more id. -/
theorem Bucketed.put {all pre rest : List ℕ} {id : ℕ} {s : List ℕ × List ℕ}
    (h : Bucketed ptLevel all pre s) (hall : all = pre ++ id :: rest) :
    Bucketed ptLevel all (pre ++ [id]) (putInBucket ptLevel s id) := by
  have hid : ptLevel id < (levelHist ptLevel all).length :=
    lt_length_levelHist (by rw [hall]; exact List.mem_append_right _ List.mem_cons_self)
  have hsub : ∀ l, (onLevel ptLevel pre l).length + (onLevel ptLevel [id] l).length ≤
      (onLevel ptLevel all l).length := by
    intro l
    rw [hall, List.append_cons, onLevel_append, onLevel_append, List.length_append,
      List.length_append]
    exact Nat.le_add_right _ _
  have hself : (onLevel ptLevel [id] (ptLevel id)).length = 1 := by
    rw [onLevel_singleton, if_pos rfl]
    rfl
  have hend : ∀ l, bucketStart ptLevel all l + (onLevel ptLevel all l).length =
      bucketStart ptLevel all (l + 1) := fun l ↦ (bucketStart_succ all l).symm
  have hle : bucketStart ptLevel all (ptLevel id + 1) ≤ all.length :=
    (bucketStart_mono all hid).trans (bucketStart_length all).le
  have hslot := hsub (ptLevel id)
  rw [putInBucket, h.offset _ hid]
  refine ⟨by rw [List.length_set, h.length_eq], by rw [List.length_set, h.offsets_length],
    fun l hl ↦ ?_, fun l hl ↦ ?_⟩
  · rw [getD_set, h.offsets_length, onLevel_append, List.length_append, onLevel_singleton]
    by_cases hlid : ptLevel id = l
    · subst hlid
      rw [if_pos ⟨rfl, by omega⟩, if_pos rfl]
      rfl
    · rw [if_neg fun heq ↦ hlid heq.1, if_neg hlid, h.offset l hl]
      rfl
  · rw [onLevel_append, List.length_append, onLevel_singleton]
    have hpre := hsub l
    have hendl := hend l
    have hendid := hend (ptLevel id)
    by_cases hlid : ptLevel id = l
    · subst hlid
      rw [if_pos rfl, List.length_singleton, segment_succ, segment_set_of_disjoint _ (Or.inl le_rfl),
        h.bucket _ hl, getD_set, h.length_eq, if_pos ⟨rfl, by omega⟩]
    · rw [if_neg hlid, List.append_nil]
      refine (segment_set_of_disjoint _ ?_).trans (h.bucket l hl)
      rw [List.length_nil, Nat.add_zero]
      rcases Nat.lt_or_gt_of_ne hlid with hlt | hgt
      · have hstart : bucketStart ptLevel all (ptLevel id + 1) ≤ bucketStart ptLevel all l :=
          bucketStart_mono all hlt
        exact Or.inr (by omega)
      · have hstart : bucketStart ptLevel all (l + 1) ≤ bucketStart ptLevel all (ptLevel id) :=
          bucketStart_mono all hgt
        exact Or.inl (by omega)

theorem bucketed_foldl {all : List ℕ} (rest pre : List ℕ) (s : List ℕ × List ℕ)
    (h : Bucketed ptLevel all pre s) (hall : all = pre ++ rest) :
    Bucketed ptLevel all all (rest.foldl (putInBucket ptLevel) s) := by
  induction rest generalizing pre s with
  | nil =>
      rw [List.append_nil] at hall
      rw [hall] at h ⊢
      exact h
  | cons id rest ih =>
      exact ih (pre ++ [id]) _ (h.put hall) (by rw [hall, List.append_cons])

theorem length_bucketSort (ids : List ℕ) : (bucketSort ptLevel ids).length = ids.length := by
  have hfold : ∀ (rest : List ℕ) (s : List ℕ × List ℕ),
      (rest.foldl (putInBucket ptLevel) s).1.length = s.1.length := by
    intro rest
    induction rest with
    | nil => intro s; rfl
    | cons id rest ih => intro s; rw [List.foldl_cons, ih, putInBucket, List.length_set]
  rw [bucketSort, hfold, List.length_replicate]

theorem segment_bucketSort (ids : List ℕ) {l : ℕ} (hl : l < (levelHist ptLevel ids).length) :
    segment 0 (bucketSort ptLevel ids) (bucketStart ptLevel ids l) (onLevel ptLevel ids l).length =
      onLevel ptLevel ids l := by
  refine (bucketed_foldl ids [] _ ⟨List.length_replicate, (getD_bucketOffsets hl).2,
    fun m hm ↦ ?_, fun m _ ↦ rfl⟩ (List.nil_append _).symm).bucket l hl
  exact (getD_bucketOffsets hm).1

/-! ## The random permutation -/

theorem segment_swapEntries_perm {order : List ℕ} {b n j k : ℕ} (hlen : b + n ≤ order.length)
    (hj : b ≤ j ∧ j < b + n) (hk : b ≤ k ∧ k < b + n) :
    (segment 0 (swapEntries order j k) b n).Perm (segment 0 order b n) := by
  have hjn : j - b < (segment 0 order b n).length := by rw [length_segment]; omega
  have hkn : k - b < (segment 0 order b n).length := by rw [length_segment]; omega
  have hgetj : order.getD j 0 = (segment 0 order b n).get ⟨j - b, hjn⟩ := by
    rw [getElem_segment, Nat.add_sub_cancel' hj.1]
  have hgetk : order.getD k 0 = (segment 0 order b n).get ⟨k - b, hkn⟩ := by
    rw [getElem_segment, Nat.add_sub_cancel' hk.1]
  rw [swapEntries, segment_set _ hk.1 (by rw [List.length_set]; omega),
    segment_set _ hj.1 (by omega),
    hgetj, hgetk]
  exact List.set_set_perm hjn hkn

theorem shuffle_spec (mt : ℕ → ℕ) {order : List ℕ} {b n : ℕ} (hlen : b + n ≤ order.length) :
    (shuffle mt b (b + n) order).length = order.length ∧
      (segment 0 (shuffle mt b (b + n) order) b n).Perm (segment 0 order b n) ∧
      ∀ c m, c + m ≤ b → segment 0 (shuffle mt b (b + n) order) c m = segment 0 order c m := by
  have hfold : ∀ (js : List ℕ) (xs : List ℕ), (∀ j ∈ js, b ≤ j ∧ j < b + n) → b + n ≤ xs.length →
      (js.foldl (fun xs j ↦ swapEntries xs j (j + mt j % (b + n - j))) xs).length = xs.length ∧
        (segment 0 (js.foldl (fun xs j ↦ swapEntries xs j (j + mt j % (b + n - j))) xs) b n).Perm
          (segment 0 xs b n) ∧
        ∀ c m, c + m ≤ b →
          segment 0 (js.foldl (fun xs j ↦ swapEntries xs j (j + mt j % (b + n - j))) xs) c m =
            segment 0 xs c m := by
    intro js
    induction js with
    | nil => intro xs _ _; exact ⟨rfl, List.Perm.refl _, fun _ _ _ ↦ rfl⟩
    | cons j js ih =>
        intro xs hjs hxs
        obtain ⟨hbj, hjn⟩ := hjs j List.mem_cons_self
        have hmod : mt j % (b + n - j) < b + n - j := Nat.mod_lt _ (by omega)
        have hlen' : (swapEntries xs j (j + mt j % (b + n - j))).length = xs.length := by
          rw [swapEntries, List.length_set, List.length_set]
        obtain ⟨hlen, hperm, hframe⟩ := ih (swapEntries xs j (j + mt j % (b + n - j)))
          (fun i hi ↦ hjs i (List.mem_cons_of_mem _ hi)) (by rw [hlen']; exact hxs)
        refine ⟨hlen.trans hlen', hperm.trans ?_, fun c m hc ↦ (hframe c m hc).trans ?_⟩
        · exact segment_swapEntries_perm hxs ⟨hbj, hjn⟩ (by omega)
        · rw [swapEntries, segment_set_of_disjoint _ (Or.inl (by omega)),
            segment_set_of_disjoint _ (Or.inl (by omega))]
  rw [shuffle, Nat.add_sub_cancel_left]
  exact hfold _ _ (fun j hj ↦ List.mem_range'_1.mp hj) hlen

end FaissNavix
