import FaissNavix.Lib.Loop
import FaissNavix.Lib.Partition
import FaissNavix.Shards.BruteForce
import FaissNavix.Shards.KnnMerge

/-!
# Sharded indexes

`IndexShards` of `faiss/IndexShards.cpp`, over brute-force indexes that all have the same metric.  What
a brute-force index contains is the list of its vectors with their labels.
-/

namespace FaissNavix

open Lib (slice read write)

variable {Q V : Type} {metricType : MetricType} {dis : Q → V → F32}

/-- `add` of a brute-force index, which numbers the vectors on. -/
def addVectors (content : List (V × ℤ)) (xs : List V) : List (V × ℤ) :=
  content ++ (xs.zipIdx content.length).map fun x ↦ (x.1, (x.2 : ℤ))

/-- `IndexShards`, with what its shards contain. -/
structure IndexShards (V : Type) where
  successiveIds : Bool
  nshard : ℕ
  shards : ℕ → List (V × ℤ)
  ntotal : ℕ

namespace IndexShards

variable (index : IndexShards V)

/-- `add_with_ids`, unless it throws; without ids it is `add`. -/
def addWithIds (xs : List V) (xids : Option (List ℤ)) : Option (IndexShards V) :=
  if index.successiveIds && xids.isSome then none
  else if index.successiveIds && index.ntotal != 0 then none
  else
    let n := xs.length
    let ids :=
      if index.successiveIds then xids
      else some (xids.getD ((List.range n).map fun i ↦ ((index.ntotal + i : ℕ) : ℤ)))
    let shards := fun no ↦
      let i0 := no * n / index.nshard
      let i1 := (no + 1) * n / index.nshard
      match ids with
      | some ids => index.shards no ++ (slice xs i0 i1).zip (slice ids i0 i1)
      | none => addVectors (index.shards no) (slice xs i0 i1)
    some { index with shards, ntotal := ((List.range index.nshard).map fun no ↦ (shards no).length).sum }

def translation (s : ℕ) : ℕ :=
  if index.successiveIds then ((List.range s).map fun t ↦ (index.shards t).length).sum else 0

/-- `translate_labels` -/
def translateLabels (translation : ℕ) (results : List (F32 × ℤ)) : List (F32 × ℤ) :=
  if translation = 0 then results
  else results.map fun x ↦ if x.2 < 0 then x else (x.1, x.2 + translation)

/-- `all_distances` and `all_labels`, after the searches of the shards. -/
def searchShards (shard : ℕ → BruteForce metricType dis) (n : ℕ) (x : ℕ → Q) (k : ℕ) : ℕ → F32 × ℤ :=
  (List.range index.nshard).foldl
    (fun all no ↦ write all (no * (n * k)) (translateLabels (index.translation no)
      (read ((shard no).search (index.shards no) n x k) 0 (n * k))))
    fun _ ↦ (⟨0⟩, 0)

/-- `search`, unless it throws, or writes the first translation and there is none. -/
def search (shard : ℕ → BruteForce metricType dis) (n : ℕ) (x : ℕ → Q) (k : ℕ) (tab : ℕ → F32 × ℤ) :
    Option (ℕ → F32 × ℤ) :=
  if k = 0 then none
  else if index.successiveIds && index.nshard == 0 then none
  else
    let all := index.searchShards shard n x k
    if metricType = .l2 then some (mergeKnnResults CMin CMax k n index.nshard all tab)
    else some (mergeKnnResults CMax CMin k n index.nshard all tab)

end IndexShards

/-! ## Runs -/

/-- A call that adds vectors. -/
inductive ShardCall (V : Type) where
  | add (xs : List V)
  | addWithIds (xs : List (V × ℤ))

/-- The call, of an index with shards. -/
def ShardCall.shards (index : IndexShards V) : ShardCall V → Option (IndexShards V)
  | .add xs => index.addWithIds xs none
  | .addWithIds xs => index.addWithIds (xs.map Prod.fst) (some (xs.map Prod.snd))

/-- The call, of a single brute-force index. -/
def ShardCall.single (content : List (V × ℤ)) : ShardCall V → List (V × ℤ)
  | .add xs => addVectors content xs
  | .addWithIds xs => content ++ xs

/-- The calls, one after the other, of shards that are empty. -/
def runShards (successiveIds : Bool) (nshard : ℕ) (calls : List (ShardCall V)) : Option (IndexShards V) :=
  calls.foldlM ShardCall.shards ⟨successiveIds, nshard, fun _ ↦ [], 0⟩

def runSingle (calls : List (ShardCall V)) : List (V × ℤ) :=
  calls.foldl ShardCall.single []

def ShardCall.ids : ShardCall V → List ℤ
  | .add _ => []
  | .addWithIds xs => xs.map Prod.snd

end FaissNavix

/-!
# What the shards contain

After any calls that return, the shards together contain the vectors of a single index, with the same
labels once these are translated.
-/

namespace FaissNavix

open Lib (slice flatMap_slice)

variable {V : Type}

/-! ## The bounds of the slices -/

section Bounds

variable {n nshard : ℕ}

theorem shardBound_le_succ (n nshard s : ℕ) : s * n / nshard ≤ (s + 1) * n / nshard :=
  Nat.div_le_div_right (Nat.mul_le_mul_right n (Nat.le_succ s))

theorem shardBound_last (n : ℕ) (h : 0 < nshard) : nshard * n / nshard = n :=
  Nat.mul_div_cancel_left n h

theorem shardBound_le {s : ℕ} (h : 0 < nshard) (hs : s ≤ nshard) : s * n / nshard ≤ n :=
  (Nat.div_le_div_right (Nat.mul_le_mul_right n hs)).trans (shardBound_last n h).le

theorem flatMap_shardSlices {α : Type} (xs : List α) (h : 0 < nshard) :
    ((List.range nshard).flatMap fun s ↦
      slice xs (s * xs.length / nshard) ((s + 1) * xs.length / nshard)) = xs := by
  have hslices := flatMap_slice xs (q := fun s ↦ s * xs.length / nshard) (m := nshard)
    (by rw [Nat.zero_mul, Nat.zero_div]) fun s _ ↦ shardBound_le_succ _ _ s
  rw [hslices]
  exact List.take_of_length_le (shardBound_last xs.length h).ge

theorem sum_length_shardSlices {α : Type} (xs : List α) (h : 0 < nshard) {s : ℕ} (hs : s ≤ nshard) :
    ((List.range s).map fun t ↦
      (slice xs (t * xs.length / nshard) ((t + 1) * xs.length / nshard)).length).sum =
      s * xs.length / nshard := by
  have hslices := flatMap_slice xs (q := fun t ↦ t * xs.length / nshard) (m := s)
    (by rw [Nat.zero_mul, Nat.zero_div]) fun t _ ↦ shardBound_le_succ _ _ t
  have hlen := congrArg List.length hslices
  rw [List.length_flatMap, List.length_take, min_eq_left (shardBound_le h hs)] at hlen
  exact hlen

theorem slice_zip {α β : Type} (xs : List α) (ys : List β) (lo hi : ℕ) :
    (slice xs lo hi).zip (slice ys lo hi) = slice (xs.zip ys) lo hi := by
  unfold slice
  rw [List.zip_eq_zipWith, List.zip_eq_zipWith, List.drop_zipWith, List.take_zipWith]

theorem zipIdx_slice {α : Type} (xs : List α) (b lo hi : ℕ) :
    (slice xs lo hi).zipIdx (b + lo) = slice (xs.zipIdx b) lo hi := by
  refine List.ext_getElem? fun i ↦ ?_
  unfold slice
  rw [List.getElem?_zipIdx, List.getElem?_take, List.getElem?_take]
  by_cases hi' : i < hi - lo
  · rw [if_pos hi', if_pos hi', List.getElem?_drop, List.getElem?_drop, List.getElem?_zipIdx,
      Nat.add_assoc]
  · rw [if_neg hi', if_neg hi']
    rfl

end Bounds

theorem coe_flatMap_range {α : Type} (f : ℕ → List α) (m : ℕ) :
    (↑((List.range m).flatMap f) : Multiset α) = ∑ s ∈ Finset.range m, (↑(f s) : Multiset α) := by
  induction m with
  | zero => rfl
  | succ m ih =>
      rw [List.range_succ, List.flatMap_append, ← Multiset.coe_add, ih, Finset.sum_range_succ,
        List.flatMap_cons, List.flatMap_nil, List.append_nil]

/-! ## The invariant -/

def shift (translation : ℕ) (x : V × ℤ) : V × ℤ := (x.1, x.2 + translation)

/-- The shards together have the vectors of the single index, with their labels, and none of the labels
is taken for the end of the results. -/
structure Distributed (index : IndexShards V) (content : List (V × ℤ)) : Prop where
  total : index.ntotal = content.length
  parts : ∑ s ∈ Finset.range index.nshard,
    (↑((index.shards s).map (shift (index.translation s))) : Multiset (V × ℤ)) = ↑content
  nonneg : ∀ s < index.nshard, ∀ x ∈ index.shards s, 0 ≤ x.2

/-- The vectors with the labels that they are added with, to a single index. -/
def ShardCall.labelled (ntotal : ℕ) : ShardCall V → List (V × ℤ)
  | .add xs => (xs.zipIdx ntotal).map fun x ↦ (x.1, (x.2 : ℤ))
  | .addWithIds xs => xs

theorem ShardCall.single_eq (content : List (V × ℤ)) (call : ShardCall V) :
    call.single content = content ++ call.labelled content.length := by
  cases call <;> rfl

section Steps

variable {index index' : IndexShards V} {content : List (V × ℤ)} {call : ShardCall V}

theorem zip_natCast_range (xs : List V) (b : ℕ) :
    xs.zip ((List.range xs.length).map fun i ↦ ((b + i : ℕ) : ℤ)) =
      (xs.zipIdx b).map fun x ↦ (x.1, (x.2 : ℤ)) := by
  rw [List.zipIdx_eq_zip_range', List.zip_map_right, List.range'_eq_map_range, List.zip_map_right,
    List.map_map]
  rfl

def shardSlice (nshard : ℕ) (new : List (V × ℤ)) (no : ℕ) : List (V × ℤ) :=
  slice new (no * new.length / nshard) ((no + 1) * new.length / nshard)

/-- The index after each shard has got its part. -/
def IndexShards.extend (index : IndexShards V) (part : ℕ → List (V × ℤ)) : IndexShards V :=
  { index with
    shards := fun no ↦ index.shards no ++ part no
    ntotal := ((List.range index.nshard).map fun no ↦ (index.shards no ++ part no).length).sum }

/-- Without successive ids, each shard gets a slice of the vectors with their labels. -/
theorem ShardCall.shards_of_ids (hsuc : index.successiveIds = false)
    (h : call.shards index = some index') :
    index' = index.extend (shardSlice index.nshard (call.labelled index.ntotal)) := by
  obtain ⟨successiveIds, nshard, shards, ntotal⟩ := index
  subst hsuc
  unfold IndexShards.extend shardSlice
  cases call with
  | add xs =>
      simp only [ShardCall.shards, IndexShards.addWithIds, Bool.false_and, Bool.false_eq_true, if_false,
        Option.getD_none, Option.some_inj, slice_zip, zip_natCast_range] at h
      rw [← h]
      simp only [ShardCall.labelled, List.length_map, List.length_zipIdx]
  | addWithIds xs =>
      have hzip : (xs.map Prod.fst).zip (xs.map Prod.snd) = xs := (List.zip_of_prod rfl rfl).symm
      simp only [ShardCall.shards, IndexShards.addWithIds, Bool.false_and, Bool.false_eq_true, if_false,
        Option.getD_some, Option.some_inj, slice_zip, hzip, List.length_map] at h
      exact h.symm

/-- With successive ids, each shard gets a slice of the vectors, and numbers them on. -/
theorem ShardCall.shards_of_successive (hsuc : index.successiveIds = true)
    (h : call.shards index = some index') :
    ∃ xs, call = .add xs ∧ index.ntotal = 0 ∧ index' = index.extend fun no ↦
      ((slice xs (no * xs.length / index.nshard) ((no + 1) * xs.length / index.nshard)).zipIdx
        (index.shards no).length).map fun x ↦ (x.1, (x.2 : ℤ)) := by
  obtain ⟨successiveIds, nshard, shards, ntotal⟩ := index
  subst hsuc
  cases call with
  | add xs =>
      simp only [ShardCall.shards, IndexShards.addWithIds, Option.isSome_none, Bool.and_false,
        Bool.false_eq_true, if_false, if_true, Bool.true_and, bne_iff_ne, ne_eq, ite_not] at h
      by_cases hzero : ntotal = 0
      · rw [if_pos hzero, Option.some_inj] at h
        exact ⟨xs, rfl, hzero, h.symm⟩
      · rw [if_neg hzero] at h
        cases h
  | addWithIds xs =>
      simp only [ShardCall.shards, IndexShards.addWithIds, Option.isSome_some, Bool.and_true,
        if_true] at h
      cases h

theorem sum_lengths (f : ℕ → List (V × ℤ)) (t : ℕ → ℕ) (m : ℕ) {content : List (V × ℤ)}
    (h : ∑ s ∈ Finset.range m, (↑((f s).map (shift (t s))) : Multiset (V × ℤ)) = ↑content) :
    ((List.range m).map fun s ↦ (f s).length).sum = content.length := by
  have hcard := congrArg Multiset.card (coe_flatMap_range (fun s ↦ (f s).map (shift (t s))) m)
  rw [h, Multiset.coe_card, Multiset.coe_card, List.length_flatMap] at hcard
  simpa using hcard

theorem Distributed.extend_slices (h : Distributed index content) (hsuc : index.successiveIds = false)
    (hnshard : 0 < index.nshard) {new : List (V × ℤ)} (hnew : ∀ x ∈ new, 0 ≤ x.2) :
    Distributed (index.extend (shardSlice index.nshard new)) (content ++ new) := by
  have hzero : ∀ {part} s, (index.extend part).translation s = 0 := fun s ↦ by
    rw [IndexShards.translation, if_neg (by simp [IndexShards.extend, hsuc])]
  have hzero' : ∀ s, index.translation s = 0 := fun s ↦ by
    rw [IndexShards.translation, if_neg (by simp [hsuc])]
  have hshift : (shift 0 : V × ℤ → V × ℤ) = id := by
    funext x
    simp [shift]
  have hparts : ∑ s ∈ Finset.range index.nshard,
      (↑(((index.extend (shardSlice index.nshard new)).shards s).map (shift 0)) :
        Multiset (V × ℤ)) = ↑(content ++ new) := by
    have hold := h.parts
    simp only [hzero', hshift, List.map_id] at hold
    simp only [hshift, List.map_id, IndexShards.extend, ← Multiset.coe_add, Finset.sum_add_distrib]
    rw [hold, ← coe_flatMap_range (shardSlice index.nshard new)]
    exact congrArg (fun l : List (V × ℤ) ↦ (↑content + ↑l : Multiset (V × ℤ)))
      (flatMap_shardSlices new hnshard)
  refine ⟨?_, ?_, fun s hs x hx ↦ ?_⟩
  · exact sum_lengths _ (fun _ ↦ 0) _ hparts
  · simp only [hzero]
    exact hparts
  · rcases List.mem_append.mp hx with hx | hx
    · exact h.nonneg s hs x hx
    · exact hnew x (List.mem_of_mem_drop (List.mem_of_mem_take hx))

/-- The labels of a slice that is numbered from 0 on are those of the vectors, once they are
translated. -/
theorem map_shift_zipIdx (xs : List V) (s n nshard : ℕ) :
    (((slice xs (s * n / nshard) ((s + 1) * n / nshard)).zipIdx 0).map
        fun x ↦ (x.1, (x.2 : ℤ))).map (shift (s * n / nshard)) =
      slice ((xs.zipIdx 0).map fun x ↦ (x.1, (x.2 : ℤ))) (s * n / nshard) ((s + 1) * n / nshard) := by
  have hslice := zipIdx_slice xs 0 (s * n / nshard) ((s + 1) * n / nshard)
  rw [Nat.zero_add, List.zipIdx_eq_map_add] at hslice
  have hmap := congrArg (List.map fun x : V × ℕ ↦ (x.1, (x.2 : ℤ))) hslice
  rw [List.map_map] at hmap
  unfold slice at hmap ⊢
  rw [List.map_take, List.map_drop] at hmap
  rw [← hmap, List.map_map]
  refine List.map_congr_left fun x _ ↦ ?_
  simp only [Function.comp_apply, shift, Nat.cast_add]
  rw [add_comm]

/-- The first vectors, of shards that number them. -/
theorem Distributed.extend_successive (h : Distributed index content)
    (hsuc : index.successiveIds = true) (hnshard : 0 < index.nshard) (hzero : index.ntotal = 0)
    (xs : List V) :
    Distributed (index.extend fun no ↦
      ((slice xs (no * xs.length / index.nshard) ((no + 1) * xs.length / index.nshard)).zipIdx
        (index.shards no).length).map fun x ↦ (x.1, (x.2 : ℤ)))
      (content ++ (xs.zipIdx content.length).map fun x ↦ (x.1, (x.2 : ℤ))) := by
  have hcontent : content = [] := List.eq_nil_of_length_eq_zero (h.total ▸ hzero)
  have hempty : ∀ s < index.nshard, index.shards s = [] := by
    intro s hs
    have hlen := sum_lengths _ _ _ h.parts
    rw [hcontent, List.length_nil, List.sum_eq_zero_iff_forall_eq_nat] at hlen
    exact List.eq_nil_of_length_eq_zero
      (hlen _ (List.mem_map.mpr ⟨s, List.mem_range.mpr hs, rfl⟩))
  subst hcontent
  have hshards : ∀ s < index.nshard, (index.extend fun no ↦
      ((slice xs (no * xs.length / index.nshard) ((no + 1) * xs.length / index.nshard)).zipIdx
        (index.shards no).length).map fun x ↦ (x.1, (x.2 : ℤ))).shards s =
      ((slice xs (s * xs.length / index.nshard) ((s + 1) * xs.length / index.nshard)).zipIdx 0).map
        fun x ↦ (x.1, (x.2 : ℤ)) := by
    intro s hs
    simp only [IndexShards.extend, hempty s hs, List.nil_append, List.length_nil]
  generalize hindex' : (index.extend fun no ↦
      ((slice xs (no * xs.length / index.nshard) ((no + 1) * xs.length / index.nshard)).zipIdx
        (index.shards no).length).map fun x ↦ (x.1, (x.2 : ℤ))) = index' at hshards ⊢
  have hnshard' : index'.nshard = index.nshard := by rw [← hindex']; rfl
  have hsuc' : index'.successiveIds = true := by rw [← hindex']; exact hsuc
  have htranslation : ∀ s ≤ index.nshard, index'.translation s = s * xs.length / index.nshard := by
    intro s hs
    rw [IndexShards.translation, if_pos hsuc', ← sum_length_shardSlices xs hnshard hs]
    refine congrArg List.sum (List.map_congr_left fun t ht ↦ ?_)
    rw [hshards t ((List.mem_range.mp ht).trans_le hs), List.length_map, List.length_zipIdx]
  have hparts : ∑ s ∈ Finset.range index'.nshard,
      (↑((index'.shards s).map (shift (index'.translation s))) : Multiset (V × ℤ)) =
        ↑((xs.zipIdx 0).map fun x ↦ (x.1, (x.2 : ℤ))) := by
    rw [hnshard', ← flatMap_shardSlices ((xs.zipIdx 0).map fun x ↦ (x.1, (x.2 : ℤ))) hnshard,
      coe_flatMap_range]
    refine Finset.sum_congr rfl fun s hs ↦ congrArg _ ?_
    have hs' := Finset.mem_range.mp hs
    rw [hshards s hs', htranslation s hs'.le]
    rw [List.length_map, List.length_zipIdx]
    exact map_shift_zipIdx xs s xs.length index.nshard
  refine ⟨?_, ?_, fun s hs x hx ↦ ?_⟩
  · have hlen := sum_lengths _ _ _ hparts
    rw [List.nil_append, List.length_nil, ← hlen, ← hindex']
    rfl
  · exact hparts
  · rw [hshards s (hnshard' ▸ hs)] at hx
    obtain ⟨y, -, rfl⟩ := List.mem_map.mp hx
    exact Int.natCast_nonneg _

theorem ShardCall.nonneg_labelled {call : ShardCall V} (h : ∀ id ∈ call.ids, 0 ≤ id) (ntotal : ℕ) :
    ∀ x ∈ call.labelled ntotal, 0 ≤ x.2 := by
  intro x hx
  cases call with
  | add xs =>
      obtain ⟨y, -, rfl⟩ := List.mem_map.mp hx
      exact Int.natCast_nonneg _
  | addWithIds xs => exact h x.2 (List.mem_map_of_mem hx)

theorem Distributed.shards (h : Distributed index content) (hnshard : 0 < index.nshard)
    (hids : index.successiveIds = true ∨ ∀ id ∈ call.ids, 0 ≤ id)
    (hcall : call.shards index = some index') :
    Distributed index' (call.single content) ∧ index'.nshard = index.nshard ∧
      index'.successiveIds = index.successiveIds := by
  rw [ShardCall.single_eq]
  cases hsuc : index.successiveIds with
  | false =>
      obtain rfl := ShardCall.shards_of_ids hsuc hcall
      rw [h.total]
      have hids := hids.resolve_left (by rw [hsuc]; exact Bool.false_ne_true)
      exact ⟨h.extend_slices hsuc hnshard (ShardCall.nonneg_labelled hids _), rfl, hsuc⟩
  | true =>
      obtain ⟨xs, rfl, hzero, rfl⟩ := ShardCall.shards_of_successive hsuc hcall
      exact ⟨h.extend_successive hsuc hnshard hzero xs, rfl, hsuc⟩

end Steps

theorem distributed_empty (successiveIds : Bool) (nshard : ℕ) :
    Distributed (⟨successiveIds, nshard, fun _ ↦ [], 0⟩ : IndexShards V) [] where
  total := rfl
  parts := Finset.sum_eq_zero fun _ _ ↦ rfl
  nonneg _ _ _ hx := absurd hx List.not_mem_nil

theorem distributed_run {successiveIds : Bool} {nshard : ℕ} (hnshard : 0 < nshard)
    {calls : List (ShardCall V)} {index : IndexShards V}
    (hids : successiveIds = true ∨ ∀ call ∈ calls, ∀ id ∈ call.ids, 0 ≤ id)
    (h : runShards successiveIds nshard calls = some index) :
    Distributed index (runSingle calls) ∧ index.nshard = nshard ∧
      index.successiveIds = successiveIds := by
  induction calls using List.reverseRecOn generalizing index with
  | nil =>
      obtain rfl := Option.some.inj h
      exact ⟨distributed_empty successiveIds nshard, rfl, rfl⟩
  | append_singleton calls call ih =>
      rw [runShards, Lib.foldlM_concat] at h
      obtain ⟨index', hrun, hcall⟩ := Option.bind_eq_some_iff.mp h
      obtain ⟨hdist, hn, hsuc⟩ :=
        ih (hids.imp_right fun h c hc ↦ h c (List.mem_append_left _ hc)) hrun
      obtain ⟨hdist', hn', hsuc'⟩ := hdist.shards (hn ▸ hnshard)
        (hsuc ▸ hids.imp_right fun h ↦ h call (List.mem_append_right _ List.mem_cons_self)) hcall
      rw [runSingle, List.foldl_append]
      exact ⟨hdist', hn'.trans hn, hsuc'.trans hsuc⟩

end FaissNavix
