import FaissNavix.Shards.Distribution

/-!
# Searches of sharded indexes

A search of an index with shards is that of a single index with all vectors, if the metric is L2 or a
similarity metric, and the labels are not negative.  For any other metric the results are merged as those of
a similarity metric.
-/

namespace FaissNavix

open Lib

variable {Q V : Type} {metricType : MetricType} {dis : Q → V → F32}

/-! ## The results of the shards -/

/-- What `translate_labels` does to a result. -/
def translated (translation : ℕ) (x : F32 × ℤ) : F32 × ℤ :=
  if x.2 < 0 then x else (x.1, x.2 + translation)

theorem translateLabels_eq (translation : ℕ) (results : List (F32 × ℤ)) :
    IndexShards.translateLabels translation results = results.map (translated translation) := by
  unfold IndexShards.translateLabels
  split
  · rename_i h0
    have hid : translated translation = id := by
      funext x
      unfold translated
      rw [h0, Nat.cast_zero, add_zero]
      split <;> rfl
    rw [hid, List.map_id]
  · rfl

/-- The results of a shard for a query, where `merge_knn_results` looks for them. -/
def shardRow (index : IndexShards V) (shard : ℕ → BruteForce metricType dis) (n : ℕ) (x : ℕ → Q) (k i s : ℕ) :
    ℕ → F32 × ℤ :=
  fun p ↦ index.searchShards shard n x k (i * k + (n * k * s + p))

section Rows

variable {index : IndexShards V} {shard : ℕ → BruteForce metricType dis} {n k i s : ℕ} {x : ℕ → Q}

theorem map_shardRow (hs : s < index.nshard) (hi : i < n) :
    (List.range k).map (shardRow index shard n x k i s) =
      (Lib.read ((shard s).search (index.shards s) n x k) (i * k) k).map
        (translated (index.translation s)) := by
  have hle : i * k + k ≤ n * k := by
    rw [← Nat.succ_mul]
    exact Nat.mul_le_mul_right k hi
  have hblock : Lib.read (index.searchShards shard n x k) (s * (n * k)) (n * k) =
      (Lib.read ((shard s).search (index.shards s) n x k) 0 (n * k)).map
        (translated (index.translation s)) := by
    rw [← translateLabels_eq]
    exact read_foldl_write (fun no _ ↦ by
      rw [translateLabels_eq, List.length_map, length_read]) hs
  have hrow := drop_take_read (index.searchShards shard n x k) (o := s * (n * k)) hle
  rw [hblock, ← List.map_drop, ← List.map_take, drop_take_read _ hle, Nat.zero_add] at hrow
  rw [hrow]
  unfold Lib.read
  refine List.map_congr_left fun p _ ↦ ?_
  unfold shardRow
  exact congrArg _ (by rw [Nat.mul_comm s]; omega)

/-- The values of the results of a shard compare. -/
theorem comparable_shardRow (hs : s < index.nshard) (hi : i < n) {p : ℕ} (hp : p < k) :
    (shardRow index shard n x k i s p).1.Comparable := by
  have hmem : shardRow index shard n x k i s p ∈
      (Lib.read ((shard s).search (index.shards s) n x k) (i * k) k).map
        (translated (index.translation s)) := by
    rw [← map_shardRow hs hi]
    exact List.mem_map.mpr ⟨p, List.mem_range.mpr hp, rfl⟩
  obtain ⟨y, hy, hxy⟩ := List.mem_map.mp hmem
  have hvalue : (shardRow index shard n x k i s p).1 = y.1 := by
    rw [← hxy, translated]
    split <;> rfl
  rw [hvalue]
  obtain ⟨L, hL, -, hrow⟩ := (shard s).exact (index.shards s) n x k i hi
  rw [hrow] at hy
  rcases List.mem_append.mp hy with hy | hy
  · exact comparable_of_mem_candidates (Multiset.mem_of_le hL.sub (Multiset.mem_coe.mpr hy))
  · rw [(List.mem_replicate.mp hy).2]
    exact metricType.comparable_worst

/-- If no label is negative, then the results of a shard that are merged are its best ones. -/
theorem resultsLeft_shardRow (hs : s < index.nshard) (hi : i < n)
    (hnonneg : ∀ y ∈ index.shards s, 0 ≤ y.2) :
    KSmallest (fun y : F32 × ℤ ↦ metricType.cost y.1) k
        ↑(candidates metricType
          (scores (dis (x i)) ((index.shards s).map (shift (index.translation s)))))
        ↑(resultsLeft k (shardRow index shard n x k i s) 0) ∧
      (resultsLeft k (shardRow index shard n x k i s) 0).Pairwise
        fun y z ↦ metricType.cost y.1 ≤ metricType.cost z.1 := by
  obtain ⟨L, hL, hsorted, hrow⟩ := (shard s).exact (index.shards s) n x k i hi
  have hlabels : ∀ y ∈ L, 0 ≤ y.2 := by
    intro y hy
    have hmem := Multiset.mem_of_le hL.sub (Multiset.mem_coe.mpr hy)
    obtain ⟨z, hz, rfl⟩ := List.mem_map.mp (List.mem_filter.mp hmem).1
    exact hnonneg z hz
  have hmoved : L.map (translated (index.translation s)) =
      L.map fun y ↦ (y.1, y.2 + (index.translation s : ℤ)) :=
    List.map_congr_left fun y hy ↦ if_neg (not_lt.mpr (hlabels y hy))
  have hleft : resultsLeft k (shardRow index shard n x k i s) 0 =
      L.map fun y ↦ (y.1, y.2 + (index.translation s : ℤ)) := by
    rw [resultsLeft, Nat.sub_zero, ← List.range_eq_range', map_shardRow hs hi, hrow, List.map_append,
      hmoved, List.map_replicate, List.takeWhile_append_of_pos, List.takeWhile_replicate,
      if_neg (by simp [translated]), List.append_nil]
    intro y hy
    obtain ⟨z, hz, rfl⟩ := List.mem_map.mp hy
    have hz' := hlabels z hz
    exact decide_eq_true (by dsimp only; omega)
  rw [hleft]
  constructor
  · have hcand : candidates metricType
          (scores (dis (x i)) ((index.shards s).map (shift (index.translation s)))) =
        (candidates metricType (scores (dis (x i)) (index.shards s))).map
          fun y ↦ (y.1, y.2 + (index.translation s : ℤ)) := by
      unfold candidates scores
      rw [List.map_map, List.filter_map, List.filter_map, List.map_map]
      rfl
    rw [hcand, ← Multiset.map_coe, ← Multiset.map_coe]
    exact hL.map fun y _ ↦ rfl
  · exact List.pairwise_map.mpr hsorted

end Rows

/-! ## The merged results -/

def mergeOrder (metricType : MetricType) : KeyValueOrder F32 :=
  if metricType = .l2 then CMin else CMax

/-- `Crev` of that order, whose neutral value rows are filled up with. -/
def mergeReverse (metricType : MetricType) : KeyValueOrder F32 :=
  if metricType = .l2 then CMax else CMin

/-- What results are merged by, the smallest first. -/
def mergeWeight (metricType : MetricType) (d : F32) : ℤ :=
  if metricType = .l2 then d.key else -d.key

theorem mergeOrder_keyed (metricType : MetricType) :
    (mergeOrder metricType).Keyed (fun d ↦ -mergeWeight metricType d) F32.Comparable := by
  unfold mergeOrder mergeWeight
  split
  · exact CMin_keyed
  · simpa only [neg_neg] using CMax_keyed

section Searches

variable {index : IndexShards V} {shard : ℕ → BruteForce metricType dis} {n k : ℕ} {x : ℕ → Q}
  {tab out : ℕ → F32 × ℤ}

theorem search_rows (hk : 1 ≤ k) (h : index.search shard n x k tab = some out) {i : ℕ} (hi : i < n) :
    ∃ L, Merges (fun y : F32 × ℤ ↦ mergeWeight metricType y.1) k
        (fun s ↦ if s < index.nshard then resultsLeft k (shardRow index shard n x k i s) 0 else []) L ∧
      Lib.read out (i * k) k =
        L ++ List.replicate (k - L.length) ((mergeReverse metricType).neutral, -1) := by
  have hout : mergeKnnResults (mergeOrder metricType) (mergeReverse metricType) k n index.nshard
      (index.searchShards shard n x k) tab = out := by
    unfold IndexShards.search at h
    rw [if_neg (by omega)] at h
    split at h
    · cases h
    · unfold mergeOrder mergeReverse
      by_cases hl2 : metricType = .l2
      · rw [if_pos hl2] at h ⊢
        rw [if_pos hl2]
        exact Option.some.inj h
      · rw [if_neg hl2] at h ⊢
        rw [if_neg hl2]
        exact Option.some.inj h
  rw [← hout, read_mergeKnnResults _ _ _ _ hk hi]
  exact mergeRow_merges (mergeOrder_keyed metricType) hk
    (fun s hs p hp ↦ comparable_shardRow hs hi hp) _ _

theorem nonneg_of_mem_resultsLeft {row : ℕ → F32 × ℤ} {p : ℕ} {y : F32 × ℤ}
    (hy : y ∈ resultsLeft k row p) : 0 ≤ y.2 :=
  of_decide_eq_true (p := 0 ≤ y.2) (List.mem_takeWhile_imp (p := fun y : F32 × ℤ ↦ decide (0 ≤ y.2)) hy)

def MergesRightly (metricType : MetricType) : Prop :=
  metricType = .l2 ∨ metricType.isSimilarity = true

theorem mergeWeight_eq (h : MergesRightly metricType) (d : F32) :
    mergeWeight metricType d = metricType.cost d := by
  unfold mergeWeight MetricType.cost
  rcases h with rfl | h
  · rfl
  · rw [if_pos h, if_neg]
    rintro rfl
    cases h

theorem mergeReverse_neutral_eq_iff (metricType : MetricType) :
    (mergeReverse metricType).neutral = metricType.worst ↔ MergesRightly metricType := by
  unfold MergesRightly
  cases metricType <;> decide

/-- The answers of the index with shards are answers of a single index, with the same values. -/
def AnswersAs (index : IndexShards V) (content : List (V × ℤ)) (shard : ℕ → BruteForce metricType dis)
    (single : BruteForce metricType dis) (n : ℕ) (x : ℕ → Q) (k : ℕ) (tab : ℕ → F32 × ℤ) : Prop :=
  ∃ out, index.search shard n x k tab = some out ∧ ∀ i < n,
    BestRow metricType k (scores (dis (x i)) content) (Lib.read out (i * k) k) ∧
    List.Forall₂ (fun y z ↦ y.1.feq z.1 = true) (Lib.read out (i * k) k)
      (Lib.read (single.search content n x k) (i * k) k)

theorem sum_candidates {content : List (V × ℤ)} (h : Distributed index content) (q : Q) :
    ∑ s ∈ Finset.range index.nshard, (↑(candidates metricType
      (scores (dis q) ((index.shards s).map (shift (index.translation s))))) : Multiset (F32 × ℤ)) =
        ↑(candidates metricType (scores (dis q) content)) := by
  have hperm : ((List.range index.nshard).flatMap fun s ↦
      (index.shards s).map (shift (index.translation s))).Perm content :=
    Multiset.coe_eq_coe.mp ((coe_flatMap_range _ _).trans h.parts)
  have hscored := (hperm.map fun y ↦ (dis q y.1, y.2)).filter fun y ↦ metricType.better y.1
  rw [List.map_flatMap, List.filter_flatMap] at hscored
  rw [← coe_flatMap_range]
  exact Multiset.coe_eq_coe.mpr hscored

/-- A search of shards among which the vectors of the single index are distributed. -/
theorem answersAs_of_distributed {content : List (V × ℤ)} (h : Distributed index content)
    (hnshard : 0 < index.nshard) (hmetric : MergesRightly metricType)
    (single : BruteForce metricType dis) (hk : 1 ≤ k) :
    AnswersAs index content shard single n x k tab := by
  obtain ⟨out, hout⟩ : ∃ out, index.search shard n x k tab = some out := by
    unfold IndexShards.search
    rw [if_neg (by omega), if_neg (by simp; omega)]
    split
    · exact ⟨_, rfl⟩
    · exact ⟨_, rfl⟩
  refine ⟨out, hout, fun i hi ↦ ?_⟩
  have hbest : BestRow metricType k (scores (dis (x i)) content) (Lib.read out (i * k) k) := by
    obtain ⟨L, hL, hrow⟩ := search_rows hk hout hi
    have hcost : (fun y : F32 × ℤ ↦ mergeWeight metricType y.1) = fun y ↦ metricType.cost y.1 := by
      funext y
      exact mergeWeight_eq hmetric y.1
    rw [hcost] at hL
    rw [(mergeReverse_neutral_eq_iff metricType).mpr hmetric] at hrow
    have hruns := fun (s : ℕ) (hs : s < index.nshard) ↦
      @resultsLeft_shardRow _ _ metricType dis index shard n k i s x hs hi (h.nonneg s hs)
    obtain ⟨hsmall, hsorted⟩ := hL.kSmallest
      (fun s (hs : s ∉ Finset.range index.nshard) ↦ if_neg (by rwa [Finset.mem_range] at hs)) fun s ↦ by
        split
        · exact (hruns s ‹_›).2
        · exact List.Pairwise.nil
    refine ⟨L, ?_, hsorted, hrow⟩
    rw [← sum_candidates h, ← zero_add (∑ s ∈ Finset.range index.nshard, _)]
    rw [← zero_add (∑ s ∈ Finset.range index.nshard, _)] at hsmall
    refine hsmall.sum_smallest fun s hs ↦ ?_
    rw [if_pos (Finset.mem_range.mp hs)]
    exact (hruns s (Finset.mem_range.mp hs)).1
  exact ⟨hbest, hbest.feq (single.exact content n x k i hi)⟩

/-! ## Which indexes answer as a single one -/

/-- `1.0f` -/
def F32.one : F32 := ⟨0x3f800000#32⟩

theorem better_one (metricType : MetricType) : metricType.better F32.one = true := by
  cases metricType <;> decide

/-- An answer for two results of an index with one vector. -/
theorem AnswersAs.of_single_vector {v : V} {id : ℤ} {q : Q} {single : BruteForce metricType dis}
    (hdis : dis q v = F32.one)
    (h : AnswersAs index [(v, id)] shard single 1 (fun _ ↦ q) 2 tab) :
    0 < index.nshard ∧ MergesRightly metricType ∧ 0 ≤ id := by
  obtain ⟨out, hout, hrows⟩ := h
  obtain ⟨L, hL, hrow⟩ := search_rows (by decide) hout (i := 0) (by decide)
  obtain ⟨⟨B, hB, -, hbest⟩, -⟩ := hrows 0 (by decide)
  -- the right answer
  have hcand : candidates metricType (scores (dis q) [(v, id)]) = [(F32.one, id)] := by
    unfold candidates scores
    rw [List.map_singleton, hdis, List.filter_cons, if_pos (better_one metricType), List.filter_nil]
  rw [hcand] at hB
  have hBeq : B = [(F32.one, id)] := by
    have hcoe := hB.eq_of_card_le (by rw [Multiset.coe_card, List.length_singleton]; decide)
    exact List.perm_singleton.mp (Multiset.coe_eq_coe.mp hcoe)
  rw [hrow, hBeq] at hbest
  have hnonneg : ∀ y ∈ L, 0 < index.nshard ∧ 0 ≤ y.2 := by
    intro y hy
    have hmem := Multiset.mem_of_le (hL.le_sum (s := Finset.range index.nshard)
      fun s hs ↦ if_neg (by rwa [Finset.mem_range] at hs)) (Multiset.mem_coe.mpr hy)
    obtain ⟨s, hs, hys⟩ := Multiset.mem_sum.mp hmem
    have hs' := Finset.mem_range.mp hs
    rw [if_pos hs'] at hys
    exact ⟨by omega, nonneg_of_mem_resultsLeft hys⟩
  cases L with
  | nil =>
      have hfill : (mergeReverse metricType).neutral = F32.one :=
        congrArg Prod.fst (List.cons.inj hbest).1
      cases metricType <;> exact absurd hfill (by decide)
  | cons y L =>
      obtain ⟨hhead, htail⟩ := List.cons.inj hbest
      obtain ⟨hnshard, hy⟩ := hnonneg y List.mem_cons_self
      rw [hhead] at hy
      refine ⟨hnshard, ?_, hy⟩
      cases L with
      | nil =>
          have hfill : (mergeReverse metricType).neutral = metricType.worst :=
            congrArg Prod.fst (List.cons.inj htail).1
          exact (mergeReverse_neutral_eq_iff metricType).mp hfill
      | cons z L =>
          have hz : z.2 = -1 := congrArg Prod.snd (List.cons.inj htail).1
          have hz' := (hnonneg z (List.mem_cons_of_mem _ List.mem_cons_self)).2
          omega

end Searches

/-- Sharded indexes answer as single ones, whatever was added with ids from a set. -/
def ShardsAsSingle (Q V : Type) (metricType : MetricType) (nshard : ℕ) (successiveIds : Bool)
    (ids : Set ℤ) : Prop :=
  ∀ (dis : Q → V → F32) (shard : ℕ → BruteForce metricType dis) (single : BruteForce metricType dis)
    (calls : List (ShardCall V)) (index : IndexShards V),
    (∀ call ∈ calls, ∀ id ∈ call.ids, id ∈ ids) → runShards successiveIds nshard calls = some index →
    ∀ (n : ℕ) (x : ℕ → Q) (k : ℕ) (tab : ℕ → F32 × ℤ), 1 ≤ k →
      AnswersAs index (runSingle calls) shard single n x k tab

/-- They do exactly if there is a shard, the metric is L2 or a similarity metric, and no id is
negative. -/
theorem shards_as_single_iff (Q V : Type) [Inhabited Q] [Inhabited V] (metricType : MetricType)
    (nshard : ℕ) (successiveIds : Bool) (ids : Set ℤ) :
    ShardsAsSingle Q V metricType nshard successiveIds ids ↔
      0 < nshard ∧ MergesRightly metricType ∧ (successiveIds = true ∨ ∀ id ∈ ids, 0 ≤ id) := by
  constructor
  · intro h
    have hone := fun calls index ↦ h (fun _ _ ↦ F32.one) (fun _ ↦ .sorting metricType _)
      (.sorting metricType _) calls index
    obtain ⟨index, hindex, hn⟩ : ∃ index, runShards successiveIds nshard
        [.add [(default : V)]] = some index ∧ index.nshard = nshard := by
      cases successiveIds <;> exact ⟨_, rfl, rfl⟩
    have hadd := hone _ index (by simp [ShardCall.ids]) hindex 1 (fun _ ↦ default) 2
      (fun _ ↦ (F32.one, 0)) (by decide)
    obtain ⟨hnshard, hmetric, -⟩ := AnswersAs.of_single_vector rfl hadd
    refine ⟨hn ▸ hnshard, hmetric, ?_⟩
    cases successiveIds with
    | true => exact .inl rfl
    | false =>
        refine .inr fun id hid ↦ ?_
        have hcall := hone [.addWithIds [((default : V), id)]] _
          (by simpa [ShardCall.ids] using hid) rfl 1 (fun _ ↦ default) 2 (fun _ ↦ (F32.one, 0))
          (by decide)
        exact (AnswersAs.of_single_vector rfl hcall).2.2
  · rintro ⟨hnshard, hmetric, hids⟩ dis shard single calls index hcalls hrun n x k tab hk
    obtain ⟨hdist, hn, -⟩ := distributed_run hnshard
      (hids.imp_right fun h call hcall id hid ↦ h id (hcalls call hcall id hid)) hrun
    exact answersAs_of_distributed hdist (hn ▸ hnshard) hmetric single hk

/-- Distances 1 and 2. -/
def twoDistances (_ : Unit) (v : Bool) : F32 := if v then ⟨0x40000000#32⟩ else F32.one

/-- Two shards of an index for L1 distances, with a vector each: of the two distances the larger one is
returned. -/
theorem shards_as_single_fails : ¬ ShardsAsSingle Unit Bool .l1 2 false Set.univ := by
  intro h
  have hsharded : ((runShards false 2 [ShardCall.add [false, true]]).bind fun index ↦
      index.search (fun _ ↦ BruteForce.sorting .l1 twoDistances) 1 (fun _ ↦ ()) 1
        (fun _ ↦ (F32.one, 0))).map (· 0) = some (⟨0x40000000#32⟩, 1) := by
    decide +kernel
  have hsingle : (BruteForce.sorting .l1 twoDistances).search
      (runSingle [ShardCall.add [false, true]]) 1 (fun _ ↦ ()) 1 0 = (F32.one, 0) := by
    decide +kernel
  cases hrun : runShards false 2 [ShardCall.add [false, true]] with
  | none =>
      rw [hrun] at hsharded
      cases hsharded
  | some index =>
      obtain ⟨out, hout, hrows⟩ := h twoDistances (fun _ ↦ .sorting .l1 _) (.sorting .l1 _)
        [.add [false, true]] index (fun _ _ _ _ ↦ trivial) hrun 1 (fun _ ↦ ()) 1
        (fun _ ↦ (F32.one, 0)) (by decide)
      rw [hrun, Option.bind_some, hout] at hsharded
      have hvalue : out 0 = (⟨0x40000000#32⟩, 1) := Option.some.inj hsharded
      have hfeq := (hrows 0 (by decide)).2
      have hcells : (out 0).1.feq ((BruteForce.sorting .l1 twoDistances).search
          (runSingle [ShardCall.add [false, true]]) 1 (fun _ ↦ ()) 1 0).1 = true :=
        (List.forall₂_cons.mp hfeq).1
      rw [hvalue, hsingle] at hcells
      exact absurd hcells (by decide)

end FaissNavix
