import FaissNavix.BinaryHash.Search
import FaissNavix.Lib.Partition
import FaissNavix.Lib.Scatter

/-!
# Searching the flipped buckets

A bucket has the vectors with one hash, in the order in which they were added, and the buckets that are
visited are those whose hash differs from that of the query in at most `nflip` bits.  So what is found is
known, up to the order, for one hash as well as for several; what is made of the distances depends on
whether they are floats.
-/

namespace FaissNavix

open Lib (bitAt weight DefaultMap)
open Lib.DefaultMap (Groups)

/-! ## What is to be found -/

/-- The vectors that batches add, with their ids. -/
def contents {I : Type} (codeSize : ℕ) (id : ℕ → BinaryVectors → ℕ → I)
    (batches : List BinaryVectors) : List (I × List UInt8) :=
  batches.foldl (fun es batch ↦ es ++ (List.range batch.n).map fun i ↦
    (id es.length batch i, Lib.read batch.x (i * codeSize) codeSize)) []

/-- The ids of `IndexBinaryHash`: those that are given, or else numbers. -/
def givenId (ntotal : ℕ) (batch : BinaryVectors) (i : ℕ) : Idx :=
  match batch.xids with
  | some xids => xids.getD i 0
  | none => Int64.ofNat (ntotal + i)

/-- The hash of `b` bits, from bit `ho` on, differs from that of the query in at most `nflip` bits. -/
def NearHash (b nflip ho : ℕ) (q : ℕ → UInt8) (code : List UInt8) : Prop :=
  differing b (fun i ↦ memBit q (ho + i)) (fun i ↦ bitAt code (ho + i)) ≤ nflip

instance (b nflip ho : ℕ) (q : ℕ → UInt8) : DecidablePred (NearHash b nflip ho q) := fun code ↦
  inferInstanceAs (Decidable (differing b _ (fun i ↦ bitAt code (ho + i)) ≤ nflip))

def distanceTo (codeSize : ℕ) (q : ℕ → UInt8) (code : List UInt8) : ℤ :=
  differing (8 * codeSize) (memBit q) (bitAt code)

/-- Query `i`. -/
def queryAt (codeSize : ℕ) (x : ℕ → UInt8) (i : ℕ) : ℕ → UInt8 :=
  fun j ↦ x (i * codeSize + j)

/-- The distances and ids of the vectors in the flipped buckets of `IndexBinaryHash`. -/
def foundByHash (codeSize b nflip : ℕ) (batches : List BinaryVectors) (q : ℕ → UInt8) :
    List (ℤ × ℤ) :=
  ((contents codeSize givenId batches).filter fun e ↦ NearHash b nflip 0 q e.2).map
    fun e ↦ (distanceTo codeSize q e.2, e.1.toInt)

/-- The same for `IndexBinaryMultiHash`: one of the hashes is enough, and the ids are numbers. -/
def foundByHashes (codeSize nhash b nflip : ℕ) (batches : List BinaryVectors) (q : ℕ → UInt8) :
    List (ℤ × ℤ) :=
  ((contents codeSize (fun ntotal _ i ↦ i + ntotal) batches).filter fun e ↦
    ∃ h ∈ List.range nhash, NearHash b nflip (h * b) q e.2).map
      fun e ↦ (distanceTo codeSize q e.2, (e.1 : ℤ))

/-- A search returns, and its rows are as they are to be. -/
def EachRow {α : Type} (n : ℕ) (result : Option (List α)) (P : ℕ → α → Prop) : Prop :=
  ∃ rows, result = some rows ∧ rows.length = n ∧ ∀ i < n, ∀ row, rows[i]? = some row → P i row

/-! ## Hashes -/

variable {codeSize b nflip ho n : ℕ} {q x y : ℕ → UInt8} {code : List UInt8}

/-- `b` bits from bit `ho` on. -/
def hashAt (b ho : ℕ) (x : ℕ → UInt8) : ℕ :=
  loadUint64 x (ho / 8) >>> (ho % 8) &&& 2 ^ b - 1

def inMemory (code : List UInt8) : ℕ → UInt8 :=
  fun j ↦ code.getD j 0

theorem memBit_inMemory (code : List UInt8) (p : ℕ) : memBit (inMemory code) p = bitAt code p :=
  rfl

theorem memBit_shift (x : ℕ → UInt8) (a p : ℕ) :
    memBit (fun j ↦ x (a + j)) p = memBit x (8 * a + p) := by
  unfold memBit
  rw [Nat.mul_add_div (by decide), Nat.mul_add_mod]

theorem testBit_hashAt (hb : ho % 8 + b ≤ 64) (x : ℕ → UInt8) (j : ℕ) :
    (hashAt b ho x).testBit j = (decide (j < b) && memBit x (ho + j)) := by
  have hload := testBit_loadWord 8 x (ho / 8) (ho % 8 + j)
  rw [hashAt, Nat.testBit_and, Nat.testBit_shiftRight, Nat.testBit_two_pow_sub_one]
  by_cases hj : j < b
  · rw [show 8 * (ho / 8) + (ho % 8 + j) = ho + j by omega, decide_eq_true (by omega),
      Bool.true_and] at hload
    rw [decide_eq_true hj, Bool.and_true, Bool.true_and]
    exact hload
  · rw [decide_eq_false hj, Bool.and_false, Bool.false_and]

theorem hashAt_lt (b ho : ℕ) (x : ℕ → UInt8) : hashAt b ho x < 2 ^ b :=
  and_mask_lt _ _

theorem hashAt_read (hb : ho % 8 + b ≤ 64) (hd : ho + b ≤ 8 * codeSize) (x : ℕ → UInt8) (a : ℕ) :
    hashAt b ho (inMemory (Lib.read x a codeSize)) = hashAt b ho fun j ↦ x (a + j) := by
  refine Nat.eq_of_testBit_eq fun j ↦ ?_
  rw [testBit_hashAt hb, testBit_hashAt hb]
  by_cases hj : j < b
  · rw [memBit_inMemory, bitAt_read x a (by omega), memBit_shift]
  · rw [decide_eq_false hj, Bool.false_and, Bool.false_and]

theorem nearHash_iff (hb : ho % 8 + b ≤ 64) (q : ℕ → UInt8) (code : List UInt8) :
    NearHash b nflip ho q code ↔
      weight b (hashAt b ho q ^^^ hashAt b ho (inMemory code)) ≤ nflip := by
  have hweight : weight b (hashAt b ho q ^^^ hashAt b ho (inMemory code)) =
      differing b (fun i ↦ memBit q (ho + i)) fun i ↦ bitAt code (ho + i) := by
    rw [weight_xor]
    refine differing_congr (fun i hi ↦ ?_) fun i hi ↦ ?_
    · rw [testBit_hashAt hb, decide_eq_true hi, Bool.true_and]
    · rw [testBit_hashAt hb, decide_eq_true hi, Bool.true_and, memBit_inMemory]
  rw [hweight]
  exact Iff.rfl

theorem hashAt_shift (b ho : ℕ) (x : ℕ → UInt8) (a : ℕ) :
    loadUint64 x (a + ho / 8) >>> (ho % 8) &&& 2 ^ b - 1 = hashAt b ho fun j ↦ x (a + j) := by
  unfold hashAt loadUint64 Lib.read
  simp only [Nat.add_assoc]

theorem masks_perm {E : Type} {key : E → ℕ} {masks : List ℕ} {qhash : ℕ} (hnodup : masks.Nodup)
    (hmasks : ∀ y, y ∈ masks ↔ y < 2 ^ b ∧ weight b y ≤ nflip) (hq : qhash < 2 ^ b)
    (hkey : ∀ e, key e < 2 ^ b) (es : List E) :
    (masks.flatMap fun x ↦ es.filter fun e ↦ key e = qhash ^^^ x).Perm
      (es.filter fun e ↦ weight b (qhash ^^^ key e) ≤ nflip) := by
  refine Lib.flatMap_filter_perm_filter fun e _ ↦ ?_
  have hcount : (masks.countP fun x ↦ decide (key e = qhash ^^^ x)) = masks.count (qhash ^^^ key e) := by
    refine List.countP_congr fun x _ ↦ ?_
    rw [decide_eq_true_eq, beq_iff_eq]
    constructor
    · intro h
      rw [h, ← Nat.xor_assoc, Nat.xor_self, Nat.zero_xor]
    · rintro rfl
      rw [← Nat.xor_assoc, Nat.xor_self, Nat.zero_xor]
  rw [hcount, hnodup.count]
  refine if_congr ?_ rfl rfl
  rw [hmasks, decide_eq_true_eq, and_iff_right (Nat.xor_lt_two_pow hq (hkey e))]

/-! ## Rows of results -/

/-- For any kind of results, what is found is added, in some order. -/
def Finds (searchOne : ∀ R : Type, (R → ℤ → ℤ → R) → R → Option R) (found : List (ℤ × ℤ)) : Prop :=
  ∃ visited : List (ℤ × ℤ), visited.Perm found ∧ ∀ (R : Type) (add : R → ℤ → ℤ → R) (res : R),
    searchOne R add res = some (visited.foldl (fun res e ↦ add res (floatOfInt e.1) e.2) res)

theorem eachRow_mapM {α : Type} {f : ℕ → Option α} {P : ℕ → α → Prop}
    (h : ∀ i < n, ∃ row, f i = some row ∧ P i row) : EachRow n ((List.range n).mapM f) P := by
  rcases Nat.eq_zero_or_pos n with rfl | hn
  · exact ⟨[], rfl, rfl, fun i hi ↦ absurd hi (Nat.not_lt_zero i)⟩
  have : Nonempty α := ⟨(h 0 hn).choose⟩
  choose! g hg hP using h
  refine ⟨(List.range n).map g, Lib.mapM_eq_some_iff.mpr ?_, ?_, fun i hi row hrow ↦ ?_⟩
  · rw [List.map_map]
    exact List.map_congr_left fun i hi ↦ hg i (List.mem_range.mp hi)
  · rw [List.length_map, List.length_range]
  · rw [List.getElem?_map, List.getElem?_range hi] at hrow
    obtain rfl := Option.some.inj hrow
    exact hP i hi

theorem eachRow_rangeSearchRows {found : ℕ → List (ℤ × ℤ)} {x : ℕ → UInt8} {radius : ℤ}
    {searchOne : ∀ R : Type, (ℕ → UInt8) → (R → ℤ → ℤ → R) → R → Option R}
    (h : ∀ i < n, Finds (fun R ↦ searchOne R (queryAt codeSize x i)) (found i)) :
    EachRow n (rangeSearchRows n codeSize x radius fun q ↦ searchOne _ q) fun i row ↦
      (HasWithin radius (found i) row ↔
        ∀ e ∈ found i, e.1 < radius → floatOfInt e.1 ≠ floatOfInt radius) := by
  refine eachRow_mapM fun i hi ↦ ?_
  obtain ⟨visited, hperm, hvisit⟩ := h i hi
  exact ⟨_, hvisit _ (rangeAdd radius) [], hasWithin_iff hperm⟩

/-- A row of `search` is right exactly if the distances of the nearest vectors are floats. -/
theorem eachRow_searchRows {found : ℕ → List (ℤ × ℤ)} {x : ℕ → UInt8} {k : ℕ} (hk : 0 < k)
    (tab : ℕ → ℤ × ℤ)
    {searchOne : ∀ R : Type, (ℕ → UInt8) → (R → ℤ → ℤ → R) → R → Option R}
    (h : ∀ i < n, Finds (fun R ↦ searchOne R (queryAt codeSize x i)) (found i))
    (hdistance : ∀ i < n, ∀ e ∈ found i, 0 ≤ e.1 ∧ e.1 < intMax) :
    EachRow n (searchRows n codeSize x k tab fun q ↦ searchOne _ q) fun i row ↦
      (∀ e ∈ found i, e.2 ≠ -1) →
        (HasSmallest k ↑((found i).map Prod.fst) row ↔
          ∀ e ∈ found i, ((found i).countP fun e' ↦ e'.1 < e.1) < k → floatOfInt e.1 = e.1) := by
  unfold searchRows
  rw [if_pos hk]
  refine eachRow_mapM fun i hi ↦ ?_
  obtain ⟨visited, hperm, hvisit⟩ := h i hi
  refine ⟨_, congrArg (· >>= _) (hvisit _ (knnAdd k) _), fun hid ↦ ?_⟩
  have hheap : FloatHeap k (heapHeapify CMaxInt k fun j ↦ tab (k * i + j)) := by
    intro e he
    rw [entries_heapHeapify] at he
    exact .inr (congrArg Prod.fst (Multiset.eq_of_mem_replicate he))
  have hadd := foldl_knnAdd hk (fun e he ↦ (hdistance i hi e (hperm.mem_iff.mp he)).1) hheap
  have hsmallest := hasSmallest_results hk (fun j ↦ tab (k * i + j))
    (show ∀ e ∈ visited.map fun e ↦ (floatOfInt e.1, e.2), e.2 ≠ -1 by
      intro e' he'
      obtain ⟨e, he, rfl⟩ := List.mem_map.mp he'
      exact hid e (hperm.mem_iff.mp he))
  have hrow := congrArg (TopK.results CMaxInt) hadd
  have hmap : ((visited.map fun e ↦ (floatOfInt e.1, e.2)).map Prod.fst : Multiset ℤ) =
      (((found i).map Prod.fst : List ℤ) : Multiset ℤ).map floatOfInt := by
    rw [List.map_map, Multiset.map_coe, List.map_map]
    exact Multiset.coe_eq_coe.mpr (hperm.map _)
  rw [← Multiset.filter_coe, hmap] at hsmallest
  change HasSmallest k _ (TopK.results CMaxInt (TopK.addResults CMaxInt
    ⟨k, heapHeapify CMaxInt k _, _⟩ _)) at hsmallest
  rw [hrow] at hsmallest
  have hiff := hasSmallest_rounded_iff (D := ↑((found i).map Prod.fst)) ?_ hsmallest
  · refine hiff.trans ?_
    simp only [Multiset.mem_coe, List.forall_mem_map, Multiset.coe_countP, List.countP_map]
    rfl
  · intro d hd
    obtain ⟨e, he, rfl⟩ := List.mem_map.mp (Multiset.mem_coe.mp hd)
    exact hdistance i hi e he

end FaissNavix

/-!
# What `IndexBinaryHash` finds

After batches each inverted list has the vectors with its hash, one behind the other.
-/

namespace FaissNavix

open Lib (bitAt weight DefaultMap)
open Lib.DefaultMap (Groups)

variable {codeSize b nflip n : ℕ} {q : ℕ → UInt8}

theorem contents_concat {I : Type} (codeSize : ℕ) (id : ℕ → BinaryVectors → ℕ → I)
    (batches : List BinaryVectors) (batch : BinaryVectors) :
    contents codeSize id (batches ++ [batch]) = contents codeSize id batches ++
      (List.range batch.n).map fun i ↦ (id (contents codeSize id batches).length batch i,
        Lib.read batch.x (i * codeSize) codeSize) := by
  unfold contents
  rw [List.foldl_append, List.foldl_cons, List.foldl_nil]

theorem length_of_mem_contents {I : Type} {id : ℕ → BinaryVectors → ℕ → I}
    {batches : List BinaryVectors} :
    ∀ e ∈ contents codeSize id batches, e.2.length = codeSize := by
  induction batches using List.reverseRecOn with
  | nil => exact fun e he ↦ absurd he List.not_mem_nil
  | append_singleton batches batch ih =>
      intro e he
      rw [contents_concat] at he
      rcases List.mem_append.mp he with he | he
      · exact ih e he
      · obtain ⟨i, -, rfl⟩ := List.mem_map.mp he
        exact Lib.length_read _ _ _

theorem distanceTo_bounds (hint : 8 * codeSize < 2 ^ 31) (q : ℕ → UInt8) (code : List UInt8) :
    0 ≤ distanceTo codeSize q code ∧ distanceTo codeSize q code < intMax := by
  have hle := differing_le (8 * codeSize) (memBit q) (bitAt code)
  unfold distanceTo intMax
  omega

theorem hamming_flatten {codes : List (List UInt8)} (hcodes : ∀ code ∈ codes, code.length = codeSize)
    (q : ℕ → UInt8) {i : ℕ} (hi : i < codes.length) :
    (hamming codeSize q fun j ↦ codes.flatten.getD (i * codeSize + j) 0 : ℤ) =
      distanceTo codeSize q (codes.get ⟨i, hi⟩) := by
  rw [hamming_eq, distanceTo]
  refine congrArg Int.ofNat (differing_congr (fun _ _ ↦ rfl) fun p hp ↦ ?_)
  have hbyte : codes.flatten.getD (i * codeSize + p / 8) 0 =
      (codes.get ⟨i, hi⟩).getD (p / 8) 0 := by
    rw [← Lib.drop_take_flatten hcodes hi, List.getD_eq_getElem?_getD, List.getD_eq_getElem?_getD,
      List.getElem?_take_of_lt (by omega), List.getElem?_drop, Nat.mul_comm]
  exact congrArg (fun byte : UInt8 ↦ byte.toNat.testBit (p % 8)) hbyte

namespace IndexBinaryHash

def key (b : ℕ) (e : Idx × List UInt8) : ℕ :=
  hashAt b 0 (inMemory e.2)

/-- The inverted lists have the vectors, each under its hash. -/
structure Stores (idx : IndexBinaryHash) (codeSize b : ℕ) (es : List (Idx × List UInt8)) : Prop where
  codeSize_eq : idx.codeSize = codeSize
  b_eq : idx.b = b
  ntotal_eq : idx.ntotal = es.length
  groups : Groups (key b) (fun il e ↦ il.add e.1 e.2) idx.invlists es

theorem Stores.addWithIds {idx : IndexBinaryHash} {es : List (Idx × List UInt8)}
    (h : idx.Stores codeSize b es) (hb : b ≤ 63) (hd : b ≤ 8 * codeSize) (batch : BinaryVectors) :
    (idx.addWithIds batch).Stores codeSize b (es ++ (List.range batch.n).map fun i ↦
      (givenId es.length batch i, Lib.read batch.x (i * codeSize) codeSize)) := by
  obtain ⟨rfl, rfl, hntotal, hgroups⟩ := h
  refine ⟨rfl, rfl, ?_, ?_⟩
  · rw [List.length_append, List.length_map, List.length_range, ← hntotal]
    rfl
  · have hloop : ∀ n, Groups (key idx.b) (fun il e ↦ il.add e.1 e.2)
        ((List.range n).foldl (idx.addOne batch) idx.invlists)
        (es ++ (List.range n).map fun i ↦
          (givenId es.length batch i, Lib.read batch.x (i * idx.codeSize) idx.codeSize)) := by
      intro n
      induction n with
      | zero =>
          rw [List.range_zero, List.map_nil, List.append_nil]
          exact hgroups
      | succ n ih =>
          have hstep := ih.append
            (givenId es.length batch n, Lib.read batch.x (n * idx.codeSize) idx.codeSize)
          have hkey : key idx.b (givenId es.length batch n,
              Lib.read batch.x (n * idx.codeSize) idx.codeSize) =
              loadUint64 batch.x (n * idx.codeSize) &&& 2 ^ idx.b - 1 := by
            have hshift := hashAt_shift idx.b 0 batch.x (n * idx.codeSize)
            rw [Nat.zero_div, Nat.zero_mod, Nat.shiftRight_zero, Nat.add_zero] at hshift
            rw [key, hashAt_read (by omega) (by omega), hshift]
          rw [hkey, ← hntotal] at hstep
          rw [List.range_succ, List.foldl_append, List.map_append, List.map_singleton,
            ← List.append_assoc, ← hntotal]
          exact hstep
    exact hloop batch.n

theorem stores_contents (hb : b ≤ 63) (hd : b ≤ 8 * codeSize) (batches : List BinaryVectors) :
    (batches.foldl addWithIds (new codeSize b)).Stores codeSize b (contents codeSize givenId batches) := by
  induction batches using List.reverseRecOn with
  | nil => exact ⟨rfl, rfl, rfl, DefaultMap.groups_nil _ _⟩
  | append_singleton batches batch ih =>
      rw [List.foldl_append, contents_concat]
      exact ih.addWithIds hb hd batch

theorem foldl_add (es : List (Idx × List UInt8)) (il : BinaryInvertedList) :
    es.foldl (fun il e ↦ il.add e.1 e.2) il =
      ⟨il.ids ++ es.map Prod.fst, il.vecs ++ (es.map Prod.snd).flatten⟩ := by
  induction es generalizing il with
  | nil =>
      rw [List.map_nil, List.map_nil, List.flatten_nil, List.append_nil, List.append_nil]
      rfl
  | cons e es ih =>
      rw [List.foldl_cons, ih, BinaryInvertedList.add, List.map_cons, List.map_cons, List.flatten_cons,
        List.append_assoc, List.append_assoc]
      rfl

/-- Scanning the list of a hash is going through the vectors with the hash. -/
theorem scanList_foldl {R : Type} (add : R → ℤ → ℤ → R) (res : R) {es : List (Idx × List UInt8)}
    (hes : ∀ e ∈ es, e.2.length = codeSize) :
    scanList codeSize q add (es.foldl (fun il e ↦ il.add e.1 e.2) default) res =
      (es.map fun e ↦ (distanceTo codeSize q e.2, e.1.toInt)).foldl
        (fun res e ↦ add res (floatOfInt e.1) e.2) res := by
  have hlist : es.foldl (fun (il : BinaryInvertedList) e ↦ il.add e.1 e.2) default =
      ⟨es.map Prod.fst, (es.map Prod.snd).flatten⟩ := foldl_add es default
  have hitems : (es.map fun e ↦ (distanceTo codeSize q e.2, e.1.toInt)) =
      (List.range es.length).map fun i ↦
        ((hamming codeSize q fun j ↦ (es.map Prod.snd).flatten.getD (i * codeSize + j) 0 : ℤ),
          ((es.map Prod.fst).getD i 0).toInt) := by
    refine List.ext_getElem (by rw [List.length_map, List.length_map, List.length_range]) fun i hi _ ↦ ?_
    rw [List.length_map] at hi
    have hcodes : ∀ code ∈ es.map Prod.snd, code.length = codeSize := by
      intro code hcode
      obtain ⟨e, he, rfl⟩ := List.mem_map.mp hcode
      exact hes e he
    have hcode := hamming_flatten hcodes q (show i < (es.map Prod.snd).length by rwa [List.length_map])
    rw [List.getElem_map, List.getElem_map, List.getElem_range, hcode, List.get_eq_getElem,
      List.getElem_map, List.getD_eq_getElem _ _ (by rwa [List.length_map]), List.getElem_map]
  rw [hlist, scanList, hitems, List.foldl_map, List.length_map]

/-- Searching finds the vectors in the flipped buckets. -/
theorem Stores.finds {idx : IndexBinaryHash} {es : List (Idx × List UInt8)}
    (h : idx.Stores codeSize b es) (hes : ∀ e ∈ es, e.2.length = codeSize) (hflip : nflip ≤ b)
    (hb : b ≤ 63) :
    Finds (fun _ add res ↦ idx.searchSingleQuery nflip q add res)
      ((es.filter fun e ↦ NearHash b nflip 0 q e.2).map
        fun e ↦ (distanceTo codeSize q e.2, e.1.toInt)) := by
  obtain ⟨rfl, rfl, -, hgroups⟩ := h
  obtain ⟨masks, hmasks, hnodup, hmem⟩ := flips_spec hb hflip
  have hqhash : loadUint64 q 0 &&& 2 ^ idx.b - 1 = hashAt idx.b 0 q := by
    rw [hashAt, Nat.zero_div, Nat.zero_mod, Nat.shiftRight_zero]
  refine ⟨(masks.flatMap fun x ↦ es.filter fun e ↦ key idx.b e = hashAt idx.b 0 q ^^^ x).map
    fun e ↦ (distanceTo idx.codeSize q e.2, e.1.toInt), ?_, fun R add res ↦ ?_⟩
  · refine List.Perm.map _ ((masks_perm hnodup hmem (hashAt_lt _ _ _)
      (fun e ↦ hashAt_lt _ _ _) es).trans (List.Perm.of_eq (List.filter_congr fun e _ ↦ ?_)))
    exact decide_eq_decide.mpr (nearHash_iff (by omega) q e.2).symm
  · unfold searchSingleQuery
    rw [hqhash, hmasks, List.map_flatMap, List.foldl_flatMap]
    refine congrArg (fun f ↦ some (masks.foldl f res)) (funext fun res ↦ funext fun x ↦ ?_)
    have hscan := @scanList_foldl idx.codeSize q R add res
      (es.filter fun e ↦ key idx.b e = hashAt idx.b 0 q ^^^ x) fun e he ↦
        hes e (List.mem_of_mem_filter he)
    rcases hgroups.lookup_cases (hashAt idx.b 0 q ^^^ x) with ⟨hlookup, hempty⟩ | hlookup
    · rw [hlookup, hempty]
      rfl
    · rw [hlookup]
      exact hscan

end IndexBinaryHash

end FaissNavix
