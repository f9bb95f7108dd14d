import FaissNavix.BinaryHash.OneHash

/-!
# What `IndexBinaryMultiHash` finds

The storage has the vectors one behind the other, and each map has their numbers under one of the hashes.
The numbers that searching finds in the maps are put into a set, so each vector is verified once.
-/

namespace FaissNavix

open Lib (bitAt weight DefaultMap)
open Lib.DefaultMap (Groups)

variable {codeSize nhash b nflip n : ℕ} {q : ℕ → UInt8}

theorem read_eq_flatten (x : ℕ → UInt8) (codeSize n : ℕ) :
    Lib.read x 0 (n * codeSize) =
      ((List.range n).map fun i ↦ Lib.read x (i * codeSize) codeSize).flatten := by
  induction n with
  | zero =>
      rw [Nat.zero_mul]
      rfl
  | succ n ih =>
      rw [Nat.succ_mul, Lib.read_add, ih, List.range_succ, List.map_append, List.flatten_append,
        List.map_singleton, List.flatten_singleton, Nat.zero_add]

namespace StoredMultiHash

/-- The hash under which a vector is stored in map `h`. -/
def key (b h : ℕ) (e : ℕ × List UInt8) : ℕ :=
  hashAt b (h * b) (inMemory e.2)

/-- The storage and the maps are in step. -/
structure Synced (idx : StoredMultiHash) (codeSize nhash b nflip : ℕ) (es : List (ℕ × List UInt8)) :
    Prop where
  codeSize_eq : idx.codeSize = codeSize
  b_eq : idx.b = b
  nflip_eq : idx.nflip = nflip
  ntotal_eq : idx.ntotal = es.length
  storage_eq : idx.storage = ⟨(es.map Prod.snd).flatten, es.length⟩
  length_maps : idx.maps.length = nhash
  groups : ∀ (h : ℕ) (map : DefaultMap (List ℕ)), idx.maps[h]? = some map →
    Groups (key b h) (fun v e ↦ v ++ [e.1]) map es
  numbers : es.map Prod.fst = List.range es.length

theorem synced_new (codeSize nhash b nflip : ℕ) :
    (new codeSize nhash b nflip).Synced codeSize nhash b nflip [] where
  codeSize_eq := rfl
  b_eq := rfl
  nflip_eq := rfl
  ntotal_eq := rfl
  storage_eq := rfl
  length_maps := List.length_replicate
  groups h map hmap := by
    obtain rfl := List.eq_of_mem_replicate (List.mem_of_getElem? hmap)
    exact DefaultMap.groups_nil _ _
  numbers := rfl

theorem Synced.add {idx : StoredMultiHash} {es : List (ℕ × List UInt8)}
    (h : idx.Synced codeSize nhash b nflip es) (hb : b ≤ 57) (hd : nhash * b ≤ 8 * codeSize)
    (batch : BinaryVectors) :
    (idx.add batch).Synced codeSize nhash b nflip (es ++ (List.range batch.n).map fun i ↦
      (i + es.length, Lib.read batch.x (i * codeSize) codeSize)) := by
  obtain ⟨rfl, rfl, rfl, hntotal, hstorage, rfl, hgroups, hnumbers⟩ := h
  have hloop : ∀ n, ((List.range n).foldl (fun maps i ↦
        maps.mapIdx fun h map ↦ idx.addOne batch.x h map i) idx.maps).length = idx.maps.length ∧
      ∀ (h : ℕ) (map : DefaultMap (List ℕ)), ((List.range n).foldl (fun maps i ↦
        maps.mapIdx fun h map ↦ idx.addOne batch.x h map i) idx.maps)[h]? = some map →
      Groups (key idx.b h) (fun v e ↦ v ++ [e.1]) map (es ++ (List.range n).map fun i ↦
        (i + es.length, Lib.read batch.x (i * idx.codeSize) idx.codeSize)) := by
    intro n
    induction n with
    | zero =>
        rw [List.range_zero, List.map_nil, List.append_nil]
        exact ⟨rfl, hgroups⟩
    | succ n ih =>
        rw [List.range_succ, List.foldl_append, List.foldl_cons, List.foldl_nil, List.map_append,
          List.map_singleton, ← List.append_assoc]
        obtain ⟨hlength, ih⟩ := ih
        refine ⟨by rw [List.length_mapIdx, hlength], fun h map hmap ↦ ?_⟩
        rw [List.getElem?_mapIdx] at hmap
        obtain ⟨map, hold, rfl⟩ := Option.map_eq_some_iff.mp hmap
        have hstep := (ih h map hold).append
          (n + es.length, Lib.read batch.x (n * idx.codeSize) idx.codeSize)
        have hlt : h < idx.maps.length := hlength ▸ (List.getElem?_eq_some_iff.mp hold).1
        have hroom : h * idx.b + idx.b ≤ 8 * idx.codeSize := by
          rw [← Nat.succ_mul]
          exact (Nat.mul_le_mul_right _ hlt).trans hd
        have hkey : key idx.b h (n + es.length, Lib.read batch.x (n * idx.codeSize) idx.codeSize) =
            loadUint64 batch.x (n * idx.codeSize + h * idx.b / 8) >>> (h * idx.b % 8) &&&
              2 ^ idx.b - 1 := by
          rw [key, hashAt_read (by omega) hroom, hashAt_shift]
        rw [hkey, ← hntotal] at hstep
        rw [IndexBinaryMultiHash.addOne, ← hntotal]
        exact hstep
  obtain ⟨hlength, hmaps⟩ := hloop batch.n
  have hsize : (es ++ (List.range batch.n).map fun i ↦ (i + es.length,
      Lib.read batch.x (i * idx.codeSize) idx.codeSize)).length = es.length + batch.n := by
    rw [List.length_append, List.length_map, List.length_range]
  refine ⟨rfl, rfl, rfl, ?_, ?_, hlength, hmaps, ?_⟩
  · rw [hsize, ← hntotal]
    rfl
  · rw [hsize, List.map_append, List.flatten_append, List.map_map]
    change IndexBinaryFlat.add idx.storage idx.codeSize batch = _
    rw [hstorage, IndexBinaryFlat.add, read_eq_flatten]
    rfl
  · rw [hsize, List.map_append, hnumbers, List.map_map, List.range_add]
    refine congrArg _ (List.map_congr_left fun i _ ↦ ?_)
    exact Nat.add_comm _ _

theorem synced_contents (hb : b ≤ 57) (hd : nhash * b ≤ 8 * codeSize) (nflip : ℕ)
    (batches : List BinaryVectors) :
    (batches.foldl add (new codeSize nhash b nflip)).Synced codeSize nhash b nflip
      (contents codeSize (fun ntotal _ i ↦ i + ntotal) batches) := by
  induction batches using List.reverseRecOn with
  | nil => exact synced_new codeSize nhash b nflip
  | append_singleton batches batch ih =>
      rw [List.foldl_append, contents_concat]
      exact ih.add hb hd batch

variable {idx : StoredMultiHash} {es : List (ℕ × List UInt8)}

theorem getD_of_mem (hnumbers : es.map Prod.fst = List.range es.length) {e : ℕ × List UInt8}
    (he : e ∈ es) : e.1 < es.length ∧ (es.map Prod.snd).getD e.1 [] = e.2 := by
  obtain ⟨j, hj, rfl⟩ := List.getElem_of_mem he
  have hfst : es[j].1 = j := by
    have hget := congrArg (fun l : List ℕ ↦ l[j]?) hnumbers
    simp only [List.getElem?_map, List.getElem?_eq_getElem hj, List.getElem?_range hj,
      Option.map_some, Option.some.injEq] at hget
    exact hget
  rw [hfst]
  refine ⟨hj, ?_⟩
  rw [List.getD_eq_getElem _ _ (by rwa [List.length_map]), List.getElem_map]

theorem Synced.shortlistOf (h : idx.Synced codeSize nhash b nflip es) {masks : List ℕ}
    (hmasks : flips b nflip = some masks) {i : ℕ} {map : DefaultMap (List ℕ)}
    (hmap : idx.maps[i]? = some map) :
    idx.shortlistOf q i map = some ((masks.flatMap fun x ↦
      es.filter fun e ↦ key b i e = hashAt b (i * b) q ^^^ x).map Prod.fst) := by
  obtain ⟨-, rfl, rfl, -, -, -, hgroups, -⟩ := h
  unfold StoredMultiHash.shortlistOf
  rw [hmasks, List.map_flatMap, List.flatMap_eq_foldl]
  refine congrArg (fun f ↦ some (masks.foldl f [])) (funext fun shortlist ↦ funext fun x ↦ ?_)
  have hids : ∀ (es : List (ℕ × List UInt8)) (v : List ℕ),
      es.foldl (fun v e ↦ v ++ [e.1]) v = v ++ es.map Prod.fst := by
    intro es
    induction es with
    | nil => exact fun v ↦ (List.append_nil v).symm
    | cons e es ih =>
        intro v
        rw [List.foldl_cons, ih, List.append_assoc]
        rfl
  have hhash : loadUint64 q (i * idx.b / 8) >>> (i * idx.b % 8) &&& 2 ^ idx.b - 1 =
      hashAt idx.b (i * idx.b) q := rfl
  rw [hhash]
  rcases (hgroups i map hmap).lookup_cases (hashAt idx.b (i * idx.b) q ^^^ x) with
    ⟨hlookup, hempty⟩ | hlookup
  · rw [hlookup, hempty, List.map_nil, List.append_nil]
  · rw [hlookup, hids]
    rfl

/-- Verifying numbers of vectors that are there. -/
theorem Synced.verifyShortlist (h : idx.Synced codeSize nhash b nflip es)
    (hes : ∀ e ∈ es, e.2.length = codeSize) {shortlist : List ℕ}
    (hlist : ∀ i ∈ shortlist, i < es.length) {R : Type} (add : R → ℤ → ℤ → R) (res : R) :
    idx.verifyShortlist q add shortlist res =
      some ((shortlist.map fun i ↦
        (distanceTo codeSize q ((es.map Prod.snd).getD i []), (i : ℤ))).foldl
          (fun res e ↦ add res (floatOfInt e.1) e.2) res) := by
  obtain ⟨rfl, -, -, -, hstorage, -, -, -⟩ := h
  have hcodes : ∀ code ∈ es.map Prod.snd, code.length = idx.codeSize := by
    intro code hcode
    obtain ⟨e, he, rfl⟩ := List.mem_map.mp hcode
    exact hes e he
  induction shortlist generalizing res with
  | nil => rfl
  | cons i shortlist ih =>
      have hi := hlist i List.mem_cons_self
      have hroom : i * idx.codeSize + idx.codeSize ≤ idx.storage.xb.length := by
        rw [hstorage, Lib.length_flatten_records hcodes, List.length_map, ← Nat.succ_mul, Nat.mul_comm]
        exact Nat.mul_le_mul_left _ hi
      have hlength : i < (es.map Prod.snd).length := by rwa [List.length_map]
      have hdistance := hamming_flatten hcodes q hlength
      rw [List.get_eq_getElem, ← List.getD_eq_getElem _ [] hlength] at hdistance
      have hxb : idx.storage.xb = (es.map Prod.snd).flatten := congrArg IndexBinaryFlat.xb hstorage
      have hrest := ih (fun j hj ↦ hlist j (List.mem_cons_of_mem _ hj))
        (add res (floatOfInt (distanceTo idx.codeSize q ((es.map Prod.snd).getD i []))) i)
      unfold StoredMultiHash.verifyShortlist at hrest ⊢
      rw [List.foldlM_cons, if_pos hroom, List.map_cons, List.foldl_cons, ← hrest, ← hdistance, hxb]
      rfl

/-- Searching finds the vectors of which one hash is near, once each. -/
theorem Synced.finds (h : idx.Synced codeSize nhash b nflip es)
    (hes : ∀ e ∈ es, e.2.length = codeSize) (order : SetOrder) (hflip : nflip ≤ b) (hb : b ≤ 57) :
    Finds (fun _ add res ↦ idx.searchOneQuery order q add res)
      ((es.filter fun e ↦ ∃ h ∈ List.range nhash, NearHash b nflip (h * b) q e.2).map
        fun e ↦ (distanceTo codeSize q e.2, (e.1 : ℤ))) := by
  obtain ⟨masks, hmasks, hnodup, hmem⟩ := flips_spec (show b ≤ 63 by omega) hflip
  have hnumbers := h.numbers
  let hits (i : ℕ) : List ℕ := (masks.flatMap fun x ↦
    es.filter fun e ↦ key b i e = hashAt b (i * b) q ^^^ x).map Prod.fst
  have hinserted : ((idx.maps.mapIdx fun h map ↦ (h, map)).mapM fun e ↦
      idx.shortlistOf q e.1 e.2) = some ((List.range nhash).map hits) := by
    refine Lib.mapM_eq_some_iff.mpr (List.ext_getElem ?_ fun i hi _ ↦ ?_)
    · rw [List.length_map, List.length_mapIdx, List.length_map, List.length_map, List.length_range,
        h.length_maps]
    · rw [List.length_map, List.length_mapIdx] at hi
      rw [List.getElem_map, List.getElem_mapIdx, List.getElem_map, List.getElem_map, List.getElem_range]
      exact h.shortlistOf hmasks (List.getElem?_eq_getElem hi)
  have hnear : ∀ i (e : ℕ × List UInt8), e ∈ (masks.flatMap fun x ↦
      es.filter fun e ↦ key b i e = hashAt b (i * b) q ^^^ x) ↔
        e ∈ es ∧ NearHash b nflip (i * b) q e.2 := by
    intro i e
    have hkey : ∀ e, key b i e < 2 ^ b := fun e ↦ hashAt_lt _ _ _
    have hperm := masks_perm hnodup hmem (hashAt_lt b (i * b) q) hkey es
    rw [hperm.mem_iff, List.mem_filter, decide_eq_true_eq, nearHash_iff (by omega)]
    rfl
  have hfound : (order.toFun ((List.range nhash).map hits).flatten).Perm
      ((es.filter fun e ↦ ∃ h ∈ List.range nhash, NearHash b nflip (h * b) q e.2).map Prod.fst) := by
    refine (order.perm _).trans ((List.perm_ext_iff_of_nodup (List.nodup_dedup _) ?_).mpr fun a ↦ ?_)
    · have hall : (es.map Prod.fst).Nodup := hnumbers ▸ List.nodup_range
      exact hall.sublist ((List.filter_sublist).map _)
    · rw [List.mem_dedup, List.mem_flatten]
      constructor
      · rintro ⟨ids, hids, ha⟩
        obtain ⟨i, hi, rfl⟩ := List.mem_map.mp hids
        obtain ⟨e, he, rfl⟩ := List.mem_map.mp ha
        obtain ⟨he, hhash⟩ := (hnear i e).mp he
        exact List.mem_map_of_mem (List.mem_filter.mpr ⟨he, decide_eq_true ⟨i, hi, hhash⟩⟩)
      · intro ha
        obtain ⟨e, he, rfl⟩ := List.mem_map.mp ha
        obtain ⟨he, hhash⟩ := List.mem_filter.mp he
        obtain ⟨i, hi, hhash⟩ := of_decide_eq_true hhash
        exact ⟨hits i, List.mem_map_of_mem hi, List.mem_map_of_mem ((hnear i e).mpr ⟨he, hhash⟩)⟩
  refine ⟨(order.toFun ((List.range nhash).map hits).flatten).map fun i ↦
    (distanceTo codeSize q ((es.map Prod.snd).getD i []), (i : ℤ)), ?_, fun R add res ↦ ?_⟩
  · refine (hfound.map _).trans (List.Perm.of_eq ?_)
    rw [List.map_map]
    refine List.map_congr_left fun e he ↦ ?_
    rw [Function.comp_apply, (getD_of_mem hnumbers (List.mem_of_mem_filter he)).2]
  · unfold StoredMultiHash.searchOneQuery
    rw [hinserted]
    refine h.verifyShortlist hes (fun i hi ↦ ?_) add res
    obtain ⟨e, he, rfl⟩ := List.mem_map.mp (hfound.mem_iff.mp hi)
    exact (getD_of_mem hnumbers (List.mem_of_mem_filter he)).1

end StoredMultiHash

end FaissNavix

/-!
# Hash-based search as brute force

Up to what floats do to the distances, `range_search` and `search` of both indexes are brute force over
the vectors in the flipped buckets.
-/

namespace FaissNavix

open Lib (bitAt)

/-- `range_search` reports what is within the radius, for the radii that it can tell from distances. -/
def RangeSearchIff (n : ℕ) (found : ℕ → List (ℤ × ℤ))
    (rangeSearch : ℤ → Option (List (List (ℤ × ℤ)))) : Prop :=
  ∀ radius, EachRow n (rangeSearch radius) fun i row ↦
    (HasWithin radius (found i) row ↔
      ∀ e ∈ found i, e.1 < radius → floatOfInt e.1 ≠ floatOfInt radius)

/-- `search` reports the smallest distances, if these are floats. -/
def SearchIff (n : ℕ) (found : ℕ → List (ℤ × ℤ))
    (search : ℕ → (ℕ → ℤ × ℤ) → Option (List (List (ℤ × ℤ)))) : Prop :=
  ∀ k tab, 0 < k → EachRow n (search k tab) fun i row ↦
    (HasSmallest k ↑((found i).map Prod.fst) row ↔
      ∀ e ∈ found i, ((found i).countP fun e' ↦ e'.1 < e.1) < k → floatOfInt e.1 = e.1)

theorem EachRow.mono {α : Type} {n : ℕ} {result : Option (List α)} {P Q : ℕ → α → Prop}
    (h : EachRow n result P) (hPQ : ∀ i row, P i row → Q i row) : EachRow n result Q := by
  obtain ⟨rows, hrows, hlength, hall⟩ := h
  exact ⟨rows, hrows, hlength, fun i hi row hrow ↦ hPQ i row (hall i hi row hrow)⟩

theorem searches_iff {codeSize n : ℕ} (hint : 8 * codeSize < 2 ^ 31) {x : ℕ → UInt8}
    {found : ℕ → List (ℤ × ℤ)} {searchOne : ∀ R : Type, (ℕ → UInt8) → (R → ℤ → ℤ → R) → R → Option R}
    (h : ∀ i < n, Finds (fun R ↦ searchOne R (queryAt codeSize x i)) (found i))
    (hfound : ∀ i, ∀ e ∈ found i, ∃ q code, e.1 = distanceTo codeSize q code) :
    RangeSearchIff n found (fun radius ↦ rangeSearchRows n codeSize x radius fun q ↦ searchOne _ q) ∧
      ((∀ i, ∀ e ∈ found i, e.2 ≠ -1) →
        SearchIff n found fun k tab ↦ searchRows n codeSize x k tab fun q ↦ searchOne _ q) := by
  refine ⟨fun radius ↦ eachRow_rangeSearchRows h, fun hid k tab hk ↦ ?_⟩
  refine (eachRow_searchRows hk tab h fun i _ e he ↦ ?_).mono fun i row hrow ↦ hrow (hid i)
  obtain ⟨q, code, hdistance⟩ := hfound i e he
  rw [hdistance]
  exact distanceTo_bounds hint q code

/-- For every content and every batch of queries, a row of `range_search` has the vectors of the flipped
buckets below the radius exactly if none of these is at the radius as a float, and a row of `search` the
smallest of their distances exactly if these are floats; for one hash, and for several. -/
theorem flipped_buckets_iff (codeSize b nflip : ℕ) (batches : List BinaryVectors) (n : ℕ)
    (x : ℕ → UInt8) (hflip : nflip ≤ b) (hint : 8 * codeSize < 2 ^ 31) :
    (b ≤ 63 → b ≤ 8 * codeSize →
      let idx := batches.foldl IndexBinaryHash.addWithIds (.new codeSize b)
      let found i := foundByHash codeSize b nflip batches (queryAt codeSize x i)
      RangeSearchIff n found (idx.rangeSearch nflip n x) ∧
        ((∀ e ∈ contents codeSize givenId batches, e.1.toInt ≠ -1) →
          SearchIff n found (idx.search nflip n x))) ∧
    (∀ nhash order, b ≤ 57 → nhash * b ≤ 8 * codeSize →
      let idx := batches.foldl StoredMultiHash.add (.new codeSize nhash b nflip)
      let found i := foundByHashes codeSize nhash b nflip batches (queryAt codeSize x i)
      RangeSearchIff n found (idx.rangeSearch order n x) ∧ SearchIff n found (idx.search order n x)) := by
  constructor
  · intro hb hd idx found
    have hstores := IndexBinaryHash.stores_contents hb hd batches
    have hfinds := fun i (_ : i < n) ↦
      hstores.finds (q := queryAt codeSize x i) length_of_mem_contents hflip hb
    have hboth := searches_iff hint hfinds fun i e he ↦ by
      obtain ⟨v, -, rfl⟩ := List.mem_map.mp he
      exact ⟨_, _, rfl⟩
    have hcodeSize : idx.codeSize = codeSize := hstores.codeSize_eq
    unfold IndexBinaryHash.rangeSearch IndexBinaryHash.search
    rw [hcodeSize]
    refine ⟨hboth.1, fun hid ↦ hboth.2 fun i e he ↦ ?_⟩
    obtain ⟨v, hv, rfl⟩ := List.mem_map.mp he
    exact hid v (List.mem_of_mem_filter hv)
  · intro nhash order hb hd idx found
    have hsynced := StoredMultiHash.synced_contents hb hd nflip batches
    have hfinds := fun i (_ : i < n) ↦
      hsynced.finds (q := queryAt codeSize x i) length_of_mem_contents order hflip hb
    have hboth := searches_iff hint hfinds fun i e he ↦ by
      obtain ⟨v, -, rfl⟩ := List.mem_map.mp he
      exact ⟨_, _, rfl⟩
    have hcodeSize : idx.codeSize = codeSize := hsynced.codeSize_eq
    unfold StoredMultiHash.rangeSearch StoredMultiHash.search
    rw [hcodeSize]
    refine ⟨hboth.1, hboth.2 fun i e he ↦ ?_⟩
    obtain ⟨v, -, rfl⟩ := List.mem_map.mp he
    exact Int.ne_of_gt (Int.lt_of_lt_of_le (by decide) (Int.natCast_nonneg _))

/-- Two vectors of one byte. -/
def twoVectors : BinaryVectors where
  n := 2
  x i := if i = 0 then 0x05 else 0x0a
  xids := none

def insertionOrder : SetOrder where
  toFun := List.dedup
  perm _ := .refl _

/-- Both indexes, with two vectors. -/
theorem flipped_buckets_iff_two :
    SearchIff 1 (fun i ↦ foundByHash 1 2 1 [twoVectors] (queryAt 1 twoVectors.x i))
        (((IndexBinaryHash.new 1 2).addWithIds twoVectors).search 1 1 twoVectors.x) ∧
      SearchIff 1 (fun i ↦ foundByHashes 1 4 2 1 [twoVectors] (queryAt 1 twoVectors.x i))
        (((StoredMultiHash.new 1 4 2 1).add twoVectors).search insertionOrder 1 twoVectors.x) :=
  ⟨((flipped_buckets_iff 1 2 1 [twoVectors] 1 twoVectors.x (by decide) (by decide)).1 (by decide)
      (by decide)).2 (by decide),
    ((flipped_buckets_iff 1 2 1 [twoVectors] 1 twoVectors.x (by decide) (by decide)).2 4 insertionOrder
      (by decide) (by decide)).2⟩

/-- A vector whose hash is zero and that has ones everywhere else. -/
def farVector : BinaryVectors where
  n := 1
  x i := if i = 0 then 0x00 else 0xff
  xids := none

theorem far_mem_found :
    ((16777216 : ℤ), (0 : ℤ)) ∈ foundByHash 2097153 8 0 [farVector] (queryAt 2097153 (fun _ ↦ 0) 0) := by
  have hzero : ∀ p, memBit (queryAt 2097153 (fun _ ↦ 0) 0) p = false := fun p ↦ Nat.zero_testBit _
  have hcode : ∀ p < 8 * 2097153, bitAt (Lib.read farVector.x (0 * 2097153) 2097153) p =
      memBit farVector.x p := by
    intro p hp
    rw [bitAt_read _ _ hp, Nat.zero_mul, Nat.mul_zero, Nat.zero_add]
  have hcontents : contents 2097153 givenId [farVector] =
      [(0, Lib.read farVector.x (0 * 2097153) 2097153)] := rfl
  have hlow : differing 8 (memBit (queryAt 2097153 (fun _ ↦ 0) 0)) (memBit farVector.x) = 0 := by
    decide
  have hnear : NearHash 8 0 0 (queryAt 2097153 (fun _ ↦ 0) 0)
      (Lib.read farVector.x (0 * 2097153) 2097153) := by
    refine le_of_eq (Eq.trans (differing_congr (fun i _ ↦ ?_) fun i hi ↦ ?_) hlow)
    · rw [Nat.zero_add]
    · rw [Nat.zero_add, hcode i (by omega)]
  have hdistance : distanceTo 2097153 (queryAt 2097153 (fun _ ↦ 0) 0)
      (Lib.read farVector.x (0 * 2097153) 2097153) = 16777216 := by
    have hsplit := differing_add 8 16777216 (memBit (queryAt 2097153 (fun _ ↦ 0) 0)) (memBit farVector.x)
    have hhigh : differing 16777216 (fun i ↦ memBit (queryAt 2097153 (fun _ ↦ 0) 0) (8 + i))
        (fun i ↦ memBit farVector.x (8 + i)) = 16777216 := by
      have hall : ∀ i ∈ List.range 16777216, (memBit (queryAt 2097153 (fun _ ↦ 0) 0) (8 + i) !=
          memBit farVector.x (8 + i)) = true := by
        intro i _
        have hbyte : farVector.x ((8 + i) / 8) = 0xff := if_neg (by omega)
        have hbits : ∀ j < 8, (0xff : UInt8).toNat.testBit j = true := by decide
        have hone : memBit farVector.x (8 + i) = true := by
          rw [memBit, hbyte]
          exact hbits _ (Nat.mod_lt _ (by decide))
        rw [hzero, hone]
        rfl
      exact (List.countP_eq_length.mpr hall).trans List.length_range
    rw [hlow, hhigh] at hsplit
    refine congrArg Int.ofNat (Eq.trans (differing_congr (fun _ _ ↦ rfl) fun p hp ↦ hcode p hp) ?_)
    exact hsplit
  rw [foundByHash, hcontents]
  generalize Lib.read farVector.x (0 * 2097153) 2097153 = code at hnear hdistance ⊢
  simp only [List.filter_cons, hnear, decide_true, if_true, List.filter_nil, List.map_singleton, hdistance]
  exact List.mem_singleton_self _

/-- In `2 ^ 24 + 8` dimensions a vector at distance `2 ^ 24` is not within the radius `2 ^ 24 + 1`. -/
theorem far_not_reported :
    ¬ EachRow 1 (((IndexBinaryHash.new 2097153 8).addWithIds farVector).rangeSearch 0 1 (fun _ ↦ 0)
      16777217) fun i row ↦ HasWithin 16777217
        (foundByHash 2097153 8 0 [farVector] (queryAt 2097153 (fun _ ↦ 0) i)) row := by
  intro hright
  have hstores : ((IndexBinaryHash.new 2097153 8).addWithIds farVector).Stores 2097153 8
      (contents 2097153 givenId [farVector]) :=
    IndexBinaryHash.stores_contents (by decide) (by decide) [farVector]
  have hfinds := fun i (_ : i < 1) ↦
    hstores.finds (q := queryAt 2097153 (fun _ ↦ 0) i) length_of_mem_contents (Nat.zero_le _) (by decide)
  obtain ⟨rows, hrows, hlength, hiff⟩ := @eachRow_rangeSearchRows 2097153 1 _ _ 16777217 _ hfinds
  obtain ⟨rows', hrows', -, hwithin⟩ := hright
  obtain rfl := Option.some.inj (hrows.symm.trans hrows')
  have hrow := List.getElem?_eq_getElem (show 0 < rows.length from hlength ▸ Nat.one_pos)
  have hne := (hiff 0 Nat.one_pos _ hrow).mp (hwithin 0 Nat.one_pos _ hrow) _ far_mem_found (by decide)
  exact hne (by decide)

end FaissNavix
