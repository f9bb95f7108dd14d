import FaissNavix.BinaryHash.SeveralHashes

/-!
# Resetting a hash index

`IndexBinaryMultiHash::reset` clears copies of the maps, so the numbers of the vectors stay in the buckets
while the vectors are gone.  An index is like a new one as long as there is nothing in it to be reset.
-/

namespace FaissNavix

open Lib

/-- A call to an `IndexBinaryMultiHash`. -/
inductive MultiHashCall where
  | add (batch : BinaryVectors)
  | reset
  | search (n : ℕ) (x : ℕ → UInt8) (k : ℕ) (tab : ℕ → ℤ × ℤ)
  | rangeSearch (n : ℕ) (x : ℕ → UInt8) (radius : ℤ)

/-- The batches that are added after the last `reset`. -/
def batchesSince (calls : List MultiHashCall) : List BinaryVectors :=
  calls.foldl (fun batches call ↦
    match call with
    | .add batch => batches ++ [batch]
    | .reset => []
    | .search .. => batches
    | .rangeSearch .. => batches) []

namespace StoredMultiHash

/-- The index after a call. -/
def after (idx : StoredMultiHash) : MultiHashCall → StoredMultiHash
  | .add batch => idx.add batch
  | .reset => idx.reset
  | .search .. => idx
  | .rangeSearch .. => idx

/-- Searching gives the same, and no bucket has a number of a vector that is not there. -/
structure LikeNew (idx fresh : StoredMultiHash) : Prop where
  search_eq : ∀ order n x k tab, idx.search order n x k tab = fresh.search order n x k tab
  rangeSearch_eq : ∀ order n x radius,
    idx.rangeSearch order n x radius = fresh.rangeSearch order n x radius
  lt_ntotal : ∀ map ∈ idx.maps, ∀ e ∈ map.entries, ∀ id ∈ e.2, id < idx.storage.ntotal

variable {codeSize nhash b nflip : ℕ} {calls : List MultiHashCall}

def withBatches (codeSize nhash b nflip : ℕ) (batches : List BinaryVectors) : StoredMultiHash :=
  batches.foldl add (new codeSize nhash b nflip)

/-- What adding does not change, and what it does to the numbers of vectors. -/
theorem withBatches_spec (codeSize nhash b nflip : ℕ) (batches : List BinaryVectors) :
    let idx := withBatches codeSize nhash b nflip batches
    idx.toIndexBinaryMultiHash =
        batches.foldl IndexBinaryMultiHash.add (.new codeSize nhash b) ∧
      idx.codeSize = codeSize ∧ idx.b = b ∧ idx.nflip = nflip ∧ idx.maps.length = nhash ∧
      idx.ntotal = (batches.map (·.n)).sum ∧ idx.storage.ntotal = (batches.map (·.n)).sum := by
  unfold withBatches
  induction batches using List.reverseRecOn with
  | nil => exact ⟨rfl, rfl, rfl, rfl, List.length_replicate, rfl, rfl⟩
  | append_singleton batches batch ih =>
      rw [List.foldl_append, List.foldl_append, List.map_append, List.sum_append, List.map_singleton,
        List.sum_singleton]
      generalize batches.foldl add (new codeSize nhash b nflip) = idx at ih ⊢
      obtain ⟨hindex, hcodeSize, hb, hnflip, hlength, hntotal, hstorage⟩ := ih
      refine ⟨?_, hcodeSize, hb, hnflip, ?_, ?_, ?_⟩
      · rw [← hindex]
        rfl
      · change ((List.range batch.n).foldl (fun maps i ↦
          maps.mapIdx fun h map ↦ idx.addOne batch.x h map i) idx.maps).length = nhash
        refine foldl_invariant (fun maps : List (DefaultMap (List ℕ)) ↦ maps.length = nhash) hlength
          fun i _ maps hmaps ↦ ?_
        rw [List.length_mapIdx, hmaps]
      · rw [← hntotal]
        rfl
      · rw [← hstorage]
        rfl

theorem withBatches_of_sum_eq_zero {batches : List BinaryVectors} (h : (batches.map (·.n)).sum = 0) :
    withBatches codeSize nhash b nflip batches = new codeSize nhash b nflip := by
  unfold withBatches
  induction batches with
  | nil => rfl
  | cons batch batches ih =>
      rw [List.map_cons, List.sum_cons, Nat.add_eq_zero_iff] at h
      have hsame : (new codeSize nhash b nflip).add batch = new codeSize nhash b nflip := by
        simp only [add, IndexBinaryMultiHash.add, IndexBinaryFlat.add, h.1, List.range_zero,
          List.foldl_nil, Nat.zero_mul, Nat.add_zero, Lib.read, List.map_nil, List.append_nil]
      rw [List.foldl_cons, hsame]
      exact ih h.2

theorem reset_withBatches {batches : List BinaryVectors}
    (h : nhash = 0 ∨ (batches.map (·.n)).sum = 0) :
    (withBatches codeSize nhash b nflip batches).reset = new codeSize nhash b nflip := by
  rcases h with rfl | h
  · obtain ⟨-, hcodeSize, hb, hnflip, hlength, -, -⟩ := withBatches_spec codeSize 0 b nflip batches
    have hmaps := List.eq_nil_of_length_eq_zero hlength
    generalize withBatches codeSize 0 b nflip batches = idx at hcodeSize hb hnflip hmaps ⊢
    obtain ⟨⟨_, _, ntotal, _⟩, storage, _⟩ := idx
    dsimp only at hcodeSize hb hnflip hmaps
    subst hcodeSize hb hnflip hmaps
    rfl
  · rw [withBatches_of_sum_eq_zero h]
    rfl

theorem withBatches_lt (codeSize nhash b nflip : ℕ) (batches : List BinaryVectors) :
    let idx := withBatches codeSize nhash b nflip batches
    ∀ map ∈ idx.maps, ∀ e ∈ map.entries, ∀ id ∈ e.2, id < idx.storage.ntotal := by
  intro idx map hmap e he id hid
  obtain ⟨hindex, -, -, -, -, hntotal, hstorage⟩ := withBatches_spec codeSize nhash b nflip batches
  have hmaps := (IndexBinaryMultiHash.counted_batches codeSize nhash b batches).2 map
  rw [← hindex] at hmaps
  have hlt := (hmaps hmap).2 e he id hid
  rw [hntotal] at hlt
  change id < (withBatches codeSize nhash b nflip batches).storage.ntotal
  rwa [hstorage]

theorem exists_number {batches : List BinaryVectors} (hnhash : nhash ≠ 0)
    (h : (batches.map (·.n)).sum ≠ 0) :
    ∃ map ∈ (withBatches codeSize nhash b nflip batches).maps, ∃ e ∈ map.entries, ∃ id, id ∈ e.2 := by
  obtain ⟨hindex, -, -, -, hlength, hntotal, -⟩ := withBatches_spec codeSize nhash b nflip batches
  obtain ⟨map, hmap⟩ := List.exists_mem_of_length_pos (hlength ▸ Nat.pos_of_ne_zero hnhash)
  have hcounted := (IndexBinaryMultiHash.counted_batches codeSize nhash b batches).2 map
  rw [← hindex] at hcounted
  obtain ⟨⟨hall, hsum⟩, -⟩ := hcounted hmap
  rw [hntotal] at hsum
  refine ⟨map, hmap, ?_⟩
  cases hentries : map.entries with
  | nil =>
      rw [hentries] at hsum
      exact absurd hsum.symm h
  | cons e entries =>
      refine ⟨e, List.mem_cons_self, ?_⟩
      exact List.exists_mem_of_length_pos (hall e (hentries ▸ List.mem_cons_self)).2

/-- A call of `reset` does not find any vector, or there are no maps. -/
def FindsNothing (nhash : ℕ) (before : List MultiHashCall) (call : MultiHashCall) : Prop :=
  call = .reset → nhash = 0 ∨ ((batchesSince before).map (·.n)).sum = 0

theorem batchesSince_concat (calls : List MultiHashCall) (call : MultiHashCall) :
    batchesSince (calls ++ [call]) =
      match call with
      | .add batch => batchesSince calls ++ [batch]
      | .reset => []
      | .search .. => batchesSince calls
      | .rangeSearch .. => batchesSince calls := by
  unfold batchesSince
  rw [List.foldl_append]
  rfl

/-- As long as that is so, the index is the one with the batches since the last `reset`. -/
theorem foldl_after (h : EachStep (FindsNothing nhash) calls) :
    calls.foldl after (new codeSize nhash b nflip) =
      withBatches codeSize nhash b nflip (batchesSince calls) := by
  refine h.induct (motive := fun calls ↦ calls.foldl after (new codeSize nhash b nflip) =
    withBatches codeSize nhash b nflip (batchesSince calls)) rfl fun before call ih hcall ↦ ?_
  rw [List.foldl_append, List.foldl_cons, List.foldl_nil, ih, batchesSince_concat]
  cases call with
  | add batch =>
      rw [withBatches, withBatches, List.foldl_append]
      rfl
  | reset => exact reset_withBatches (hcall rfl)
  | search n x k tab => rfl
  | rangeSearch n x radius => rfl

/-- In every state of a run the index is like a new one with the batches since the last `reset`, exactly
if no `reset` finds any vector, or there are no maps. -/
theorem likeNew_iff (codeSize nhash b nflip : ℕ) (calls : List MultiHashCall) :
    (∀ before rest, calls = before ++ rest →
      (before.foldl after (new codeSize nhash b nflip)).LikeNew
        (withBatches codeSize nhash b nflip (batchesSince before))) ↔
      EachStep (FindsNothing nhash) calls := by
  constructor
  · induction calls using List.reverseRecOn with
    | nil => exact fun _ ↦ eachStep_nil
    | append_singleton calls call ih =>
        intro h
        have hcalls := ih fun before rest heq ↦
          h before (rest ++ [call]) (by rw [heq, List.append_assoc])
        refine eachStep_concat.mpr ⟨hcalls, ?_⟩
        rintro rfl
        by_contra hvectors
        obtain ⟨hnhash, hsum⟩ := not_or.mp hvectors
        obtain ⟨map, hmap, e, he, id, hid⟩ := @exists_number codeSize nhash b nflip _ hnhash hsum
        have hlike := h (calls ++ [.reset]) [] (List.append_nil _).symm
        rw [List.foldl_append, List.foldl_cons, List.foldl_nil, foldl_after hcalls] at hlike
        exact Nat.not_lt_zero id (hlike.lt_ntotal map hmap e he id hid)
  · intro h before rest heq
    have hbefore : EachStep (FindsNothing nhash) before := fun first call more hsplit ↦
      h first call (more ++ rest) (by rw [heq, hsplit, List.append_assoc, List.cons_append])
    rw [foldl_after hbefore]
    exact ⟨fun _ _ _ _ _ ↦ rfl, fun _ _ _ _ ↦ rfl, withBatches_lt codeSize nhash b nflip _⟩

/-- A vector of one byte. -/
def oneVector : BinaryVectors where
  n := 1
  x _ := 0x01
  xids := none

/-- After a vector is added and the index is reset, the number of the vector is still there. -/
theorem not_likeNew : ¬ ([.add oneVector, .reset].foldl after (new 1 1 1 0)).LikeNew
    (withBatches 1 1 1 0 (batchesSince [.add oneVector, .reset])) := by
  intro h
  exact Nat.not_lt_zero 0 (h.lt_ntotal _ List.mem_cons_self ⟨1, [0]⟩ List.mem_cons_self 0
    List.mem_cons_self)

/-- To look at the vector then is to read where nothing is. -/
example : ([.add oneVector, .reset].foldl after (new 1 1 1 0)).rangeSearch ⟨List.dedup, fun _ ↦ .refl _⟩
    1 (fun _ ↦ 0x01) 1 = none := by
  decide

end StoredMultiHash

end FaissNavix
