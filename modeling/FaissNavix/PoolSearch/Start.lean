import FaissNavix.PoolSearch.Loop

/-!
# The first pool and the results

The pool starts as the starting points with their distances, sorted, and the first `k` entries of the
last pool are the result.  A vertex that is there twice among the starting points and is nearer than all
others takes the first two places, and keeps them.
-/

namespace FaissNavix

/-- `std::sort` of the entries of a pool, which may put entries at the same distance in any order. -/
structure PoolSort where
  sort : List Neighbor → List Neighbor
  perm : ∀ l, (sort l).Perm l
  sorted : ∀ l, (∀ nb ∈ l, nb.distance.Comparable) →
    (sort l).Pairwise fun a b ↦ a.key ≤ b.key

/-- The sort that keeps the order of entries at the same distance. -/
def PoolSort.insertion : PoolSort where
  sort := List.insertionSort fun a b ↦ a.key ≤ b.key
  perm := List.perm_insertionSort _
  sorted := fun l _ ↦ by
    have : Std.Total fun a b : Neighbor ↦ a.key ≤ b.key := ⟨fun a b ↦ le_total a.key b.key⟩
    have : IsTrans Neighbor fun a b ↦ a.key ≤ b.key := ⟨fun a b c ↦ le_trans⟩
    exact List.pairwise_insertionSort _ l

def startPool (S : PoolSort) (dis : ℕ → F32) (initIds : List ℕ) : List Neighbor :=
  S.sort (initIds.map fun id ↦ ⟨id, dis id, true⟩) ++ [default]

/-- The first `k` entries, as the caller gets them. -/
def poolResults (k : ℕ) (retset : List Neighbor) : List (ℤ × F32) :=
  (retset.take k).map fun nb ↦ ((nb.id : ℤ), nb.distance)

/-- What a search promises of its `k` results. -/
structure ValidRow (n k : ℕ) (dis : ℕ → F32) (row : List (ℤ × F32)) : Prop where
  length_eq : row.length = k
  sorted : row.Pairwise fun a b ↦ a.2 ≤ b.2
  nodup : ((row.map Prod.fst).filter fun id ↦ id ≠ -1).Nodup
  entry : ∀ p ∈ row, p.1 ≠ -1 → ∃ v < n, p.1 = (v : ℤ) ∧ p.2 = dis v
  padding : ∀ p ∈ row, p.1 = -1 → n < k

variable {S : PoolSort} {n size k : ℕ} {dis : ℕ → F32} {ids : List ℕ} {retset : List Neighbor}

theorem startPool_take (hl : ids.length = size) :
    (startPool S dis ids).take size = S.sort (ids.map fun id ↦ ⟨id, dis id, true⟩) := by
  have hlen : (S.sort (ids.map fun id ↦ (⟨id, dis id, true⟩ : Neighbor))).length = size := by
    rw [(S.perm _).length_eq, List.length_map, hl]
  rw [startPool, List.take_append_of_le_length hlen.ge, List.take_of_length_le hlen.le]

theorem startPool_ids (hl : ids.length = size) :
    (((startPool S dis ids).take size).map Neighbor.id).Perm ids := by
  rw [startPool_take hl]
  refine ((S.perm _).map _).trans ?_
  rw [List.map_map]
  exact (List.map_id ids).symm ▸ List.Perm.refl _

/-- The first pool is sound. -/
theorem startPool_sound (hdis : ∀ v < n, (dis v).Comparable) (hl : ids.length = size)
    (hids : ∀ v ∈ ids, v < n) : SoundPool n dis size (startPool S dis ids) := by
  have htake : (startPool S dis ids).take size = _ := startPool_take hl
  have hmem : ∀ nb ∈ (startPool S dis ids).take size, nb.id < n ∧ nb.distance = dis nb.id := by
    intro nb hnb
    rw [htake, (S.perm _).mem_iff, List.mem_map] at hnb
    obtain ⟨id, hid, rfl⟩ := hnb
    exact ⟨hids id hid, rfl⟩
  have hlen : (startPool S dis ids).length = size + 1 := by
    rw [startPool, List.length_append, (S.perm _).length_eq, List.length_map, hl, List.length_singleton]
  have hget : ∀ i < size, (startPool S dis ids).getD i default ∈ (startPool S dis ids).take size := by
    intro i hi
    rw [List.mem_take_iff_getElem]
    exact ⟨i, by omega, (List.getD_eq_getElem _ _ (by omega)).symm⟩
  have hcmp : ∀ nb ∈ (startPool S dis ids).take size, nb.distance.Comparable := by
    intro nb hnb
    obtain ⟨hlt, heq⟩ := hmem nb hnb
    rw [heq]
    exact hdis _ hlt
  have hsorted : ((startPool S dis ids).take size).Pairwise fun a b ↦ a.key ≤ b.key := by
    rw [htake]
    refine S.sorted _ fun nb hnb ↦ hcmp nb ?_
    rwa [htake, (S.perm _).mem_iff]
  refine ⟨⟨hlen, fun i hi ↦ hcmp _ (hget i hi), fun i j hij hj ↦ ?_⟩, hmem⟩
  rcases Nat.eq_or_lt_of_le hij with rfl | hlt
  · exact le_rfl
  · have := List.pairwise_iff_getElem.mp hsorted i j (by rw [List.length_take]; omega)
      (by rw [List.length_take]; omega) hlt
    rw [List.getElem_take, List.getElem_take, ← List.getD_eq_getElem _ default (by omega),
      ← List.getD_eq_getElem _ default (by omega)] at this
    exact this

/-- The results of a sound pool in which no id is there twice. -/
theorem SoundPool.validRow (h : SoundPool n dis size retset) (hk : k ≤ size)
    (hnd : ((retset.take k).map Neighbor.id).Nodup) :
    ValidRow n k dis (poolResults k retset) := by
  have hl := h.pool.length_eq
  have hmem : ∀ nb ∈ retset.take k, nb.id < n ∧ nb.distance = dis nb.id :=
    fun nb hnb ↦ h.entry nb (List.take_subset_take_left _ hk hnb)
  have hids : (poolResults k retset).map Prod.fst = ((retset.take k).map Neighbor.id).map Nat.cast := by
    simp only [poolResults, List.map_map]
    rfl
  refine ⟨?_, ?_, ?_, ?_, ?_⟩
  · rw [poolResults, List.length_map, List.length_take]
    omega
  · rw [poolResults, List.pairwise_map, List.pairwise_iff_getElem]
    intro i j hi hj hlt
    rw [List.length_take] at hi hj
    rw [List.getElem_take, List.getElem_take, ← List.getD_eq_getElem _ default (by omega),
      ← List.getD_eq_getElem _ default (by omega),
      F32.le_iff_key (h.pool.comparable _ (by omega)) (h.pool.comparable _ (by omega))]
    exact h.pool.mono i j hlt.le (by omega)
  · rw [hids]
    exact (hnd.map Nat.cast_injective).filter _
  · intro p hp _
    obtain ⟨nb, hnb, rfl⟩ := List.mem_map.mp hp
    obtain ⟨hlt, heq⟩ := hmem nb hnb
    exact ⟨nb.id, hlt, rfl, heq⟩
  · intro p hp hneg
    obtain ⟨nb, -, rfl⟩ := List.mem_map.mp hp
    exact absurd hneg (by simp)

/-! ## A starting point that is there twice -/

/-- Two light entries of a sorted list are its first two. -/
theorem key_second_le {l : List Neighbor} (h : l.Pairwise fun a b ↦ a.key ≤ b.key) {c : ℤ}
    (hcount : 2 ≤ l.countP fun nb ↦ nb.key ≤ c) : (l.getD 1 default).key ≤ c := by
  match l, h with
  | [], _ => exact absurd hcount (by simp)
  | [a], _ =>
      have : [a].countP (fun nb ↦ decide (nb.key ≤ c)) ≤ [a].length := List.countP_le_length
      rw [List.length_singleton] at this
      omega
  | a :: b :: rest, h =>
      by_contra hb
      have hbc : c < b.key := not_le.mp hb
      have hrest : ∀ nb ∈ b :: rest, ¬ nb.key ≤ c := by
        intro nb hnb
        rcases List.mem_cons.mp hnb with rfl | hnb
        · exact not_le.mpr hbc
        · have := (List.pairwise_cons.mp (List.pairwise_cons.mp h).2).1 nb hnb
          omega
      have hzero : (b :: rest).countP (fun nb ↦ decide (nb.key ≤ c)) = 0 := by
        rw [List.countP_eq_zero]
        intro nb hnb
        rw [decide_eq_true_iff]
        exact hrest nb hnb
      rw [List.countP_cons, hzero] at hcount
      split at hcount
      · omega
      · omega

def nearTo (v : ℕ) : ℕ → F32 :=
  fun u ↦ if u = v then ⟨0⟩ else ⟨0x3f800000#32⟩

theorem nearTo_comparable (v u : ℕ) : (nearTo v u).Comparable := by
  rw [nearTo]
  split
  · decide
  · decide

theorem nearTo_key {v u : ℕ} : (nearTo v u).key ≤ 0 ↔ u = v := by
  rw [nearTo]
  split
  · rename_i h
    exact iff_of_true (by decide) h
  · rename_i h
    exact iff_of_false (by decide) h

/-- A vertex that is there twice from the beginning and is the nearest is among the results twice. -/
theorem Improves.not_validRow {v : ℕ}
    (h : Improves n (nearTo v) size (startPool S (nearTo v) ids) retset) (hl : ids.length = size)
    (htwice : 2 ≤ ids.count v) (hk : 2 ≤ k) (hks : k ≤ size) :
    ¬ ValidRow n k (nearTo v) (poolResults k retset) := by
  have hlen := h.sound.pool.length_eq
  have hstart : poolKey (startPool S (nearTo v) ids) 1 ≤ 0 := by
    have hsorted := S.sorted (ids.map fun id ↦ ⟨id, nearTo v id, true⟩) fun nb hnb ↦ by
      obtain ⟨id, -, rfl⟩ := List.mem_map.mp hnb
      exact nearTo_comparable v id
    have hcount : 2 ≤ (S.sort (ids.map fun id ↦ ⟨id, nearTo v id, true⟩)).countP
        fun nb ↦ nb.key ≤ 0 := by
      rw [(S.perm _).countP_eq, List.countP_map]
      refine htwice.trans ?_
      rw [List.count]
      refine List.countP_mono_left fun u _ hu ↦ ?_
      rw [Function.comp_apply, decide_eq_true_iff]
      exact nearTo_key.mpr (beq_iff_eq.mp hu)
    have hone : (startPool S (nearTo v) ids).getD 1 default =
        (S.sort (ids.map fun id ↦ ⟨id, nearTo v id, true⟩)).getD 1 default := by
      rw [startPool, List.getD_append _ _ _ _ (by rw [(S.perm _).length_eq, List.length_map]; omega)]
    rw [poolKey, hone]
    exact key_second_le hsorted hcount
  have hid : ∀ i ≤ 1, (retset.getD i default).id = v := by
    intro i hi
    have hkey : poolKey retset i ≤ 0 :=
      (h.sound.pool.mono i 1 hi (by omega)).trans ((h.key_le 1 (by omega)).trans hstart)
    rw [poolKey, Neighbor.key, (h.sound.getD_entry (by omega)).2] at hkey
    exact nearTo_key.mp hkey
  intro hrow
  have hall : ((poolResults k retset).map Prod.fst).filter (fun id ↦ id ≠ -1) =
      (poolResults k retset).map Prod.fst := by
    rw [List.filter_eq_self]
    intro id hmem
    obtain ⟨p, hp, rfl⟩ := List.mem_map.mp hmem
    obtain ⟨nb, -, rfl⟩ := List.mem_map.mp hp
    simp
  have hnd := hrow.nodup
  rw [hall, List.nodup_iff_getElem?_ne_getElem?] at hnd
  have hval : ∀ i ≤ 1, ((poolResults k retset).map Prod.fst)[i]? = some (v : ℤ) := by
    intro i hi
    have hget : retset[i]? = some (retset.getD i default) := by
      rw [List.getD_eq_getElem _ _ (by omega)]
      exact List.getElem?_eq_getElem (by omega)
    simp only [poolResults, List.getElem?_map, List.getElem?_take_of_lt (show i < k by omega), hget,
      Option.map_some, hid i hi]
  refine hnd 0 1 Nat.zero_lt_one ?_ ((hval 0 (by omega)).trans (hval 1 le_rfl).symm)
  rw [List.length_map, hrow.length_eq]
  omega

end FaissNavix
