import FaissNavix.HNSW.DoubleEnded
import FaissNavix.Lib.LastMin

/-!
# The vectorised `pop_min`

`HNSW::MinimaxHeap::pop_min` as compiled for AVX2 and for AVX512.  Each lane of the registers has the
last of the smallest distances of every eighth or sixteenth entry, next to its index; then the lanes
are reduced to one, and the entries after the last full block are looked at one by one, or under a
mask.  All of it finds the last of the smallest distances, as the portable version does, which goes
down from the last entry.
-/

namespace FaissNavix

open Function
open Lib

def mergeHalves (half : ℕ) (src : ℕ → F32) (i : ℕ) : F32 :=
  if src i < src (i + half) then src i else src (i + half)

/-- `_mm512_reduce_min_ps`, for `2 ^ l` lanes -/
def reduceMin : ℕ → (ℕ → F32) → F32
  | 0, src => src 0
  | l + 1, src => reduceMin l (mergeHalves (2 ^ l) src)

/-- `_mm512_mask_reduce_max_epi32` -/
def maskReduceMax (mask : ℕ → Bool) (src : ℕ → ℤ) : ℤ :=
  ((List.range 16).filter mask).foldl (fun a j ↦ max a (src j)) (-2 ^ 31)

namespace MinimaxHeap

/-- The registers of the scans. -/
structure VectorMin where
  minDistances : ℕ → F32
  minIndices : ℕ → ℤ
  currentIndices : ℕ → ℤ

namespace VectorMin

def start : VectorMin where
  minDistances := fun _ ↦ F32.inf
  minIndices := fun _ ↦ -1
  currentIndices := fun j ↦ j

/-- One block of entries.  A lane keeps what it has if its entry is taken out (`m1mask`) or is farther
(`dmask`). -/
def blend (v : VectorMin) (load : ℕ → F32 × ℤ) : VectorMin :=
  let finalmask := fun j ↦ (load j).2 < 0 ∨ v.minDistances j < (load j).1
  { v with
    minDistances := fun j ↦ if finalmask j then v.minDistances j else (load j).1
    minIndices := fun j ↦ if finalmask j then v.minIndices j else v.currentIndices j }

def advance (v : VectorMin) (offset : ℕ) : VectorMin :=
  { v with currentIndices := fun j ↦ v.currentIndices j + offset }

def lane (v : VectorMin) (j : ℕ) : F32 × ℤ := (v.minDistances j, v.minIndices j)

end VectorMin

section
variable (h : MinimaxHeap)

def vectorScan (width : ℕ) : VectorMin :=
  (List.range (h.k / width)).foldl
    (fun v b ↦ (v.blend fun j ↦ h.heap (width * b + j)).advance width) .start

def finish (minDis : F32) (minIdx : ℤ) : Option (ℤ × F32 × MinimaxHeap) :=
  if minIdx = -1 then none
  else some ((h.heap minIdx.toNat).2, minDis, h.takeOut minIdx.toNat)

/-- The loop over the stored lanes of the AVX2 version. -/
def mergeLane (v : VectorMin) (r : F32 × ℤ) (j : ℕ) : F32 × ℤ :=
  if v.minDistances j < r.1 ∨ r.1.feq (v.minDistances j) = true ∧ r.2 < v.minIndices j then v.lane j
  else r

/-- The loop over the last entries of the AVX2 version. -/
def leftoverStep (r : F32 × ℤ) (iii : ℕ) : F32 × ℤ :=
  if (h.heap iii).2 ≠ -1 ∧ (h.heap iii).1 ≤ r.1 then ((h.heap iii).1, iii) else r

/-- `pop_min`, the AVX2 version -/
def popMinAvx2 : Option (ℤ × F32 × MinimaxHeap) :=
  let k8 := 8 * (h.k / 8)
  let lanes := (List.range 8).foldl (mergeLane (h.vectorScan 8)) (F32.inf, -1)
  let r := (List.range (h.k - k8)).foldl (fun r i ↦ h.leftoverStep r (k8 + i)) lanes
  h.finish r.1 r.2

/-- The masked loads of the AVX512 version. -/
def maskLoad (iii : ℕ) : F32 × ℤ := if iii < h.k then h.heap iii else (⟨0⟩, -1)

/-- `pop_min`, the AVX512 version -/
def popMinAvx512 : Option (ℤ × F32 × MinimaxHeap) :=
  let k16 := 16 * (h.k / 16)
  let v := if k16 ≠ h.k then (h.vectorScan 16).blend fun j ↦ h.maskLoad (k16 + j) else h.vectorScan 16
  let minDis := reduceMin 4 v.minDistances
  h.finish minDis (maskReduceMax (fun j ↦ (v.minDistances j).feq minDis) v.minIndices)

end

/-- Ids are `-1` or natural numbers, and distances compare. -/
structure Sound (h : MinimaxHeap) : Prop where
  ids : ∀ i < h.k, -1 ≤ (h.heap i).2
  distances : ∀ i < h.k, (h.heap i).1.Comparable

def distanceKey (h : MinimaxHeap) (i : ℕ) : ℤ := (h.heap i).1.key

/-- `r` is the last of the smallest distances at the positions in `S` with its position, or what the
scans start with. -/
def Found (h : MinimaxHeap) (S : Set ℕ) (r : F32 × ℤ) : Prop :=
  (S = ∅ ∧ r = (F32.inf, -1)) ∨ ∃ m, LastMin h.distanceKey S m ∧ r = ((h.heap m).1, (m : ℤ))

variable {h : MinimaxHeap} {S T : Set ℕ} {r r' : F32 × ℤ} {v : VectorMin} {p width b : ℕ}

theorem Sound.comparable (hs : h.Sound) (hp : p ∈ h.live) : (h.heap p).1.Comparable :=
  hs.distances p (mem_live.mp hp).1

theorem Sound.id_nonneg (hs : h.Sound) (hp : p ∈ h.live) : 0 ≤ (h.heap p).2 := by
  obtain ⟨hk, hid⟩ := mem_live.mp hp
  have := hs.ids p hk
  omega

/-! ## Finding the last of the smallest -/

theorem found_empty (h : MinimaxHeap) : h.Found ∅ (F32.inf, -1) := Or.inl ⟨rfl, rfl⟩

theorem Found.comparable (hf : h.Found S r) (hs : h.Sound) (hS : S ⊆ h.live) : r.1.Comparable := by
  rcases hf with ⟨-, rfl⟩ | ⟨m, hm, rfl⟩
  · exact F32.comparable_inf
  · exact hs.comparable (hS hm.mem)

theorem Found.append (hf : h.Found S r) (hs : h.Sound) (hS : S ⊆ h.live) (hp : p ∈ h.live)
    (hlater : ∀ i ∈ S, i < p) :
    h.Found (S ∪ {p}) (if r.1 < (h.heap p).1 then r else ((h.heap p).1, (p : ℤ))) := by
  have hpc := hs.comparable hp
  rcases hf with ⟨rfl, rfl⟩ | ⟨m, hm, rfl⟩
  · have hge : ¬ F32.inf < (h.heap p).1 := by
      rw [F32.not_lt_iff F32.comparable_inf hpc]
      exact F32.key_le_inf hpc
    rw [if_neg hge, Set.empty_union]
    exact Or.inr ⟨p, LastMin.singleton h.distanceKey p, rfl⟩
  · have hmc := hs.comparable (hS hm.mem)
    split
    · rename_i hlt
      exact Or.inr ⟨m, hm.append_of_lt ((F32.lt_iff_key hmc hpc).mp hlt), rfl⟩
    · rename_i hge
      exact Or.inr ⟨p, hm.append_of_le hlater ((F32.not_lt_iff hmc hpc).mp hge), rfl⟩

/-- Two parts, of which the first one has the smaller distance, or one as small and later. -/
theorem Found.union_left (hf : h.Found S r) (hf' : h.Found T r') (hs : h.Sound) (hS : S ⊆ h.live)
    (hT : T ⊆ h.live) (hle : r.1.key < r'.1.key ∨ r.1.key = r'.1.key ∧ r'.2 ≤ r.2) :
    h.Found (S ∪ T) r := by
  have hc := F32.key_le_inf (hf.comparable hs hS)
  rcases hf with ⟨rfl, rfl⟩ | ⟨m, hm, rfl⟩
  · rcases hf' with ⟨rfl, rfl⟩ | ⟨m', hm', rfl⟩
    · rw [Set.empty_union]
      exact h.found_empty
    · have hc' := F32.key_le_inf (hs.comparable (hT hm'.mem))
      simp only at hle
      omega
  · rcases hf' with ⟨rfl, rfl⟩ | ⟨m', hm', rfl⟩
    · rw [Set.union_empty]
      exact Or.inr ⟨m, hm, rfl⟩
    · rcases hle with hlt | ⟨heq, hle⟩
      · exact Or.inr ⟨m, hm.union_of_lt hm' hlt, rfl⟩
      · rw [Set.union_comm]
        exact Or.inr ⟨m, hm'.union_of_eq hm heq.symm (by simpa using hle), rfl⟩

/-! ## The lanes -/

/-- The entries that lane `j` has seen when the first `n` entries have been read. -/
def laneSet (h : MinimaxHeap) (width n j : ℕ) : Set ℕ :=
  {i | i ∈ h.live ∧ i < n ∧ i % width = j}

theorem laneSet_subset (h : MinimaxHeap) (width n j : ℕ) : h.laneSet width n j ⊆ h.live :=
  fun _ hi ↦ hi.1

theorem laneSet_succ_of_mem {j : ℕ} (hj : j < width) (hp : width * b + j ∈ h.live) :
    h.laneSet width (width * (b + 1)) j = h.laneSet width (width * b) j ∪ {width * b + j} := by
  ext i
  simp only [laneSet, Set.mem_ofPred_eq, Set.mem_union, Set.mem_singleton_iff]
  have hmod : (width * b + j) % width = j := by
    rw [Nat.mul_add_mod, Nat.mod_eq_of_lt hj]
  constructor
  · rintro ⟨hi, hlt, hij⟩
    by_cases hib : i < width * b
    · exact Or.inl ⟨hi, hib, hij⟩
    · refine Or.inr ?_
      obtain ⟨d, rfl⟩ := Nat.exists_eq_add_of_le (not_lt.mp hib)
      rw [Nat.mul_succ, Nat.add_lt_add_iff_left] at hlt
      rw [Nat.mul_add_mod, Nat.mod_eq_of_lt hlt] at hij
      rw [hij]
  · rintro (⟨hi, hlt, hij⟩ | rfl)
    · exact ⟨hi, hlt.trans_le (Nat.mul_le_mul_left _ (Nat.le_succ b)), hij⟩
    · exact ⟨hp, by rw [Nat.mul_succ]; omega, hmod⟩

theorem laneSet_succ_of_notMem {j : ℕ} (hp : width * b + j ∉ h.live) :
    h.laneSet width (width * (b + 1)) j = h.laneSet width (width * b) j := by
  ext i
  simp only [laneSet, Set.mem_ofPred_eq]
  refine ⟨fun ⟨hi, hlt, hij⟩ ↦ ⟨hi, ?_, hij⟩,
    fun ⟨hi, hlt, hij⟩ ↦ ⟨hi, hlt.trans_le (Nat.mul_le_mul_left _ (Nat.le_succ b)), hij⟩⟩
  by_contra hib
  obtain ⟨d, rfl⟩ := Nat.exists_eq_add_of_le (not_lt.mp hib)
  rw [Nat.mul_succ, Nat.add_lt_add_iff_left] at hlt
  rw [Nat.mul_add_mod, Nat.mod_eq_of_lt hlt] at hij
  exact hp (hij ▸ hi)

/-- The registers after `b` blocks. -/
structure Lanes (h : MinimaxHeap) (width b : ℕ) (v : VectorMin) : Prop where
  found : ∀ j < width, h.Found (h.laneSet width (width * b) j) (v.lane j)
  current : ∀ j < width, v.currentIndices j = width * b + j

/-- What is loaded of a block: the entries that are not taken out, and ids below zero elsewhere. -/
def Loads (h : MinimaxHeap) (width b : ℕ) (load : ℕ → F32 × ℤ) : Prop :=
  ∀ j < width, (width * b + j ∈ h.live ∧ load j = h.heap (width * b + j)) ∨
    (width * b + j ∉ h.live ∧ (load j).2 < 0)

theorem loads_maskLoad (h : MinimaxHeap) (width b : ℕ) :
    Loads h width b fun j ↦ h.maskLoad (width * b + j) := by
  intro j _
  by_cases hk : width * b + j < h.k
  · simp only [maskLoad, if_pos hk]
    by_cases hid : (h.heap (width * b + j)).2 = -1
    · exact Or.inr ⟨fun hp ↦ (mem_live.mp hp).2 hid, by rw [hid]; decide⟩
    · exact Or.inl ⟨mem_live.mpr ⟨hk, hid⟩, trivial⟩
  · simp only [maskLoad, if_neg hk]
    exact Or.inr ⟨fun hp ↦ hk (mem_live.mp hp).1, by decide⟩

theorem loads_heap (hb : width * (b + 1) ≤ h.k) :
    Loads h width b fun j ↦ h.heap (width * b + j) := by
  intro j hj
  have hk : width * b + j < h.k := by rw [Nat.mul_succ] at hb; omega
  have hload := h.loads_maskLoad width b j hj
  change (_ ∧ h.maskLoad _ = _) ∨ (_ ∧ (h.maskLoad _).2 < 0) at hload
  rwa [maskLoad, if_pos hk] at hload

theorem Lanes.blend {load : ℕ → F32 × ℤ} (hv : Lanes h width b v) (hs : h.Sound)
    (hload : Loads h width b load) :
    ∀ j < width, h.Found (h.laneSet width (width * (b + 1)) j) ((v.blend load).lane j) := by
  intro j hj
  have hf := hv.found j hj
  rcases hload j hj with ⟨hp, hl⟩ | ⟨hp, hl⟩
  · have hid := hs.id_nonneg hp
    have happ := hf.append hs (h.laneSet_subset _ _ _) hp fun i hi ↦ by
      have := hi.2.1
      omega
    rw [laneSet_succ_of_mem hj hp]
    have hlane : (v.blend load).lane j = if (v.lane j).1 < (h.heap (width * b + j)).1 then v.lane j
        else ((h.heap (width * b + j)).1, ((width * b + j : ℕ) : ℤ)) := by
      have hneg : ¬ (h.heap (width * b + j)).2 < 0 := not_lt.mpr hid
      by_cases hlt : v.minDistances j < (h.heap (width * b + j)).1
      · simp [VectorMin.lane, VectorMin.blend, hl, hlt]
      · simp [VectorMin.lane, VectorMin.blend, hl, hlt, hneg, hv.current j hj]
    rw [hlane]
    exact happ
  · rw [laneSet_succ_of_notMem hp]
    have hlane : (v.blend load).lane j = v.lane j := by
      simp only [VectorMin.lane, VectorMin.blend, hl, true_or, if_true]
    rw [hlane]
    exact hf

theorem Lanes.advance {load : ℕ → F32 × ℤ} (hv : Lanes h width b v) (hs : h.Sound)
    (hload : Loads h width b load) : Lanes h width (b + 1) ((v.blend load).advance width) where
  found := hv.blend hs hload
  current := fun j hj ↦ by
    change v.currentIndices j + width = _
    rw [hv.current j hj]
    push_cast
    rw [mul_add, mul_one, add_right_comm]

theorem lanes_vectorScan (hs : h.Sound) (width : ℕ) :
    Lanes h width (h.k / width) (h.vectorScan width) := by
  refine foldl_range_invariant (Lanes h width) ⟨fun j _ ↦ Or.inl ⟨?_, rfl⟩, fun j _ ↦ ?_⟩ ?_
  · ext i
    simp [laneSet]
  · simp [VectorMin.start]
  · intro b hb v hv
    refine hv.advance hs (loads_heap ?_)
    exact (Nat.mul_le_mul_left width hb).trans (Nat.mul_div_le _ _)

/-! ## The portable version -/

theorem popMinStep_foldl_lastMin (hs : h.Sound) {l : List ℕ} (hl : l.Pairwise (· > ·))
    (hk : ∀ i ∈ l, i < h.k) :
    (l.foldl h.popMinStep none = none ∧ ∀ i ∈ l, i ∉ h.live) ∨
      ∃ m, l.foldl h.popMinStep none = some m ∧
        LastMin h.distanceKey {i | i ∈ l ∧ i ∈ h.live} m := by
  induction l using List.reverseRecOn with
  | nil => exact Or.inl ⟨rfl, fun i hi ↦ absurd hi List.not_mem_nil⟩
  | append_singleton l i ih =>
      rw [List.pairwise_append] at hl
      have hik := hk i (by simp)
      have hbelow : ∀ u ∈ l, i < u := fun u hu ↦ hl.2.2 u hu i (List.mem_singleton_self i)
      rw [List.foldl_append]
      by_cases hid : (h.heap i).2 = -1
      · -- the entry is taken out
        have hdead : i ∉ h.live := fun hi ↦ (mem_live.mp hi).2 hid
        have hset : {u | u ∈ l ++ [i] ∧ u ∈ h.live} = {u | u ∈ l ∧ u ∈ h.live} := by
          ext u
          simp only [List.mem_append, List.mem_singleton, Set.mem_ofPred_eq]
          refine ⟨?_, fun hu ↦ ⟨Or.inl hu.1, hu.2⟩⟩
          rintro ⟨hu | rfl, hlive⟩
          · exact ⟨hu, hlive⟩
          · exact absurd hlive hdead
        rcases ih hl.1 fun u hu ↦ hk u (List.mem_append_left _ hu) with ⟨hnone, hall⟩ | ⟨m, hm, hlast⟩
        · refine Or.inl ⟨by rw [hnone]; simp [popMinStep, hid], fun u hu ↦ ?_⟩
          rcases List.mem_append.mp hu with hu | hu
          · exact hall u hu
          · rw [List.mem_singleton.mp hu]
            exact hdead
        · refine Or.inr ⟨m, by rw [hm]; simp [popMinStep, hid], ?_⟩
          rw [hset]
          exact hlast
      · have hlive : i ∈ h.live := mem_live.mpr ⟨hik, hid⟩
        have hset : {u | u ∈ l ++ [i] ∧ u ∈ h.live} = {u | u ∈ l ∧ u ∈ h.live} ∪ {i} := by
          ext u
          simp only [List.mem_append, List.mem_singleton, Set.mem_ofPred_eq, Set.mem_union,
            Set.mem_singleton_iff]
          constructor
          · rintro ⟨hu | rfl, hul⟩
            · exact Or.inl ⟨hu, hul⟩
            · exact Or.inr rfl
          · rintro (⟨hu, hul⟩ | rfl)
            · exact ⟨Or.inl hu, hul⟩
            · exact ⟨Or.inr rfl, hlive⟩
        rw [hset]
        rcases ih hl.1 fun u hu ↦ hk u (List.mem_append_left _ hu) with ⟨hnone, hall⟩ | ⟨m, hm, hlast⟩
        · refine Or.inr ⟨i, by rw [hnone]; simp [popMinStep, hid], ?_⟩
          have hempty : {u | u ∈ l ∧ u ∈ h.live} = ∅ := by
            ext u
            simpa using hall u
          rw [hempty, Set.empty_union]
          exact LastMin.singleton _ i
        · have hic := hs.comparable hlive
          have hmc := hs.comparable hlast.mem.2
          by_cases hlt : (h.heap i).1 < (h.heap m).1
          · refine Or.inr ⟨i, by rw [hm]; simp [popMinStep, hid, hlt], ?_⟩
            exact hlast.append_before_of_lt ((F32.lt_iff_key hic hmc).mp hlt)
          · refine Or.inr ⟨m, by rw [hm]; simp [popMinStep, hid, hlt], ?_⟩
            exact hlast.append_before_of_le (fun u hu ↦ hbelow u hu.1)
              ((F32.not_lt_iff hic hmc).mp hlt)

/-- The portable version takes out the last of the smallest distances. -/
theorem popMin_lastMin (hs : h.Sound) :
    (h.popMin = none ∧ (h.live : Set ℕ) = ∅) ∨
      ∃ m, LastMin h.distanceKey h.live m ∧
        h.popMin = some ((h.heap m).2, (h.heap m).1, h.takeOut m) := by
  have hpair : (List.range h.k).reverse.Pairwise (· > ·) := by
    rw [List.pairwise_reverse]
    exact List.pairwise_lt_range
  have hset : {i | i ∈ (List.range h.k).reverse ∧ i ∈ h.live} = ↑h.live := by
    ext i
    simp only [List.mem_reverse, List.mem_range, Set.mem_ofPred_eq, Finset.mem_coe]
    exact ⟨fun hi ↦ hi.2, fun hi ↦ ⟨(mem_live.mp hi).1, hi⟩⟩
  rcases popMinStep_foldl_lastMin hs hpair fun i hi ↦ by simpa using hi with
    ⟨hnone, hall⟩ | ⟨m, hm, hlast⟩
  · refine Or.inl ⟨by rw [popMin, hnone]; rfl, Set.eq_empty_of_forall_notMem fun i hi ↦ ?_⟩
    exact hall i (by simpa using (mem_live.mp hi).1) hi
  · rw [hset] at hlast
    exact Or.inr ⟨m, hlast, by rw [popMin, hm]; rfl⟩

/-! ## The AVX2 version -/

theorem Found.mergeLane {j : ℕ} (hf : h.Found S r) (hv : h.Found T (v.lane j)) (hs : h.Sound)
    (hS : S ⊆ h.live) (hT : T ⊆ h.live) : h.Found (S ∪ T) (mergeLane v r j) := by
  have hc : r.1.Comparable := hf.comparable hs hS
  have hc' : (v.minDistances j).Comparable := hv.comparable hs hT
  unfold MinimaxHeap.mergeLane
  split
  · rename_i hcond
    rw [F32.lt_iff, F32.feq_iff] at hcond
    rw [Set.union_comm]
    refine hv.union_left hf hs hT hS ?_
    rcases hcond with ⟨-, -, hlt⟩ | ⟨⟨-, -, heq⟩, hlt⟩
    · exact Or.inl hlt
    · exact Or.inr ⟨heq.symm, hlt.le⟩
  · rename_i hcond
    rw [F32.lt_iff, F32.feq_iff] at hcond
    refine hf.union_left hv hs hS hT ?_
    by_contra hcontra
    simp only [not_or, not_and, not_lt, not_le] at hcond hcontra
    have hle := hcond.1 hc' hc
    have heq := le_antisymm hle hcontra.1
    exact absurd (hcond.2 ⟨hc, hc', heq⟩) (not_le.mpr (hcontra.2 heq))

theorem found_mergeLanes (hs : h.Sound) {n : ℕ}
    (hv : ∀ j < width, h.Found (h.laneSet width n j) (v.lane j)) :
    h.Found {i | i ∈ h.live ∧ i < n ∧ i % width < width}
      ((List.range width).foldl (mergeLane v) (F32.inf, -1)) := by
  refine foldl_range_invariant
    (fun j r ↦ h.Found {i | i ∈ h.live ∧ i < n ∧ i % width < j} r) ?_ ?_
  · have hempty : {i | i ∈ h.live ∧ i < n ∧ i % width < 0} = ∅ := by
      ext i
      simp
    rw [hempty]
    exact h.found_empty
  · intro j hj r hf
    have hset : {i | i ∈ h.live ∧ i < n ∧ i % width < j + 1} =
        {i | i ∈ h.live ∧ i < n ∧ i % width < j} ∪ h.laneSet width n j := by
      ext i
      simp only [laneSet, Set.mem_ofPred_eq, Set.mem_union, Nat.lt_succ_iff_lt_or_eq]
      tauto
    rw [hset]
    exact hf.mergeLane (hv j hj) hs (fun _ hi ↦ hi.1) (h.laneSet_subset _ _ _)

theorem Found.leftoverStep (hf : h.Found {i | i ∈ h.live ∧ i < p} r) (hs : h.Sound) (hp : p < h.k) :
    h.Found {i | i ∈ h.live ∧ i < p + 1} (h.leftoverStep r p) := by
  have hsub : {i | i ∈ h.live ∧ i < p} ⊆ (h.live : Set ℕ) := fun _ hi ↦ hi.1
  have hc := hf.comparable hs hsub
  by_cases hlive : p ∈ h.live
  · have hset : {i | i ∈ h.live ∧ i < p + 1} = {i | i ∈ h.live ∧ i < p} ∪ {p} := by
      ext i
      simp only [Set.mem_ofPred_eq, Set.mem_union, Set.mem_singleton_iff, Nat.lt_succ_iff_lt_or_eq]
      constructor
      · rintro ⟨hi, hlt | rfl⟩
        · exact Or.inl ⟨hi, hlt⟩
        · exact Or.inr rfl
      · rintro (⟨hi, hlt⟩ | rfl)
        · exact ⟨hi, Or.inl hlt⟩
        · exact ⟨hlive, Or.inr rfl⟩
    have hstep : h.leftoverStep r p =
        if r.1 < (h.heap p).1 then r else ((h.heap p).1, (p : ℤ)) := by
      have hpc := hs.comparable hlive
      have hid := (mem_live.mp hlive).2
      by_cases hlt : r.1 < (h.heap p).1
      · have hnle : ¬ (h.heap p).1 ≤ r.1 := by
          rw [F32.le_iff_key hpc hc, not_le]
          exact (F32.lt_iff_key hc hpc).mp hlt
        rw [MinimaxHeap.leftoverStep, if_neg fun hle ↦ hnle hle.2, if_pos hlt]
      · have hle : (h.heap p).1 ≤ r.1 := by
          rw [F32.le_iff_key hpc hc]
          exact (F32.not_lt_iff hc hpc).mp hlt
        rw [MinimaxHeap.leftoverStep, if_pos ⟨hid, hle⟩, if_neg hlt]
    rw [hset, hstep]
    exact hf.append hs hsub hlive fun _ hi ↦ hi.2
  · have hset : {i | i ∈ h.live ∧ i < p + 1} = {i | i ∈ h.live ∧ i < p} := by
      ext i
      simp only [Set.mem_ofPred_eq, Nat.lt_succ_iff_lt_or_eq]
      refine ⟨?_, fun hi ↦ ⟨hi.1, Or.inl hi.2⟩⟩
      rintro ⟨hi, hlt | rfl⟩
      · exact ⟨hi, hlt⟩
      · exact absurd hi hlive
    have hid : ¬ ((h.heap p).2 ≠ -1 ∧ (h.heap p).1 ≤ r.1) := fun hcond ↦
      hlive (mem_live.mpr ⟨hp, hcond.1⟩)
    rw [hset, MinimaxHeap.leftoverStep, if_neg hid]
    exact hf

/-- The AVX2 version returns what the portable version returns. -/
theorem popMinAvx2_eq (hs : h.Sound) : h.popMinAvx2 = h.popMin := by
  have hdiv := Nat.mul_div_le h.k 8
  have hlanes := found_mergeLanes hs (lanes_vectorScan hs 8).found
  have hmod : {i | i ∈ h.live ∧ i < 8 * (h.k / 8) ∧ i % 8 < 8} =
      {i | i ∈ h.live ∧ i < 8 * (h.k / 8) + 0} := by
    ext i
    have := Nat.mod_lt i (show 0 < 8 by decide)
    simp only [Set.mem_ofPred_eq]
    tauto
  rw [hmod] at hlanes
  have hall := foldl_range_invariant
    (fun i r ↦ h.Found {u | u ∈ h.live ∧ u < 8 * (h.k / 8) + i} r) hlanes
    (fun i hi r hf ↦ hf.leftoverStep hs (p := 8 * (h.k / 8) + i) (by omega))
    (n := h.k - 8 * (h.k / 8))
  have hset : {u | u ∈ h.live ∧ u < 8 * (h.k / 8) + (h.k - 8 * (h.k / 8))} = ↑h.live := by
    ext u
    simp only [Set.mem_ofPred_eq, Finset.mem_coe]
    refine ⟨fun hu ↦ hu.1, fun hu ↦ ⟨hu, ?_⟩⟩
    have := (mem_live.mp hu).1
    omega
  rw [hset] at hall
  unfold popMinAvx2
  rcases popMin_lastMin hs with ⟨hpop, hempty⟩ | ⟨m, hlast, hpop⟩
  · rcases hall with ⟨-, hr⟩ | ⟨m, hlast, -⟩
    · simp only [hr, hpop]
      rfl
    · exact absurd hlast.mem (by rw [hempty]; exact Set.notMem_empty m)
  · rcases hall with ⟨hempty, -⟩ | ⟨m', hlast', hr⟩
    · exact absurd hlast.mem (by rw [hempty]; exact Set.notMem_empty m)
    · obtain rfl := hlast.unique hlast'
      simp only [hr, hpop, finish]
      rw [if_neg (by omega)]
      rfl

/-! ## The AVX512 version -/

theorem mergeHalves_spec {half i : ℕ} {src : ℕ → F32} (hc : (src i).Comparable)
    (hc' : (src (i + half)).Comparable) :
    (mergeHalves half src i = src i ∨ mergeHalves half src i = src (i + half)) ∧
      (mergeHalves half src i).key ≤ (src i).key ∧
      (mergeHalves half src i).key ≤ (src (i + half)).key := by
  unfold mergeHalves
  split
  · rename_i hlt
    exact ⟨Or.inl rfl, le_rfl, ((F32.lt_iff_key hc hc').mp hlt).le⟩
  · rename_i hge
    exact ⟨Or.inr rfl, (F32.not_lt_iff hc hc').mp hge, le_rfl⟩

/-- The reduced minimum is one of the lanes, and none is smaller. -/
theorem reduceMin_spec (l : ℕ) {src : ℕ → F32} (hsrc : ∀ j < 2 ^ l, (src j).Comparable) :
    (∃ j < 2 ^ l, reduceMin l src = src j) ∧ ∀ j < 2 ^ l, (reduceMin l src).key ≤ (src j).key := by
  induction l generalizing src with
  | zero =>
      refine ⟨⟨0, Nat.one_pos, rfl⟩, fun j hj ↦ ?_⟩
      obtain rfl : j = 0 := by simpa using hj
      exact le_rfl
  | succ l ih =>
      have hpow : 2 ^ (l + 1) = 2 ^ l + 2 ^ l := by rw [pow_succ, mul_two]
      rw [hpow] at hsrc ⊢
      have hhalf : ∀ i < 2 ^ l, _ := fun i hi ↦
        mergeHalves_spec (hsrc i (by omega)) (hsrc (i + 2 ^ l) (by omega))
      have hmerged : ∀ i < 2 ^ l, (mergeHalves (2 ^ l) src i).Comparable := by
        intro i hi
        rcases (hhalf i hi).1 with h | h
        · rw [h]
          exact hsrc i (by omega)
        · rw [h]
          exact hsrc (i + 2 ^ l) (by omega)
      obtain ⟨⟨j, hj, hmem⟩, hle⟩ := ih hmerged
      refine ⟨?_, fun i hi ↦ ?_⟩
      · rcases (hhalf j hj).1 with h | h
        · exact ⟨j, by omega, hmem.trans h⟩
        · exact ⟨j + 2 ^ l, by omega, hmem.trans h⟩
      · by_cases hlow : i < 2 ^ l
        · exact (hle i hlow).trans (hhalf i hlow).2.1
        · have hhigh := (hhalf (i - 2 ^ l) (by omega)).2.2
          rw [Nat.sub_add_cancel (not_lt.mp hlow)] at hhigh
          exact (hle (i - 2 ^ l) (by omega)).trans hhigh

/-- The reduced maximum is the bound that one of the lanes in the mask reaches. -/
theorem maskReduceMax_eq {mask : ℕ → Bool} {src : ℕ → ℤ} (bound : ℤ) (hbound : -2 ^ 31 ≤ bound)
    (hle : ∀ j < 16, mask j = true → src j ≤ bound)
    (hmem : ∃ j < 16, mask j = true ∧ src j = bound) : maskReduceMax mask src = bound := by
  have hfold : ∀ (l : List ℕ) (a : ℤ), (∀ j ∈ l, src j ≤ bound) → a ≤ bound →
      (a = bound ∨ ∃ j ∈ l, src j = bound) → l.foldl (fun a j ↦ Max.max a (src j)) a = bound := by
    intro l
    induction l with
    | nil =>
        rintro a - - (ha | ⟨j, hj, -⟩)
        · exact ha
        · exact absurd hj List.not_mem_nil
    | cons j l ih =>
        intro a hl ha hex
        have hj := hl j List.mem_cons_self
        refine ih _ (fun u hu ↦ hl u (List.mem_cons_of_mem _ hu)) (max_le ha hj) ?_
        rcases hex with rfl | ⟨u, hu, hub⟩
        · exact Or.inl (max_eq_left hj)
        · rcases List.mem_cons.mp hu with rfl | hu
          · exact Or.inl ((max_eq_right (ha.trans hub.ge)).trans hub)
          · exact Or.inr ⟨u, hu, hub⟩
  refine hfold _ _ (fun j hj ↦ ?_) hbound (Or.inr ?_)
  · obtain ⟨hj, hmask⟩ := List.mem_filter.mp hj
    exact hle j (List.mem_range.mp hj) hmask
  · obtain ⟨j, hj, hmask, hjb⟩ := hmem
    exact ⟨j, List.mem_filter.mpr ⟨List.mem_range.mpr hj, hmask⟩, hjb⟩

/-- Two answers with the same id, the same distance (`0` and `-0` are equal) and the same heap
afterwards, or none. -/
def SameAnswer : Option (ℤ × F32 × MinimaxHeap) → Option (ℤ × F32 × MinimaxHeap) → Prop :=
  Option.Rel fun a b ↦ a.1 = b.1 ∧ a.2.1.feq b.2.1 = true ∧ a.2.2 = b.2.2

/-- Reducing the lanes finds the last of the smallest distances. -/
theorem finish_reduce (hs : h.Sound) {n : ℕ} (hn : h.k ≤ n)
    (hv : ∀ j < 16, h.Found (h.laneSet 16 n j) (v.lane j)) :
    SameAnswer (h.finish (reduceMin 4 v.minDistances)
      (maskReduceMax (fun j ↦ (v.minDistances j).feq (reduceMin 4 v.minDistances)) v.minIndices))
      h.popMin := by
  have hcomp : ∀ j < 16, (v.minDistances j).Comparable := fun j hj ↦
    (hv j hj).comparable hs (h.laneSet_subset _ _ _)
  obtain ⟨⟨jmin, hjmin, hmin⟩, hle⟩ := reduceMin_spec 4 hcomp
  have hminc : (reduceMin 4 v.minDistances).Comparable := by
    rw [hmin]
    exact hcomp jmin hjmin
  rcases popMin_lastMin hs with ⟨hpop, hempty⟩ | ⟨m, hlast, hpop⟩
  · -- all lanes are as they were at the start
    have hlane : ∀ j < 16, v.lane j = (F32.inf, -1) := by
      intro j hj
      rcases hv j hj with ⟨-, hr⟩ | ⟨m, hlast, -⟩
      · exact hr
      · have hmem := h.laneSet_subset _ _ _ hlast.mem
        rw [hempty] at hmem
        exact absurd hmem (Set.notMem_empty m)
    have hidx : ∀ j < 16, v.minIndices j = -1 := fun j hj ↦ congrArg Prod.snd (hlane j hj)
    have hmask : (v.minDistances jmin).feq (reduceMin 4 v.minDistances) = true := by
      rw [F32.feq_iff, hmin]
      exact ⟨hcomp jmin hjmin, hcomp jmin hjmin, rfl⟩
    rw [maskReduceMax_eq (-1) (by decide) (fun j hj _ ↦ (hidx j hj).le)
      ⟨jmin, hjmin, hmask, hidx jmin hjmin⟩, hpop]
    exact Option.Rel.none
  · have hmlive := hlast.mem
    have hmlane : m ∈ h.laneSet 16 n (m % 16) := ⟨hmlive, (mem_live.mp hmlive).1.trans_le hn, rfl⟩
    -- the lane of the last of the smallest has it
    have hj0 : m % 16 < 16 := Nat.mod_lt m (by decide)
    have hlane0 : v.lane (m % 16) = ((h.heap m).1, (m : ℤ)) := by
      rcases hv (m % 16) hj0 with ⟨hempty, -⟩ | ⟨m', hlast', hr⟩
      · rw [hempty] at hmlane
        exact absurd hmlane (Set.notMem_empty m)
      · have hsub : LastMin h.distanceKey (h.laneSet 16 n (m % 16)) m :=
          ⟨hmlane, fun i hi ↦ hlast.le i hi.1, fun i hi ↦ hlast.last i hi.1⟩
        obtain rfl := hsub.unique hlast'
        exact hr
    -- and no lane has anything smaller, or as small and later
    have hlanes : ∀ j < 16, (h.heap m).1.key ≤ (v.minDistances j).key ∧
        ((v.minDistances j).key ≤ (h.heap m).1.key → v.minIndices j ≤ m) := by
      intro j hj
      rcases hv j hj with ⟨-, hr⟩ | ⟨i, hi, hr⟩
      · obtain ⟨hd, hx⟩ := Prod.mk.inj hr
        rw [hd, hx]
        exact ⟨F32.key_le_inf (hs.comparable hmlive), fun _ ↦ by omega⟩
      · obtain ⟨hd, hx⟩ := Prod.mk.inj hr
        have himem := h.laneSet_subset _ _ _ hi.mem
        rw [hd, hx]
        exact ⟨hlast.le i himem, fun hle ↦ by exact_mod_cast hlast.last i himem hle⟩
    obtain ⟨hd0, hx0⟩ := Prod.mk.inj hlane0
    have hkey : (reduceMin 4 v.minDistances).key = (h.heap m).1.key := by
      refine le_antisymm ?_ ?_
      · have := hle (m % 16) hj0
        rwa [hd0] at this
      · rw [hmin]
        exact (hlanes jmin hjmin).1
    have hmask : (v.minDistances (m % 16)).feq (reduceMin 4 v.minDistances) = true := by
      rw [F32.feq_iff, hd0]
      exact ⟨hs.comparable hmlive, hminc, hkey.symm⟩
    rw [maskReduceMax_eq m (by omega) (fun j hj hj' ↦ ?_) ⟨m % 16, hj0, hmask, hx0⟩, hpop,
      finish, if_neg (by omega)]
    · exact Option.Rel.some ⟨rfl, F32.feq_iff.mpr ⟨hminc, hs.comparable hmlive, hkey⟩, rfl⟩
    · rw [F32.feq_iff, hkey] at hj'
      exact (hlanes j hj).2 hj'.2.2.le

theorem popMinAvx512_same (hs : h.Sound) : SameAnswer h.popMinAvx512 h.popMin := by
  have hdiv := Nat.mul_div_le h.k 16
  have hlt := Nat.lt_mul_div_succ h.k (show 0 < 16 by decide)
  have hlanes := lanes_vectorScan hs 16
  unfold popMinAvx512
  by_cases hk : 16 * (h.k / 16) = h.k
  · simp only [hk, ne_eq, not_true_eq_false, if_false]
    exact finish_reduce hs hk.ge hlanes.found
  · simp only [ne_eq, hk, not_false_eq_true, if_true]
    exact finish_reduce hs hlt.le (hlanes.blend hs (h.loads_maskLoad 16 (h.k / 16)))

/-- The AVX2 version of `pop_min` returns what the portable version returns and leaves the same heap,
and so does the AVX512 version, but for the sign of a distance of zero. -/
theorem vectorPopMin_eq (hids : ∀ i < h.k, -1 ≤ (h.heap i).2)
    (hdis : ∀ i < h.k, (h.heap i).1.Comparable) :
    h.popMinAvx2 = h.popMin ∧ SameAnswer h.popMinAvx512 h.popMin :=
  ⟨popMinAvx2_eq ⟨hids, hdis⟩, popMinAvx512_same ⟨hids, hdis⟩⟩

/-- Nine entries, all infinite: the last one is taken out, which is the leftover of both versions. -/
theorem vectorPopMin_eq_nine :
    popMinAvx2 ⟨9, 9, 9, fun i ↦ (F32.inf, i)⟩ = popMin ⟨9, 9, 9, fun i ↦ (F32.inf, i)⟩ ∧
      SameAnswer (popMinAvx512 ⟨9, 9, 9, fun i ↦ (F32.inf, i)⟩)
        (popMin ⟨9, 9, 9, fun i ↦ (F32.inf, i)⟩) :=
  vectorPopMin_eq (by intro i _; simp only; omega) fun _ _ ↦ F32.comparable_inf

end MinimaxHeap

end FaissNavix
