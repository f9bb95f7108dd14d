import FaissNavix.HNSW.NeighborsToAdd
import FaissNavix.Invlists.InvertedLists
import FaissNavix.Lib.Segments
import Mathlib.Data.List.TakeWhile

/-!
# Permuting the vertices of a graph

`HNSW::permute_entries` of `faiss/impl/HNSW.cpp`.  The vertices have blocks of different lengths in the
table of neighbours, so that the table is built up again block by block, in the new order, with the new
ids in place of the old ones.
-/

namespace FaissNavix

open Function
open Lib

namespace HNSW

/-! ## `permute_entries` -/

/-- `imap`, the inverse of `map`, which gives the old index for each new one. -/
def inverseMap (ntotal : ℕ) (map : ℕ → ℕ) : Except Fault (ℕ → ℕ) :=
  (List.range ntotal).foldlM (fun imap i ↦ do
    Fault.assert (map i < ntotal) "map[i] >= 0 && map[i] < ntotal"
    return update imap (map i) i) fun _ ↦ 0

/-- The new id of a neighbour; `-1` is kept. -/
def renamed (imap : ℕ → ℕ) (neigh : ℤ) : ℤ :=
  if 0 ≤ neigh then imap neigh.toNat else neigh

/-- `new_levels`, `new_offsets` and `new_neighbors`, as far as they are written. -/
structure NewTables where
  levels : List ℕ
  offsets : List ℕ
  neighbors : List ℤ

/-- A turn of the loop over the new indices: `o` is the old one. -/
def appendVertex (g : HNSW) (imap : ℕ → ℕ) (o : ℕ) (s : NewTables) : NewTables :=
  let begin := g.offsets.getD o 0
  let neighbors := s.neighbors ++
    (segment (-1) g.neighbors begin (g.offsets.getD (o + 1) 0 - begin)).map (renamed imap)
  { levels := s.levels ++ [g.level o]
    offsets := s.offsets ++ [neighbors.length]
    neighbors }

/-- `permute_entries` -/
def permuteEntries (g : HNSW) (map : ℕ → ℕ) : Except Fault HNSW := do
  let imap ← inverseMap g.ntotal map
  let s := (List.range g.ntotal).foldl (fun s i ↦ g.appendVertex imap (map i) s) ⟨[], [0], []⟩
  Fault.assert (s.offsets.getD g.ntotal 0 = g.offsets.getD g.ntotal 0)
    "new_offsets[ntotal] == offsets[ntotal]"
  return { g with
    entryPoint := if g.entryPoint ≠ -1 then imap g.entryPoint.toNat else g.entryPoint
    levels := s.levels
    offsets := s.offsets
    neighbors := s.neighbors ++ List.replicate (g.neighbors.length - s.neighbors.length) 0 }

/-! ## Graphs by their blocks -/

variable {g g' : HNSW} {map inv imap : ℕ → ℕ} {n : ℕ}

/-- The table of neighbours is made of the blocks of the vertices. -/
structure Laid (g : HNSW) : Prop where
  offsets_length : g.offsets.length = g.ntotal + 1
  offsets_zero : g.offsets.getD 0 0 = 0
  offsets_succ : ∀ i < g.ntotal,
    g.offsets.getD (i + 1) 0 = g.offsets.getD i 0 + g.cumNbNeighbors (g.level i)
  neighbors_length : g.neighbors.length = g.offsets.getD g.ntotal 0
  cum_le : ∀ i < g.ntotal, ∀ l < g.level i, g.cumNbNeighbors l ≤ g.cumNbNeighbors (l + 1)

/-- A graph as it is in memory: besides, the entries of the table are vertices or `-1`. -/
structure Stored (g : HNSW) : Prop extends WellFormed g where
  offsets_zero : g.offsets.getD 0 0 = 0
  cum_le : ∀ i < g.ntotal, ∀ l < g.level i, g.cumNbNeighbors l ≤ g.cumNbNeighbors (l + 1)
  entry_lt : ∀ v ∈ g.neighbors, v = -1 ∨ ∃ u < g.ntotal, v = (u : ℤ)

theorem Stored.laid (hg : g.Stored) : g.Laid :=
  ⟨hg.offsets_length, hg.offsets_zero, hg.offsets_succ, hg.neighbors_length, hg.cum_le⟩

def block (g : HNSW) (i : ℕ) : List ℤ :=
  let begin := g.offsets.getD i 0
  segment (-1) g.neighbors begin (g.offsets.getD (i + 1) 0 - begin)

theorem length_block (hg : g.Laid) {i : ℕ} (hi : i < g.ntotal) :
    (g.block i).length = g.cumNbNeighbors (g.level i) := by
  rw [block, length_segment, hg.offsets_succ i hi, Nat.add_sub_cancel_left]

theorem offsets_eq (hg : g.Laid) {i : ℕ} (hi : i ≤ g.ntotal) :
    g.offsets.getD i 0 = ((List.range i).flatMap g.block).length := by
  induction i with
  | zero => exact hg.offsets_zero
  | succ i ih =>
      rw [List.range_succ, List.flatMap_append, List.flatMap_singleton, List.length_append,
        ← ih (by omega), length_block hg hi]
      exact hg.offsets_succ i hi

theorem neighbors_eq (hg : g.Laid) : g.neighbors = (List.range g.ntotal).flatMap g.block := by
  have hfront : ∀ i ≤ g.ntotal, (List.range i).flatMap g.block =
      segment (-1) g.neighbors 0 (g.offsets.getD i 0) := by
    intro i hi
    induction i with
    | zero => rw [hg.offsets_zero]; rfl
    | succ i ih =>
        rw [List.range_succ, List.flatMap_append, List.flatMap_singleton, ih (by omega), block,
          hg.offsets_succ i hi, Nat.add_sub_cancel_left, segment_add, Nat.zero_add]
  rw [hfront _ le_rfl, ← hg.neighbors_length, segment_self]

theorem cum_le_level (hg : g.Laid) {i : ℕ} (hi : i < g.ntotal) {l : ℕ} (hl : l ≤ g.level i) :
    g.cumNbNeighbors l ≤ g.cumNbNeighbors (g.level i) := by
  induction hk : g.level i - l generalizing l with
  | zero => rw [show l = g.level i by omega]
  | succ k ih =>
      have hlt : l < g.level i := by omega
      exact (hg.cum_le i hi l hlt).trans (ih hlt (by omega))

theorem entries_eq (hg : g.Laid) {i : ℕ} (hi : i < g.ntotal) {l : ℕ} (hl : l < g.level i) :
    g.entries i l =
      segment (-1) (g.block i) (g.cumNbNeighbors l)
        (g.cumNbNeighbors (l + 1) - g.cumNbNeighbors l) := by
  have hmono := hg.cum_le i hi l hl
  have hin : g.cumNbNeighbors (l + 1) ≤ _ := cum_le_level hg hi hl
  rw [block, hg.offsets_succ i hi, Nat.add_sub_cancel_left, segment_segment (by omega)]
  unfold entries neighborRange Lib.segment
  dsimp only
  rw [Nat.add_sub_add_left]

theorem neighborList_eq_entries (g : HNSW) (i l : ℕ) :
    g.neighborList i l = ((g.entries i l).takeWhile fun v ↦ decide (0 ≤ v)).map Int.toNat := rfl

/-! ## The tables that are built -/

theorem foldl_appendVertex (g : HNSW) (imap map : ℕ → ℕ) (n : ℕ) :
    (List.range n).foldl (fun s i ↦ g.appendVertex imap (map i) s) ⟨[], [0], []⟩ =
      ⟨(List.range n).map fun i ↦ g.level (map i),
        (List.range (n + 1)).map fun i ↦
          ((List.range i).flatMap fun j ↦ (g.block (map j)).map (renamed imap)).length,
        (List.range n).flatMap fun i ↦ (g.block (map i)).map (renamed imap)⟩ := by
  induction n with
  | zero => rfl
  | succ n ih =>
      have hfold : (List.range (n + 1)).foldl (fun s i ↦ g.appendVertex imap (map i) s) ⟨[], [0], []⟩ =
          g.appendVertex imap (map n)
            ((List.range n).foldl (fun s i ↦ g.appendVertex imap (map i) s) ⟨[], [0], []⟩) := by
        rw [List.range_succ, List.foldl_append]
        rfl
      have hlevels : ((List.range (n + 1)).map fun i ↦ g.level (map i)) =
          ((List.range n).map fun i ↦ g.level (map i)) ++ [g.level (map n)] := by
        rw [List.range_succ, List.map_append]
        rfl
      have hblocks : ((List.range (n + 1)).flatMap fun i ↦ (g.block (map i)).map (renamed imap)) =
          ((List.range n).flatMap fun i ↦ (g.block (map i)).map (renamed imap)) ++
            (g.block (map n)).map (renamed imap) := by
        rw [List.range_succ, List.flatMap_append, List.flatMap_singleton]
      rw [hfold, ih, hlevels, hblocks, @List.range_succ (n + 1), List.map_append, List.map_singleton,
        hblocks]
      rfl

/-- A permutation of the numbers below `n`, and its inverse. -/
structure Permutation (n : ℕ) (map inv : ℕ → ℕ) : Prop where
  map_lt : ∀ i < n, map i < n
  inv_lt : ∀ i < n, inv i < n
  inv_map : ∀ i < n, inv (map i) = i
  map_inv : ∀ i < n, map (inv i) = i

theorem Permutation.symm (h : Permutation n map inv) : Permutation n inv map where
  map_lt := h.inv_lt
  inv_lt := h.map_lt
  inv_map := h.map_inv
  map_inv := h.inv_map

theorem inverseMap_eq (h : Permutation n map inv) :
    ∃ imap, inverseMap n map = .ok imap ∧ ∀ i < n, imap i = inv i := by
  have hrun : ∀ k ≤ n, ∃ imap, (List.range k).foldlM (fun (imap : ℕ → ℕ) i ↦ do
      Fault.assert (map i < n) "map[i] >= 0 && map[i] < ntotal"
      return update imap (map i) i) (fun _ ↦ 0) = .ok imap ∧ ∀ i < k, imap (map i) = i := by
    intro k hk
    induction k with
    | zero => exact ⟨_, rfl, fun i hi ↦ absurd hi (Nat.not_lt_zero i)⟩
    | succ k ih =>
        obtain ⟨imap, hloop, himap⟩ := ih (by omega)
        refine ⟨update imap (map k) k, ?_, fun i hi ↦ ?_⟩
        · rw [List.range_succ, List.foldlM_append, hloop]
          change (Fault.assert (decide (map k < n)) _ >>= fun _ ↦ _) >>= _ = _
          rw [decide_eq_true (h.map_lt k (by omega)), Fault.assert_true]
          rfl
        · rcases Nat.lt_succ_iff_lt_or_eq.mp hi with hlt | rfl
          · -- the new index of another vertex is not overwritten
            have hne : map i ≠ map k := fun heq ↦ by
              have := congrArg inv heq
              rw [h.inv_map i (by omega), h.inv_map k (by omega)] at this
              omega
            rw [update_of_ne hne]
            exact himap i hlt
          · exact update_self _ _ _
  obtain ⟨imap, hloop, himap⟩ := hrun n le_rfl
  refine ⟨imap, hloop, fun i hi ↦ ?_⟩
  have := himap (inv i) (h.inv_lt i hi)
  rwa [h.map_inv i hi] at this

theorem Permutation.perm_map_range (h : Permutation n map inv) :
    ((List.range n).map map).Perm (List.range n) := by
  have hnodup : ((List.range n).map map).Nodup :=
    List.nodup_range.map_on fun i hi j hj heq ↦ by
      have := congrArg inv heq
      rwa [h.inv_map i (List.mem_range.mp hi), h.inv_map j (List.mem_range.mp hj)] at this
  have hsub : (List.range n).map map ⊆ List.range n := fun x hx ↦ by
    obtain ⟨i, hi, rfl⟩ := List.mem_map.mp hx
    exact List.mem_range.mpr (h.map_lt i (List.mem_range.mp hi))
  refine (hnodup.subperm hsub).perm_of_length_le ?_
  rw [List.length_map]

theorem length_flatMap_blocks (h : Permutation n map inv) (f : ℕ → List ℤ) (e : ℤ → ℤ) :
    ((List.range n).flatMap fun i ↦ (f (map i)).map e).length =
      ((List.range n).flatMap f).length := by
  have hmap : ((List.range n).flatMap fun i ↦ (f (map i)).map e) =
      (((List.range n).map map).flatMap f).map e := by
    rw [List.map_flatMap, List.flatMap_map]
  rw [hmap, List.length_map]
  exact (h.perm_map_range.flatMap_right f).length_eq

/-! ## The graph with the vertices in another order -/

/-- The graph in which vertex `i` is the vertex `map i` of `g`. -/
def permuted (g : HNSW) (map inv : ℕ → ℕ) : HNSW :=
  { g with
    entryPoint := if g.entryPoint ≠ -1 then inv g.entryPoint.toNat else g.entryPoint
    levels := (List.range g.ntotal).map fun i ↦ g.level (map i)
    offsets := (List.range (g.ntotal + 1)).map fun i ↦
      ((List.range i).flatMap fun j ↦ (g.block (map j)).map (renamed inv)).length
    neighbors := (List.range g.ntotal).flatMap fun i ↦ (g.block (map i)).map (renamed inv) }

theorem mem_neighbors_of_block (hg : g.Laid) {i : ℕ} (hi : i < g.ntotal) {v : ℤ} (hv : v ∈ g.block i) :
    v ∈ g.neighbors := by
  rw [neighbors_eq hg]
  exact List.mem_flatMap.mpr ⟨i, List.mem_range.mpr hi, hv⟩

theorem renamed_congr (h : ∀ i < n, imap i = inv i) {v : ℤ} (hv : v = -1 ∨ ∃ u < n, v = (u : ℤ)) :
    renamed imap v = renamed inv v := by
  rcases hv with rfl | ⟨u, hu, rfl⟩
  · rfl
  · unfold renamed
    rw [Int.toNat_natCast, h u hu]

theorem renamed_renamed (h : Permutation n map inv) {v : ℤ}
    (hv : v = -1 ∨ ∃ u < n, v = (u : ℤ)) : renamed map (renamed inv v) = v := by
  rcases hv with rfl | ⟨u, hu, rfl⟩
  · rfl
  · unfold renamed
    rw [if_pos (Int.natCast_nonneg u), if_pos (Int.natCast_nonneg _), Int.toNat_natCast,
      Int.toNat_natCast, h.map_inv u hu]

/-- `permute_entries` with a permutation returns. -/
theorem permuteEntries_eq_permuted (hg : g.Stored) (h : Permutation g.ntotal map inv) :
    g.permuteEntries map = .ok (g.permuted map inv) := by
  obtain ⟨imap, hloop, himap⟩ := inverseMap_eq h
  have hblocks : ∀ i < g.ntotal, (g.block (map i)).map (renamed imap) =
      (g.block (map i)).map (renamed inv) := fun i hi ↦
    List.map_congr_left fun v hv ↦ renamed_congr himap
      (hg.entry_lt v (mem_neighbors_of_block hg.laid (h.map_lt i hi) hv))
  have hflat : ∀ k ≤ g.ntotal,
      ((List.range k).flatMap fun i ↦ (g.block (map i)).map (renamed imap)) =
        (List.range k).flatMap fun i ↦ (g.block (map i)).map (renamed inv) := fun k hk ↦
    List.flatMap_congr fun i hi ↦ hblocks i ((List.mem_range.mp hi).trans_le hk)
  have htotal : ((List.range g.ntotal).flatMap fun i ↦
      (g.block (map i)).map (renamed inv)).length = g.neighbors.length := by
    rw [length_flatMap_blocks h, ← neighbors_eq hg.laid]
  have hoffsets : ((List.range (g.ntotal + 1)).map fun i ↦
      ((List.range i).flatMap fun j ↦ (g.block (map j)).map (renamed imap)).length) =
      (List.range (g.ntotal + 1)).map fun i ↦
        ((List.range i).flatMap fun j ↦ (g.block (map j)).map (renamed inv)).length :=
    List.map_congr_left fun i hi ↦ by
      rw [hflat i (Nat.le_of_lt_succ (List.mem_range.mp hi))]
  have hlast : ((List.range (g.ntotal + 1)).map fun i ↦
      ((List.range i).flatMap fun j ↦ (g.block (map j)).map (renamed inv)).length).getD
        g.ntotal 0 = g.offsets.getD g.ntotal 0 := by
    rw [List.getD_eq_getElem _ _ (by rw [List.length_map, List.length_range]; omega),
      List.getElem_map, List.getElem_range, htotal, hg.neighbors_length]
  have hentry : (if g.entryPoint ≠ -1 then (imap g.entryPoint.toNat : ℤ) else g.entryPoint) =
      if g.entryPoint ≠ -1 then (inv g.entryPoint.toNat : ℤ) else g.entryPoint := by
    split
    · next hne =>
      rcases hg.entry with ⟨hnone, -⟩ | ⟨e, he, hlt, -⟩
      · exact absurd hnone hne
      · rw [he, Int.toNat_natCast, himap e hlt]
    · rfl
  unfold permuteEntries
  rw [hloop]
  change (Fault.assert _ _ >>= fun _ ↦ _) = _
  rw [foldl_appendVertex]
  dsimp only
  rw [hoffsets, hflat _ le_rfl, htotal, hlast, decide_eq_true rfl, Fault.assert_true, hentry,
    Nat.sub_self, List.replicate_zero, List.append_nil]
  rfl

section Permuted

variable (g map inv)

@[simp] theorem ntotal_permuted : (g.permuted map inv).ntotal = g.ntotal := by
  change ((List.range g.ntotal).map _).length = g.ntotal
  rw [List.length_map, List.length_range]

theorem level_permuted {i : ℕ} (hi : i < g.ntotal) :
    (g.permuted map inv).level i = g.level (map i) := by
  change ((List.range g.ntotal).map fun i ↦ g.level (map i)).getD i 0 = _
  rw [List.getD_eq_getElem _ _ (by rwa [List.length_map, List.length_range]), List.getElem_map,
    List.getElem_range]

theorem offsets_permuted {i : ℕ} (hi : i ≤ g.ntotal) :
    (g.permuted map inv).offsets.getD i 0 =
      ((List.range i).flatMap fun j ↦ (g.block (map j)).map (renamed inv)).length := by
  change ((List.range (g.ntotal + 1)).map fun i ↦
    ((List.range i).flatMap fun j ↦ (g.block (map j)).map (renamed inv)).length).getD i 0 = _
  rw [List.getD_eq_getElem _ _ (by rw [List.length_map, List.length_range]; omega),
    List.getElem_map, List.getElem_range]

theorem offsets_permuted_succ {i : ℕ} (hi : i < g.ntotal) :
    (g.permuted map inv).offsets.getD (i + 1) 0 =
      (g.permuted map inv).offsets.getD i 0 + (g.block (map i)).length := by
  rw [offsets_permuted g map inv hi, offsets_permuted g map inv hi.le, List.range_succ,
    List.flatMap_append, List.flatMap_singleton, List.length_append, List.length_map]

theorem block_permuted {i : ℕ} (hi : i < g.ntotal) :
    (g.permuted map inv).block i = (g.block (map i)).map (renamed inv) := by
  rw [block, offsets_permuted_succ g map inv hi, Nat.add_sub_cancel_left,
    offsets_permuted g map inv hi.le, ← @List.length_map _ _ (g.block (map i)) (renamed inv)]
  exact segment_flatMap_range hi fun i ↦ (g.block (map i)).map (renamed inv)

end Permuted

theorem laid_permuted (hg : g.Stored) (h : Permutation g.ntotal map inv) :
    (g.permuted map inv).Laid where
  offsets_length := by
    rw [ntotal_permuted]
    change ((List.range (g.ntotal + 1)).map _).length = _
    rw [List.length_map, List.length_range]
  offsets_zero := offsets_permuted g map inv (Nat.zero_le _)
  offsets_succ := fun i hi ↦ by
    rw [ntotal_permuted] at hi
    rw [offsets_permuted_succ g map inv hi, length_block hg.laid (h.map_lt i hi),
      level_permuted g map inv hi]
    rfl
  neighbors_length := by
    rw [ntotal_permuted, offsets_permuted g map inv le_rfl]
    rfl
  cum_le := fun i hi l hl ↦ by
    rw [ntotal_permuted] at hi
    rw [level_permuted g map inv hi] at hl
    exact hg.cum_le (map i) (h.map_lt i hi) l hl

/-- The list of a vertex on a level is that of the old one, with the new ids. -/
theorem entries_permuted (hg : g.Stored) (h : Permutation g.ntotal map inv) {i l : ℕ}
    (hi : i < g.ntotal) (hl : l < g.level (map i)) :
    (g.permuted map inv).entries i l = (g.entries (map i) l).map (renamed inv) := by
  have hi' : i < (g.permuted map inv).ntotal := by rwa [ntotal_permuted]
  have hin : g.cumNbNeighbors (l + 1) ≤ (g.block (map i)).length := by
    rw [length_block hg.laid (h.map_lt i hi)]
    exact cum_le_level hg.laid (h.map_lt i hi) hl
  have hmono := hg.cum_le (map i) (h.map_lt i hi) l hl
  rw [entries_eq (laid_permuted hg h) hi' (by rwa [level_permuted g map inv hi]),
    entries_eq hg.laid (h.map_lt i hi) hl, block_permuted g map inv hi]
  refine segment_map (renamed inv) ?_
  change g.cumNbNeighbors l + (g.cumNbNeighbors (l + 1) - g.cumNbNeighbors l) ≤ _
  omega

theorem renamed_nonneg_iff (imap : ℕ → ℕ) (v : ℤ) : 0 ≤ renamed imap v ↔ 0 ≤ v := by
  unfold renamed
  split
  · next hv => exact ⟨fun _ ↦ hv, fun _ ↦ Int.natCast_nonneg _⟩
  · exact Iff.rfl

section
variable (hg : g.Stored) (h : Permutation g.ntotal map inv)
include hg h

theorem neighborList_permuted {i l : ℕ}
    (hi : i < g.ntotal) (hl : l < g.level (map i)) :
    (g.permuted map inv).neighborList i l = (g.neighborList (map i) l).map inv := by
  have hsign : ((fun v : ℤ ↦ decide (0 ≤ v)) ∘ renamed inv) = fun v ↦ decide (0 ≤ v) := by
    funext v
    exact decide_eq_decide.mpr (renamed_nonneg_iff inv v)
  rw [neighborList_eq_entries, neighborList_eq_entries, entries_permuted hg h hi hl,
    List.takeWhile_map, hsign, List.map_map, List.map_map]
  refine List.map_congr_left fun v hv ↦ ?_
  have hsigned := List.mem_takeWhile_imp hv
  have hnonneg : 0 ≤ v := of_decide_eq_true hsigned
  rw [Function.comp_apply, Function.comp_apply, renamed, if_pos hnonneg, Int.toNat_natCast]

/-- The new graph is well formed. -/
theorem stored_permuted :
    (g.permuted map inv).Stored where
  offsets_length := (laid_permuted hg h).offsets_length
  offsets_succ := (laid_permuted hg h).offsets_succ
  neighbors_length := (laid_permuted hg h).neighbors_length
  offsets_zero := (laid_permuted hg h).offsets_zero
  cum_le := (laid_permuted hg h).cum_le
  level_pos := fun i hi ↦ by
    rw [ntotal_permuted] at hi
    rw [level_permuted g map inv hi]
    exact hg.level_pos (map i) (h.map_lt i hi)
  neighbor := fun i hi l hl v hv ↦ by
    rw [ntotal_permuted] at hi ⊢
    rw [level_permuted g map inv hi] at hl
    rw [neighborList_permuted hg h hi hl] at hv
    obtain ⟨u, hu, rfl⟩ := List.mem_map.mp hv
    obtain ⟨hlt, hlevel⟩ := hg.neighbor (map i) (h.map_lt i hi) l hl u hu
    have hlt' := h.inv_lt u hlt
    rw [level_permuted g map inv hlt', h.map_inv u hlt]
    exact ⟨hlt', hlevel⟩
  entry := by
    rw [ntotal_permuted]
    rcases hg.entry with ⟨hnone, hzero⟩ | ⟨e, he, hlt, hlevel⟩
    · refine Or.inl ⟨?_, hzero⟩
      change (if g.entryPoint ≠ -1 then (inv g.entryPoint.toNat : ℤ) else g.entryPoint) = -1
      rw [hnone, if_neg (not_not_intro rfl)]
    · refine Or.inr ⟨inv e, ?_, h.inv_lt e hlt, ?_⟩
      · change (if g.entryPoint ≠ -1 then (inv g.entryPoint.toNat : ℤ) else g.entryPoint) = _
        rw [he, if_pos (by omega), Int.toNat_natCast]
      · rw [level_permuted g map inv (h.inv_lt e hlt), h.map_inv e hlt]
        exact hlevel
  entry_lt := fun v hv ↦ by
    rw [ntotal_permuted]
    obtain ⟨i, hi, hv⟩ := List.mem_flatMap.mp hv
    obtain ⟨u, hu, rfl⟩ := List.mem_map.mp hv
    have hi' := h.map_lt i (List.mem_range.mp hi)
    rcases hg.entry_lt u (mem_neighbors_of_block hg.laid hi' hu) with rfl | ⟨u', hu', rfl⟩
    · exact Or.inl rfl
    · refine Or.inr ⟨inv u', h.inv_lt u' hu', ?_⟩
      rw [renamed, if_pos (Int.natCast_nonneg u'), Int.toNat_natCast]

/-- With the inverse, the vertices are where they were. -/
theorem permuted_permuted :
    (g.permuted map inv).permuted inv map = g := by
  have hblock : ∀ i < g.ntotal,
      ((g.permuted map inv).block (inv i)).map (renamed map) = g.block i := by
    intro i hi
    rw [block_permuted g map inv (h.inv_lt i hi), h.map_inv i hi, List.map_map]
    refine (List.map_congr_left fun v hv ↦ ?_).trans (List.map_id _)
    exact renamed_renamed h (hg.entry_lt v (mem_neighbors_of_block hg.laid hi hv))
  have hflat : ∀ k ≤ g.ntotal,
      ((List.range k).flatMap fun i ↦ ((g.permuted map inv).block (inv i)).map (renamed map)) =
        (List.range k).flatMap g.block := fun k hk ↦
    List.flatMap_congr fun i hi ↦ hblock i ((List.mem_range.mp hi).trans_le hk)
  have hlevels : ((List.range (g.permuted map inv).ntotal).map fun i ↦
      (g.permuted map inv).level (inv i)) = g.levels := by
    rw [ntotal_permuted]
    refine List.ext_getElem (by rw [List.length_map, List.length_range]; rfl) fun i h1 h2 ↦ ?_
    have hi : i < g.ntotal := h2
    rw [List.getElem_map, List.getElem_range, level_permuted g map inv (h.inv_lt i hi),
      h.map_inv i hi]
    exact List.getD_eq_getElem _ _ h2
  have hoffsets : ((List.range ((g.permuted map inv).ntotal + 1)).map fun i ↦ ((List.range i).flatMap
      fun j ↦ ((g.permuted map inv).block (inv j)).map (renamed map)).length) = g.offsets := by
    rw [ntotal_permuted]
    refine List.ext_getElem (by rw [List.length_map, List.length_range, hg.offsets_length])
      fun i h1 h2 ↦ ?_
    have hi : i ≤ g.ntotal := by
      rw [hg.offsets_length] at h2
      exact Nat.le_of_lt_succ h2
    rw [List.getElem_map, List.getElem_range, hflat i hi, ← offsets_eq hg.laid hi]
    exact List.getD_eq_getElem _ _ h2
  have hneighbors : ((List.range (g.permuted map inv).ntotal).flatMap fun i ↦
      ((g.permuted map inv).block (inv i)).map (renamed map)) = g.neighbors := by
    rw [ntotal_permuted, hflat _ le_rfl, ← neighbors_eq hg.laid]
  have hentry : (if (g.permuted map inv).entryPoint ≠ -1 then
      (map (g.permuted map inv).entryPoint.toNat : ℤ) else (g.permuted map inv).entryPoint) =
      g.entryPoint := by
    change (if (if g.entryPoint ≠ -1 then (inv g.entryPoint.toNat : ℤ) else g.entryPoint) ≠ -1 then
      (map (if g.entryPoint ≠ -1 then (inv g.entryPoint.toNat : ℤ) else g.entryPoint).toNat : ℤ)
      else (if g.entryPoint ≠ -1 then (inv g.entryPoint.toNat : ℤ) else g.entryPoint)) = g.entryPoint
    rcases hg.entry with ⟨hnone, -⟩ | ⟨e, he, hlt, -⟩
    · rw [hnone, if_neg (not_not_intro rfl), if_neg (not_not_intro rfl)]
    · rw [he, if_pos (by omega), Int.toNat_natCast, if_pos (by omega), Int.toNat_natCast,
        h.map_inv e hlt]
  unfold permuted at hlevels hoffsets hneighbors hentry ⊢
  dsimp only at hlevels hoffsets hneighbors hentry ⊢
  rw [hlevels, hoffsets, hneighbors, hentry]

end

/-- `permute_entries` with a permutation returns a graph in which vertex `i` has the level of the old
vertex `map i`, and its lists with the new ids in place of the old ones.  It is well formed, and the
inverse permutation gives the old graph back. -/
theorem permuteEntries_isomorphic (hg : g.Stored) (h : Permutation g.ntotal map inv) :
    ∃ g', g.permuteEntries map = .ok g' ∧ g'.Stored ∧ g'.ntotal = g.ntotal ∧
      (∀ i < g.ntotal, g'.level i = g.level (map i) ∧
        ∀ l < g.level (map i), g'.entries i l = (g.entries (map i) l).map (renamed inv)) ∧
      g'.entryPoint = (if g.entryPoint ≠ -1 then (inv g.entryPoint.toNat : ℤ) else g.entryPoint) ∧
      g'.maxLevel = g.maxLevel ∧ g'.permuteEntries inv = .ok g := by
  have hstored := stored_permuted hg h
  refine ⟨g.permuted map inv, permuteEntries_eq_permuted hg h, hstored, ntotal_permuted g map inv,
    fun i hi ↦ ⟨level_permuted g map inv hi, fun l hl ↦ entries_permuted hg h hi hl⟩, rfl, rfl, ?_⟩
  have hback : Permutation (g.permuted map inv).ntotal inv map := by
    rw [ntotal_permuted]
    exact h.symm
  rw [permuteEntries_eq_permuted hstored hback, permuted_permuted hg h]

/-- Three vertices in a cycle, which change places in turn. -/
theorem permuteEntries_isomorphic_cycle :
    ∃ g', permuteEntries ⟨[0, 1], [1, 1, 1], [0, 1, 2, 3], [1, 2, 0], 0, 0, 16, true, true⟩
        (fun i ↦ (i + 1) % 3) = .ok g' ∧ g'.entryPoint = 2 := by
  have hstored : Stored ⟨[0, 1], [1, 1, 1], [0, 1, 2, 3], [1, 2, 0], 0, 0, 16, true, true⟩ :=
    { offsets_length := rfl
      offsets_succ := by decide
      neighbors_length := rfl
      level_pos := by decide
      neighbor := by decide
      entry := Or.inr ⟨0, rfl, by decide, rfl⟩
      offsets_zero := rfl
      cum_le := by decide
      entry_lt := fun v hv ↦ by
        have hall : ∀ v ∈ [(1 : ℤ), 2, 0], 0 ≤ v ∧ v < 3 := by decide
        obtain ⟨h0, h3⟩ := hall v hv
        exact Or.inr ⟨v.toNat, by change v.toNat < 3; omega, (Int.toNat_of_nonneg h0).symm⟩ }
  have hperm : Permutation 3 (fun i ↦ (i + 1) % 3) (fun i ↦ (i + 2) % 3) :=
    ⟨by decide, by decide, by decide, by decide⟩
  obtain ⟨g', hrun, -, -, -, hentry, -⟩ := permuteEntries_isomorphic hstored hperm
  exact ⟨g', hrun, hentry⟩

end HNSW

end FaissNavix
