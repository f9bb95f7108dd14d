import FaissNavix.HNSW.Shrink
import FaissNavix.Lib.Segments

/-!
# Links between vertices

`add_link` of `faiss/impl/HNSW.cpp`, which puts a vertex in the list of another one on one level.
If the list is full, its vertices and the new one are shrunk to what there is room for, and the
list is written anew.

The lists of all vertices on all of their levels are in one table, one after the other.  A link
changes one of them and none of the others, and the one it changes is again some different ids
followed by `-1` (`addLink_spec`).
-/

namespace FaissNavix

open Lib (segment overwrite)
open Lib.PriorityQueue (drain pushEach pushEach_perm)

/-- The loop that looks for the first slot after the last id: there are `n` entries up to `i`. -/
def freeSlot (neighbors : List ℤ) (begin : ℕ) : ℕ → ℕ
  | 0 => begin
  | n + 1 =>
    if neighbors.getD (begin + n) (-1) ≠ -1 then begin + n + 1 else freeSlot neighbors begin n

/-- `add_link` -/
def HNSW.addLink (g : HNSW) (symmetricDis : ℕ → ℕ → F32) (src dest level : ℕ)
    (keepMaxSizeLevel0 : Bool) : HNSW :=
  let r := g.neighborRange src level
  if g.neighbors.getD (r.2 - 1) (-1) = -1 then
    { g with neighbors := g.neighbors.set (freeSlot g.neighbors r.1 (r.2 - r.1)) dest }
  else
    let resultSet := pushEach [(symmetricDis src dest, dest)]
      ((g.entries src level).map fun neigh ↦ (symmetricDis src neigh.toNat, neigh.toNat))
    let resultSet := FaissNavix.shrinkNeighborList symmetricDis resultSet (r.2 - r.1)
      keepMaxSizeLevel0
    let ids := (drain closer resultSet.length resultSet).map fun v ↦ (v.2 : ℤ)
    let neighbors := overwrite g.neighbors r.1 ids
    { g with
      neighbors := overwrite neighbors (r.1 + ids.length)
        (List.replicate (r.2 - (r.1 + ids.length)) (-1)) }

/-! ## Lists that are filled up -/

/-- Ids followed by `-1` only. -/
def Padded (ids : List ℕ) (xs : List ℤ) : Prop :=
  ∃ k, xs = ids.map (fun v : ℕ ↦ (v : ℤ)) ++ List.replicate k (-1)

variable {ids : List ℕ} {xs : List ℤ} {b n : ℕ}

theorem padded_replicate (n : ℕ) : Padded [] (List.replicate n (-1)) := ⟨n, rfl⟩

theorem Padded.length_le (h : Padded ids (segment (-1) xs b n)) : ids.length ≤ n := by
  obtain ⟨k, hk⟩ := h
  have hlen := congrArg List.length hk
  rw [Lib.length_segment, List.length_append, List.length_map] at hlen
  omega

theorem Padded.takeWhile (h : Padded ids xs) :
    (xs.takeWhile fun v ↦ decide (0 ≤ v)).map Int.toNat = ids := by
  obtain ⟨k, rfl⟩ := h
  have hpad : ((List.replicate k (-1 : ℤ)).takeWhile fun v ↦ decide (0 ≤ v)) = [] := by
    rw [List.takeWhile_replicate, if_neg (by decide)]
  rw [List.takeWhile_append_of_pos (by simp), hpad, List.append_nil, List.map_map]
  exact (List.map_congr_left fun v _ ↦ Int.toNat_natCast v).trans (List.map_id _)

theorem Padded.cut (h : Padded ids (segment (-1) xs b n)) :
    segment (-1) xs b ids.length = ids.map (fun v : ℕ ↦ (v : ℤ)) ∧
      segment (-1) xs (b + ids.length) (n - ids.length) =
        List.replicate (n - ids.length) (-1) := by
  have hle := h.length_le
  obtain ⟨k, hk⟩ := h
  obtain ⟨m, rfl⟩ := Nat.exists_eq_add_of_le hle
  rw [Nat.add_sub_cancel_left]
  rw [Lib.segment_add] at hk
  obtain ⟨hids, hrest⟩ := List.append_inj hk (by rw [Lib.length_segment, List.length_map])
  have hkm := congrArg List.length hrest
  rw [Lib.length_segment, List.length_replicate] at hkm
  exact ⟨hids, by rw [hrest, hkm]⟩

theorem padded_of_cut (hn : ids.length ≤ n)
    (hids : segment (-1) xs b ids.length = ids.map (fun v : ℕ ↦ (v : ℤ)))
    (hrest : segment (-1) xs (b + ids.length) (n - ids.length) =
      List.replicate (n - ids.length) (-1)) : Padded ids (segment (-1) xs b n) := by
  obtain ⟨m, rfl⟩ := Nat.exists_eq_add_of_le hn
  rw [Nat.add_sub_cancel_left] at hrest
  exact ⟨m, by rw [Lib.segment_add, hids, hrest]⟩

theorem Padded.getD_eq (h : Padded ids (segment (-1) xs b n)) {j : ℕ} (hj : j < n) :
    (j < ids.length → xs.getD (b + j) (-1) ≠ -1) ∧
      (ids.length ≤ j → xs.getD (b + j) (-1) = -1) := by
  obtain ⟨hids, hrest⟩ := h.cut
  refine ⟨fun hlt ↦ ?_, fun hle ↦ ?_⟩
  · rw [Lib.getD_of_segment hids hlt, List.getD_eq_getElem _ _ (by simpa using hlt), List.getElem_map]
    omega
  · obtain ⟨i, rfl⟩ := Nat.exists_eq_add_of_le hle
    rw [← Nat.add_assoc, Lib.getD_of_segment hrest (show i < n - ids.length by omega),
      List.getD_eq_getElem?_getD, List.getElem?_replicate]
    split <;> rfl

theorem Padded.freeSlot_eq (h : Padded ids (segment (-1) xs b n)) :
    freeSlot xs b n = b + ids.length := by
  have hle := h.length_le
  have hslot : ∀ m, ids.length ≤ m → m ≤ n → freeSlot xs b m = b + ids.length := by
    intro m
    induction m with
    | zero => intro hm _; rw [freeSlot, Nat.le_zero.mp hm]; rfl
    | succ m ih =>
        intro hm hmn
        obtain ⟨hid, hpad⟩ := h.getD_eq (show m < n by omega)
        rw [freeSlot]
        rcases Nat.lt_or_ge m ids.length with hlt | hge
        · rw [if_pos (hid hlt)]
          omega
        · rw [if_neg (not_not_intro (hpad hge)), ih hge (by omega)]
  exact hslot n hle le_rfl

theorem Padded.set (h : Padded ids (segment (-1) xs b n)) (hroom : ids.length < n)
    (hlen : b + n ≤ xs.length) (v : ℕ) :
    Padded (ids ++ [v]) (segment (-1) (xs.set (b + ids.length) v) b n) := by
  obtain ⟨hids, hrest⟩ := h.cut
  obtain ⟨m, hm⟩ := Nat.exists_eq_add_of_lt hroom
  rw [show n - ids.length = 1 + m by omega, Lib.segment_add, List.replicate_add] at hrest
  obtain ⟨-, hpad⟩ := List.append_inj hrest (by simp)
  refine padded_of_cut (by rw [List.length_append]; exact hroom) ?_ ?_
  · rw [List.length_append, List.length_singleton, Lib.segment_succ,
      Lib.segment_set_of_disjoint _ (Or.inl le_rfl), hids,
      Lib.getD_set, if_pos ⟨rfl, by omega⟩, List.map_append]
    rfl
  · rw [List.length_append, List.length_singleton, ← Nat.add_assoc,
      Lib.segment_set_of_disjoint _ (Or.inr (Nat.lt_succ_self _)),
      show n - (ids.length + 1) = m by omega, hpad]

theorem padded_overwrite (hn : ids.length ≤ n) (hlen : b + n ≤ xs.length) :
    Padded ids (segment (-1) (overwrite (overwrite xs b (ids.map fun v : ℕ ↦ (v : ℤ)))
      (b + ids.length) (List.replicate (n - ids.length) (-1))) b n) := by
  have happ := Lib.overwrite_append xs b (ids.map fun v : ℕ ↦ (v : ℤ))
    (List.replicate (n - ids.length) (-1))
  have hn' : (ids.map (fun v : ℕ ↦ (v : ℤ)) ++ List.replicate (n - ids.length) (-1)).length = n := by
    rw [List.length_append, List.length_map, List.length_replicate]
    omega
  rw [List.length_map] at happ
  refine ⟨n - ids.length, ?_⟩
  rw [happ]
  exact (congrArg _ hn').symm.trans (Lib.segment_overwrite (by omega))

/-! ## One link -/

variable {g : HNSW} {src dest level : ℕ}

/-- What one link does to the table: it changes the list of `src`, to different ids that were there
before or are new. -/
structure Relinks (g : HNSW) (src dest level : ℕ) (ids : List ℕ) (g' : HNSW) (ids' : List ℕ) :
    Prop where
  eq : ∃ neighbors, g' = { g with neighbors }
  length_eq : g'.neighbors.length = g.neighbors.length
  outside : ∀ j, j < (g.neighborRange src level).1 ∨ (g.neighborRange src level).2 ≤ j →
    g'.neighbors.getD j (-1) = g.neighbors.getD j (-1)
  padded : Padded ids' (g'.entries src level)
  nodup : ids'.Nodup
  mem : ∀ v ∈ ids', v = dest ∨ v ∈ ids

theorem nodeIds_pushEach (w : ℕ → F32) (dest : ℕ) (ids : List ℕ) :
    nodeIds (pushEach [(w dest, dest)]
      ((ids.map fun v : ℕ ↦ (v : ℤ)).map fun neigh ↦ (w neigh.toNat, neigh.toNat))) =
        dest ::ₘ ↑ids := by
  have hmap : ((ids.map fun v : ℕ ↦ (v : ℤ)).map
      fun neigh ↦ ((w neigh.toNat, neigh.toNat) : Node)).map Prod.snd = ids := by
    rw [List.map_map, List.map_map]
    exact (List.map_congr_left fun v _ ↦ Int.toNat_natCast v).trans (List.map_id _)
  rw [nodeIds, Multiset.coe_eq_coe.mpr ((pushEach_perm _ _).map Prod.snd), List.map_append, hmap]
  exact Multiset.coe_eq_coe.mpr (List.perm_append_singleton dest ids)

theorem addLink_spec (symmetricDis : ℕ → ℕ → F32) (keepMaxSizeLevel0 : Bool)
    (hroom : (g.neighborRange src level).1 < (g.neighborRange src level).2)
    (hlen : (g.neighborRange src level).2 ≤ g.neighbors.length)
    (hids : Padded ids (g.entries src level)) (hnodup : (dest :: ids).Nodup) :
    ∃ ids', Relinks g src dest level ids
      (g.addLink symmetricDis src dest level keepMaxSizeLevel0) ids' := by
  obtain ⟨n, hn⟩ := Nat.exists_eq_add_of_lt hroom
  have hrange : (g.neighborRange src level).2 - (g.neighborRange src level).1 = n + 1 := by omega
  have hseg : g.entries src level =
      segment (-1) g.neighbors (g.neighborRange src level).1 (n + 1) := by
    rw [← hrange]; rfl
  rw [hseg] at hids
  obtain ⟨hid, hpad⟩ := hids.getD_eq (Nat.lt_succ_self n)
  rw [HNSW.addLink]
  dsimp only
  rw [show (g.neighborRange src level).2 - 1 = (g.neighborRange src level).1 + n by omega]
  split
  · next hlast =>
    have hfree : ids.length < n + 1 := by
      by_contra hfull
      exact hid (by omega) hlast
    rw [hrange, hids.freeSlot_eq]
    refine ⟨ids ++ [dest], ⟨⟨_, rfl⟩, List.length_set, fun j hj ↦ ?_, ?_, ?_, ?_⟩⟩
    · exact (Lib.getD_set _ _ _ _).trans (if_neg (by omega))
    · change Padded _ (segment (-1) _ _ ((g.neighborRange src level).2 -
        (g.neighborRange src level).1))
      rw [hrange]
      exact hids.set hfree (by omega) dest
    · exact ((List.perm_append_singleton dest ids).nodup_iff).mpr hnodup
    · intro v hv
      rcases List.mem_append.mp hv with hv | hv
      · exact Or.inr hv
      · exact Or.inl (List.mem_singleton.mp hv)
  · next hlast =>
    have hfull : ids.length = n + 1 := by
      by_contra hne
      have hle := hids.length_le
      exact hlast (hpad (by omega))
    have hentries : g.entries src level = ids.map fun v : ℕ ↦ (v : ℤ) := by
      rw [hseg, ← hfull]
      exact hids.cut.1
    rw [hentries, hrange]
    have hset := nodeIds_pushEach (symmetricDis src) dest ids
    generalize pushEach _ _ = resultSet at hset ⊢
    obtain ⟨hids', hout⟩ := drain_shrinkNeighborList symmetricDis keepMaxSizeLevel0 resultSet
      (Nat.le_add_left 1 n) rfl
    rw [hset] at hids'
    generalize FaissNavix.shrinkNeighborList symmetricDis resultSet (n + 1) keepMaxSizeLevel0 =
      kept at hids' hout ⊢
    generalize drain closer kept.length kept = out at hids' hout ⊢
    have hcast : (out.map fun v ↦ (v.2 : ℤ)) = (out.map Prod.snd).map fun v : ℕ ↦ (v : ℤ) :=
      List.map_map.symm
    rw [hcast, List.length_map]
    generalize out.map Prod.snd = ids' at hids' hout ⊢
    refine ⟨ids', ⟨⟨_, rfl⟩, ?_, fun j hj ↦ ?_, ?_, ?_, ?_⟩⟩
    · rw [Lib.length_overwrite, Lib.length_overwrite]
    · rw [Lib.getD_overwrite_of_outside, Lib.getD_overwrite_of_outside]
      · rw [List.length_map]
        omega
      · rw [List.length_replicate]
        omega
    · change Padded _ (segment (-1) _ _ ((g.neighborRange src level).2 -
        (g.neighborRange src level).1))
      rw [hrange, show (g.neighborRange src level).2 - ((g.neighborRange src level).1 + ids'.length) =
        n + 1 - ids'.length by omega]
      exact padded_overwrite hout (by omega)
    · exact Multiset.nodup_of_le hids' hnodup
    · intro v hv
      rcases Multiset.mem_cons.mp (Multiset.mem_of_le hids' (Multiset.mem_coe.mpr hv)) with hv | hv
      · exact Or.inl hv
      · exact Or.inr hv

end FaissNavix

/-!
# The lists of a growing graph

Where the lists of the vertices are in the table, and what they hold while vertices are inserted.
An insertion works on one level after the other, so that what may be in a list depends on the
level: `P l v` says that the insertions have got to `v` on level `l`.  A list holds different
vertices that are present on its level, its own vertex not among them, and nothing as long as its
own vertex is not present there (`Linked`).

Links between vertices that are present on a level keep this (`Linked.foldl_addLink`).
-/

namespace FaissNavix

open Lib (segment)

/-- The tables have the sizes that the levels of the vertices give, every level of the table has
room for a neighbour, and the levels of the vertices are levels of the table. -/
structure Layout (g : HNSW) : Prop where
  offsets_length : g.offsets.length = g.ntotal + 1
  offsets_succ : ∀ i < g.ntotal,
    g.offsets.getD (i + 1) 0 = g.offsets.getD i 0 + g.cumNbNeighbors (g.level i)
  neighbors_length : g.neighbors.length = g.offsets.getD g.ntotal 0
  room : ∀ l, l + 1 < g.cumNneighborPerLevel.length → g.cumNbNeighbors l < g.cumNbNeighbors (l + 1)
  level_pos : ∀ i < g.ntotal, 1 ≤ g.level i
  level_lt : ∀ i < g.ntotal, g.level i < g.cumNneighborPerLevel.length

namespace Layout

variable {g : HNSW} {i j l m : ℕ}

variable (hg : Layout g)
include hg

theorem cum_mono (hlm : l ≤ m) (hm : m < g.cumNneighborPerLevel.length) :
    g.cumNbNeighbors l ≤ g.cumNbNeighbors m := by
  induction m, hlm using Nat.le_induction with
  | base => exact le_rfl
  | succ m _ ih => exact (ih (by omega)).trans (hg.room m hm).le

theorem offsets_mono (hij : i ≤ j) (hj : j ≤ g.ntotal) :
    g.offsets.getD i 0 ≤ g.offsets.getD j 0 := by
  induction j, hij using Nat.le_induction with
  | base => exact le_rfl
  | succ j _ ih =>
      rw [hg.offsets_succ j hj]
      exact (ih (by omega)).trans (Nat.le_add_right _ _)

theorem range_lt (hi : i < g.ntotal) (hl : l < g.level i) :
    (g.neighborRange i l).1 < (g.neighborRange i l).2 :=
  Nat.add_lt_add_left (hg.room l ((Nat.succ_le_of_lt hl).trans_lt (hg.level_lt i hi))) _

theorem range_le (hi : i < g.ntotal) (hl : l < g.level i) :
    (g.neighborRange i l).2 ≤ g.offsets.getD (i + 1) 0 := by
  rw [hg.offsets_succ i hi]
  exact Nat.add_le_add_left (hg.cum_mono hl (hg.level_lt i hi)) _

theorem range_le_length (hi : i < g.ntotal) (hl : l < g.level i) :
    (g.neighborRange i l).2 ≤ g.neighbors.length := by
  rw [hg.neighbors_length]
  exact (hg.range_le hi hl).trans (hg.offsets_mono hi le_rfl)

theorem range_le_of_lt (hij : i < j) (hj : j < g.ntotal) (hl : l < g.level i) :
    (g.neighborRange i l).2 ≤ (g.neighborRange j m).1 :=
  (hg.range_le (hij.trans hj) hl).trans
    ((hg.offsets_mono hij hj.le).trans (Nat.le_add_right _ _))

theorem range_le_of_level_lt (hi : i < g.ntotal) (hlm : l < m)
    (hm : m < g.level i) : (g.neighborRange i l).2 ≤ (g.neighborRange i m).1 :=
  Nat.add_le_add_left (hg.cum_mono hlm (hm.trans (hg.level_lt i hi))) _

theorem range_disjoint (hi : i < g.ntotal) (hl : l < g.level i) (hj : j < g.ntotal)
    (hm : m < g.level j) (hne : (i, l) ≠ (j, m)) :
    (g.neighborRange i l).2 ≤ (g.neighborRange j m).1 ∨
      (g.neighborRange j m).2 ≤ (g.neighborRange i l).1 := by
  rcases lt_trichotomy i j with hij | rfl | hji
  · exact Or.inl (hg.range_le_of_lt hij hj hl)
  · rcases lt_trichotomy l m with hlm | rfl | hml
    · exact Or.inl (hg.range_le_of_level_lt hi hlm hm)
    · exact absurd rfl hne
    · exact Or.inr (hg.range_le_of_level_lt hi hml hl)
  · exact Or.inr (hg.range_le_of_lt hji hi hm)

theorem rewire {neighbors : List ℤ} (hlen : neighbors.length = g.neighbors.length) :
    Layout { g with neighbors } :=
  { hg with neighbors_length := hlen.trans hg.neighbors_length }

end Layout

/-! ## Lists of vertices that are present -/

theorem neighborList_eq {g : HNSW} {i l : ℕ} {ids : List ℕ} (h : Padded ids (g.entries i l)) :
    g.neighborList i l = ids :=
  h.takeWhile

/-- The list of `i` on level `l`. -/
structure ListOk (P : ℕ → ℕ → Prop) (i l : ℕ) (ids : List ℕ) : Prop where
  nodup : ids.Nodup
  self : i ∉ ids
  present : ∀ v ∈ ids, P l v
  owner : ids ≠ [] → P l i

/-- The graph while `P` says which vertices are present on which levels. -/
structure Linked (g : HNSW) (P : ℕ → ℕ → Prop) : Prop where
  layout : Layout g
  lt : ∀ l v, P l v → v < g.ntotal ∧ l < g.level v
  padded : ∀ i < g.ntotal, ∀ l < g.level i, Padded (g.neighborList i l) (g.entries i l)
  list : ∀ i < g.ntotal, ∀ l < g.level i, ListOk P i l (g.neighborList i l)

def Rewired (g g' : HNSW) : Prop := ∃ neighbors, g' = { g with neighbors }

theorem Rewired.refl (g : HNSW) : Rewired g g := ⟨_, rfl⟩

theorem Rewired.trans {g g' g'' : HNSW} (h : Rewired g g') (h' : Rewired g' g'') :
    Rewired g g'' := by
  obtain ⟨neighbors, rfl⟩ := h
  obtain ⟨neighbors', rfl⟩ := h'
  exact ⟨neighbors', rfl⟩

variable {g g' : HNSW} {P Q : ℕ → ℕ → Prop} {src dest level : ℕ}

theorem Linked.mono (h : Linked g P) (hPQ : ∀ l v, P l v → Q l v)
    (hQ : ∀ l v, Q l v → v < g.ntotal ∧ l < g.level v) : Linked g Q where
  layout := h.layout
  lt := hQ
  padded := h.padded
  list i hi l hl :=
    let hlist := h.list i hi l hl
    ⟨hlist.nodup, hlist.self, fun v hv ↦ hPQ l v (hlist.present v hv),
      fun hne ↦ hPQ l i (hlist.owner hne)⟩

/-- One link. -/
theorem Linked.addLink (h : Linked g P) (symmetricDis : ℕ → ℕ → F32) (keepMaxSizeLevel0 : Bool)
    (hsrc : P level src) (hdest : P level dest) (hne : src ≠ dest)
    (hnew : dest ∉ g.neighborList src level) :
    Linked (g.addLink symmetricDis src dest level keepMaxSizeLevel0) P ∧
      Rewired g (g.addLink symmetricDis src dest level keepMaxSizeLevel0) ∧
      ∀ i < g.ntotal, level < g.level i →
        ∀ v ∈ (g.addLink symmetricDis src dest level keepMaxSizeLevel0).neighborList i level,
          v ∈ g.neighborList i level ∨ (i, v) = (src, dest) := by
  obtain ⟨hs, hl⟩ := h.lt level src hsrc
  have hlist := h.list src hs level hl
  obtain ⟨ids', hrelinks⟩ := addLink_spec symmetricDis keepMaxSizeLevel0 (h.layout.range_lt hs hl)
    (h.layout.range_le_length hs hl) (h.padded src hs level hl)
    (List.nodup_cons.mpr ⟨hnew, hlist.nodup⟩)
  generalize g.addLink symmetricDis src dest level keepMaxSizeLevel0 = g' at hrelinks ⊢
  obtain ⟨⟨neighbors, rfl⟩, hlen, houtside, hpadded, hnodup, hmem⟩ := hrelinks
  have hself := neighborList_eq hpadded
  have hframe : ∀ i < g.ntotal, ∀ l < g.level i, (i, l) ≠ (src, level) →
      HNSW.entries { g with neighbors } i l = g.entries i l := by
    intro i hi l hli hother
    change segment (-1) neighbors (g.neighborRange i l).1
      ((g.neighborRange i l).2 - (g.neighborRange i l).1) = segment (-1) g.neighbors _ _
    have hdisjoint := h.layout.range_disjoint hi hli hs hl hother
    exact Lib.segment_congr fun j hbegin hend ↦ houtside j (by omega)
  have hother : ∀ i < g.ntotal, ∀ l < g.level i, (i, l) ≠ (src, level) →
      HNSW.neighborList { g with neighbors } i l = g.neighborList i l := fun i hi l hli hne ↦
    congrArg (fun xs : List ℤ ↦ (xs.takeWhile fun v ↦ decide (0 ≤ v)).map Int.toNat)
      (hframe i hi l hli hne)
  refine ⟨⟨h.layout.rewire hlen, h.lt, fun i hi l hli ↦ ?_, fun i hi l hli ↦ ?_⟩, ⟨_, rfl⟩,
    fun i hi hli v hv ↦ ?_⟩
  · by_cases hil : (i, l) = (src, level)
    · obtain ⟨rfl, rfl⟩ := Prod.mk.inj hil
      rw [hself]
      exact hpadded
    · rw [hother i hi l hli hil, hframe i hi l hli hil]
      exact h.padded i hi l hli
  · by_cases hil : (i, l) = (src, level)
    · obtain ⟨rfl, rfl⟩ := Prod.mk.inj hil
      rw [hself]
      refine ⟨hnodup, fun hmem' ↦ ?_, fun v hv ↦ ?_, fun _ ↦ hsrc⟩
      · rcases hmem _ hmem' with heq | hold
        · exact hne heq
        · exact hlist.self hold
      · rcases hmem v hv with rfl | hold
        · exact hdest
        · exact hlist.present v hold
    · rw [hother i hi l hli hil]
      exact h.list i hi l hli
  · by_cases hi' : i = src
    · subst hi'
      rw [hself] at hv
      rcases hmem v hv with rfl | hold
      · exact Or.inr rfl
      · exact Or.inl hold
    · rw [hother i hi level hli fun heq ↦ hi' (Prod.mk.inj heq).1] at hv
      exact Or.inl hv

/-- Several links between vertices that are present, none of them made twice or there before. -/
theorem Linked.foldl_addLink (h : Linked g P) (symmetricDis : ℕ → ℕ → F32)
    (keepMaxSizeLevel0 : Bool) (links : List (ℕ × ℕ)) (hnodup : links.Nodup)
    (hlinks : ∀ x ∈ links, P level x.1 ∧ P level x.2 ∧ x.1 ≠ x.2 ∧
      x.2 ∉ g.neighborList x.1 level) :
    Linked (links.foldl (fun g x ↦ g.addLink symmetricDis x.1 x.2 level keepMaxSizeLevel0) g) P ∧
      Rewired g
        (links.foldl (fun g x ↦ g.addLink symmetricDis x.1 x.2 level keepMaxSizeLevel0) g) := by
  induction links generalizing g with
  | nil => exact ⟨h, Rewired.refl g⟩
  | cons x links ih =>
      obtain ⟨hx, hnodup'⟩ := List.nodup_cons.mp hnodup
      obtain ⟨hsrc, hdest, hne, hnew⟩ := hlinks x List.mem_cons_self
      obtain ⟨h', hrewired, hmem⟩ := h.addLink symmetricDis keepMaxSizeLevel0 hsrc hdest hne hnew
      obtain ⟨h'', hrewired'⟩ := ih h' hnodup' fun y hy ↦ by
        obtain ⟨hsrc', hdest', hne', hnew'⟩ := hlinks y (List.mem_cons_of_mem _ hy)
        refine ⟨hsrc', hdest', hne', fun hin ↦ ?_⟩
        obtain ⟨hlt, hl⟩ := h.lt level y.1 hsrc'
        rcases hmem y.1 hlt hl y.2 hin with hold | heq
        · exact hnew' hold
        · exact hx (show x ∈ links from (show y = x from heq) ▸ hy)
      exact ⟨h'', hrewired.trans hrewired'⟩

end FaissNavix
