import FaissNavix.HNSW.AddOrder
import FaissNavix.HNSW.Insertion

/-!
# Adding batches of vertices

`prepare_level_tab` of `faiss/impl/HNSW.cpp` and `hnsw_add_vertices` of `faiss/IndexHNSW.cpp`, with
which `IndexHNSW::add` extends the graph: the tables get room for the new vertices, which are then
inserted one at a time, from the highest level to the lowest.

A vertex whose lists are in the table is not present on any level before its turn comes, so that
the tables may be extended for all of a batch at once (`Inserted.pushVertex`).  Every run of `add`
leaves a graph in which all vertices are inserted.
-/

namespace FaissNavix

open Lib

namespace HNSW

/-- `prepare_level_tab`: the graph and the highest level among the new vertices, counted from 0.
The levels that `random_level` draws are given. -/
def prepareLevelTab (g : HNSW) (n : ℕ) (presetLevels : Bool) (randomLevels : List ℕ) :
    Option (HNSW × ℕ) := do
  let n0 := g.offsets.length - 1
  let levels ←
    if presetLevels then if n0 + n = g.levels.length then some g.levels else none
    else if n0 = g.levels.length then
      some ((List.range n).foldl (fun levels i ↦ levels ++ [randomLevels.getD i 0 + 1]) g.levels)
    else none
  let maxLevel2 := (List.range n).foldl
    (fun maxLevel2 i ↦ if maxLevel2 < levels.getD (i + n0) 0 - 1 then levels.getD (i + n0) 0 - 1
      else maxLevel2) 0
  let offsets := (List.range n).foldl
    (fun offsets i ↦ offsets ++ [offsets.getLastD 0 + g.cumNbNeighbors (levels.getD (i + n0) 0)])
    g.offsets
  let size := offsets.getLastD 0
  let neighbors := g.neighbors.take size ++ List.replicate (size - g.neighbors.length) (-1)
  return ({ g with levels, offsets, neighbors }, maxLevel2)

end HNSW

/-- What a call of `add` is handed, as far as the graph is concerned.  The levels of the vertices
are drawn by `random_level` or, if `preset`, were put in the table by the caller; `dis ptId` is the
distance computer with the vector of `ptId` as its query, and `mt` are the random numbers that the
buckets are permuted with. -/
structure AddCall where
  levels : List ℕ
  preset : Bool
  dis : ℕ → DistanceComputer
  mt : ℕ → ℕ → ℕ

/-- The settings of the index. -/
structure AddSettings where
  efConstruction : ℕ
  initLevel0 : Bool
  keepMaxSizeLevel0 : Bool

/-- The variables of the loop over the levels. -/
structure AddLoop where
  hnsw : HNSW
  order : List ℕ
  i1 : ℕ

/-- The vertices of one level, with a new visited table. -/
def AddLoop.addLevel (settings : AddSettings) (c : AddCall) (ntotal : ℕ) (hist : List ℕ)
    (s : AddLoop) (ptLevel : ℕ) : Option AddLoop := do
  let i0 := s.i1 - hist.getD ptLevel 0
  let order := shuffle (c.mt ptLevel) i0 s.i1 s.order
  let (hnsw, _) ← (List.range' i0 (s.i1 - i0)).foldlM
    (fun r i ↦
      let ptId := order.getD i 0
      r.1.addWithLocks (c.dis ptId) settings.efConstruction ptLevel ptId r.2
        (settings.keepMaxSizeLevel0 && decide (ptLevel = 0)))
    (s.hnsw, VisitedTable.new ntotal)
  return { hnsw, order, i1 := i0 }

/-- `hnsw_add_vertices` -/
def hnswAddVertices (settings : AddSettings) (c : AddCall) (g : HNSW) (n0 n : ℕ)
    (presetLevels : Bool) : Option HNSW :=
  if n = 0 then some g
  else do
    let (hnsw, _) ← g.prepareLevelTab n presetLevels c.levels
    let ids := List.range' n0 n
    let ptLevel := fun ptId ↦ hnsw.level ptId - 1
    let hist := levelHist ptLevel ids
    let s ← (downTo (hist.length - 1) (if settings.initLevel0 then 0 else 1)).foldlM
      (AddLoop.addLevel settings c (n0 + n) hist) { hnsw, order := bucketSort ptLevel ids, i1 := n }
    if settings.initLevel0 then if s.i1 = 0 then some s.hnsw else none
    else if s.i1 - hist.getD 0 0 = 0 then some s.hnsw else none

/-- The part of an index that `add` changes. -/
structure Growing where
  hnsw : HNSW
  ntotal : ℕ

/-- `IndexHNSW::add`, after the caller has put preset levels in the table. -/
def Growing.add (settings : AddSettings) (s : Growing) (c : AddCall) : Option Growing := do
  let n := c.levels.length
  let g := if c.preset then { s.hnsw with levels := s.hnsw.levels ++ c.levels.map (· + 1) }
    else s.hnsw
  let ntotal := s.ntotal + n
  let hnsw ← hnswAddVertices settings c g s.ntotal n (decide (g.levels.length = ntotal))
  return { hnsw, ntotal }

/-- An index with nothing in it, with the table of `cumNneighborPerLevel`. -/
def Growing.empty (cumNneighborPerLevel : List ℕ) (efSearch : ℕ)
    (checkRelativeDistance searchBoundedQueue : Bool) : Growing where
  hnsw :=
    { cumNneighborPerLevel, levels := [], offsets := [0], neighbors := [], entryPoint := -1
      maxLevel := -1, efSearch, checkRelativeDistance, searchBoundedQueue }
  ntotal := 0

/-! ## The tables -/

variable {g : HNSW} {ins : ℕ → Prop}

/-- The graph with one more vertex, of which `lv` levels have lists, without links. -/
def HNSW.pushVertex (g : HNSW) (lv : ℕ) : HNSW :=
  { g with
    levels := g.levels ++ [lv]
    offsets := g.offsets ++ [g.offsets.getD g.ntotal 0 + g.cumNbNeighbors lv]
    neighbors := g.neighbors ++ List.replicate (g.cumNbNeighbors lv) (-1) }

theorem level_pushVertex_of_lt {lv v : ℕ} (hv : v < g.ntotal) :
    (g.pushVertex lv).level v = g.level v :=
  List.getD_append _ _ _ _ hv

theorem level_pushVertex_self (g : HNSW) (lv : ℕ) : (g.pushVertex lv).level g.ntotal = lv := by
  change (g.levels ++ [lv]).getD g.levels.length 0 = lv
  rw [List.getD_append_right _ _ _ _ le_rfl, Nat.sub_self]
  rfl

theorem ntotal_pushVertex (g : HNSW) (lv : ℕ) : (g.pushVertex lv).ntotal = g.ntotal + 1 :=
  List.length_append

theorem Layout.pushVertex (hg : Layout g) {lv : ℕ} (hpos : 1 ≤ lv)
    (hlv : lv < g.cumNneighborPerLevel.length) : Layout (g.pushVertex lv) := by
  have hoffset : ∀ i ≤ g.ntotal, (g.pushVertex lv).offsets.getD i 0 = g.offsets.getD i 0 :=
    fun i hi ↦ List.getD_append _ _ _ _ (by rw [hg.offsets_length]; omega)
  have hlast : (g.pushVertex lv).offsets.getD (g.ntotal + 1) 0 =
      g.offsets.getD g.ntotal 0 + g.cumNbNeighbors lv := by
    rw [HNSW.pushVertex, List.getD_append_right _ _ _ _ hg.offsets_length.le, hg.offsets_length,
      Nat.sub_self]
    rfl
  have hlevel : ∀ i < (g.pushVertex lv).ntotal,
      i < g.ntotal ∧ (g.pushVertex lv).level i = g.level i ∨
        i = g.ntotal ∧ (g.pushVertex lv).level i = lv := by
    intro i hi
    rw [ntotal_pushVertex] at hi
    rcases Nat.lt_or_eq_of_le (Nat.le_of_lt_succ hi) with hlt | rfl
    · exact Or.inl ⟨hlt, level_pushVertex_of_lt hlt⟩
    · exact Or.inr ⟨rfl, level_pushVertex_self g lv⟩
  refine ⟨?_, fun i hi ↦ ?_, ?_, hg.room, fun i hi ↦ ?_, fun i hi ↦ ?_⟩
  · rw [ntotal_pushVertex, HNSW.pushVertex, List.length_append, hg.offsets_length]
    rfl
  · rcases hlevel i hi with ⟨hlt, heq⟩ | ⟨rfl, heq⟩
    · rw [hoffset (i + 1) hlt, hoffset i hlt.le, hg.offsets_succ i hlt, heq]
      rfl
    · rw [hlast, hoffset _ le_rfl, heq]
      rfl
  · rw [ntotal_pushVertex, hlast, HNSW.pushVertex, List.length_append, List.length_replicate,
      hg.neighbors_length]
  · rcases hlevel i hi with ⟨hlt, heq⟩ | ⟨rfl, heq⟩
    · rw [heq]; exact hg.level_pos i hlt
    · rw [heq]; exact hpos
  · rcases hlevel i hi with ⟨hlt, heq⟩ | ⟨rfl, heq⟩
    · rw [heq]; exact hg.level_lt i hlt
    · rw [heq]; exact hlv

theorem cum_foldl_pushVertex (g : HNSW) (new : List ℕ) :
    (new.foldl HNSW.pushVertex g).cumNneighborPerLevel = g.cumNneighborPerLevel := by
  induction new generalizing g with
  | nil => rfl
  | cons lv new ih => exact ih (g.pushVertex lv)

theorem Layout.foldl_pushVertex (hg : Layout g) {new : List ℕ}
    (hnew : ∀ lv ∈ new, 1 ≤ lv ∧ lv < g.cumNneighborPerLevel.length) :
    Layout (new.foldl HNSW.pushVertex g) := by
  induction new generalizing g with
  | nil => exact hg
  | cons lv new ih =>
      obtain ⟨hpos, hlt⟩ := hnew lv List.mem_cons_self
      exact ih (hg.pushVertex hpos hlt) fun m hm ↦ hnew m (List.mem_cons_of_mem _ hm)

theorem getD_eq_getLastD {offsets : List ℕ} {n : ℕ} (hlen : offsets.length = n + 1) :
    offsets.getD n 0 = offsets.getLastD 0 := by
  rw [List.getLastD_eq_getLast?, List.getLast?_eq_getElem?, hlen, Nat.add_sub_cancel,
    List.getD_eq_getElem?_getD]

theorem foldl_pushVertex_eq (hlen : g.offsets.length = g.ntotal + 1) (new : List ℕ) :
    ∃ k, new.foldl HNSW.pushVertex g =
      { g with
        levels := g.levels ++ new
        offsets := new.foldl
          (fun offsets lv ↦ offsets ++ [offsets.getLastD 0 + g.cumNbNeighbors lv]) g.offsets
        neighbors := g.neighbors ++ List.replicate k (-1) } := by
  induction new generalizing g with
  | nil => exact ⟨0, by simp⟩
  | cons lv new ih =>
      obtain ⟨k, hk⟩ := ih (g := g.pushVertex lv) (by
        rw [ntotal_pushVertex, HNSW.pushVertex, List.length_append, hlen]
        rfl)
      refine ⟨g.cumNbNeighbors lv + k, ?_⟩
      rw [List.foldl_cons, hk, List.foldl_cons, ← getD_eq_getLastD hlen, List.replicate_add]
      simp only [HNSW.pushVertex, List.append_assoc, List.singleton_append]
      rfl

theorem foldl_range_getD {σ : Type} (f : σ → ℕ → σ) (xs : List ℕ) (s : σ) :
    (List.range xs.length).foldl (fun s i ↦ f s (xs.getD i 0)) s = xs.foldl f s := by
  have hmap : (List.range xs.length).map (fun i ↦ xs.getD i 0) = xs :=
    List.ext_getElem (by simp) fun i h1 h2 ↦ by
      rw [List.getElem_map, List.getElem_range, List.getD_eq_getElem _ _ h2]
  rw [← List.foldl_map (f := fun i ↦ xs.getD i 0) (g := f), hmap]

theorem foldl_snoc_succ (levels new : List ℕ) :
    new.foldl (fun levels pl ↦ levels ++ [pl + 1]) levels = levels ++ new.map (· + 1) := by
  induction new generalizing levels with
  | nil => exact (List.append_nil _).symm
  | cons pl new ih => rw [List.foldl_cons, ih, List.append_assoc]; rfl

/-- What `prepare_level_tab` leaves, whether the levels are drawn or preset. -/
theorem prepareLevelTab_eq (hg : Layout g) {new : List ℕ}
    (hnew : ∀ pl ∈ new, pl + 1 < g.cumNneighborPerLevel.length) (preset : Bool) :
    ∃ maxLevel2, HNSW.prepareLevelTab
        (if preset then { g with levels := g.levels ++ new.map (· + 1) } else g) new.length preset
        new = some ((new.map (· + 1)).foldl HNSW.pushVertex g, maxLevel2) := by
  have hlayout : Layout ((new.map (· + 1)).foldl HNSW.pushVertex g) :=
    hg.foldl_pushVertex fun lv hlv ↦ by
      obtain ⟨pl, hpl, rfl⟩ := List.mem_map.mp hlv
      exact ⟨Nat.le_add_left 1 pl, hnew pl hpl⟩
  obtain ⟨k, hk⟩ := foldl_pushVertex_eq hg.offsets_length (new.map (· + 1))
  rw [hk] at hlayout ⊢
  have hoffsets := foldl_range_getD
    (fun offsets lv ↦ offsets ++ [offsets.getLastD 0 + g.cumNbNeighbors lv]) (new.map (· + 1))
    g.offsets
  have hlevels := foldl_range_getD (fun levels pl ↦ levels ++ [pl + 1]) new g.levels
  rw [foldl_snoc_succ] at hlevels
  have hget : ∀ i, (g.levels ++ new.map (· + 1)).getD (i + g.levels.length) 0 =
      (new.map (· + 1)).getD i 0 := by
    intro i
    rw [List.getD_append_right _ _ _ _ (Nat.le_add_left _ _), Nat.add_sub_cancel]
  have hn0 : g.offsets.length - 1 = g.levels.length := by
    rw [hg.offsets_length]
    rfl
  have hsize := hlayout.neighbors_length
  have hlast := hlayout.offsets_length
  rw [List.length_map] at hoffsets
  dsimp only [HNSW.ntotal] at hsize hlast
  rw [← hoffsets] at hlast hsize ⊢
  rw [getD_eq_getLastD hlast, List.length_append, List.length_replicate] at hsize
  have htake : ∀ size, g.neighbors.length + k = size →
      g.neighbors.take size ++ List.replicate (size - g.neighbors.length) (-1) =
        g.neighbors ++ List.replicate k (-1) := by
    rintro size rfl
    rw [List.take_of_length_le (Nat.le_add_right _ _), Nat.add_sub_cancel_left]
  rw [HNSW.prepareLevelTab]
  cases preset with
  | true =>
      have hassert : g.levels.length + new.length = (g.levels ++ new.map (· + 1)).length := by
        rw [List.length_append, List.length_map]
      simp only [if_true, hn0, if_pos hassert, Option.bind_eq_bind, Option.bind_some, hget]
      exact ⟨_, by rw [← htake _ hsize]; rfl⟩
  | false =>
      simp only [Bool.false_eq_true, if_false, hn0, if_true, hlevels, Option.bind_eq_bind,
        Option.bind_some, hget]
      exact ⟨_, by rw [← htake _ hsize]; rfl⟩

/-- The lists of a new vertex are empty. -/
theorem Inserted.pushVertex (h : Inserted g ins) {lv : ℕ} (hpos : 1 ≤ lv)
    (hlv : lv < g.cumNneighborPerLevel.length) : Inserted (g.pushVertex lv) ins := by
  have hold : ∀ v, ins v → (g.pushVertex lv).level v = g.level v :=
    fun v hv ↦ level_pushVertex_of_lt (h.lt v hv)
  have hlayout := h.linked.layout.pushVertex hpos hlv
  have hrange : ∀ i ≤ g.ntotal, ∀ l,
      (g.pushVertex lv).neighborRange i l = g.neighborRange i l := by
    intro i hi l
    have hoffset : (g.pushVertex lv).offsets.getD i 0 = g.offsets.getD i 0 :=
      List.getD_append _ _ _ _ (by rw [h.linked.layout.offsets_length]; omega)
    rw [HNSW.neighborRange, HNSW.neighborRange, hoffset]
    rfl
  have hentries : ∀ i < g.ntotal, ∀ l < g.level i,
      (g.pushVertex lv).entries i l = g.entries i l := by
    intro i hi l hl
    have hle := h.linked.layout.range_le_length hi hl
    have hlt := h.linked.layout.range_lt hi hl
    change segment (-1) (g.pushVertex lv).neighbors ((g.pushVertex lv).neighborRange i l).1
      (((g.pushVertex lv).neighborRange i l).2 - ((g.pushVertex lv).neighborRange i l).1) = _
    rw [hrange i hi.le]
    exact segment_append_left _ (by omega)
  have hempty : ∀ l, (g.pushVertex lv).entries g.ntotal l =
      List.replicate (((g.pushVertex lv).neighborRange g.ntotal l).2 -
        ((g.pushVertex lv).neighborRange g.ntotal l).1) (-1) := by
    intro l
    refine segment_append_replicate ?_
    rw [hrange g.ntotal le_rfl, h.linked.layout.neighbors_length]
    exact Nat.le_add_right _ _
  have hcases : ∀ i < (g.pushVertex lv).ntotal, ∀ l < (g.pushVertex lv).level i,
      i < g.ntotal ∧ l < g.level i ∧ (g.pushVertex lv).entries i l = g.entries i l ∨
        i = g.ntotal ∧ Padded [] ((g.pushVertex lv).entries i l) := by
    intro i hi l hl
    rw [ntotal_pushVertex] at hi
    rcases Nat.lt_or_eq_of_le (Nat.le_of_lt_succ hi) with hlt | rfl
    · rw [level_pushVertex_of_lt hlt] at hl
      exact Or.inl ⟨hlt, hl, hentries i hlt l hl⟩
    · exact Or.inr ⟨rfl, by rw [hempty]; exact padded_replicate _⟩
  have hlist : ∀ {i l}, (g.pushVertex lv).entries i l = g.entries i l →
      (g.pushVertex lv).neighborList i l = g.neighborList i l := fun heq ↦
    congrArg (fun xs : List ℤ ↦ (xs.takeWhile fun v ↦ decide (0 ≤ v)).map Int.toNat) heq
  refine ⟨⟨hlayout, fun l v hv ↦ hv.2, fun i hi l hl ↦ ?_, fun i hi l hl ↦ ?_⟩, fun v hv ↦ ?_, ?_,
    fun v hv ↦ ?_⟩
  · rcases hcases i hi l hl with ⟨hlt, hll, heq⟩ | ⟨-, hpadded⟩
    · rw [hlist heq, heq]
      exact h.linked.padded i hlt l hll
    · rw [neighborList_eq hpadded]
      exact hpadded
  · rcases hcases i hi l hl with ⟨hlt, hll, heq⟩ | ⟨-, hpadded⟩
    · rw [hlist heq]
      obtain ⟨hnodup, hself, hpresent, howner⟩ := h.linked.list i hlt l hll
      have hmono : ∀ v, ins v ∧ v < g.ntotal ∧ l < g.level v →
          ins v ∧ v < (g.pushVertex lv).ntotal ∧ l < (g.pushVertex lv).level v := by
        rintro v ⟨hv, hvlt, hvl⟩
        rw [ntotal_pushVertex, hold v hv]
        exact ⟨hv, hvlt.trans (Nat.lt_succ_self _), hvl⟩
      exact ⟨hnodup, hself, fun v hv ↦ hmono v (hpresent v hv), fun hne ↦ hmono i (howner hne)⟩
    · rw [neighborList_eq hpadded]
      exact ⟨List.nodup_nil, List.not_mem_nil, fun v hv ↦ absurd hv List.not_mem_nil,
        fun hne ↦ absurd rfl hne⟩
  · rw [ntotal_pushVertex]
    exact (h.lt v hv).trans (Nat.lt_succ_self _)
  · rcases h.entry with hnone | ⟨e, hentry, he, hmax⟩
    · exact Or.inl hnone
    · exact Or.inr ⟨e, hentry, he, by rw [hold e he]; exact hmax⟩
  · rw [hold v hv]
    exact h.level_le v hv

theorem Inserted.foldl_pushVertex (h : Inserted g ins) {new : List ℕ}
    (hnew : ∀ lv ∈ new, 1 ≤ lv ∧ lv < g.cumNneighborPerLevel.length) :
    Inserted (new.foldl HNSW.pushVertex g) ins := by
  induction new generalizing g with
  | nil => exact h
  | cons lv new ih =>
      obtain ⟨hpos, hlt⟩ := hnew lv List.mem_cons_self
      exact ih (h.pushVertex hpos hlt) fun m hm ↦ hnew m (List.mem_cons_of_mem _ hm)

/-! ## The insertions of a batch -/

theorem SameLevels.level_eq {g' : HNSW} (h : SameLevels g g') (v : ℕ) : g'.level v = g.level v := by
  rw [HNSW.level, h.levels]
  rfl

theorem SameLevels.ntotal_eq {g' : HNSW} (h : SameLevels g g') : g'.ntotal = g.ntotal := by
  rw [HNSW.ntotal, h.levels]
  rfl

theorem Inserted.congr (h : Inserted g ins) {ins' : ℕ → Prop} (heq : ∀ v, ins v ↔ ins' v) :
    Inserted g ins' :=
  funext (fun v ↦ propext (heq v)) ▸ h

theorem Inserted.foldlM_addWithLocks (h : Inserted g ins) (dis : ℕ → DistanceComputer)
    (efConstruction : ℕ) {ptLevel : ℕ} (vt : VisitedTable) (keepMaxSizeLevel0 : Bool)
    {xs : List ℕ} (hnodup : xs.Nodup)
    (hxs : ∀ x ∈ xs, x < g.ntotal ∧ g.level x = ptLevel + 1 ∧ ¬ins x) :
    ∃ g' vt', xs.foldlM
        (fun r ptId ↦ r.1.addWithLocks (dis ptId) efConstruction ptLevel ptId r.2 keepMaxSizeLevel0)
        (g, vt) = some (g', vt') ∧ Inserted g' (fun v ↦ ins v ∨ v ∈ xs) ∧ SameLevels g g' := by
  induction xs generalizing g vt ins with
  | nil => exact ⟨g, vt, rfl, h.congr fun v ↦ by simp, SameLevels.refl g⟩
  | cons x xs ih =>
      obtain ⟨hx, hnodup'⟩ := List.nodup_cons.mp hnodup
      obtain ⟨hlt, hlevel, hnew⟩ := hxs x List.mem_cons_self
      obtain ⟨g₁, vt₁, hstep, h₁, hsame⟩ :=
        h.addWithLocks (dis x) efConstruction vt keepMaxSizeLevel0 hlt hlevel hnew
      obtain ⟨g₂, vt₂, hrun, h₂, hsame'⟩ := ih h₁ vt₁ hnodup' fun y hy ↦ by
        obtain ⟨hlt', hlevel', hnew'⟩ := hxs y (List.mem_cons_of_mem _ hy)
        rw [hsame.ntotal_eq, hsame.level_eq]
        refine ⟨hlt', hlevel', fun hor ↦ ?_⟩
        rcases hor with hold | rfl
        · exact hnew' hold
        · exact hx hy
      refine ⟨g₂, vt₂, ?_, h₂.congr fun v ↦ ?_, hsame.trans hsame'⟩
      · rw [List.foldlM_cons, hstep]
        exact hrun
      · rw [List.mem_cons, or_assoc]

section Batch

variable (settings : AddSettings) (c : AddCall) (ntotal : ℕ) {ids : List ℕ} {ptLevel : ℕ → ℕ}

/-- The state of the loop before the vertices below level `l` are inserted. -/
structure AddLoop.At (g : HNSW) (ins : ℕ → Prop) (ptLevel : ℕ → ℕ) (ids : List ℕ) (s : AddLoop)
    (l : ℕ) : Prop where
  i1 : s.i1 = bucketStart ptLevel ids l
  length_order : s.order.length = ids.length
  bucket : ∀ m < l, segment 0 s.order (bucketStart ptLevel ids m) (onLevel ptLevel ids m).length =
    onLevel ptLevel ids m
  inserted : Inserted s.hnsw fun v ↦ ins v ∨ v ∈ ids ∧ l ≤ ptLevel v
  same : SameLevels g s.hnsw

/-- The vertices of one level. -/
theorem AddLoop.At.addLevel {s : AddLoop} {l : ℕ} (h : s.At g ins ptLevel ids (l + 1))
    (hnodup : ids.Nodup) (hl : l < (levelHist ptLevel ids).length)
    (hids : ∀ v ∈ ids, v < g.ntotal ∧ g.level v = ptLevel v + 1 ∧ ¬ins v) :
    ∃ s', s.addLevel settings c ntotal (levelHist ptLevel ids) l = some s' ∧
      s'.At g ins ptLevel ids l := by
  have hi1 := h.i1
  rw [bucketStart_succ] at hi1
  have hend : bucketStart ptLevel ids l + (onLevel ptLevel ids l).length ≤ s.order.length := by
    rw [h.length_order, ← bucketStart_succ, ← bucketStart_length ids]
    exact bucketStart_mono ids hl
  obtain ⟨hlen, hperm, hframe⟩ := shuffle_spec (c.mt l) hend
  rw [h.bucket l (Nat.lt_succ_self l)] at hperm
  rw [AddLoop.addLevel, getD_levelHist, hi1, Nat.add_sub_cancel]
  dsimp only
  rw [Nat.add_sub_cancel_left]
  generalize shuffle (c.mt l) _ _ s.order = order at hlen hperm hframe ⊢
  have hmem : ∀ v, v ∈ segment 0 order (bucketStart ptLevel ids l)
      (onLevel ptLevel ids l).length ↔ v ∈ ids ∧ ptLevel v = l := by
    intro v
    rw [hperm.mem_iff, onLevel, List.mem_filter, decide_eq_true_iff]
  obtain ⟨g', vt', hrun, hins, hsame⟩ := h.inserted.foldlM_addWithLocks c.dis
    settings.efConstruction (VisitedTable.new ntotal)
    (settings.keepMaxSizeLevel0 && decide (l = 0)) (hperm.nodup_iff.mpr (hnodup.filter _))
    fun v hv ↦ by
      obtain ⟨hv, hvl⟩ := (hmem v).mp hv
      obtain ⟨hlt, hlevel, hnew⟩ := hids v hv
      rw [h.same.ntotal_eq, h.same.level_eq]
      refine ⟨hlt, by rw [hlevel, hvl], fun hor ↦ ?_⟩
      rcases hor with hold | ⟨-, hge⟩
      · exact hnew hold
      · omega
  rw [Lib.segment, List.foldlM_map] at hrun
  rw [hrun]
  refine ⟨_, rfl, rfl, hlen.trans h.length_order, fun m hm ↦ ?_, hins.congr fun v ↦ ?_,
    h.same.trans hsame⟩
  · rw [hframe _ _ ((bucketStart_succ ids m).symm.trans_le (bucketStart_mono ids hm)),
      h.bucket m (hm.trans (Nat.lt_succ_self l))]
  · rw [hmem, or_assoc]
    refine or_congr_right ?_
    rw [← and_or_left]
    refine and_congr_right fun _ ↦ ?_
    omega

theorem AddLoop.At.run (hnodup : ids.Nodup)
    (hids : ∀ v ∈ ids, v < g.ntotal ∧ g.level v = ptLevel v + 1 ∧ ¬ins v) (l : ℕ) (s : AddLoop)
    (h : s.At g ins ptLevel ids l) (hl : l ≤ (levelHist ptLevel ids).length) :
    ∃ s', (List.range' 0 l).reverse.foldlM
        (AddLoop.addLevel settings c ntotal (levelHist ptLevel ids)) s = some s' ∧
      s'.At g ins ptLevel ids 0 := by
  induction l generalizing s with
  | zero => exact ⟨s, rfl, h⟩
  | succ l ih =>
      obtain ⟨s₁, hstep, h₁⟩ := h.addLevel settings c ntotal hnodup hl hids
      obtain ⟨s₂, hrun, h₂⟩ := ih s₁ h₁ (by omega)
      refine ⟨s₂, ?_, h₂⟩
      rw [List.range'_1_concat, List.reverse_append, List.reverse_singleton, List.singleton_append,
        List.foldlM_cons, Nat.zero_add, hstep]
      exact hrun

end Batch

/-- Adding the vertices of a batch to a graph in which all vertices are inserted. -/
theorem Inserted.addVertices (h : Inserted g (· < g.ntotal)) {settings : AddSettings}
    (hinit : settings.initLevel0 = true) (c : AddCall)
    (hc : ∀ pl ∈ c.levels, pl + 1 < g.cumNneighborPerLevel.length) (presetLevels : Bool)
    (hpreset : c.levels ≠ [] → presetLevels = c.preset) :
    ∃ g', hnswAddVertices settings c
        (if c.preset then { g with levels := g.levels ++ c.levels.map (· + 1) } else g)
        g.ntotal c.levels.length presetLevels = some g' ∧
      Inserted g' (· < g'.ntotal) ∧ g'.levels = g.levels ++ c.levels.map (· + 1) ∧
      g'.cumNneighborPerLevel = g.cumNneighborPerLevel := by
  by_cases hnil : c.levels = []
  · refine ⟨g, ?_, h, by rw [hnil]; exact (List.append_nil _).symm, rfl⟩
    rw [hnswAddVertices, hnil, if_pos List.length_nil]
    cases c.preset with
    | false => rfl
    | true =>
        rw [if_pos rfl, List.map_nil, List.append_nil]
  · have hn : c.levels.length ≠ 0 := fun h0 ↦ hnil (List.eq_nil_of_length_eq_zero h0)
    obtain ⟨maxLevel2, hprep⟩ := prepareLevelTab_eq h.linked.layout hc c.preset
    have hnew : ∀ lv ∈ c.levels.map (· + 1), 1 ≤ lv ∧ lv < g.cumNneighborPerLevel.length := by
      intro lv hlv
      obtain ⟨pl, hpl, rfl⟩ := List.mem_map.mp hlv
      exact ⟨Nat.le_add_left 1 pl, hc pl hpl⟩
    have hins := h.foldl_pushVertex hnew
    obtain ⟨k, hk⟩ := foldl_pushVertex_eq h.linked.layout.offsets_length (c.levels.map (· + 1))
    have hlevels : ((c.levels.map (· + 1)).foldl HNSW.pushVertex g).levels =
        g.levels ++ c.levels.map (· + 1) := congrArg HNSW.levels hk
    have hcum := cum_foldl_pushVertex g (c.levels.map (· + 1))
    rw [hnswAddVertices, if_neg hn, hpreset hnil, hprep]
    dsimp only [Option.bind_eq_bind, Option.bind_some]
    generalize (c.levels.map (· + 1)).foldl HNSW.pushVertex g = g₁ at hins hlevels hcum ⊢
    have hntotal : g₁.ntotal = g.ntotal + c.levels.length := by
      rw [HNSW.ntotal, hlevels, List.length_append, List.length_map]
      rfl
    have hids : ∀ v ∈ List.range' g.ntotal c.levels.length,
        v < g₁.ntotal ∧ g₁.level v = g₁.level v - 1 + 1 ∧ ¬v < g.ntotal := by
      intro v hv
      obtain ⟨hle, hlt⟩ := List.mem_range'_1.mp hv
      have hpos := hins.linked.layout.level_pos v (by omega)
      exact ⟨by omega, by omega, by omega⟩
    have hlow : ∀ v ∈ List.range' g.ntotal c.levels.length, ¬(levelHist (fun ptId ↦
        g₁.level ptId - 1) (List.range' g.ntotal c.levels.length)).length ≤ g₁.level v - 1 :=
      fun v hv hle ↦ absurd (lt_length_levelHist hv) (Nat.not_lt_of_le hle)
    have hstart : AddLoop.At g₁ (· < g.ntotal) (fun ptId ↦ g₁.level ptId - 1)
        (List.range' g.ntotal c.levels.length)
        { hnsw := g₁
          order := bucketSort (fun ptId ↦ g₁.level ptId - 1) (List.range' g.ntotal c.levels.length)
          i1 := c.levels.length }
        (levelHist (fun ptId ↦ g₁.level ptId - 1)
          (List.range' g.ntotal c.levels.length)).length := by
      refine ⟨?_, length_bucketSort _, fun m hm ↦ segment_bucketSort _ hm, hins.congr fun v ↦ ?_,
        SameLevels.refl _⟩
      · rw [bucketStart_length, List.length_range']
      · exact ⟨Or.inl, fun hor ↦ hor.elim id fun hv ↦ absurd hv.2 (hlow v hv.1)⟩
    obtain ⟨s, hrun, hs⟩ := hstart.run settings c (g.ntotal + c.levels.length)
      List.nodup_range' hids _ _ le_rfl
    have hdown : downTo (((levelHist (fun ptId ↦ g₁.level ptId - 1)
        (List.range' g.ntotal c.levels.length)).length : ℤ) - 1) 0 =
        (List.range' 0 (levelHist (fun ptId ↦ g₁.level ptId - 1)
          (List.range' g.ntotal c.levels.length)).length).reverse := by
      rw [downTo, Int.sub_add_cancel]
      rfl
    rw [hinit, if_pos rfl, hdown, hrun]
    have hi1 : s.i1 = 0 := hs.i1
    refine ⟨s.hnsw, ?_, ?_, hs.same.levels.trans hlevels, hs.same.cum.trans hcum⟩
    · rw [Option.bind_some, if_pos rfl, if_pos hi1]
    · refine hs.inserted.congr fun v ↦ ?_
      rw [hs.same.ntotal_eq, hntotal, List.mem_range'_1]
      omega

/-! ## Runs of `add` -/

/-- The tables have the sizes that the levels give, and the list of a vertex on one of its levels
consists of different other vertices that are on that level too, followed by `-1`. -/
structure HNSW.WellLinked (g : HNSW) : Prop where
  offsets_length : g.offsets.length = g.ntotal + 1
  offsets_succ : ∀ i < g.ntotal,
    g.offsets.getD (i + 1) 0 = g.offsets.getD i 0 + g.cumNbNeighbors (g.level i)
  neighbors_length : g.neighbors.length = g.offsets.getLastD 0
  list : ∀ i < g.ntotal, ∀ l < g.level i, ∃ ids, Padded ids (g.entries i l) ∧ ids.Nodup ∧ i ∉ ids ∧
    ∀ j ∈ ids, j < g.ntotal ∧ l < g.level j

def HNSW.EntryOnTop (g : HNSW) : Prop :=
  ∃ e : ℕ, g.entryPoint = e ∧ e < g.ntotal ∧ (g.level e : ℤ) - 1 = g.maxLevel ∧
    ∀ i < g.ntotal, (g.level i : ℤ) - 1 ≤ g.maxLevel

theorem Inserted.wellLinked (h : Inserted g (· < g.ntotal)) : g.WellLinked := by
  refine ⟨h.linked.layout.offsets_length, h.linked.layout.offsets_succ, ?_, fun i hi l hl ↦ ?_⟩
  · rw [h.linked.layout.neighbors_length, getD_eq_getLastD h.linked.layout.offsets_length]
  · obtain ⟨hnodup, hself, hpresent, -⟩ := h.linked.list i hi l hl
    exact ⟨_, h.linked.padded i hi l hl, hnodup, hself, fun j hj ↦ (hpresent j hj).2⟩

theorem Inserted.entryOnTop (h : Inserted g (· < g.ntotal)) (hpos : 0 < g.ntotal) :
    g.EntryOnTop := by
  rcases h.entry with ⟨-, -, hnone⟩ | ⟨e, hentry, he, hmax⟩
  · exact absurd hpos (hnone 0)
  · exact ⟨e, hentry, he, by omega, fun i hi ↦ by have := h.level_le i hi; omega⟩

/-- An index in which all vertices are inserted. -/
structure Growing.Whole (cum : List ℕ) (s : Growing) : Prop where
  inserted : Inserted s.hnsw (· < s.hnsw.ntotal)
  ntotal_eq : s.ntotal = s.hnsw.ntotal
  cum_eq : s.hnsw.cumNneighborPerLevel = cum

variable {cum : List ℕ} {settings : AddSettings}

theorem Growing.whole_empty
    (hroom : ∀ l, l + 1 < cum.length → cum.getD l 0 < cum.getD (l + 1) 0) (efSearch : ℕ)
    (checkRelativeDistance searchBoundedQueue : Bool) :
    (empty cum efSearch checkRelativeDistance searchBoundedQueue).Whole cum := by
  have hnone : ∀ {p : ℕ → Prop} (v : ℕ), v < 0 → p v := fun v hv ↦ absurd hv (Nat.not_lt_zero v)
  refine ⟨⟨⟨⟨rfl, hnone, rfl, hroom, hnone, hnone⟩, fun l v hv ↦ hv.2, hnone, hnone⟩, fun v hv ↦ hv,
    Or.inl ⟨rfl, rfl, fun v ↦ Nat.not_lt_zero v⟩, hnone⟩, rfl, rfl⟩

theorem Growing.Whole.add {s : Growing} (h : s.Whole cum) (hinit : settings.initLevel0 = true)
    (c : AddCall) (hc : ∀ pl ∈ c.levels, pl + 1 < cum.length) :
    ∃ s', s.add settings c = some s' ∧ s'.Whole cum ∧
      s'.hnsw.levels = s.hnsw.levels ++ c.levels.map (· + 1) := by
  have hpreset : c.levels ≠ [] → decide ((if c.preset then
      { s.hnsw with levels := s.hnsw.levels ++ c.levels.map (· + 1) } else s.hnsw).levels.length =
        s.ntotal + c.levels.length) = c.preset := by
    intro hne
    have hpos := List.length_pos_of_ne_nil hne
    rw [h.ntotal_eq, HNSW.ntotal]
    cases c.preset with
    | false => exact decide_eq_false (by rw [if_neg Bool.false_ne_true]; omega)
    | true =>
        refine decide_eq_true ?_
        rw [if_pos rfl, List.length_append, List.length_map]
  obtain ⟨g', hadd, hins, hlevels, hcum⟩ := h.inserted.addVertices hinit c
    (by rw [h.cum_eq]; exact hc) _ hpreset
  rw [← h.ntotal_eq] at hadd
  rw [Growing.add]
  dsimp only
  rw [hadd]
  refine ⟨_, rfl, ⟨hins, ?_, hcum.trans h.cum_eq⟩, hlevels⟩
  rw [h.ntotal_eq, HNSW.ntotal, HNSW.ntotal, hlevels, List.length_append, List.length_map]

theorem Growing.Whole.run {s : Growing} (h : s.Whole cum) (hinit : settings.initLevel0 = true)
    {calls : List AddCall} (hcalls : ∀ c ∈ calls, ∀ pl ∈ c.levels, pl + 1 < cum.length) :
    ∃ s', calls.foldlM (Growing.add settings) s = some s' ∧ s'.Whole cum ∧
      s'.hnsw.levels = s.hnsw.levels ++ (calls.flatMap AddCall.levels).map (· + 1) := by
  induction calls generalizing s with
  | nil => exact ⟨s, rfl, h, (List.append_nil _).symm⟩
  | cons c calls ih =>
      obtain ⟨s₁, hadd, h₁, hlevels⟩ := h.add hinit c (hcalls c List.mem_cons_self)
      obtain ⟨s₂, hrun, h₂, hlevels'⟩ := ih h₁ fun c' hc' ↦ hcalls c' (List.mem_cons_of_mem _ hc')
      refine ⟨s₂, ?_, h₂, ?_⟩
      · rw [List.foldlM_cons, hadd]
        exact hrun
      · rw [hlevels', hlevels, List.flatMap_cons, List.map_append, List.append_assoc]

/-- Every run of `add` from an empty index, with whatever levels and distances, ends with all
vertices on the levels they were given, well linked, and the entry point on top as soon as there is
a vertex. -/
theorem wellLinked_of_adds (hroom : ∀ l, l + 1 < cum.length → cum.getD l 0 < cum.getD (l + 1) 0)
    (hinit : settings.initLevel0 = true) {calls : List AddCall}
    (hcalls : ∀ c ∈ calls, ∀ pl ∈ c.levels, pl + 1 < cum.length) (efSearch : ℕ)
    (checkRelativeDistance searchBoundedQueue : Bool) :
    ∃ s, calls.foldlM (Growing.add settings)
        (Growing.empty cum efSearch checkRelativeDistance searchBoundedQueue) = some s ∧
      s.hnsw.levels = (calls.flatMap AddCall.levels).map (· + 1) ∧ s.hnsw.WellLinked ∧
      (0 < s.hnsw.ntotal → s.hnsw.EntryOnTop) ∧ (s.hnsw.ntotal = 0 → s.hnsw.entryPoint = -1) := by
  have hempty := Growing.whole_empty hroom efSearch checkRelativeDistance searchBoundedQueue
  obtain ⟨s, hrun, h, hlevels⟩ := hempty.run hinit hcalls
  refine ⟨s, hrun, hlevels, h.inserted.wellLinked, h.inserted.entryOnTop, fun h0 ↦ ?_⟩
  rcases h.inserted.entry with ⟨hentry, -⟩ | ⟨e, -, he, -⟩
  · exact hentry
  · exact absurd he (by omega)

/-- A batch whose vertices are all at distance 0 of each other. -/
def AddCall.level (levels : List ℕ) : AddCall where
  levels := levels
  preset := false
  dis := fun _ ↦ { dis := fun _ ↦ ⟨0⟩, symmetricDis := fun _ _ ↦ ⟨0⟩ }
  mt := fun _ _ ↦ 1

theorem wellLinked_of_adds_two :
    ∃ s, [AddCall.level [0, 1], AddCall.level [0]].foldlM (Growing.add ⟨40, true, false⟩)
        (Growing.empty [0, 2, 4] 16 true true) = some s ∧
      s.hnsw.levels = [1, 2, 1] ∧ s.hnsw.WellLinked ∧
      (0 < s.hnsw.ntotal → s.hnsw.EntryOnTop) ∧ (s.hnsw.ntotal = 0 → s.hnsw.entryPoint = -1) := by
  refine wellLinked_of_adds (fun l hl ↦ ?_) rfl (by decide) 16 true true
  rw [List.length_cons, List.length_cons, List.length_singleton] at hl
  obtain rfl | rfl : l = 0 ∨ l = 1 := by omega
  · decide
  · decide

/-- An index without vertices has no entry point.  And where a level has no room, a link on it is
written to the next list of the table: here the vertices 0 and 1 are on a level without room, and 1
ends up in its own list. -/
theorem not_entryOnTop_and_not_wellLinked :
    (∃ s, ([] : List AddCall).foldlM (Growing.add ⟨40, true, false⟩)
        (Growing.empty [0, 2] 16 true true) = some s ∧ ¬s.hnsw.EntryOnTop) ∧
      ∃ s, [AddCall.level [1, 1, 0]].foldlM (Growing.add ⟨40, true, false⟩)
        (Growing.empty [0, 2, 2] 16 true true) = some s ∧ ¬s.hnsw.WellLinked := by
  constructor
  · exact ⟨_, rfl, fun ⟨e, _, he, _⟩ ↦ Nat.not_lt_zero e he⟩
  · have hrun : ([AddCall.level [1, 1, 0]].foldlM (Growing.add ⟨40, true, false⟩)
        (Growing.empty [0, 2, 2] 16 true true)).map
          (fun s ↦ (s.hnsw.ntotal, s.hnsw.level 1, s.hnsw.neighborList 1 0)) =
        some (3, 2, [1, 2]) := by
      decide +kernel
    obtain ⟨s, hs, hlist⟩ := Option.map_eq_some_iff.mp hrun
    obtain ⟨hntotal, hrest⟩ := Prod.mk.inj hlist
    obtain ⟨hlevel, hids⟩ := Prod.mk.inj hrest
    refine ⟨s, hs, fun h ↦ ?_⟩
    obtain ⟨ids, hpadded, -, hself, -⟩ := h.list 1 (by omega) 0 (by omega)
    rw [← neighborList_eq hpadded, hids] at hself
    exact hself List.mem_cons_self

end FaissNavix
