import FaissNavix.PoolSearch.Start
import Mathlib.Data.List.TakeWhile

/-!
# Searching a navigating spreading-out graph

`NSG::search_on_graph` and `NSG::search` of `faiss/impl/NSG.cpp`.  The starting points are the neighbours
of the entry point, as they are in its row, and then random vertices that were not marked, drawn until
the pool is full.
-/

namespace FaissNavix

open Lib (Turn iterate)

/-- `nsg::Graph`: `data[i * K + j]` is the j-th neighbor of node i. -/
structure NSGGraph where
  K : ℕ
  N : ℕ
  data : ℕ → ℤ

def NSGGraph.nodeAt (g : NSGGraph) (i j : ℕ) : ℤ :=
  g.data (i * g.K + j)

def NSGGraph.getNeighbors (g : NSGGraph) (i : ℕ) : List ℕ :=
  (((List.range g.K).map (g.nodeAt i)).takeWhile fun id ↦ 0 ≤ id).map Int.toNat

structure NSG where
  /-- nb of nodes -/
  ntotal : ℕ
  R : ℕ
  /-- length of the search path at construction time -/
  L : ℕ
  /-- candidate pool size at construction time -/
  C : ℕ
  /-- length of the search path -/
  searchL : ℕ
  enterpoint : ℕ
  finalGraph : Option NSGGraph
  isBuilt : Bool

/-- `init_ids`, `num_ids`, the visited table, and the position in the stream of `gen`. -/
structure InitIds where
  ids : List ℕ
  num : ℕ
  vt : VisitedTable
  drawn : ℕ

/-- The loop over the neighbours of the entry point, from position `i` on. -/
def copyNeighbors (ntotal : ℕ) : List ℕ → ℕ → InitIds → InitIds
  | [], _, s => s
  | id :: rest, i, s =>
      copyNeighbors ntotal rest (i + 1)
        (if ntotal ≤ id then s
        else { s with ids := s.ids.set i id, vt := s.vt.set id, num := s.num + 1 })

/-- The body of the loop `while (num_ids < pool_size)`. -/
def drawTurn (gen : ℕ → ℕ) (ntotal poolSize : ℕ) (s : InitIds) : Turn InitIds :=
  if s.num < poolSize then
    let id := gen s.drawn % ntotal
    let s := { s with drawn := s.drawn + 1 }
    if s.vt.get id then .next s
    else .next { s with ids := s.ids.set s.num id, num := s.num + 1, vt := s.vt.set id }
  else .done s

/-- `init_ids`, with at most `turns` turns of the loop that draws. -/
def initIds (gen : ℕ → ℕ) (ntotal poolSize turns : ℕ) (neighbors : List ℕ) (vt : VisitedTable) :
    Option InitIds :=
  iterate (drawTurn gen ntotal poolSize) turns
    (copyNeighbors ntotal (neighbors.take poolSize) 0 ⟨List.replicate poolSize 0, 0, vt, 0⟩)

/-- `search_on_graph`, with at most `turns` turns of each loop. -/
def searchOnGraph (S : PoolSort) (gen : ℕ → ℕ) (ntotal : ℕ) (collect : Bool) (graph : NSGGraph)
    (dis : ℕ → F32) (vt : VisitedTable) (ep poolSize turns : ℕ) : Option PoolScan := do
  let init ← initIds gen ntotal poolSize turns (graph.getNeighbors ep) vt
  let fullset := if collect then init.ids.map fun id ↦ (id, dis id) else []
  poolLoop (fun id ↦ decide (ntotal < id)) dis collect poolSize graph.getNeighbors turns
    ⟨startPool S dis init.ids, init.vt, fullset⟩

/-- `NSG::search`: the results, or none where it throws or has not ended. -/
def NSG.search (nsg : NSG) (S : PoolSort) (gen : ℕ → ℕ) (dis : ℕ → F32) (k : ℕ) (vt : VisitedTable)
    (turns : ℕ) : Option (List (ℤ × F32)) :=
  if nsg.isBuilt then do
    let graph ← nsg.finalGraph
    let scan ← searchOnGraph S gen nsg.ntotal false graph dis vt nsg.enterpoint (max nsg.searchL k) turns
    pure (poolResults k scan.retset)
  else none

/-! ## The starting points -/

section Init

variable {gen : ℕ → ℕ} {ntotal poolSize : ℕ}

/-- The neighbours of the entry point are copied as they are, and marked. -/
theorem copyNeighbors_eq {xs : List ℕ} (hxs : ∀ v ∈ xs, v < ntotal) {front : List ℕ} {d : ℕ}
    (hd : xs.length ≤ d) (vt : VisitedTable) :
    ∃ vt', copyNeighbors ntotal xs front.length ⟨front ++ List.replicate d 0, front.length, vt, 0⟩ =
        ⟨front ++ xs ++ List.replicate (d - xs.length) 0, (front ++ xs).length, vt', 0⟩ ∧
      ∀ v, vt'.get v = true ↔ v ∈ xs ∨ vt.get v = true := by
  induction xs generalizing front d vt with
  | nil => exact ⟨vt, by simp [copyNeighbors], by simp⟩
  | cons x xs ih =>
      rw [List.length_cons] at hd
      obtain ⟨e, rfl⟩ : ∃ e, d = e + 1 := ⟨d - 1, by omega⟩
      have hset : (front ++ List.replicate (e + 1) 0).set front.length x =
          (front ++ [x]) ++ List.replicate e 0 := by
        rw [List.set_append_right _ _ le_rfl, Nat.sub_self, List.replicate_succ, List.set_cons_zero,
          List.append_assoc, List.singleton_append]
      obtain ⟨vt', heq, hvt⟩ := @ih (fun v hv ↦ hxs v (List.mem_cons_of_mem _ hv)) (front ++ [x]) e
        (Nat.le_of_succ_le_succ hd) (vt.set x)
      refine ⟨vt', ?_, fun v ↦ ?_⟩
      · rw [copyNeighbors, if_neg (not_le.mpr (hxs x List.mem_cons_self))]
        dsimp only
        rw [hset]
        rw [List.length_append, List.length_singleton] at heq
        rw [heq, List.length_cons, Nat.succ_sub_succ, List.append_assoc front, List.singleton_append]
      · rw [hvt, VisitedTable.get_set, List.mem_cons]
        tauto

/-- What has been drawn after the neighbours `xs`: different vertices that were not marked. -/
structure Drawing (ntotal poolSize : ℕ) (xs : List ℕ) (vt : VisitedTable) (ds : List ℕ) (s : InitIds) :
    Prop where
  ids_eq : s.ids = xs ++ ds ++ List.replicate (poolSize - s.num) 0
  num_eq : s.num = (xs ++ ds).length
  num_le : s.num ≤ poolSize
  visits : Visits (fun _ ↦ true) vt s.vt ds
  lt : ∀ v ∈ ds, v < ntotal

variable {xs ds : List ℕ} {vt : VisitedTable} {s : InitIds}

theorem Drawing.unvisited_add_num (h : Drawing ntotal poolSize xs vt ds s) :
    unvisited (fun _ ↦ true) ntotal s.vt + s.num = unvisited (fun _ ↦ true) ntotal vt + xs.length := by
  have := h.visits.unvisited_add_length h.lt
  rw [h.num_eq, List.length_append]
  omega

/-- A turn that does not end the loop draws a marked vertex, or a new starting point. -/
theorem Drawing.turn (h : Drawing ntotal poolSize xs vt ds s) (gen : ℕ → ℕ) (hn : 1 ≤ ntotal) (hlt : s.num < poolSize) :
    s.vt.get (gen s.drawn % ntotal) = true ∧
        drawTurn gen ntotal poolSize s = .next { s with drawn := s.drawn + 1 } ∨
      s.vt.get (gen s.drawn % ntotal) = false ∧
        ∃ s' ds', drawTurn gen ntotal poolSize s = .next s' ∧ Drawing ntotal poolSize xs vt ds' s' ∧
          s'.num = s.num + 1 := by
  rw [drawTurn, if_pos hlt]
  dsimp only
  cases hget : s.vt.get (gen s.drawn % ntotal) with
  | true => exact .inl ⟨rfl, by rw [if_pos rfl]⟩
  | false =>
      refine .inr ⟨rfl, _, ds ++ [gen s.drawn % ntotal], by rw [if_neg Bool.false_ne_true], ?_, rfl⟩
      obtain ⟨d, hd⟩ : ∃ d, poolSize - s.num = d + 1 := ⟨poolSize - s.num - 1, by omega⟩
      have hlast : gen s.drawn % ntotal < ntotal := Nat.mod_lt _ hn
      refine ⟨?_, ?_, hlt, h.visits.append (Visits.mark rfl hget), fun v hv ↦ ?_⟩
      · dsimp only
        rw [h.ids_eq, hd, h.num_eq, List.set_append_right _ _ le_rfl, Nat.sub_self, List.replicate_succ,
          List.set_cons_zero, ← List.append_assoc xs ds, List.append_assoc (xs ++ ds),
          List.singleton_append]
        congr 3
        rw [← h.num_eq]
        omega
      · dsimp only
        rw [h.num_eq, ← List.append_assoc]
        simp only [List.length_append, List.length_singleton]
      · rcases List.mem_append.mp hv with hv | hv
        · exact h.lt v hv
        · rw [List.mem_singleton.mp hv]
          exact hlast

/-- While a vertex is left, one is drawn after some time. -/
theorem Drawing.progress (h : Drawing ntotal poolSize xs vt ds s) (hn : 1 ≤ ntotal)
    (hlt : s.num < poolSize) {v t : ℕ} (hv : s.vt.get v = false) (hge : s.drawn ≤ t)
    (hdraw : gen t % ntotal = v) :
    ∃ j s' ds', (∀ m, iterate (drawTurn gen ntotal poolSize) (j + m) s =
        iterate (drawTurn gen ntotal poolSize) m s') ∧ Drawing ntotal poolSize xs vt ds' s' ∧
      s'.num = s.num + 1 := by
  obtain ⟨wait, rfl⟩ := Nat.exists_eq_add_of_le hge
  induction wait generalizing s with
  | zero =>
      rcases h.turn gen hn hlt with ⟨hget, -⟩ | ⟨-, s', ds', hnext, hs', hnum⟩
      · rw [Nat.add_zero] at hdraw
        rw [hdraw, hv] at hget
        exact absurd hget Bool.false_ne_true
      · exact ⟨1, s', ds', fun m ↦ by rw [Nat.add_comm, Lib.iterate_next hnext], hs', hnum⟩
  | succ wait ih =>
      rcases h.turn gen hn hlt with ⟨-, hnext⟩ | ⟨-, s', ds', hnext, hs', hnum⟩
      · have hwait : Drawing ntotal poolSize xs vt ds { s with drawn := s.drawn + 1 } :=
          ⟨h.ids_eq, h.num_eq, h.num_le, h.visits, h.lt⟩
        obtain ⟨j, s', ds', hreach, hs', hnum⟩ := ih hwait hlt hv (Nat.le_add_right _ _)
          (by rw [← hdraw]; congr 2; dsimp only; omega)
        refine ⟨j + 1, s', ds', fun m ↦ ?_, hs', hnum⟩
        rw [Nat.add_right_comm, Lib.iterate_next hnext]
        exact hreach m
      · exact ⟨1, s', ds', fun m ↦ by rw [Nat.add_comm, Lib.iterate_next hnext], hs', hnum⟩

/-- The loop ends if there are vertices enough that were not marked. -/
theorem Drawing.ends (hn : 1 ≤ ntotal) (hgen : ∀ v < ntotal, ∀ t, ∃ t' ≥ t, gen t' % ntotal = v)
    (hroom : poolSize ≤ unvisited (fun _ ↦ true) ntotal vt + xs.length)
    (h : Drawing ntotal poolSize xs vt ds s) :
    ∃ turns r ds', iterate (drawTurn gen ntotal poolSize) turns s = some r ∧
      Drawing ntotal poolSize xs vt ds' r ∧ r.num = poolSize := by
  have hstep : ∀ s, (∃ ds, Drawing ntotal poolSize xs vt ds s) →
      ∃ j, (∃ r, iterate (drawTurn gen ntotal poolSize) j s = some r ∧
          ∃ ds', Drawing ntotal poolSize xs vt ds' r ∧ r.num = poolSize) ∨
        ∃ s', (∀ m, iterate (drawTurn gen ntotal poolSize) (j + m) s =
            iterate (drawTurn gen ntotal poolSize) m s') ∧
          (∃ ds, Drawing ntotal poolSize xs vt ds s') ∧ poolSize - s'.num < poolSize - s.num := by
    rintro s ⟨ds, h⟩
    by_cases hlt : s.num < poolSize
    · have hleft := h.unvisited_add_num
      have hpos : 0 < unvisited (fun _ ↦ true) ntotal s.vt := by omega
      obtain ⟨v, hv⟩ := Finset.card_pos.mp hpos
      rw [Finset.mem_filter, Finset.mem_range] at hv
      obtain ⟨t, ht, hdraw⟩ := hgen v hv.1 s.drawn
      obtain ⟨j, s', ds', hreach, hs', hnum⟩ := h.progress hn hlt hv.2.2 ht hdraw
      exact ⟨j, .inr ⟨s', hreach, ⟨ds', hs'⟩, by omega⟩⟩
    · refine ⟨1, .inl ⟨s, ?_, ds, h, le_antisymm h.num_le (not_lt.mp hlt)⟩⟩
      exact Lib.iterate_done (by rw [drawTurn, if_neg hlt])
  obtain ⟨turns, r, hr, ds', hds', hnum⟩ := Lib.iterate_progress _ hstep s ⟨ds, h⟩
  exact ⟨turns, r, ds', hr, hds', hnum⟩

theorem Drawing.never (hn : 1 ≤ ntotal)
    (hroom : unvisited (fun _ ↦ true) ntotal vt + xs.length < poolSize)
    (h : Drawing ntotal poolSize xs vt ds s) (turns : ℕ) :
    iterate (drawTurn gen ntotal poolSize) turns s = none := by
  have hstep : ∀ s, (∃ ds, Drawing ntotal poolSize xs vt ds s) →
      ∃ s', drawTurn gen ntotal poolSize s = .next s' ∧ ∃ ds, Drawing ntotal poolSize xs vt ds s' := by
    rintro s ⟨ds, h⟩
    have hleft := h.unvisited_add_num
    rcases h.turn gen hn (by omega) with ⟨-, hnext⟩ | ⟨-, s', ds', hnext, hs', -⟩
    · exact ⟨_, hnext, ds, ⟨h.ids_eq, h.num_eq, h.num_le, h.visits, h.lt⟩⟩
    · exact ⟨s', hnext, ds', hs'⟩
  exact Lib.iterate_never hstep turns ⟨ds, h⟩

theorem unvisited_add_dedup {vt' : VisitedTable} (hxs : ∀ v ∈ xs, v < ntotal) (hvt : vt.Clean ntotal)
    (hget : ∀ v, vt'.get v = true ↔ v ∈ xs ∨ vt.get v = true) :
    unvisited (fun _ ↦ true) ntotal vt' + xs.dedup.length = ntotal := by
  have hsub : xs.toFinset ⊆ Finset.range ntotal := fun v hv ↦
    Finset.mem_range.mpr (hxs v (List.mem_toFinset.mp hv))
  have heq : ((Finset.range ntotal).filter fun v ↦ true = true ∧ vt'.get v = false) =
      Finset.range ntotal \ xs.toFinset := by
    ext v
    simp only [Finset.mem_filter, Finset.mem_sdiff, List.mem_toFinset, true_and]
    refine and_congr_right fun hv ↦ ?_
    rw [← Bool.not_eq_true, hget, hvt v (Finset.mem_range.mp hv)]
    simp
  rw [unvisited, heq, ← List.card_toFinset, Finset.card_sdiff_add_card_eq_card hsub, Finset.card_range]

theorem copyNeighbors_start {neighbors : List ℕ} (hnbr : ∀ v ∈ neighbors, v < ntotal) (poolSize : ℕ)
    (hvt : vt.Clean ntotal) :
    ∃ vt', Drawing ntotal poolSize (neighbors.take poolSize) vt' []
        (copyNeighbors ntotal (neighbors.take poolSize) 0 ⟨List.replicate poolSize 0, 0, vt, 0⟩) ∧
      unvisited (fun _ ↦ true) ntotal vt' + (neighbors.take poolSize).dedup.length = ntotal ∧
      ∀ v, vt'.get v = true ↔ v ∈ neighbors.take poolSize ∨ vt.get v = true := by
  have hlt : ∀ v ∈ neighbors.take poolSize, v < ntotal := fun v hv ↦ hnbr v (List.mem_of_mem_take hv)
  have hlen : (neighbors.take poolSize).length ≤ poolSize := List.length_take_le _ _
  obtain ⟨vt', heq, hget⟩ := @copyNeighbors_eq ntotal _ hlt [] poolSize hlen vt
  rw [List.nil_append, List.length_nil] at heq
  refine ⟨vt', ?_, unvisited_add_dedup hlt hvt hget, hget⟩
  rw [heq]
  exact ⟨by simp, by simp, hlen, Visits.refl _ _, fun v hv ↦ absurd hv List.not_mem_nil⟩

end Init

end FaissNavix

/-!
# When the search of the graph gives valid results

The drawing of starting points ends exactly if there are vertices enough that are not neighbours of the
entry point, and the results are different vertices for all distances exactly if, moreover, no neighbour
is there twice, or only one result is asked for.
-/

namespace FaissNavix

open Lib (iterate)

/-- The rows of a built graph: vertices, and then `EMPTY_ID`. -/
def NSGGraph.IsBuilt (g : NSGGraph) (ntotal : ℕ) : Prop :=
  ∀ i < ntotal, ∃ m ≤ g.K, (∀ j < m, 0 ≤ g.nodeAt i j ∧ g.nodeAt i j < ntotal) ∧
    ∀ j, m ≤ j → j < g.K → g.nodeAt i j = -1

/-- The neighbours of the entry point that become starting points of a pool. -/
def NSGGraph.entryNeighbors (g : NSGGraph) (ep poolSize : ℕ) : List ℕ :=
  (g.getNeighbors ep).take poolSize

variable {S : PoolSort} {gen : ℕ → ℕ} {ntotal poolSize ep k : ℕ} {g : NSGGraph} {dis : ℕ → F32}
  {vt : VisitedTable}

theorem NSGGraph.IsBuilt.lt (hg : g.IsBuilt ntotal) {i : ℕ} (hi : i < ntotal) :
    ∀ v ∈ g.getNeighbors i, v < ntotal := by
  intro v hv
  obtain ⟨id, hid, rfl⟩ := List.mem_map.mp hv
  have hpos := List.mem_takeWhile_imp hid
  rw [decide_eq_true_iff] at hpos
  obtain ⟨j, hj, rfl⟩ := List.mem_map.mp ((List.takeWhile_sublist _).subset hid)
  obtain ⟨m, -, hrow, hpad⟩ := hg i hi
  rcases Nat.lt_or_ge j m with hlt | hge
  · have := (hrow j hlt).2
    omega
  · rw [hpad j hge (List.mem_range.mp hj)] at hpos
    omega

theorem NSGGraph.IsBuilt.entry_lt (hg : g.IsBuilt ntotal) (hep : ep < ntotal) :
    ∀ v ∈ g.entryNeighbors ep poolSize, v < ntotal :=
  fun v hv ↦ hg.lt hep v (List.mem_of_mem_take hv)

theorem poolLoop_mono {refused : ℕ → Bool} {collect : Bool} {neighbors : ℕ → List ℕ} {a b : ℕ}
    {s r : PoolScan} (h : poolLoop refused dis collect poolSize neighbors a s = some r) (hab : a ≤ b) :
    poolLoop refused dis collect poolSize neighbors b s = some r := by
  rw [poolLoop, Option.map_eq_some_iff] at h ⊢
  obtain ⟨t, ht, hr⟩ := h
  exact ⟨t, Lib.iterate_mono ht hab, hr⟩

theorem searchOnGraph_mono {collect : Bool} {a b : ℕ} {r : PoolScan}
    (h : searchOnGraph S gen ntotal collect g dis vt ep poolSize a = some r) (hab : a ≤ b) :
    searchOnGraph S gen ntotal collect g dis vt ep poolSize b = some r := by
  obtain ⟨init, hinit, hloop⟩ := Option.bind_eq_some_iff.mp h
  refine Option.bind_eq_some_iff.mpr ⟨init, Lib.iterate_mono hinit hab, poolLoop_mono hloop hab⟩

/-- With vertices enough the search ends, and the pool comes from the neighbours of the entry point and
other vertices. -/
theorem searchOnGraph_total (hg : g.IsBuilt ntotal) (hep : ep < ntotal)
    (hgen : ∀ v < ntotal, ∀ t, ∃ t' ≥ t, gen t' % ntotal = v) (hsize : 1 ≤ poolSize)
    (hroom : poolSize + (g.entryNeighbors ep poolSize).dedup.length ≤
      ntotal + (g.entryNeighbors ep poolSize).length)
    (hdis : ∀ v < ntotal, (dis v).Comparable) (hvt : vt.Clean ntotal) (collect : Bool) :
    ∃ turns scan ds, searchOnGraph S gen ntotal collect g dis vt ep poolSize turns = some scan ∧
      (g.entryNeighbors ep poolSize ++ ds).length = poolSize ∧ ds.Nodup ∧
      (∀ v ∈ ds, v ∉ g.entryNeighbors ep poolSize) ∧
      Improves ntotal dis poolSize (startPool S dis (g.entryNeighbors ep poolSize ++ ds)) scan.retset := by
  obtain ⟨vt', hstart, hleft, hget⟩ := copyNeighbors_start (hg.lt hep) poolSize hvt
  obtain ⟨a, init, ds, hinit, hdraw, hnum⟩ :=
    Drawing.ends (Nat.lt_of_le_of_lt (Nat.zero_le _) hep) hgen
      (by rw [NSGGraph.entryNeighbors] at hroom; omega) hstart
  have hids : init.ids = g.entryNeighbors ep poolSize ++ ds := by
    rw [hdraw.ids_eq, hnum, Nat.sub_self, List.replicate_zero, List.append_nil]
    rfl
  have hlen : (g.entryNeighbors ep poolSize ++ ds).length = poolSize := by
    exact hdraw.num_eq.symm.trans hnum
  have hlt : ∀ v ∈ g.entryNeighbors ep poolSize ++ ds, v < ntotal := by
    intro v hv
    rcases List.mem_append.mp hv with hv | hv
    · exact hg.entry_lt hep v hv
    · exact hdraw.lt v hv
  obtain ⟨b, scan, hloop, himp⟩ := poolLoop_total (fun id ↦ decide (ntotal < id)) collect hsize hdis
    (fun u hu ↦ hg.lt hu)
    (s := ⟨startPool S dis init.ids, init.vt,
      if collect then init.ids.map fun id ↦ (id, dis id) else []⟩)
    (startPool_sound hdis (by rw [hids]; exact hlen) (by rw [hids]; exact hlt))
  refine ⟨max a b, scan, ds, ?_, hlen, hdraw.visits.nodup, fun v hv hmem ↦ ?_, ?_⟩
  · exact Option.bind_eq_some_iff.mpr ⟨init, Lib.iterate_mono hinit (le_max_left a b),
      poolLoop_mono hloop (le_max_right a b)⟩
  · have hfresh := (hdraw.visits.fresh v hv).2
    rw [(hget v).mpr (.inl hmem)] at hfresh
    exact absurd hfresh (by simp)
  · rw [hids] at himp
    exact himp

theorem searchOnGraph_never (hg : g.IsBuilt ntotal) (hep : ep < ntotal)
    (hroom : ntotal + (g.entryNeighbors ep poolSize).length <
      poolSize + (g.entryNeighbors ep poolSize).dedup.length) (hvt : vt.Clean ntotal) (collect : Bool)
    (turns : ℕ) : searchOnGraph S gen ntotal collect g dis vt ep poolSize turns = none := by
  obtain ⟨vt', hstart, hleft, -⟩ := copyNeighbors_start (hg.lt hep) poolSize hvt
  have hnone : initIds gen ntotal poolSize turns (g.getNeighbors ep) vt = none :=
    hstart.never (Nat.lt_of_le_of_lt (Nat.zero_le _) hep)
      (by rw [NSGGraph.entryNeighbors] at hroom; omega) turns
  rw [searchOnGraph, hnone]
  rfl

/-! ## The search -/

/-- The starting points of a pool: there are enough, and none is there twice, unless only one result is
asked for. -/
def NSG.SearchFits (nsg : NSG) (g : NSGGraph) (k : ℕ) : Prop :=
  max nsg.searchL k + (g.entryNeighbors nsg.enterpoint (max nsg.searchL k)).dedup.length ≤
      nsg.ntotal + (g.entryNeighbors nsg.enterpoint (max nsg.searchL k)).length ∧
    (k = 1 ∨ (g.entryNeighbors nsg.enterpoint (max nsg.searchL k)).Nodup)

instance (nsg : NSG) (g : NSGGraph) (k : ℕ) : Decidable (nsg.SearchFits g k) :=
  inferInstanceAs (Decidable (_ ∧ _))

theorem NSG.search_eq_some_iff {nsg : NSG} (hbuilt : nsg.isBuilt = true) (hg : nsg.finalGraph = some g)
    {turns : ℕ} {row : List (ℤ × F32)} :
    nsg.search S gen dis k vt turns = some row ↔
      ∃ scan, searchOnGraph S gen nsg.ntotal false g dis vt nsg.enterpoint (max nsg.searchL k) turns =
          some scan ∧ poolResults k scan.retset = row := by
  rw [NSG.search, if_pos hbuilt, hg, Option.bind_eq_bind, Option.bind_some, Option.bind_eq_bind,
    Option.bind_eq_some_iff]
  refine exists_congr fun scan ↦ and_congr_right fun _ ↦ ?_
  rw [Option.pure_def, Option.some_inj]

/-- The search gives valid results for all distances exactly if the starting points fit. -/
theorem NSG.search_valid_iff (S : PoolSort) {gen : ℕ → ℕ} {nsg : NSG} {g : NSGGraph} {k : ℕ}
    (hbuilt : nsg.isBuilt = true) (hg : nsg.finalGraph = some g) (hrows : g.IsBuilt nsg.ntotal)
    (hep : nsg.enterpoint < nsg.ntotal)
    (hgen : ∀ v < nsg.ntotal, ∀ t, ∃ t' ≥ t, gen t' % nsg.ntotal = v)
    (hL : 1 ≤ nsg.searchL) (hk : 1 ≤ k) :
    (∀ dis : ℕ → F32, (∀ v < nsg.ntotal, (dis v).Comparable) →
      ∀ vt : VisitedTable, vt.Clean nsg.ntotal →
        ∃ turns row, nsg.search S gen dis k vt turns = some row ∧ ValidRow nsg.ntotal k dis row) ↔
      nsg.SearchFits g k := by
  have hsize : 1 ≤ max nsg.searchL k := hL.trans (le_max_left _ _)
  constructor
  · intro h
    have hroom : max nsg.searchL k +
        (g.entryNeighbors nsg.enterpoint (max nsg.searchL k)).dedup.length ≤
          nsg.ntotal + (g.entryNeighbors nsg.enterpoint (max nsg.searchL k)).length := by
      by_contra hroom
      obtain ⟨turns, row, hrow, -⟩ := h (nearTo 0) (fun v _ ↦ nearTo_comparable 0 v)
        (VisitedTable.new nsg.ntotal) (VisitedTable.clean_new _ _)
      obtain ⟨scan, hscan, -⟩ := (NSG.search_eq_some_iff hbuilt hg).mp hrow
      rw [searchOnGraph_never hrows hep (not_le.mp hroom) (VisitedTable.clean_new _ _)] at hscan
      exact absurd hscan (by simp)
    refine ⟨hroom, ?_⟩
    by_contra hnot
    rw [not_or, ← List.exists_duplicate_iff_not_nodup] at hnot
    obtain ⟨hone, v, hv⟩ := hnot
    -- the neighbour that is there twice is the nearest vertex
    obtain ⟨a, row, hrow, hvalid⟩ := h (nearTo v) (fun u _ ↦ nearTo_comparable v u)
      (VisitedTable.new nsg.ntotal) (VisitedTable.clean_new _ _)
    obtain ⟨scan, hscan, rfl⟩ := (NSG.search_eq_some_iff hbuilt hg).mp hrow
    obtain ⟨b, scan', ds, hscan', hlen, -, -, himp⟩ := searchOnGraph_total hrows hep hgen hsize hroom
      (fun u _ ↦ nearTo_comparable v u) (VisitedTable.clean_new nsg.ntotal _) false
    have heq : scan = scan' := Option.some_inj.mp
      ((searchOnGraph_mono hscan (le_max_left a b)).symm.trans
        (searchOnGraph_mono hscan' (le_max_right a b)))
    subst heq
    refine himp.not_validRow hlen ?_ (by omega) (le_max_right _ _) hvalid
    rw [List.count_append]
    have := List.duplicate_iff_two_le_count.mp hv
    omega
  · rintro ⟨hroom, hor⟩ dis hdis vt hvt
    obtain ⟨turns, scan, ds, hscan, hlen, hds, hother, himp⟩ :=
      searchOnGraph_total hrows hep hgen hsize hroom hdis hvt false
    refine ⟨turns, _, (NSG.search_eq_some_iff hbuilt hg).mpr ⟨scan, hscan, rfl⟩,
      himp.sound.validRow (le_max_right _ _) ?_⟩
    rcases hor with rfl | hnd
    · have hle : ((scan.retset.take 1).map Neighbor.id).length ≤ 1 := by
        rw [List.length_map]
        exact List.length_take_le _ _
      exact List.nodup_iff_count_le_one.mpr fun v ↦ List.count_le_length.trans hle
    · have hids : (g.entryNeighbors nsg.enterpoint (max nsg.searchL k) ++ ds).Nodup :=
        List.nodup_append.mpr ⟨hnd, hds, fun u hu v hv huv ↦ hother v hv (huv ▸ hu)⟩
      have hall := himp.nodup ((startPool_ids hlen).nodup_iff.mpr hids)
      exact hall.sublist ((List.take_sublist_take_left (le_max_right _ _)).map _)

/-- One vertex without neighbours. -/
def NSG.single (searchL : ℕ) : NSG where
  ntotal := 1
  R := 1
  L := 33
  C := 101
  searchL := searchL
  enterpoint := 0
  finalGraph := some ⟨1, 1, fun _ ↦ -1⟩
  isBuilt := true

theorem NSGGraph.isBuilt_single : NSGGraph.IsBuilt ⟨1, 1, fun _ ↦ -1⟩ 1 :=
  fun _ _ ↦ ⟨0, Nat.zero_le _, fun _ hj ↦ absurd hj (Nat.not_lt_zero _), fun _ _ _ ↦ rfl⟩

theorem NSG.search_valid_iff_single :
    (∀ dis : ℕ → F32, (∀ v < 1, (dis v).Comparable) → ∀ vt : VisitedTable, vt.Clean 1 →
      ∃ turns row, (NSG.single 1).search PoolSort.insertion id dis 1 vt turns = some row ∧
        ValidRow 1 1 dis row) ↔ (NSG.single 1).SearchFits ⟨1, 1, fun _ ↦ -1⟩ 1 :=
  @NSG.search_valid_iff PoolSort.insertion id (NSG.single 1) _ 1 rfl rfl NSGGraph.isBuilt_single
    Nat.zero_lt_one (fun _ hv t ↦ ⟨t, le_rfl, (Nat.mod_one _).trans (Nat.lt_one_iff.mp hv).symm⟩) le_rfl le_rfl

/-- With the default `search_L` the search of a graph of one vertex does not end. -/
theorem NSG.search_single_never :
    ¬ ∃ turns row, (NSG.single 16).search PoolSort.insertion id (nearTo 0) 1 (VisitedTable.new 1) turns =
        some row ∧ ValidRow 1 1 (nearTo 0) row := by
  rintro ⟨turns, row, hrow, -⟩
  obtain ⟨scan, hscan, -⟩ := (@NSG.search_eq_some_iff _ _ _ _ _ _ (NSG.single 16) rfl rfl _ _).mp hrow
  have hnever : searchOnGraph PoolSort.insertion id 1 false ⟨1, 1, fun _ ↦ -1⟩ (nearTo 0)
      (VisitedTable.new 1) 0 16 turns = none :=
    searchOnGraph_never NSGGraph.isBuilt_single Nat.zero_lt_one (by decide)
      (VisitedTable.clean_new 1 1) false turns
  exact absurd (hnever.symm.trans hscan) (by simp)

end FaissNavix
