import FaissNavix.HNSW.Search

/-!
# The Navix hybrid search

`HNSW::navix_hybrid_search` of `faiss/impl/HNSW.cpp` and its helpers: a search of level 0 for
vertices that pass a filter, given as one byte per vertex.  For every candidate the share of its
neighbours that pass decides between three ways to go on, which collect vertices in a fixed buffer
whose distances are then computed together.

The buffer has room for 4096 ids.  A write past its end, whose effect the source leaves undefined,
is recorded in `overflow`, and the id is kept like any other.
-/

namespace FaissNavix

open Lib
open Lib.PriorityQueue (pop)
open ResultHandler (threshold addResult heapK)

/-- `node_array_t` with the number of ids in use. -/
structure NodeArray where
  ids : List ℕ
  overflow : Bool
deriving DecidableEq, Repr

namespace NodeArray

def capacity : ℕ := 4096

def new : NodeArray := { ids := [], overflow := false }

/-- `node_array[size++] = v` -/
def push (a : NodeArray) (v : ℕ) : NodeArray where
  ids := a.ids ++ [v]
  overflow := a.overflow || decide (capacity ≤ a.ids.length)

/-- `size = 0` -/
def reset (a : NodeArray) : NodeArray := { a with ids := [] }

end NodeArray

/-- `filter_id_map[v]` as a condition. -/
def passes (filterIdMap : ℕ → UInt8) (v : ℕ) : Bool := filterIdMap v != 0

variable {H : Type} [ResultHandler H]

/-- `add_to_heap` of the functions that skip unmasked ids. -/
def Collected.addMasked (filterIdMap : ℕ → UInt8) (s : Collected H) (idx : ℕ) (dis : F32) :
    Collected H :=
  if passes filterIdMap idx then s.addToHeap none idx dis else s

/-- `NodeDistFarther`: the nearest one is on top. -/
def farther (a b : Node) : Bool := decide (b.1 < a.1)

/-- What the functions below are handed by reference, the buffer apart. -/
structure NavixState (H : Type) where
  res : H
  candidates : MinimaxHeap
  vt : VisitedTable
  stats : HNSWStats

def NavixState.collect (s : NavixState H) : Collected H :=
  { off := Offering.start s.res 0, candidates := s.candidates, ndis := s.stats.ndis }

/-- The state after these functions. -/
def NavixState.collected (s : NavixState H) (c : Collected H) : NavixState H :=
  { s with
    res := c.off.res
    candidates := c.candidates
    stats := { s.stats with ndis := c.ndis } }

namespace HNSW

variable (g : HNSW) (qdis : ℕ → F32) (filterIdMap : ℕ → UInt8)

/-- `navix_batch_compute_distance` -/
def navixBatchComputeDistance (a : NodeArray) (s : NavixState H) : NodeArray × NavixState H :=
  (a.reset, s.collected
    (batched (Collected.addFour none qdis) (Collected.addOne none qdis) a.ids s.collect))

def collectMasked (s : VisitedTable × NodeArray) (v : ℕ) : VisitedTable × NodeArray :=
  if passes filterIdMap v ∧ s.1.get v = false then (s.1.set v, s.2.push v) else s

/-- `navix_one_hop` -/
def navixOneHop (nbrs : List ℕ) (vt : VisitedTable) (a : NodeArray) : VisitedTable × NodeArray :=
  nbrs.foldl (collectMasked filterIdMap) (vt, a)

/-- One vertex of the buffer in `navix_batch_directed_compute_distance`: it is put in the queue of
vertices to explore, and offered if it passes. -/
def directedOne (s : List Node × Collected H) (v : ℕ) : List Node × Collected H :=
  let c := s.2.addMasked filterIdMap v (qdis v)
  ((qdis v, v) :: s.1, { c with ndis := c.ndis + 1 })

def directedFour (s : List Node × Collected H) (vs : List ℕ) : List Node × Collected H :=
  let s' := (vs.map fun v ↦ (v, qdis v)).foldl
    (fun s p ↦ ((p.2, p.1) :: s.1, s.2.addMasked filterIdMap p.1 p.2))
    (s.1, { s.2 with ndis := s.2.ndis + 4 })
  s'

/-- `navix_batch_directed_compute_distance` -/
def navixBatchDirectedComputeDistance (a : NodeArray) (nbrsToExplore : List Node)
    (s : NavixState H) : NodeArray × List Node × NavixState H :=
  let r := batched (directedFour qdis filterIdMap) (directedOne qdis filterIdMap) a.ids
    (nbrsToExplore, s.collect)
  (a.reset, r.1, s.collected r.2)

/-- A first-hop neighbour in `navix_directed`: `visited_set_size`, the visited table and the
buffer. -/
def directedFirstHop (s : ℕ × VisitedTable × NodeArray) (v1 : ℕ) : ℕ × VisitedTable × NodeArray :=
  let visitedSetSize := if passes filterIdMap v1 then s.1 + 1 else s.1
  if s.2.1.get v1 then (visitedSetSize, s.2)
  else
    (visitedSetSize, if passes filterIdMap v1 then s.2.1.set v1 else s.2.1, s.2.2.push v1)

/-- A second-hop neighbour in `navix_directed`. -/
def directedSecondHop (s : ℕ × VisitedTable × NodeArray) (v2 : ℕ) : ℕ × VisitedTable × NodeArray :=
  (if passes filterIdMap v2 then s.1 + 1 else s.1, collectMasked filterIdMap s.2 v2)

/-- The variables of the second half of `navix_directed`. -/
structure Exploring where
  nbrsToExplore : List Node
  visitedSetSize : ℕ
  vt : VisitedTable
  nodeArray : NodeArray
  nhops : ℕ

/-- The loop of `navix_directed` over the vertices to explore; every turn takes one out of the
queue, whose length bounds the number of turns. -/
def exploreNbrs (filterNbrsToFind : ℕ) : ℕ → Exploring → Exploring
  | 0, s => s
  | n + 1, s =>
    match pop farther s.nbrsToExplore with
    | none => s
    | some ((_, id), nbrsToExplore) =>
      let s := { s with nbrsToExplore }
      if filterNbrsToFind ≤ s.visitedSetSize then s
      else if s.vt.get id then exploreNbrs filterNbrsToFind n s
      else
        let r := (g.neighborList id 0).foldl (directedSecondHop filterIdMap)
          (s.visitedSetSize, s.vt.set id, s.nodeArray)
        exploreNbrs filterNbrsToFind n
          { s with
            visitedSetSize := r.1
            vt := r.2.1
            nodeArray := r.2.2
            nhops := s.nhops + 1 }

/-- `navix_directed` -/
def navixDirected (nbrs : List ℕ) (filterNbrsToFind : ℕ) (a : NodeArray) (s : NavixState H) :
    NodeArray × NavixState H :=
  let (visitedSetSize, vt, a) := nbrs.foldl (directedFirstHop filterIdMap) (0, s.vt, a)
  let (a, nbrsToExplore, s) :=
    navixBatchDirectedComputeDistance qdis filterIdMap a [] { s with vt }
  let e := g.exploreNbrs filterIdMap filterNbrsToFind nbrsToExplore.length
    { nbrsToExplore, visitedSetSize, vt := s.vt, nodeArray := a, nhops := s.stats.nhops }
  (e.nodeArray, { s with vt := e.vt, stats := { s.stats with nhops := e.nhops } })

/-- `navix_full_two_hop`: the visited table, the buffer and the number of hops. -/
def navixFullTwoHop (nbrs : List ℕ) (vt : VisitedTable) (a : NodeArray) (nhops : ℕ) :
    VisitedTable × NodeArray × ℕ :=
  nbrs.foldl
    (fun s v1 ↦
      let r := (g.neighborList v1 0).foldl (collectMasked filterIdMap)
        (collectMasked filterIdMap (s.1, s.2.1) v1)
      (r.1, r.2, s.2.2 + 1))
    (vt, a, nhops)

/-- The loop of `navix_add_filtered_nodes_to_candidates` over the ids. -/
def addFilteredNodes (numOfNodes : ℕ) : List ℕ → ℕ → Collected H × VisitedTable →
    Collected H × VisitedTable
  | [], _, s => s
  | pId :: ids, count, s =>
    let (count, s) :=
      if passes filterIdMap pId then
        (count + 1, (s.1.addMasked filterIdMap pId (qdis pId), s.2.set pId))
      else (count, s)
    if numOfNodes ≤ count then s else addFilteredNodes numOfNodes ids count s

/-- `navix_add_filtered_nodes_to_candidates` -/
def navixAddFilteredNodesToCandidates (numOfNodes : ℕ) (s : NavixState H) : NavixState H :=
  let r := addFilteredNodes qdis filterIdMap numOfNodes (List.range g.ntotal) 0 (s.collect, s.vt)
  { s.collected r.1 with vt := r.2 }

/-- The number of seeds that `navix_hybrid_search` asks for. -/
def numSeeds : ℕ := 10

/-- How a candidate is expanded. -/
inductive Expansion where
  | oneHop
  | directed
  | fullTwoHop
deriving DecidableEq, Repr

/-- The choice between the three ways to expand a candidate with `total` neighbours of which
`filtered` pass: `local_selectivity >= 0.5`, and else `(total * filtered + filtered) * 0.4 >
total + (total - filtered)`.  A quotient by zero is a NaN, which is not above one half.  The
numbers are small integers, on which the comparisons of doubles are exact. -/
def expansion (total filtered : ℕ) : Expansion :=
  if 0 < total ∧ total ≤ 2 * filtered then .oneHop
  else if 5 * (total + (total - filtered)) < 2 * (total * filtered + filtered) then .directed
  else .fullTwoHop

/-- The part of a turn that fills the buffer. -/
def navixExpand (nbrs : List ℕ) (a : NodeArray) (s : NavixState H) : NodeArray × NavixState H :=
  match expansion nbrs.length (nbrs.countP (passes filterIdMap)) with
  | .oneHop =>
    let r := navixOneHop filterIdMap nbrs s.vt a
    (r.2, { s with vt := r.1 })
  | .directed => g.navixDirected qdis filterIdMap nbrs nbrs.length a s
  | .fullTwoHop =>
    let r := g.navixFullTwoHop filterIdMap nbrs s.vt a s.stats.nhops
    (r.2.1, { s with vt := r.1, stats := { s.stats with nhops := r.2.2 } })

/-- One turn of the loop of `navix_hybrid_search`. -/
def navixTurn (efSearch : ℕ) (s : NodeArray × NavixState H) : Turn (NodeArray × NavixState H) :=
  if s.2.candidates.size = 0 then .done s
  else
    match s.2.candidates.popMin with
    | none => .done s
    | some (candidate, candDist, candidates) =>
      let st := { s.2 with candidates }
      if efSearch ≤ candidates.countBelow candDist then .done (s.1, st)
      else
        let st := { st with stats := { st.stats with nhops := st.stats.nhops + 1 } }
        let r := g.navixExpand qdis filterIdMap (g.neighborList candidate.toNat 0) s.1 st
        .next (navixBatchComputeDistance qdis r.1 r.2)

/-- The lines before the loop: the vertex the descent ends at and the seeds. -/
def navixStart (near : Nearest) (stats : HNSWStats) (res : H) (vt : VisitedTable) : NavixState H :=
  let ef := max g.efSearch (extractK res)
  let candidates := (MinimaxHeap.new ef).push near.nearest near.dNearest
  let (res, vt) :=
    if passes filterIdMap near.nearest then
      ((addResult res near.dNearest near.nearest).1, vt.set near.nearest)
    else (res, vt)
  g.navixAddFilteredNodesToCandidates qdis filterIdMap numSeeds { res, candidates, vt, stats }

/-- `navix_hybrid_search`: the buffer, and the handler, visited table and statistics. -/
def navixHybridSearch (res : H) (vt : VisitedTable) : Option (NodeArray × NavixState H) :=
  if g.entryPoint = -1 then
    some (NodeArray.new, { res, candidates := MinimaxHeap.new 0, vt, stats := {} })
  else
    let (near, stats) := g.greedyDescent qdis g.entryPoint.toNat
    let s := g.navixStart qdis filterIdMap near stats res vt
    iterate (g.navixTurn qdis filterIdMap g.efSearch) (s.candidates.size + g.ntotal + 1)
      (NodeArray.new, s)

end HNSW

end FaissNavix
