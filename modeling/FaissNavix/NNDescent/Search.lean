import FaissNavix.NNDescent.GenRandom
import FaissNavix.PoolSearch.Start

/-!
# Searching an NN-Descent graph

`NNDescent::search` of `faiss/impl/NNDescent.cpp`.  The pool starts with random vertices, which are not
marked; a vertex that is met again is found in the pool by the insertion.  The results are valid for all
random draws exactly if the pool is smaller than the graph, and two ids can be added as `int`s.
-/

namespace FaissNavix

structure NNDescent where
  ntotal : ℕ
  /-- K in KNN graph -/
  K : ℕ
  /-- size of candidate pool in searching -/
  searchL : ℕ
  hasBuilt : Bool
  finalGraph : List ℕ

def NNDescent.row (nnd : NNDescent) (n : ℕ) : List ℕ :=
  (List.range nnd.K).map fun m ↦ nnd.finalGraph.getD (n * nnd.K + m) 0

/-- `NNDescent::search`, where `rng` are the draws of the generator: the results and the visited table, or
none where it throws, its behaviour is undefined, or it has not ended after so many turns. -/
def NNDescent.search (nnd : NNDescent) (S : PoolSort) (rng : ℕ → UInt32) (qdis : ℕ → F32) (topk : ℕ)
    (vt : VisitedTable) (turns : ℕ) : Option (List (ℤ × F32) × VisitedTable) :=
  if nnd.hasBuilt then do
    let size := max nnd.searchL topk
    guard (size + 1 < 2 ^ 31)
    let initIds ← genRandom rng size nnd.ntotal
    -- `qdis` reads outside of the storage otherwise
    guard (∀ id ∈ initIds, 0 ≤ id ∧ id < nnd.ntotal)
    let retset := startPool S qdis (initIds.map Int.toNat)
    let scan ← poolLoop (fun _ ↦ false) qdis false size nnd.row turns ⟨retset, vt, []⟩
    pure (poolResults topk scan.retset, scan.vt.advance)
  else none

/-- What `build` leaves: `K` vertices for every vertex, of more than `NUM_EVAL_POINTS`. -/
structure NNDescent.IsBuilt (nnd : NNDescent) : Prop where
  hasBuilt : nnd.hasBuilt = true
  length_eq : nnd.finalGraph.length = nnd.ntotal * nnd.K
  lt : ∀ v ∈ nnd.finalGraph, v < nnd.ntotal
  evalPoints : 100 < nnd.ntotal
  ntotal_int : nnd.ntotal < 2 ^ 31
  length_int : nnd.ntotal * nnd.K < 2 ^ 31

variable {nnd : NNDescent}

theorem NNDescent.IsBuilt.row_lt (h : nnd.IsBuilt) (u : ℕ) : ∀ v ∈ nnd.row u, v < nnd.ntotal := by
  intro v hv
  obtain ⟨m, -, rfl⟩ := List.mem_map.mp hv
  rw [List.getD_eq_getElem?_getD]
  cases hget : nnd.finalGraph[u * nnd.K + m]? with
  | none => exact Nat.lt_of_le_of_lt (Nat.zero_le _) h.evalPoints
  | some w => exact h.lt w (List.mem_of_getElem? hget)

theorem NNDescent.search_eq_some_iff (hbuilt : nnd.hasBuilt = true) {S : PoolSort} {rng : ℕ → UInt32}
    {qdis : ℕ → F32} {topk turns : ℕ} {vt : VisitedTable} {r : List (ℤ × F32) × VisitedTable} :
    nnd.search S rng qdis topk vt turns = some r ↔
      max nnd.searchL topk + 1 < 2 ^ 31 ∧ ∃ ids, genRandom rng (max nnd.searchL topk) nnd.ntotal = some ids ∧
        (∀ id ∈ ids, 0 ≤ id ∧ id < (nnd.ntotal : ℤ)) ∧
        ∃ scan, poolLoop (fun _ ↦ false) qdis false (max nnd.searchL topk) nnd.row turns
            ⟨startPool S qdis (ids.map Int.toNat), vt, []⟩ = some scan ∧
          (poolResults topk scan.retset, scan.vt.advance) = r := by
  rw [NNDescent.search, if_pos hbuilt]
  simp only [Option.bind_eq_bind, Option.bind_eq_some_iff, Option.guard_eq_some', exists_const, Option.pure_def,
    Option.some_inj]

/-- The search gives valid results for all draws and all distances exactly if the pool is smaller than the
graph, and the graph has no more than `2 ^ 30 + 1` vertices. -/
theorem NNDescent.search_rows_iff (S : PoolSort) (h : nnd.IsBuilt) {topk : ℕ} (hk : 1 ≤ topk) :
    (∀ (rng : ℕ → UInt32) (qdis : ℕ → F32), (∀ v < nnd.ntotal, (qdis v).Comparable) →
      ∀ vt : VisitedTable, vt.Clean nnd.ntotal →
        ∃ turns row vt', nnd.search S rng qdis topk vt turns = some (row, vt') ∧
          ValidRow nnd.ntotal topk qdis row) ↔
      max nnd.searchL topk < nnd.ntotal ∧ nnd.ntotal ≤ 2 ^ 30 + 1 := by
  have hpos := h.evalPoints
  have hint := h.ntotal_int
  have hsize : 1 ≤ max nnd.searchL topk := hk.trans (le_max_right _ _)
  constructor
  · intro hall
    have hdraw : ∀ rng : ℕ → UInt32, max nnd.searchL topk + 1 < 2 ^ 31 ∧
        ∃ ids, genRandom rng (max nnd.searchL topk) nnd.ntotal = some ids ∧
          ∀ id ∈ ids, 0 ≤ id ∧ id < (nnd.ntotal : ℤ) := by
      intro rng
      obtain ⟨turns, row, vt', hrow, -⟩ := hall rng (nearTo 0) (fun v _ ↦ nearTo_comparable 0 v)
        (VisitedTable.new nnd.ntotal) (VisitedTable.clean_new _ _)
      obtain ⟨hroom, ids, hids, hrange, -⟩ := (NNDescent.search_eq_some_iff h.hasBuilt).mp hrow
      exact ⟨hroom, ids, hids, hrange⟩
    have hlt : max nnd.searchL topk < nnd.ntotal := by
      rcases Nat.lt_trichotomy (max nnd.searchL topk) nnd.ntotal with hlt | heq | hgt
      · exact hlt
      · obtain ⟨-, ids, hids, -⟩ := hdraw fun _ ↦ 0
        rw [heq, genRandom_self] at hids
        exact absurd hids (by simp)
      · obtain ⟨hroom, ids, hids, hrange⟩ := hdraw (sameDraws (max nnd.searchL topk) 0xffffffff 0)
        have := hrange _ (genRandom_of_gt (by omega) hgt (by omega) hids)
        omega
    refine ⟨hlt, ?_⟩
    by_contra hlarge
    obtain ⟨-, ids, hids, -⟩ := hdraw _
    rw [genRandom_of_large hsize hlt (by omega) hint] at hids
    exact absurd hids (by simp)
  · rintro ⟨hlt, hlarge⟩ rng qdis hdis vt -
    obtain ⟨ids, hids, hlen, hnd, hrange⟩ := genRandom_spec rng hlt hlarge
    have hnatlt : ∀ v ∈ ids.map Int.toNat, v < nnd.ntotal := by
      intro v hv
      obtain ⟨id, hid, rfl⟩ := List.mem_map.mp hv
      have := hrange id hid
      omega
    have hnatlen : (ids.map Int.toNat).length = max nnd.searchL topk := by rw [List.length_map, hlen]
    have hnatnd : (ids.map Int.toNat).Nodup := by
      refine List.Nodup.map_on (fun a ha b hb hab ↦ ?_) hnd
      have := hrange a ha
      have := hrange b hb
      omega
    obtain ⟨turns, scan, hscan, himp⟩ := poolLoop_total (fun _ ↦ false) false hsize hdis
      (fun u _ ↦ h.row_lt u) (s := ⟨startPool S qdis (ids.map Int.toNat), vt, []⟩)
      (startPool_sound hdis hnatlen hnatlt)
    refine ⟨turns, _, _, (NNDescent.search_eq_some_iff h.hasBuilt).mpr
      ⟨by omega, ids, hids, hrange, scan, hscan, rfl⟩, ?_⟩
    have hids := himp.nodup ((startPool_ids hnatlen).nodup_iff.mpr hnatnd)
    exact himp.sound.validRow (le_max_right _ _)
      (hids.sublist ((List.take_sublist_take_left (le_max_right _ _)).map _))

/-- A built graph of 101 vertices with one neighbour each. -/
def NNDescent.small (searchL : ℕ) : NNDescent where
  ntotal := 101
  K := 1
  searchL := searchL
  hasBuilt := true
  finalGraph := List.replicate 101 0

theorem NNDescent.isBuilt_small (searchL : ℕ) : (NNDescent.small searchL).IsBuilt where
  hasBuilt := rfl
  length_eq := List.length_replicate
  lt v hv := by
    rw [List.eq_of_mem_replicate hv]
    exact Nat.zero_lt_succ 100
  evalPoints := Nat.lt_succ_self 100
  ntotal_int := show 101 < 2 ^ 31 by decide
  length_int := show 101 * 1 < 2 ^ 31 by decide

theorem NNDescent.search_rows_iff_small :
    (∀ (rng : ℕ → UInt32) (qdis : ℕ → F32), (∀ v < 101, (qdis v).Comparable) →
      ∀ vt : VisitedTable, vt.Clean 101 →
        ∃ turns row vt', (NNDescent.small 0).search PoolSort.insertion rng qdis 1 vt turns =
          some (row, vt') ∧ ValidRow 101 1 qdis row) ↔ max 0 1 < 101 ∧ 101 ≤ 2 ^ 30 + 1 :=
  NNDescent.search_rows_iff PoolSort.insertion (NNDescent.isBuilt_small 0) le_rfl

/-- With `search_L = ntotal` the random starting points divide by zero. -/
theorem NNDescent.search_small_none (rng : ℕ → UInt32) (turns : ℕ) :
    (NNDescent.small 101).search PoolSort.insertion rng (nearTo 0) 1 (VisitedTable.new 101) turns =
      none := by
  rw [Option.eq_none_iff_forall_ne_some]
  intro r hr
  obtain ⟨-, ids, hids, -⟩ := (NNDescent.search_eq_some_iff rfl).mp hr
  have hnone : genRandom rng (max 101 1) 101 = none := genRandom_self rng 101
  exact absurd (hnone.symm.trans hids) (by simp)

/-- So the search of this graph has no valid results. -/
theorem NNDescent.not_search_rows :
    ¬ ∀ (rng : ℕ → UInt32) (qdis : ℕ → F32), (∀ v < 101, (qdis v).Comparable) →
      ∀ vt : VisitedTable, vt.Clean 101 →
        ∃ turns row vt', (NNDescent.small 101).search PoolSort.insertion rng qdis 1 vt turns =
          some (row, vt') ∧ ValidRow 101 1 qdis row := by
  intro h
  obtain ⟨turns, row, vt', hrow, -⟩ := h (fun _ ↦ 0) (nearTo 0) (fun v _ ↦ nearTo_comparable 0 v)
    (VisitedTable.new 101) (VisitedTable.clean_new 101 101)
  rw [NNDescent.search_small_none] at hrow
  exact absurd hrow (by simp)

end FaissNavix

/-!
# Building a graph by NN-Descent

`Nhood::insert`, `Nhood::join`, `NNDescent::join`, `update`, `nndescent`, `init_graph` and `build` of
`faiss/impl/NNDescent.cpp`.  Every vertex has a pool of candidates, which is a heap while candidates are
inserted.  What the language and the threads leave open is a parameter: where the functions of the
standard library put entries, the capacity of a vector, and in which order the insertions of the
threads and their updates are made.
-/

namespace FaissNavix

structure Nhood where
  /-- candidate pool (a max heap) -/
  pool : List Neighbor
  capacity : ℕ
  M : ℕ
  nnOld : List ℕ
  nnNew : List ℕ
  rnnOld : List ℕ
  rnnNew : List ℕ

instance : Inhabited Nhood :=
  ⟨⟨[], 0, 0, [], [], [], []⟩⟩

abbrev KNNGraph :=
  ℕ → Nhood

/-- An insertion into the pool of a vertex: the vertex, the id and the distance. -/
abbrev Insertion :=
  ℕ × ℕ × F32

/-- A step of the loop that looks for reverse links: a candidate of a vertex, or the heap at the end. -/
inductive UpdateStep where
  | visit (n l : ℕ)
  | makeHeap (n : ℕ)

/-- What is left open. -/
structure Openings where
  sort : PoolSort
  makeHeap : List Neighbor → List Neighbor
  pushHeap : List Neighbor → List Neighbor
  popHeap : List Neighbor → List Neighbor
  makeHeap_perm : ∀ l, (makeHeap l).Perm l
  pushHeap_perm : ∀ l, (pushHeap l).Perm l
  popHeap_perm : ∀ l, (popHeap l).Perm l
  /-- the capacity of a vector after so many calls of `push_back` -/
  grown : ℕ → ℕ
  le_grown : ∀ size, size ≤ grown size
  joinOrder : ℕ → List Insertion → List Insertion
  joinOrder_perm : ∀ it l, (joinOrder it l).Perm l
  updateOrder : ℕ → List UpdateStep → List UpdateStep
  updateOrder_perm : ∀ it l, (updateOrder it l).Perm l

/-- The draws of the generators: for the `i`-th neighborhood, for its pool, and for the reverse links. -/
structure BuildDraws where
  nhood : ℕ → ℕ → UInt32
  pool : ℕ → ℕ → UInt32
  eval : ℕ → UInt32
  reverse : ℕ → ℕ → ℕ → UInt32

structure BuildParameters where
  K : ℕ
  L : ℕ
  S : ℕ
  R : ℕ
  iter : ℕ
  searchL : ℕ

section Code

variable (O : Openings) (P : BuildParameters) (dis : ℕ → ℕ → F32)

/-- Insert a point into the candidate pool -/
def Nhood.insert (nh : Nhood) (id : ℕ) (dist : F32) : Option Nhood :=
  match nh.pool with
  | [] => none
  | front :: _ =>
      if front.distance < dist then some nh
      else if ∃ nb ∈ nh.pool, nb.id = id then some nh
      else if nh.pool.length < nh.capacity then
        some { nh with pool := O.pushHeap (nh.pool ++ [⟨id, dist, true⟩]) }
      else some { nh with pool := O.pushHeap ((O.popHeap nh.pool).dropLast ++ [⟨id, dist, true⟩]) }

/-- The pairs that `join` compares: at least one of them is new. -/
def Nhood.joined (nh : Nhood) : List (ℕ × ℕ) :=
  nh.nnNew.flatMap fun i ↦ ((nh.nnNew.filter fun j ↦ i < j) ++ nh.nnOld).map fun j ↦ (i, j)

/-- The insertions of `NNDescent::join`. -/
def joinInsertions (n : ℕ) (graph : KNNGraph) : List Insertion :=
  (List.range n).flatMap fun v ↦ (graph v).joined.flatMap fun p ↦
    if p.1 = p.2 then [] else [(p.1, p.2, dis p.1 p.2), (p.2, p.1, dis p.1 p.2)]

def insertInto (graph : KNNGraph) (ins : Insertion) : Option KNNGraph :=
  ((graph ins.1).insert O ins.2.1 ins.2.2).map (Function.update graph ins.1)

/-- `NNDescent::join` -/
def joinAll (it n : ℕ) (graph : KNNGraph) : Option KNNGraph :=
  (O.joinOrder it (joinInsertions dis n graph)).foldlM (insertInto O) graph

/-- The loop that counts candidates, until `c` new ones are found. -/
def countCandidates : List Neighbor → ℕ → ℕ
  | [], _ => 0
  | _, 0 => 0
  | nb :: rest, c + 1 => countCandidates rest (if nb.flag then c else c + 1) + 1

/-- Steps 1 and 2 of `update`. -/
def Nhood.sample (nh : Nhood) : Nhood :=
  let pool := (O.sort.sort nh.pool).take P.L
  { nh with
    pool
    capacity := max nh.capacity P.L
    M := countCandidates (pool.take (nh.M + P.S)) P.S
    nnNew := []
    nnOld := [] }

/-- A reverse link is added, or replaces a random one. -/
def addReverse (draw : UInt32) (rnn : List ℕ) (n : ℕ) : Option (List ℕ) :=
  if rnn.length < P.R then some (rnn ++ [n])
  else if P.R = 0 then none
  else some (rnn.set (draw.toNat % P.R) n)

/-- Push the vertex into the reverse links of a candidate, if it is not in the pool of the other side. -/
def linkReverse (draws : BuildDraws) (graph : KNNGraph) (n l : ℕ) (nn back : Neighbor) :
    Option KNNGraph :=
  let other := graph nn.id
  if back.distance < nn.distance then
    if nn.flag then
      (addReverse P (draws.reverse n l 0) other.rnnNew n).map fun rnnNew ↦
        Function.update graph nn.id { other with rnnNew }
    else
      (addReverse P (draws.reverse n l 1) other.rnnOld n).map fun rnnOld ↦
        Function.update graph nn.id { other with rnnOld }
  else some graph

/-- Step 3 of `update` for one candidate. -/
def visitCandidate (draws : BuildDraws) (graph : KNNGraph) (n l : ℕ) : Option KNNGraph := do
  let node := graph n
  let nn ← node.pool[l]?
  let back ← (graph nn.id).pool.getLast?
  let node :=
    if nn.flag then
      { node with nnNew := node.nnNew ++ [nn.id], pool := node.pool.set l { nn with flag := false } }
    else { node with nnOld := node.nnOld ++ [nn.id] }
  linkReverse P draws (Function.update graph n node) n l nn back

def updateStep (draws : BuildDraws) (graph : KNNGraph) : UpdateStep → Option KNNGraph
  | .visit n l => visitCandidate P draws graph n l
  | .makeHeap n =>
      some (Function.update graph n { graph n with pool := O.makeHeap (graph n).pool })

def updateSteps (n : ℕ) (graph : KNNGraph) : List UpdateStep :=
  (List.range n).flatMap fun v ↦ (List.range (graph v).M).map (.visit v) ++ [.makeHeap v]

/-- Step 4 of `update`. -/
def Nhood.combine (nh : Nhood) : Nhood :=
  { nh with
    nnNew := nh.nnNew ++ nh.rnnNew
    nnOld := (nh.nnOld ++ nh.rnnOld).take (P.R * 2)
    rnnNew := []
    rnnOld := [] }

/-- `NNDescent::update` -/
def updateAll (draws : ℕ → BuildDraws) (it n : ℕ) (graph : KNNGraph) : Option KNNGraph :=
  let sampled : KNNGraph := fun v ↦ (graph v).sample O P
  ((O.updateOrder it (updateSteps n sampled)).foldlM (updateStep O P (draws it)) sampled).map
    fun graph v ↦ (graph v).combine P

/-- The iterations of `nndescent`, from `it` on. -/
def descend (draws : ℕ → BuildDraws) (n : ℕ) : ℕ → ℕ → KNNGraph → Option KNNGraph
  | 0, _, graph => some graph
  | turns + 1, it, graph => do
      let graph ← joinAll O dis it n graph
      let graph ← updateAll O P draws it n graph
      descend draws n turns (it + 1) graph

/-- `init_graph` for one vertex: the constructor of `Nhood`, and the random candidates. -/
def initNhood (draws : BuildDraws) (n i : ℕ) : Option Nhood := do
  let new ← genRandom (draws.nhood i) (P.S * 2) n
  let tmp ← genRandom (draws.pool i) P.S n
  let pool := ((tmp.map Int.toNat).filter fun id ↦ id ≠ i).map fun id ↦ ⟨id, dis i id, true⟩
  pure ⟨O.makeHeap pool, max (O.grown pool.length) P.L, P.S, [], new.map Int.toNat, [], []⟩

/-- The row of a vertex: the nearest candidates. -/
def finalRow (n : ℕ) (nh : Nhood) : Option (List ℕ) :=
  let row := (O.sort.sort nh.pool).take P.K
  if row.length = P.K ∧ ∀ nb ∈ row, nb.id < n then some (row.map Neighbor.id) else none

/-- `NNDescent::build`, where `draws 0` are also those of `init_graph`: none where it throws or its
behaviour is undefined. -/
def build (draws : ℕ → BuildDraws) (n : ℕ) : Option NNDescent := do
  guard (P.K ≤ P.L ∧ 100 < n)
  let hoods ← (List.range n).mapM (initNhood O P dis (draws 0) n)
  let _ ← genRandom (draws 0).eval 100 n
  -- `partial_sort` of the other vertices, up to the K-th
  guard (P.K ≤ n - 1)
  let graph ← descend O P dis draws n P.iter 0 fun v ↦ hoods.getD v default
  guard (n * P.K < 2 ^ 31)
  let rows ← (List.range n).mapM fun v ↦ finalRow O P n (graph v)
  pure ⟨n, P.K, P.searchL, true, rows.flatten⟩

end Code

end FaissNavix
