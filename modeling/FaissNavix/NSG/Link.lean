import FaissNavix.Lib.Traversal
import FaissNavix.NSG.Search
import Mathlib.Data.Set.Card

/-!
# Linking the vertices

`NSG::init_graph`, `sync_prune`, `add_reverse_links` and `link` of `faiss/impl/NSG.cpp`.  The loop that
adds reverse links runs in several threads; between the two locked sections of a vertex the others go on,
so a step is one locked section, and a schedule says whose turn it is.

Whatever the distances and the schedule are, the nodes of the graph are vertices.
-/

namespace FaissNavix

open Lib (Turn iterate)

/-- `nsg::Node` -/
abbrev NSGNode :=
  ℕ × F32

/-- A row of the graph of nodes; `EMPTY_ID` is `none`. -/
abbrev LinkRow :=
  List (Option NSGNode)

/-- `std::sort` of nodes by distance. -/
structure NodeSort where
  sort : List NSGNode → List NSGNode
  perm : ∀ l, (sort l).Perm l
  sorted : ∀ l, (∀ p ∈ l, p.2.Comparable) → (sort l).Pairwise fun a b ↦ a.2.key ≤ b.2.key

/-- The distances of the storage: to the center, to a vector, and between two vectors. -/
structure NSGDistances where
  center : ℕ → F32
  query : ℕ → ℕ → F32
  symmetric : ℕ → ℕ → F32

section Code

variable (S : PoolSort) (N : NodeSort) (D : NSGDistances) (gen : ℕ → ℕ) (nsg : NSG)

/-- `init_graph`: the entry point. -/
def NSG.initGraph (knn : NSGGraph) (ep turns : ℕ) : Option ℕ := do
  let scan ← searchOnGraph S gen nsg.ntotal false knn D.center (VisitedTable.new nsg.ntotal) ep nsg.L turns
  pure (scan.retset.getD 0 default).id

def occluded (result : List NSGNode) (p : NSGNode) : Bool :=
  result.any fun r ↦ decide (p.1 = r.1) || decide (D.symmetric r.1 p.1 < p.2)

/-- The loop that keeps nodes which are not occluded, up to `R` of them. -/
def keepNodes (R : ℕ) : List NSGNode → List NSGNode → List NSGNode
  | [], result => result
  | p :: rest, result =>
      if result.length < R then
        keepNodes R rest (if occluded D result p then result else result ++ [p])
      else result

/-- The neighbours in the K-nearest-neighbour graph that were not visited. -/
def unvisitedNeighbors (knn : NSGGraph) (ntotal q : ℕ) (vt : VisitedTable) : List NSGNode :=
  ((List.range knn.K).map (knn.nodeAt q)).filterMap fun id ↦
    if id < 0 ∨ (ntotal : ℤ) ≤ id ∨ vt.get id.toNat = true then none
    else some (id.toNat, D.symmetric q id.toNat)

/-- A row of `R` nodes. -/
def fillRow (R : ℕ) (result : List NSGNode) : LinkRow :=
  (result.take R).map some ++ List.replicate (R - result.length) none

/-- `sync_prune`: the row of a vertex. -/
def NSG.syncPrune (knn : NSGGraph) (q : ℕ) (pool : List NSGNode) (vt : VisitedTable) : Option LinkRow := do
  let pool := N.sort (pool ++ unvisitedNeighbors D knn nsg.ntotal q vt)
  let first ← pool[0]?
  let start := if first.1 = q then 1 else 0
  let p ← pool[start]?
  pure (fillRow nsg.R (keepNodes D nsg.R ((pool.take nsg.C).drop (start + 1)) [p]))

/-- What the first loop of `link` does for one vertex. -/
def NSG.linkVertex (knn : NSGGraph) (turns q : ℕ) : Option LinkRow := do
  let scan ← searchOnGraph S gen nsg.ntotal true knn (D.query q) (VisitedTable.new nsg.ntotal)
    nsg.enterpoint nsg.L turns
  nsg.syncPrune N D knn q scan.fullset scan.vt

/-- Where `add_reverse_links` is for one vertex: the position in its row, and, between the two locked
sections, the other vertex and `tmp_pool`. -/
structure ReverseLinks where
  i : ℕ
  pending : Option (ℕ × List NSGNode)

/-- The graph of nodes, and where all the vertices are. -/
structure Linking where
  rows : ℕ → LinkRow
  progress : ℕ → ReverseLinks

/-- The nodes of a row up to the first `EMPTY_ID`. -/
def nodesOf (row : LinkRow) : List NSGNode :=
  (row.takeWhile Option.isSome).filterMap id

/-- The nodes that are written where the row is full. -/
def pruneReverse (R : ℕ) (pool : List NSGNode) : List NSGNode :=
  match N.sort pool with
  | [] => []
  | p :: rest => keepNodes D R rest [p]

/-- The second locked section: the row of the other vertex. -/
def writeReverse (R : ℕ) (row : LinkRow) (sn : NSGNode) (pool : List NSGNode) : LinkRow :=
  if R < pool.length then
    (pruneReverse N D R pool).map some ++ row.drop (pruneReverse N D R pool).length
  else row.set (row.idxOf none) (some sn)

/-- A locked section of `add_reverse_links` for the vertex `q`. -/
def reverseStep (R : ℕ) (s : Linking) (q : ℕ) : Linking :=
  match (s.progress q).pending with
  | none =>
      match (s.rows q)[(s.progress q).i]? with
      | some (some (des, dist)) =>
          let pool := nodesOf (s.rows des)
          if ∃ p ∈ pool, p.1 = q then
            { s with progress := Function.update s.progress q ⟨(s.progress q).i + 1, none⟩ }
          else
            { s with progress := Function.update s.progress q ⟨(s.progress q).i, some (des, pool ++ [(q, dist)])⟩ }
      | _ => s
  | some (des, pool) =>
      match pool.getLast? with
      | none => s
      | some sn =>
          { rows := Function.update s.rows des (writeReverse N D R (s.rows des) sn pool)
            progress := Function.update s.progress q ⟨(s.progress q).i + 1, none⟩ }

/-- The loop of `add_reverse_links` has ended for the vertex `q`. -/
def Linking.Finished (s : Linking) (q : ℕ) : Prop :=
  (s.progress q).pending = none ∧ ((s.rows q)[(s.progress q).i]?.getD none) = none

instance (s : Linking) (q : ℕ) : Decidable (s.Finished q) :=
  inferInstanceAs (Decidable (_ ∧ _))

/-- `link`: the rows after all vertices have added their reverse links. -/
def NSG.link (knn : NSGGraph) (turns : ℕ) (schedule : List ℕ) : Option (ℕ → LinkRow) := do
  let rows ← (List.range nsg.ntotal).mapM (nsg.linkVertex S N D gen knn turns)
  let s := schedule.foldl (reverseStep N D nsg.R) ⟨fun q ↦ rows.getD q [], fun _ ↦ ⟨0, none⟩⟩
  guard (∀ q < nsg.ntotal, s.Finished q)
  pure s.rows

end Code

/-! ## Vertices in the pools -/

section Search

variable {S : PoolSort} {gen : ℕ → ℕ} {n size : ℕ} {dis : ℕ → F32} {addr : List Neighbor}

/-- Whatever the distances are, an insertion only adds the new entry. -/
theorem mem_insertIntoPool {nn nb : Neighbor} (h : nb ∈ (insertIntoPool addr size nn).1) :
    nb ∈ addr ∨ nb = nn := by
  have hat : ∀ place, nb ∈ insertAt addr size place nn → nb ∈ addr ∨ nb = nn := by
    intro place hnb
    rcases List.mem_append.mp hnb with hnb | hnb
    · exact .inl (List.mem_of_mem_take hnb)
    · rcases List.mem_cons.mp hnb with rfl | hnb
      · exact .inr rfl
      · exact .inl (List.mem_of_mem_drop (List.mem_of_mem_take hnb))
  unfold insertIntoPool at h
  split at h
  · exact hat 0 h
  · split at h
    · exact List.mem_or_eq_of_mem_set h
    · dsimp only at h
      split at h
      · exact .inl h
      · split at h
        · exact .inl h
        · exact hat _ h

/-- Everything in a scan is a vertex. -/
structure PoolScan.Below (n : ℕ) (s : PoolScan) : Prop where
  retset_lt : ∀ nb ∈ s.retset, nb.id < n
  fullset_lt : ∀ p ∈ s.fullset, p.1 < n

variable {refused : ℕ → Bool} {collect : Bool} {neighbors : ℕ → List ℕ}

theorem PoolScan.Below.meetNeighbor {s : PoolScan × ℕ} (h : s.1.Below n) {v : ℕ} (hv : v < n) :
    (meetNeighbor refused dis collect size s v).1.Below n := by
  have hfull : ∀ p ∈ (if collect then s.1.fullset ++ [(v, dis v)] else s.1.fullset), p.1 < n := by
    intro p hp
    split at hp
    · rcases List.mem_append.mp hp with hp | hp
      · exact h.fullset_lt p hp
      · rw [List.mem_singleton.mp hp]
        exact hv
    · exact h.fullset_lt p hp
  unfold FaissNavix.meetNeighbor
  split
  · exact h
  · dsimp only
    split
    · exact ⟨h.retset_lt, hfull⟩
    · refine ⟨fun nb hnb ↦ ?_, hfull⟩
      rcases mem_insertIntoPool hnb with hnb | rfl
      · exact h.retset_lt nb hnb
      · exact hv

theorem PoolScan.Below.expandEntry (hnbr : ∀ u < n, ∀ v ∈ neighbors u, v < n) (hn : 1 ≤ n)
    {s : PoolScan} (h : s.Below n) (k : ℕ) :
    (expandEntry refused dis collect size neighbors s k).1.Below n := by
  have hentry : (s.retset.getD k default).id < n := by
    rw [List.getD_eq_getElem?_getD]
    cases hget : s.retset[k]? with
    | none => exact hn
    | some nb => exact h.retset_lt nb (List.mem_of_getElem? hget)
  unfold FaissNavix.expandEntry
  dsimp only
  split
  · refine Lib.foldl_invariant (fun t : PoolScan × ℕ ↦ t.1.Below n) ⟨fun nb hnb ↦ ?_, h.fullset_lt⟩
      fun v hv t ht ↦ ht.meetNeighbor (hnbr _ hentry v hv)
    rcases List.mem_or_eq_of_mem_set hnb with hnb | rfl
    · exact h.retset_lt nb hnb
    · exact hentry
  · exact h

theorem PoolScan.Below.poolLoop (hnbr : ∀ u < n, ∀ v ∈ neighbors u, v < n) (hn : 1 ≤ n)
    {s r : PoolScan} (h : s.Below n) {turns : ℕ}
    (hr : poolLoop refused dis collect size neighbors turns s = some r) : r.Below n := by
  obtain ⟨t, ht, rfl⟩ := Option.map_eq_some_iff.mp hr
  refine @Lib.iterate_partial _ _ (fun t : PoolScan × ℕ ↦ t.1.Below n)
    (fun t : PoolScan × ℕ ↦ t.1.Below n) (fun a b ha hb ↦ ?_) (fun a b ha hb ↦ ?_) _ (s, 0) _ h ht
  · unfold poolTurn at hb
    split at hb
    · obtain rfl := Turn.next.inj hb
      exact ha.expandEntry hnbr hn a.2
    · exact absurd hb nofun
  · unfold poolTurn at hb
    split at hb
    · exact absurd hb nofun
    · obtain rfl := Turn.done.inj hb
      exact ha

theorem initIds_lt (hn : 1 ≤ n) {xs : List ℕ} (hxs : ∀ v ∈ xs, v < n) {vt : VisitedTable} {turns : ℕ}
    {r : InitIds} (h : initIds gen n size turns xs vt = some r) : ∀ v ∈ r.ids, v < n := by
  have hcopy : ∀ (ys : List ℕ) (i : ℕ) (s : InitIds), (∀ v ∈ ys, v < n) → (∀ v ∈ s.ids, v < n) →
      ∀ v ∈ (copyNeighbors n ys i s).ids, v < n := by
    intro ys
    induction ys with
    | nil => exact fun _ _ _ hs ↦ hs
    | cons y ys ih =>
        intro i s hys hs
        rw [copyNeighbors]
        refine ih (i + 1) _ (fun v hv ↦ hys v (List.mem_cons_of_mem _ hv)) ?_
        split
        · exact hs
        · intro v hv
          rcases List.mem_or_eq_of_mem_set hv with hv | rfl
          · exact hs v hv
          · exact hys _ List.mem_cons_self
  refine @Lib.iterate_partial _ _ (fun s : InitIds ↦ ∀ v ∈ s.ids, v < n)
    (fun s : InitIds ↦ ∀ v ∈ s.ids, v < n) (fun a b ha hb ↦ ?_) (fun a b ha hb ↦ ?_) _ _ _
    (hcopy _ _ _ (fun v hv ↦ hxs v (List.mem_of_mem_take hv)) fun v hv ↦ ?_) h
  · unfold drawTurn at hb
    split at hb
    · dsimp only at hb
      split at hb
      · obtain rfl := Turn.next.inj hb
        exact ha
      · obtain rfl := Turn.next.inj hb
        intro v hv
        rcases List.mem_or_eq_of_mem_set hv with hv | rfl
        · exact ha v hv
        · exact Nat.mod_lt _ hn
    · cases hb
  · unfold drawTurn at hb
    split at hb
    · dsimp only at hb
      split at hb
      · cases hb
      · cases hb
    · obtain rfl := Turn.done.inj hb
      exact ha
  · rw [List.eq_of_mem_replicate hv]
    exact hn

theorem searchOnGraph_below {g : NSGGraph} (hg : ∀ u < n, ∀ v ∈ g.getNeighbors u, v < n) {ep turns : ℕ}
    (hep : ep < n) {vt : VisitedTable} {r : PoolScan}
    (h : searchOnGraph S gen n collect g dis vt ep size turns = some r) : r.Below n := by
  have hn : 1 ≤ n := Nat.lt_of_le_of_lt (Nat.zero_le _) hep
  obtain ⟨init, hinit, hloop⟩ := Option.bind_eq_some_iff.mp h
  have hids := initIds_lt hn (hg ep hep) hinit
  refine PoolScan.Below.poolLoop hg hn ⟨fun nb hnb ↦ ?_, fun p hp ↦ ?_⟩ hloop
  · rcases List.mem_append.mp hnb with hnb | hnb
    · obtain ⟨id, hid, rfl⟩ := List.mem_map.mp ((S.perm _).mem_iff.mp hnb)
      exact hids id hid
    · rw [List.mem_singleton.mp hnb]
      exact hn
  · dsimp only at hp
    split at hp
    · obtain ⟨id, hid, rfl⟩ := List.mem_map.mp hp
      exact hids id hid
    · exact absurd hp List.not_mem_nil

end Search

/-! ## Vertices in the rows -/

section Rows

variable {S : PoolSort} {N : NodeSort} {D : NSGDistances} {gen : ℕ → ℕ} {nsg : NSG} {n R : ℕ}
  {knn : NSGGraph}

theorem mem_keepNodes {pool result : List NSGNode} {p : NSGNode} (h : p ∈ keepNodes D R pool result) :
    p ∈ pool ∨ p ∈ result := by
  induction pool generalizing result with
  | nil => exact .inr h
  | cons a pool ih =>
      rw [keepNodes] at h
      split at h
      · rcases ih h with h | h
        · exact .inl (List.mem_cons_of_mem _ h)
        · split at h
          · exact .inr h
          · rcases List.mem_append.mp h with h | h
            · exact .inr h
            · rw [List.mem_singleton.mp h]
              exact .inl List.mem_cons_self
      · exact .inr h

theorem length_keepNodes_le {pool result : List NSGNode} (h : result.length ≤ R) :
    (keepNodes D R pool result).length ≤ R := by
  induction pool generalizing result with
  | nil => exact h
  | cons a pool ih =>
      rw [keepNodes]
      split
      · refine ih ?_
        split
        · exact h
        · rwa [List.length_append, List.length_singleton]
      · exact h

/-- A row of at most `R` vertices. -/
structure RowBelow (n R : ℕ) (row : LinkRow) : Prop where
  length_le : row.length ≤ R
  node_lt : ∀ p, some p ∈ row → p.1 < n

theorem rowBelow_fillRow {result : List NSGNode} (h : ∀ p ∈ result, p.1 < n) :
    RowBelow n R (fillRow R result) where
  length_le := by
    rw [fillRow, List.length_append, List.length_map, List.length_take, List.length_replicate]
    omega
  node_lt := fun p hp ↦ by
    rcases List.mem_append.mp hp with hp | hp
    · obtain ⟨q, hq, heq⟩ := List.mem_map.mp hp
      rw [← Option.some_inj.mp heq]
      exact h q (List.mem_of_mem_take hq)
    · exact absurd (List.eq_of_mem_replicate hp) (by simp)

/-- A vertex that is linked gets a row of vertices. -/
theorem NSG.linkVertex_below (hnbr : ∀ u < nsg.ntotal, ∀ v ∈ knn.getNeighbors u, v < nsg.ntotal)
    (hep : nsg.enterpoint < nsg.ntotal) {turns q : ℕ} {row : LinkRow}
    (h : nsg.linkVertex S N D gen knn turns q = some row) : RowBelow nsg.ntotal nsg.R row := by
  obtain ⟨scan, hscan, h⟩ := Option.bind_eq_some_iff.mp h
  have hbelow := searchOnGraph_below hnbr hep hscan
  have hpool : ∀ p ∈ N.sort (scan.fullset ++ unvisitedNeighbors D knn nsg.ntotal q scan.vt),
      p.1 < nsg.ntotal := by
    intro p hp
    rcases List.mem_append.mp ((N.perm _).mem_iff.mp hp) with hp | hp
    · exact hbelow.fullset_lt p hp
    · obtain ⟨id, -, hid⟩ := List.mem_filterMap.mp hp
      split at hid
      · exact absurd hid (by simp)
      · rename_i hskip
        rw [← Option.some_inj.mp hid]
        dsimp only
        omega
  obtain ⟨first, -, h⟩ := Option.bind_eq_some_iff.mp h
  obtain ⟨p, hp, h⟩ := Option.bind_eq_some_iff.mp h
  rw [← Option.some_inj.mp h]
  refine rowBelow_fillRow fun q hq ↦ ?_
  rcases mem_keepNodes hq with hq | hq
  · exact hpool q (List.mem_of_mem_take (List.mem_of_mem_drop hq))
  · rw [List.mem_singleton.mp hq]
    exact hpool p (List.mem_of_getElem? hp)

/-- The rows and what is pending while reverse links are added. -/
structure Linking.Below (n R : ℕ) (s : Linking) : Prop where
  row : ∀ q, RowBelow n R (s.rows q)
  nil : ∀ q, n ≤ q → s.rows q = []
  pending : ∀ q des pool, (s.progress q).pending = some (des, pool) →
    1 ≤ R ∧ des < n ∧ ∀ p ∈ pool, p.1 < n

theorem RowBelow.nodesOf {row : LinkRow} (h : RowBelow n R row) : ∀ p ∈ nodesOf row, p.1 < n := by
  intro p hp
  obtain ⟨c, hc, hcp⟩ := List.mem_filterMap.mp hp
  exact h.node_lt p (hcp ▸ (List.takeWhile_sublist _).subset hc)

theorem mem_pruneReverse {pool : List NSGNode} {p : NSGNode} (h : p ∈ pruneReverse N D R pool) :
    p ∈ pool := by
  rw [← (N.perm pool).mem_iff]
  unfold pruneReverse at h
  split at h
  · exact absurd h List.not_mem_nil
  · rename_i first rest heq
    rw [heq]
    rcases mem_keepNodes h with h | h
    · exact List.mem_cons_of_mem _ h
    · rw [List.mem_singleton.mp h]
      exact List.mem_cons_self

theorem RowBelow.writeReverse {row : LinkRow} (h : RowBelow n R row) (hR : 1 ≤ R) {sn : NSGNode}
    {pool : List NSGNode} (hsn : sn.1 < n) (hpool : ∀ p ∈ pool, p.1 < n) :
    RowBelow n R (writeReverse N D R row sn pool) := by
  have hprune : (pruneReverse N D R pool).length ≤ R := by
    unfold pruneReverse
    split
    · exact Nat.zero_le R
    · exact length_keepNodes_le hR
  unfold FaissNavix.writeReverse
  split
  · refine ⟨?_, fun p hp ↦ ?_⟩
    · have := h.length_le
      rw [List.length_append, List.length_map, List.length_drop]
      omega
    · rcases List.mem_append.mp hp with hp | hp
      · obtain ⟨q, hq, heq⟩ := List.mem_map.mp hp
        rw [← Option.some_inj.mp heq]
        exact hpool q (mem_pruneReverse hq)
      · exact h.node_lt p (List.mem_of_mem_drop hp)
  · refine ⟨by rw [List.length_set]; exact h.length_le, fun p hp ↦ ?_⟩
    rcases List.mem_or_eq_of_mem_set hp with hp | heq
    · exact h.node_lt p hp
    · rw [Option.some_inj.mp heq]
      exact hsn

/-- A locked section keeps vertices in the rows. -/
theorem Linking.Below.reverseStep {s : Linking} (h : s.Below n R) (q : ℕ) :
    (reverseStep N D R s q).Below n R := by
  have hprogress : ∀ next : ReverseLinks, (∀ des pool, next.pending = some (des, pool) →
      1 ≤ R ∧ des < n ∧ ∀ p ∈ pool, p.1 < n) →
      ∀ u des pool, (Function.update s.progress q next u).pending = some (des, pool) →
        1 ≤ R ∧ des < n ∧ ∀ p ∈ pool, p.1 < n := by
    intro next hnext u des pool hp
    by_cases huq : u = q
    · subst huq
      rw [Function.update_self] at hp
      exact hnext des pool hp
    · rw [Function.update_of_ne huq] at hp
      exact h.pending u des pool hp
  unfold FaissNavix.reverseStep
  split
  · split
    · rename_i des dist hcell
      obtain ⟨hlt, -⟩ := List.getElem?_eq_some_iff.mp hcell
      have hR : 1 ≤ R := (Nat.succ_le_of_lt (Nat.lt_of_le_of_lt (Nat.zero_le _) hlt)).trans
        (h.row q).length_le
      have hdes : des < n := (h.row q).node_lt _ (List.mem_of_getElem? hcell)
      have hq : q < n := by
        by_contra hge
        rw [h.nil q (not_lt.mp hge)] at hlt
        exact absurd hlt (Nat.not_lt_zero _)
      dsimp only
      split
      · exact ⟨h.row, h.nil, hprogress _ fun _ _ hp ↦ absurd hp (by simp)⟩
      · refine ⟨h.row, h.nil, hprogress _ fun des' pool hp ↦ ?_⟩
        obtain ⟨rfl, rfl⟩ := Prod.mk.inj (Option.some_inj.mp hp)
        refine ⟨hR, hdes, fun p hp ↦ ?_⟩
        rcases List.mem_append.mp hp with hp | hp
        · exact (h.row _).nodesOf p hp
        · rw [List.mem_singleton.mp hp]
          exact hq
    · exact h
  · rename_i des pool hpending
    obtain ⟨hR, hdes, hpool⟩ := h.pending q des pool hpending
    split
    · exact h
    · rename_i sn hsn
      refine ⟨fun u ↦ ?_, fun u hu ↦ ?_, hprogress _ fun _ _ hp ↦ absurd hp (by simp)⟩
      · dsimp only
        by_cases hud : u = des
        · subst hud
          rw [Function.update_self]
          exact (h.row u).writeReverse hR (hpool sn (List.mem_of_getLast? hsn)) hpool
        · rw [Function.update_of_ne hud]
          exact h.row u
      · dsimp only
        rw [Function.update_of_ne (by omega)]
        exact h.nil u hu

/-- The rows that `link` leaves are rows of vertices. -/
theorem NSG.link_below (hnbr : ∀ u < nsg.ntotal, ∀ v ∈ knn.getNeighbors u, v < nsg.ntotal)
    (hep : nsg.enterpoint < nsg.ntotal) {turns : ℕ} {schedule : List ℕ} {rows : ℕ → LinkRow}
    (h : nsg.link S N D gen knn turns schedule = some rows) (q : ℕ) :
    RowBelow nsg.ntotal nsg.R (rows q) := by
  obtain ⟨first, hfirst, h⟩ := Option.bind_eq_some_iff.mp h
  obtain ⟨-, -, h⟩ := Option.bind_eq_some_iff.mp h
  rw [← Option.some_inj.mp h]
  rw [Lib.mapM_eq_some_iff] at hfirst
  have hlen : first.length = nsg.ntotal := by
    have := congrArg List.length hfirst
    rwa [List.length_map, List.length_map, List.length_range, eq_comm] at this
  have hstart : Linking.Below nsg.ntotal nsg.R ⟨fun q ↦ first.getD q [], fun _ ↦ ⟨0, none⟩⟩ := by
    refine ⟨fun q ↦ ?_, fun q hq ↦ List.getD_eq_default _ _ (hlen ▸ hq),
      fun _ _ _ hp ↦ absurd hp (by simp)⟩
    by_cases hq : q < first.length
    · dsimp only
      rw [List.getD_eq_getElem _ _ hq]
      have hmem : some first[q] ∈ first.map some := List.mem_map_of_mem (List.getElem_mem hq)
      rw [← hfirst] at hmem
      obtain ⟨u, -, hu⟩ := List.mem_map.mp hmem
      exact NSG.linkVertex_below hnbr hep hu
    · dsimp only
      rw [List.getD_eq_default _ _ (not_lt.mp hq)]
      exact ⟨Nat.zero_le _, fun p hp ↦ absurd hp List.not_mem_nil⟩
  exact (Lib.foldl_invariant (fun s : Linking ↦ s.Below nsg.ntotal nsg.R) hstart
    fun u _ s hs ↦ hs.reverseStep u).row q

end Rows

end FaissNavix

/-!
# Growing a tree

`NSG::dfs`, `attach_unlinked`, `tree_grow` and `build` of `faiss/impl/NSG.cpp`.  A depth-first search from
the entry point marks vertices; as long as some are not marked, one of them is attached to a vertex of
small degree, and the search goes on from this vertex.

If every vertex something is attached to is marked itself, then what is marked is what the entry point
reaches, and the search counts these vertices.
-/

namespace FaissNavix

open Lib (Turn iterate reachable Traversal)

def NSGGraph.setNode (g : NSGGraph) (i j : ℕ) (id : ℤ) : NSGGraph :=
  { g with data := Function.update g.data (i * g.K + j) id }

def NSGGraph.Edge (g : NSGGraph) (u v : ℕ) : Prop :=
  ∃ j < g.K, g.nodeAt u j = (v : ℤ)

def NSGGraph.firstUnvisited (g : NSGGraph) (vt : VisitedTable) (node : ℕ) : Option ℕ :=
  (((List.range g.K).map (g.nodeAt node)).find? fun id ↦
    decide (id ≠ -1) && !vt.get id.toNat).map Int.toNat

/-- What `dfs` works on: the top of the stack is `node`. -/
structure Dfs where
  vt : VisitedTable
  stack : List ℕ
  cnt : ℕ

/-- One turn of the loop of `dfs`. -/
def dfsTurn (g : NSGGraph) (s : Dfs) : Turn Dfs :=
  match s.stack with
  | [] => .done s
  | node :: rest =>
      match g.firstUnvisited s.vt node with
      | none => .next { s with stack := rest }
      | some next => .next ⟨s.vt.set next, next :: node :: rest, s.cnt + 1⟩

/-- `dfs` -/
def dfs (g : NSGGraph) (turns : ℕ) (vt : VisitedTable) (root cnt : ℕ) : Option Dfs :=
  iterate (dfsTurn g) turns ⟨vt.set root, [root], if vt.get root then cnt else cnt + 1⟩

/-- What `tree_grow` works on; `drawn` is the position in the stream of `rng`. -/
structure GrowState where
  graph : NSGGraph
  degrees : ℕ → ℕ
  vt : VisitedTable
  vt2 : VisitedTable
  root : ℕ
  cnt : ℕ
  drawn : ℕ
  numAttached : ℕ

section Code

variable (S : PoolSort) (N : NodeSort) (D : NSGDistances) (gen rng : ℕ → ℕ) (nsg : NSG)

section
variable (turns : ℕ) (s : GrowState) (id : ℕ)

/-- The first vertex that is not linked, and the vertex of the pool that it is to be attached to. -/
def NSG.unlinked : Option (ℕ × VisitedTable × Option ℕ) := do
  let id ← (List.range nsg.ntotal).find? fun i ↦ !s.vt.get i
  let scan ← searchOnGraph S gen nsg.ntotal true s.graph (D.query id) s.vt2 nsg.enterpoint nsg.searchL turns
  let candidate := (N.sort scan.fullset).find? fun p ↦ decide (s.degrees p.1 < nsg.R) && decide (p.1 ≠ id)
  pure (id, scan.vt, candidate.map Prod.fst)

/-- The loop that draws another vertex. -/
def NSG.drawLinked : Option ℕ :=
  iterate (fun t ↦
    let node := rng t % nsg.ntotal
    if s.vt.get node = true ∧ s.degrees node < nsg.R ∧ node ≠ id then .done t else .next (t + 1))
    turns s.drawn

/-- The vertex that is attached to, and the position in the stream afterwards. -/
def NSG.attachPoint : Option ℕ → Option (ℕ × ℕ)
  | some node => some (node, s.drawn)
  | none => (nsg.drawLinked rng turns s id).map fun t ↦ (rng t % nsg.ntotal, t + 1)

/-- `attach_unlinked`, and what `tree_grow` does afterwards. -/
def NSG.attachUnlinked : Option GrowState := do
  let (id, vt2, candidate) ← nsg.unlinked S N D gen turns s
  let (node, drawn) ← nsg.attachPoint rng turns s id candidate
  pure { s with
    graph := s.graph.setNode node (s.degrees node) id
    degrees := Function.update s.degrees node (s.degrees node + 1)
    vt2 := vt2.advance
    root := node
    drawn
    numAttached := s.numAttached + 1 }

/-- One turn of the loop of `tree_grow`. -/
def NSG.growTurn : Option (Turn GrowState) := do
  let d ← dfs s.graph turns s.vt s.root s.cnt
  let s := { s with vt := d.vt, cnt := d.cnt }
  if nsg.ntotal ≤ s.cnt then pure (.done s)
  else (nsg.attachUnlinked S N D gen rng turns s).map .next

end

/-- `tree_grow` -/
def NSG.treeGrow (turns : ℕ) : ℕ → GrowState → Option GrowState
  | 0, _ => none
  | more + 1, s =>
      match nsg.growTurn S N D gen rng turns s with
      | none => none
      | some (.done s) => some s
      | some (.next s) => NSG.treeGrow turns more s

/-- `final_graph` and `degrees`, as the rows of nodes give them, and where `tree_grow` begins. -/
def NSG.startGrow (rows : ℕ → LinkRow) : GrowState where
  graph := ⟨nsg.R, nsg.ntotal, fun p ↦
    ((((rows (p / nsg.R)).filterMap id).map fun q ↦ (q.1 : ℤ))).getD (p % nsg.R) (-1)⟩
  degrees := fun i ↦ ((rows i).filterMap id).length
  vt := VisitedTable.new nsg.ntotal
  vt2 := VisitedTable.new nsg.ntotal
  root := nsg.enterpoint
  cnt := 0
  drawn := 1
  numAttached := 0

/-- `build` up to the call of `tree_grow`. -/
def NSG.linked (n : ℕ) (knn : NSGGraph) (turns : ℕ) (schedule : List ℕ) : Option (NSG × GrowState) := do
  guard (nsg.isBuilt = false ∧ nsg.ntotal = 0)
  let nsg := { nsg with ntotal := n }
  let ep ← nsg.initGraph S D gen knn (rng 0 % n) turns
  let nsg := { nsg with enterpoint := ep }
  let rows ← nsg.link S N D gen knn turns schedule
  pure (nsg, nsg.startGrow rows)

/-- `check_graph` -/
def NSGGraph.Checked (g : NSGGraph) (ntotal : ℕ) : Prop :=
  ∀ i < ntotal, ∀ j < g.K, g.nodeAt i j < ntotal ∧ (0 ≤ g.nodeAt i j ∨ g.nodeAt i j = -1)

instance (g : NSGGraph) (ntotal : ℕ) : Decidable (g.Checked ntotal) :=
  inferInstanceAs (Decidable (∀ i < ntotal, ∀ j < g.K, _))

/-- `NSG::build`: the object, and the state in which `tree_grow` ends. -/
def NSG.build (n : ℕ) (knn : NSGGraph) (turns : ℕ) (schedule : List ℕ) : Option (NSG × GrowState) := do
  let (nsg, s) ← nsg.linked S N D gen rng n knn turns schedule
  let s ← nsg.treeGrow S N D gen rng turns turns s
  guard (s.graph.Checked nsg.ntotal)
  pure ({ nsg with finalGraph := some s.graph, isBuilt := true }, s)

end Code

end FaissNavix
