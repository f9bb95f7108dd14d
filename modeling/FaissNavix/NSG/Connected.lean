import FaissNavix.NSG.Link

/-!
# What the entry point reaches

The vertices that are marked when the loop of `tree_grow` begins a turn are reached by the entry point,
and so is the root of the next search; of the marked vertices only the root may have neighbours that are
not marked.  An attachment keeps this if its vertex is marked.
-/

namespace FaissNavix

open Lib

/-- The rows of the graph: as many vertices as the degree says, and then `EMPTY_ID`. -/
structure Shaped (n : ℕ) (g : NSGGraph) (degrees : ℕ → ℕ) : Prop where
  degree_le : ∀ i < n, degrees i ≤ g.K
  lt : ∀ i < n, ∀ j < degrees i, 0 ≤ g.nodeAt i j ∧ g.nodeAt i j < n
  empty : ∀ i < n, ∀ j, degrees i ≤ j → j < g.K → g.nodeAt i j = -1

section Graph

variable {n : ℕ} {g : NSGGraph} {degrees : ℕ → ℕ} {vt : VisitedTable} {u v : ℕ}

theorem Shaped.isBuilt (h : Shaped n g degrees) : g.IsBuilt n :=
  fun i hi ↦ ⟨degrees i, h.degree_le i hi, h.lt i hi, h.empty i hi⟩

theorem NSGGraph.visited_of_firstUnvisited (h : g.firstUnvisited vt u = none) (he : g.Edge u v) :
    vt.get v = true := by
  obtain ⟨j, hj, heq⟩ := he
  have hnone := List.find?_eq_none.mp (Option.map_eq_none_iff.mp h) (v : ℤ)
    (List.mem_map.mpr ⟨j, List.mem_range.mpr hj, heq⟩)
  simp only [Int.toNat_natCast, Bool.and_eq_true, decide_eq_true_eq, Bool.not_eq_true',
    not_and, Bool.not_eq_false] at hnone
  exact hnone (by omega)

theorem NSGGraph.IsBuilt.firstUnvisited (hg : g.IsBuilt n) (hu : u < n)
    (h : g.firstUnvisited vt u = some v) : g.Edge u v ∧ vt.get v = false ∧ v < n := by
  obtain ⟨id, hid, rfl⟩ := Option.map_eq_some_iff.mp h
  have hsome := List.find?_some hid
  rw [Bool.and_eq_true, decide_eq_true_eq, Bool.not_eq_true'] at hsome
  obtain ⟨j, hj, rfl⟩ := List.mem_map.mp (List.mem_of_find?_eq_some hid)
  have hjK := List.mem_range.mp hj
  obtain ⟨m, -, hrow, hpad⟩ := hg u hu
  have hjm : j < m := by
    by_contra hge
    exact hsome.1 (hpad j (not_lt.mp hge) hjK)
  have hrange := hrow j hjm
  exact ⟨⟨j, hjK, by omega⟩, hsome.2, by omega⟩

/-! ## Writing a neighbor -/

variable {node pos : ℕ} {id : ℤ}

theorem NSGGraph.nodeAt_setNode_self : (g.setNode node pos id).nodeAt node pos = id :=
  Function.update_self _ _ _

theorem NSGGraph.nodeAt_setNode (hpos : pos < g.K) {j : ℕ} (hj : j < g.K) (hne : ¬ (u = node ∧ j = pos)) :
    (g.setNode node pos id).nodeAt u j = g.nodeAt u j := by
  refine Function.update_of_ne (fun heq ↦ hne ?_) _ _
  change u * g.K + j = node * g.K + pos at heq
  have hmod := congrArg (· % g.K) heq
  have hdiv := congrArg (· / g.K) heq
  have hK : 0 < g.K := Nat.lt_of_le_of_lt (Nat.zero_le _) hj
  simp only [Nat.mul_add_mod_self_right, Nat.mod_eq_of_lt hj, Nat.mod_eq_of_lt hpos] at hmod
  rw [Nat.add_comm, Nat.add_mul_div_right _ _ hK, Nat.div_eq_of_lt hj, Nat.add_comm (node * g.K),
    Nat.add_mul_div_right _ _ hK, Nat.div_eq_of_lt hpos] at hdiv
  exact ⟨by omega, hmod⟩

/-- A vertex of small degree gets a neighbor. -/
theorem Shaped.setNode (h : Shaped n g degrees) (hnode : node < n) (hdeg : degrees node < g.K)
    (hid : 0 ≤ id ∧ id < n) :
    Shaped n (g.setNode node (degrees node) id)
      (Function.update degrees node (degrees node + 1)) := by
  refine ⟨fun i hi ↦ ?_, fun i hi j hj ↦ ?_, fun i hi j hj hjK ↦ ?_⟩
  · by_cases hin : i = node
    · subst hin
      rw [Function.update_self]
      exact hdeg
    · rw [Function.update_of_ne hin]
      exact h.degree_le i hi
  · by_cases hin : i = node ∧ j = degrees node
    · obtain ⟨rfl, rfl⟩ := hin
      rw [NSGGraph.nodeAt_setNode_self]
      exact hid
    · have hjd : j < degrees i := by
        by_cases hin' : i = node
        · subst hin'
          rw [Function.update_self] at hj
          have : j ≠ degrees i := fun heq ↦ hin ⟨rfl, heq⟩
          omega
        · rwa [Function.update_of_ne hin'] at hj
      rw [NSGGraph.nodeAt_setNode hdeg (hjd.trans_le (h.degree_le i hi)) hin]
      exact h.lt i hi j hjd
  · by_cases hin : i = node
    · subst hin
      rw [Function.update_self] at hj
      rw [NSGGraph.nodeAt_setNode hdeg hjK fun heq ↦ by omega]
      exact h.empty i hi j (by omega) hjK
    · rw [Function.update_of_ne hin] at hj
      rw [NSGGraph.nodeAt_setNode hdeg hjK fun heq ↦ hin heq.1]
      exact h.empty i hi j hj hjK

theorem Shaped.edge_setNode (h : Shaped n g degrees) (hnode : node < n) (hdeg : degrees node < g.K)
    (he : g.Edge u v) : (g.setNode node (degrees node) id).Edge u v := by
  obtain ⟨j, hj, heq⟩ := he
  refine ⟨j, hj, ?_⟩
  by_cases hin : u = node ∧ j = degrees node
  · obtain ⟨rfl, rfl⟩ := hin
    have := h.empty u hnode (degrees u) le_rfl hdeg
    omega
  · rwa [NSGGraph.nodeAt_setNode hdeg hj hin]

theorem NSGGraph.edge_of_setNode (hpos : pos < g.K) (he : (g.setNode node pos id).Edge u v) :
    g.Edge u v ∨ u = node := by
  obtain ⟨j, hj, heq⟩ := he
  by_cases hin : u = node
  · exact .inr hin
  · rw [NSGGraph.nodeAt_setNode hpos hj fun h ↦ hin h.1] at heq
    exact .inl ⟨j, hj, heq⟩

end Graph

/-! ## The depth-first search -/

/-- The state of a search: the vertices that are not on the stack have been expanded. -/
structure Searching (n ep : ℕ) (g : NSGGraph) (s : Dfs) : Prop where
  traversal : Traversal g.Edge {ep} {v | s.vt.get v = true} {v | s.vt.get v = true ∧ v ∉ s.stack}
  stack_seen : ∀ v ∈ s.stack, s.vt.get v = true
  seen_lt : ∀ v, s.vt.get v = true → v < n
  reached : {v | s.vt.get v = true} ⊆ reachable g.Edge {ep}
  counted : s.cnt + unvisited (fun _ ↦ true) n s.vt = n

theorem unvisited_set {n v : ℕ} {vt : VisitedTable} (hv : v < n) (hget : vt.get v = false) :
    unvisited (fun _ ↦ true) n (vt.set v) + 1 = unvisited (fun _ ↦ true) n vt := by
  have hvis : Visits (fun _ ↦ true) vt (vt.set v) [v] := Visits.mark rfl hget
  exact hvis.unvisited_add_length (by simpa using hv)

section Search

variable {n ep : ℕ} {g : NSGGraph} {s s' : Dfs}

theorem Searching.next (hg : g.IsBuilt n) (h : Searching n ep g s) (hturn : dfsTurn g s = .next s') :
    Searching n ep g s' := by
  unfold dfsTurn at hturn
  split at hturn
  · exact absurd hturn nofun
  · rename_i node rest hstack
    have hnode : s.vt.get node = true := h.stack_seen node (hstack ▸ List.mem_cons_self)
    split at hturn
    · rename_i hnone
      obtain rfl := Turn.next.inj hturn
      refine ⟨(h.traversal.expand hnode (subset_refl _) fun v he ↦
        NSGGraph.visited_of_firstUnvisited hnone he).restrict ?_, fun v hv ↦ ?_, h.seen_lt, h.reached,
        h.counted⟩
      · rintro v ⟨hv, hrest⟩
        by_cases hvn : v = node
        · exact .inl hvn
        · refine .inr ⟨hv, fun hmem ↦ ?_⟩
          rw [hstack] at hmem
          rcases List.mem_cons.mp hmem with heq | hmem
          · exact hvn heq
          · exact hrest hmem
      · exact h.stack_seen v (hstack ▸ List.mem_cons_of_mem _ hv)
    · rename_i w hsome
      obtain rfl := Turn.next.inj hturn
      obtain ⟨he, hget, hw⟩ := hg.firstUnvisited (h.seen_lt node hnode) hsome
      have hmark : ∀ v, (s.vt.set w).get v = true ↔ v = w ∨ s.vt.get v = true :=
        fun v ↦ VisitedTable.get_set s.vt w v
      refine ⟨(h.traversal.see fun v hv ↦ (hmark v).mpr (.inr hv)).restrict ?_, fun v hv ↦ ?_,
        fun v hv ↦ ?_, ?_, ?_⟩
      · rintro v ⟨hv, hrest⟩
        rw [List.mem_cons, not_or, ← hstack] at hrest
        exact ⟨((hmark v).mp hv).resolve_left hrest.1, hrest.2⟩
      · rcases List.mem_cons.mp hv with rfl | hv
        · exact (hmark _).mpr (.inl rfl)
        · exact (hmark v).mpr (.inr (h.stack_seen v (hstack ▸ hv)))
      · rcases (hmark v).mp hv with rfl | hv
        · exact hw
        · exact h.seen_lt v hv
      · rintro v hv
        rcases (hmark v).mp hv with rfl | hv
        · exact reachable_step (h.reached hnode) he
        · exact h.reached hv
      · have := unvisited_set hw hget
        have := h.counted
        dsimp only
        omega

theorem Searching.done (h : Searching n ep g s) (hturn : dfsTurn g s = .done s') :
    Searching n ep g s' ∧ s'.stack = [] := by
  unfold dfsTurn at hturn
  split at hturn
  · rename_i hstack
    obtain rfl := Turn.done.inj hturn
    exact ⟨h, hstack⟩
  · split at hturn
    · exact absurd hturn nofun
    · exact absurd hturn nofun

theorem Searching.seen_eq (h : Searching n ep g s) (hstack : s.stack = []) :
    {v | s.vt.get v = true} = reachable g.Edge {ep} := by
  refine Set.Subset.antisymm h.reached (h.traversal.reachable_subset fun v hv ↦ ⟨hv, ?_⟩)
  rw [hstack]
  exact List.not_mem_nil

end Search

/-! ## The loop that attaches vertices -/

section Grow

variable {S : PoolSort} {N : NodeSort} {D : NSGDistances} {gen rng : ℕ → ℕ} {nsg : NSG} {turns : ℕ}
  {s s' : GrowState}

/-- The vertex of the pool that something is attached to is marked. -/
def NSG.AttachesLinked (S : PoolSort) (N : NodeSort) (D : NSGDistances) (gen : ℕ → ℕ) (nsg : NSG)
    (turns : ℕ) (s : GrowState) : Prop :=
  ∀ d, dfs s.graph turns s.vt s.root s.cnt = some d → ∀ id vt2 node,
    nsg.unlinked S N D gen turns { s with vt := d.vt, cnt := d.cnt } = some (id, vt2, some node) →
      d.vt.get node = true

/-- From a state to another one by turns of the loop of `tree_grow`. -/
def NSG.GrowSteps (S : PoolSort) (N : NodeSort) (D : NSGDistances) (gen rng : ℕ → ℕ) (nsg : NSG)
    (turns : ℕ) : GrowState → GrowState → Prop :=
  Relation.ReflTransGen fun a b ↦ nsg.growTurn S N D gen rng turns a = some (.next b)

/-- The graph of a state is well shaped. -/
structure GrowState.Good (nsg : NSG) (s : GrowState) : Prop where
  K_eq : s.graph.K = nsg.R
  shaped : Shaped nsg.ntotal s.graph s.degrees

/-- What the entry point reaches when a turn begins. -/
structure Rooted (nsg : NSG) (s : GrowState) : Prop where
  traversal : Traversal s.graph.Edge {nsg.enterpoint} ({v | s.vt.get v = true} ∪ {s.root})
    ({v | s.vt.get v = true} \ {s.root})
  root_lt : s.root < nsg.ntotal
  seen_lt : ∀ v, s.vt.get v = true → v < nsg.ntotal
  reached : {v | s.vt.get v = true} ∪ {s.root} ⊆ reachable s.graph.Edge {nsg.enterpoint}
  counted : s.cnt + unvisited (fun _ ↦ true) nsg.ntotal s.vt = nsg.ntotal

/-- An attachment writes a vertex that is not marked into the row of a vertex of small degree. -/
theorem GrowState.Good.attachUnlinked (h : s.Good nsg) (hep : nsg.enterpoint < nsg.ntotal)
    (hattach : nsg.attachUnlinked S N D gen rng turns s = some s') :
    ∃ id < nsg.ntotal, s'.root < nsg.ntotal ∧ s.degrees s'.root < s.graph.K ∧
      s'.graph = s.graph.setNode s'.root (s.degrees s'.root) id ∧
      s'.degrees = Function.update s.degrees s'.root (s.degrees s'.root + 1) ∧ s'.vt = s.vt ∧
      s'.cnt = s.cnt ∧
      ((∀ id vt2 node, nsg.unlinked S N D gen turns s = some (id, vt2, some node) →
        s.vt.get node = true) → s.vt.get s'.root = true) := by
  obtain ⟨⟨id, vt2, candidate⟩, hunlinked, hattach⟩ := Option.bind_eq_some_iff.mp hattach
  obtain ⟨⟨node, drawn⟩, hnode, hattach⟩ := Option.bind_eq_some_iff.mp hattach
  obtain rfl := Option.some_inj.mp hattach
  obtain ⟨id', hfind, hrest⟩ := Option.bind_eq_some_iff.mp hunlinked
  obtain ⟨scan, hscan, hrest⟩ := Option.bind_eq_some_iff.mp hrest
  obtain ⟨rfl, hpair⟩ := Prod.mk.inj (Option.some_inj.mp hrest)
  obtain ⟨rfl, hcandidate⟩ := Prod.mk.inj hpair
  have hid : id' < nsg.ntotal := List.mem_range.mp (List.mem_of_find?_eq_some hfind)
  refine ⟨id', hid, ?_⟩
  dsimp only
  cases candidate with
  | some node' =>
      obtain ⟨rfl, rfl⟩ := Prod.mk.inj (Option.some_inj.mp hnode)
      obtain ⟨p, hp, rfl⟩ := Option.map_eq_some_iff.mp hcandidate
      have hcheck := List.find?_some hp
      rw [Bool.and_eq_true, decide_eq_true_eq, decide_eq_true_eq] at hcheck
      have hbelow := searchOnGraph_below (fun u hu ↦ h.shaped.isBuilt.lt hu) hep hscan
      have hmem := (N.perm _).mem_iff.mp (List.mem_of_find?_eq_some hp)
      exact ⟨hbelow.fullset_lt p hmem, h.K_eq ▸ hcheck.1, rfl, rfl, rfl, rfl,
        fun hlinked ↦ hlinked _ _ _ hunlinked⟩
  | none =>
      obtain ⟨t, ht, heq⟩ := Option.map_eq_some_iff.mp hnode
      obtain ⟨rfl, rfl⟩ := Prod.mk.inj heq
      have haccepted : s.vt.get (rng t % nsg.ntotal) = true ∧ s.degrees (rng t % nsg.ntotal) < nsg.R ∧
          rng t % nsg.ntotal ≠ id' := by
        refine @Lib.iterate_partial _ _ (fun _ ↦ True) (fun t ↦ s.vt.get (rng t % nsg.ntotal) = true ∧
          s.degrees (rng t % nsg.ntotal) < nsg.R ∧ rng t % nsg.ntotal ≠ id')
          (fun _ _ _ _ ↦ trivial) (fun a b _ hb ↦ ?_) _ _ _ trivial ht
        dsimp only at hb
        split at hb
        · rename_i haccept
          obtain rfl := Turn.done.inj hb
          exact haccept
        · exact absurd hb nofun
      exact ⟨Nat.mod_lt _ (Nat.lt_of_le_of_lt (Nat.zero_le _) hep), h.K_eq ▸ haccepted.2.1, rfl, rfl, rfl,
        rfl, fun _ ↦ haccepted.1⟩

/-- A search from the root keeps the count, and then all that is marked has been expanded. -/
theorem Rooted.dfs (h : Rooted nsg s) (hgood : s.Good nsg) {d : Dfs}
    (hd : dfs s.graph turns s.vt s.root s.cnt = some d) :
    Searching nsg.ntotal nsg.enterpoint s.graph d ∧ d.stack = [] := by
  have hmark : ∀ v, (s.vt.set s.root).get v = true ↔ v = s.root ∨ s.vt.get v = true :=
    fun v ↦ VisitedTable.get_set s.vt s.root v
  have hseen : {v | s.vt.get v = true} ∪ {s.root} ⊆ {v | (s.vt.set s.root).get v = true} := by
    rintro v (hv | hv)
    · exact (hmark v).mpr (.inr hv)
    · exact (hmark v).mpr (.inl hv)
  refine @Lib.iterate_partial _ _ (Searching nsg.ntotal nsg.enterpoint s.graph)
    (fun d ↦ Searching nsg.ntotal nsg.enterpoint s.graph d ∧ d.stack = [])
    (fun a b ha hb ↦ ha.next hgood.shaped.isBuilt hb) (fun a b ha hb ↦ ha.done hb) _ _ _
    ⟨(h.traversal.see hseen).restrict ?_, fun v hv ↦ ?_, fun v hv ↦ ?_, fun v hv ↦ ?_, ?_⟩ hd
  · rintro v ⟨hv, hroot⟩
    rw [List.mem_singleton] at hroot
    exact ⟨((hmark v).mp hv).resolve_left hroot, hroot⟩
  · exact (hmark v).mpr (.inl (List.mem_singleton.mp hv))
  · rcases (hmark v).mp hv with rfl | hv
    · exact h.root_lt
    · exact h.seen_lt v hv
  · rcases (hmark v).mp hv with rfl | hv
    · exact h.reached (.inr rfl)
    · exact h.reached (.inl hv)
  · have hcount := h.counted
    dsimp only
    cases hget : s.vt.get s.root with
    | true => rw [VisitedTable.set_of_get hget, if_pos rfl, hcount]
    | false =>
        rw [if_neg Bool.false_ne_true]
        have := unvisited_set h.root_lt hget
        omega

/-- A turn that attaches a vertex to a marked one keeps what the entry point reaches. -/
theorem Rooted.next (h : Rooted nsg s) (hgood : s.Good nsg) (hep : nsg.enterpoint < nsg.ntotal)
    (hlinked : nsg.AttachesLinked S N D gen turns s)
    (hturn : nsg.growTurn S N D gen rng turns s = some (.next s')) : Rooted nsg s' := by
  obtain ⟨d, hd, hturn⟩ := Option.bind_eq_some_iff.mp hturn
  dsimp only at hturn
  split at hturn
  · exact absurd (Option.some_inj.mp hturn) nofun
  · obtain ⟨t, hattach, heq⟩ := Option.map_eq_some_iff.mp hturn
    obtain rfl := Turn.next.inj heq
    obtain ⟨hsearch, hstack⟩ := h.dfs hgood hd
    have hgood' : GrowState.Good nsg { s with vt := d.vt, cnt := d.cnt } := ⟨hgood.K_eq, hgood.shaped⟩
    obtain ⟨id, hid, hroot, hdeg, hgraph, hdegrees, hvt, hcnt, hmarked⟩ :=
      hgood'.attachUnlinked hep hattach
    have hrootseen : d.vt.get t.root = true := hmarked (hlinked d hd)
    have hedge : ∀ u v, s.graph.Edge u v →
        (s.graph.setNode t.root (s.degrees t.root) id).Edge u v :=
      fun u v ↦ hgood.shaped.edge_setNode hroot hdeg
    have hreached := hsearch.reached.trans (reachable_mono hedge)
    refine ⟨?_, hroot, fun v hv ↦ ?_, ?_, ?_⟩
    · have hgrow : Traversal (s.graph.setNode t.root (s.degrees t.root) id).Edge {nsg.enterpoint} _ _ :=
        hsearch.traversal.grow fun a b ↦ NSGGraph.edge_of_setNode hdeg
      rw [hvt, hgraph]
      refine (hgrow.see Set.subset_union_left).restrict ?_
      rintro v ⟨hv, hne⟩
      exact ⟨⟨hv, by rw [hstack]; exact List.not_mem_nil⟩, hne⟩
    · rw [hvt] at hv
      exact hsearch.seen_lt v hv
    · rw [hvt, hgraph]
      rintro v (hv | hv)
      · exact hreached hv
      · exact hreached ((Set.mem_singleton_iff.mp hv).symm ▸ hrootseen)
    · rw [hvt, hcnt]
      exact hsearch.counted

theorem GrowState.Good.next (h : s.Good nsg) (hep : nsg.enterpoint < nsg.ntotal)
    (hturn : nsg.growTurn S N D gen rng turns s = some (.next s')) : s'.Good nsg := by
  obtain ⟨d, hd, hturn⟩ := Option.bind_eq_some_iff.mp hturn
  dsimp only at hturn
  split at hturn
  · exact absurd (Option.some_inj.mp hturn) nofun
  · obtain ⟨t, hattach, heq⟩ := Option.map_eq_some_iff.mp hturn
    obtain rfl := Turn.next.inj heq
    have hgood : GrowState.Good nsg { s with vt := d.vt, cnt := d.cnt } := ⟨h.K_eq, h.shaped⟩
    obtain ⟨id, hid, hroot, hdeg, hgraph, hdegrees, -⟩ := hgood.attachUnlinked hep hattach
    refine ⟨by rw [hgraph]; exact h.K_eq, ?_⟩
    rw [hgraph, hdegrees]
    exact h.shaped.setNode hroot hdeg ⟨Int.natCast_nonneg id, by exact_mod_cast hid⟩

theorem NSG.growTurn_done (hturn : nsg.growTurn S N D gen rng turns s = some (.done s')) :
    ∃ d, dfs s.graph turns s.vt s.root s.cnt = some d ∧ nsg.ntotal ≤ d.cnt ∧
      s' = { s with vt := d.vt, cnt := d.cnt } := by
  obtain ⟨d, hd, hturn⟩ := Option.bind_eq_some_iff.mp hturn
  dsimp only at hturn
  split at hturn
  · rename_i hle
    exact ⟨d, hd, hle, (Turn.done.inj (Option.some_inj.mp hturn)).symm⟩
  · obtain ⟨t, -, heq⟩ := Option.map_eq_some_iff.mp hturn
    exact absurd heq nofun

theorem NSG.treeGrow_steps {more : ℕ} {r : GrowState}
    (h : nsg.treeGrow S N D gen rng turns more s = some r) :
    ∃ last, nsg.GrowSteps S N D gen rng turns s last ∧
      nsg.growTurn S N D gen rng turns last = some (.done r) := by
  induction more generalizing s with
  | zero => exact absurd h (by simp [NSG.treeGrow])
  | succ more ih =>
      rw [NSG.treeGrow] at h
      split at h
      · exact absurd h (by simp)
      · rename_i s' hturn
        obtain rfl := Option.some_inj.mp h
        exact ⟨s, Relation.ReflTransGen.refl, hturn⟩
      · rename_i s' hturn
        obtain ⟨last, hsteps, hdone⟩ := ih h
        exact ⟨last, Relation.ReflTransGen.head hturn hsteps, hdone⟩

theorem GrowState.Good.steps (h : s.Good nsg) (hep : nsg.enterpoint < nsg.ntotal)
    (hsteps : nsg.GrowSteps S N D gen rng turns s s') : s'.Good nsg := by
  induction hsteps with
  | refl => exact h
  | tail _ hturn ih => exact ih.next hep hturn

theorem Rooted.steps (h : Rooted nsg s) (hgood : s.Good nsg) (hep : nsg.enterpoint < nsg.ntotal)
    (hlinked : ∀ t, nsg.GrowSteps S N D gen rng turns s t → nsg.AttachesLinked S N D gen turns t)
    (hsteps : nsg.GrowSteps S N D gen rng turns s s') : Rooted nsg s' := by
  induction hsteps with
  | refl => exact h
  | tail hsteps hturn ih => exact ih.next (hgood.steps hep hsteps) hep (hlinked _ hsteps) hturn

/-- When the loop ends, the entry point reaches everything, and this is what was counted. -/
theorem Rooted.connected (h : Rooted nsg s) (hgood : s.Good nsg)
    (hturn : nsg.growTurn S N D gen rng turns s = some (.done s')) :
    (∀ v < nsg.ntotal, v ∈ reachable s'.graph.Edge {nsg.enterpoint}) ∧
      (reachable s'.graph.Edge {nsg.enterpoint}).ncard = s'.cnt := by
  obtain ⟨d, hd, hle, rfl⟩ := NSG.growTurn_done hturn
  obtain ⟨hsearch, hstack⟩ := h.dfs hgood hd
  have hcounted := hsearch.counted
  have hall : ∀ v < nsg.ntotal, d.vt.get v = true := by
    intro v hv
    by_contra hget
    have hpos : 0 < unvisited (fun _ ↦ true) nsg.ntotal d.vt := by
      refine Finset.card_pos.mpr ⟨v, Finset.mem_filter.mpr ⟨Finset.mem_range.mpr hv, rfl, ?_⟩⟩
      rwa [Bool.not_eq_true] at hget
    omega
  have hset : {v | d.vt.get v = true} = ↑(Finset.range nsg.ntotal) := by
    ext v
    rw [Finset.coe_range, Set.mem_Iio]
    exact ⟨hsearch.seen_lt v, hall v⟩
  dsimp only
  rw [← hsearch.seen_eq hstack]
  refine ⟨hall, ?_⟩
  rw [hset, Set.ncard_coe_finset, Finset.card_range]
  omega

end Grow

/-! ## The build -/

section Build

variable {S : PoolSort} {N : NodeSort} {D : NSGDistances} {gen rng : ℕ → ℕ} {nsg : NSG}

theorem rowBelow_ids {n R : ℕ} {row : LinkRow} (h : RowBelow n R row) :
    (row.filterMap id).length ≤ R ∧ ∀ q ∈ row.filterMap id, q.1 < n := by
  refine ⟨(List.length_filterMap_le _ _).trans h.length_le, fun q hq ↦ ?_⟩
  obtain ⟨c, hc, hcq⟩ := List.mem_filterMap.mp hq
  exact h.node_lt q (hcq ▸ hc)

/-- The graph in which `tree_grow` begins is well shaped. -/
theorem good_startGrow {rows : ℕ → LinkRow} (h : ∀ q, RowBelow nsg.ntotal nsg.R (rows q)) :
    (nsg.startGrow rows).Good nsg := by
  have hat : ∀ i, ∀ j < nsg.R, (nsg.startGrow rows).graph.nodeAt i j =
      (((rows i).filterMap id).map fun q ↦ (q.1 : ℤ)).getD j (-1) := by
    intro i j hj
    have hR : 0 < nsg.R := Nat.lt_of_le_of_lt (Nat.zero_le _) hj
    have hdiv : (i * nsg.R + j) / nsg.R = i := by
      rw [Nat.add_comm, Nat.add_mul_div_right _ _ hR, Nat.div_eq_of_lt hj, Nat.zero_add]
    have hmod : (i * nsg.R + j) % nsg.R = j := by
      rw [Nat.mul_add_mod_self_right, Nat.mod_eq_of_lt hj]
    change ((((rows ((i * nsg.R + j) / nsg.R)).filterMap id).map fun q ↦ (q.1 : ℤ))).getD
      ((i * nsg.R + j) % nsg.R) (-1) = _
    rw [hdiv, hmod]
  refine ⟨rfl, fun i _ ↦ (rowBelow_ids (h i)).1, fun i _ j hj ↦ ?_, fun i _ j hj hjR ↦ ?_⟩
  · have hlen := (rowBelow_ids (h i)).1
    change j < ((rows i).filterMap id).length at hj
    rw [hat i j (hj.trans_le hlen), List.getD_eq_getElem _ _ (by rwa [List.length_map]), List.getElem_map]
    have := (rowBelow_ids (h i)).2 _ (List.getElem_mem hj)
    omega
  · rw [hat i j hjR, List.getD_eq_default _ _ (by rw [List.length_map]; exact hj)]

theorem rooted_startGrow (hep : nsg.enterpoint < nsg.ntotal) (rows : ℕ → LinkRow) :
    Rooted nsg (nsg.startGrow rows) := by
  have hnone : {v | (nsg.startGrow rows).vt.get v = true} = ∅ := by
    ext v
    exact iff_of_false (fun h ↦ absurd h (by
      change ¬ (VisitedTable.new nsg.ntotal).get v = true
      simp [VisitedTable.new, VisitedTable.get])) (Set.notMem_empty v)
  refine ⟨?_, hep, fun v hv ↦ ?_, ?_, ?_⟩
  · rw [hnone, Set.empty_union, Set.empty_sdiff]
    exact Traversal.start (subset_refl _)
  · have : v ∈ {v | (nsg.startGrow rows).vt.get v = true} := hv
    rw [hnone] at this
    exact absurd this (Set.notMem_empty v)
  · rw [hnone, Set.empty_union]
    exact subset_reachable
  · change 0 + unvisited (fun _ ↦ true) nsg.ntotal (VisitedTable.new nsg.ntotal) = nsg.ntotal
    rw [Nat.zero_add, unvisited, Finset.filter_true_of_mem, Finset.card_range]
    intro v _
    exact ⟨rfl, VisitedTable.clean_new nsg.ntotal nsg.ntotal v (Finset.mem_range.mp ‹_›)⟩

/-- A graph of neighbours, or padding. -/
def NSGGraph.IsKnn (g : NSGGraph) (n : ℕ) : Prop :=
  ∀ i < n, ∀ j < g.K, g.nodeAt i j = -1 ∨ 0 ≤ g.nodeAt i j ∧ g.nodeAt i j < n

theorem NSGGraph.IsKnn.lt {g : NSGGraph} {n : ℕ} (hg : g.IsKnn n) {i : ℕ} (hi : i < n) :
    ∀ v ∈ g.getNeighbors i, v < n := by
  intro v hv
  obtain ⟨id, hid, rfl⟩ := List.mem_map.mp hv
  have hpos := List.mem_takeWhile_imp hid
  rw [decide_eq_true_iff] at hpos
  obtain ⟨j, hj, rfl⟩ := List.mem_map.mp ((List.takeWhile_sublist _).subset hid)
  have := hg i hi j (List.mem_range.mp hj)
  omega

theorem NSG.linked_spec {n turns : ℕ} {knn : NSGGraph} {schedule : List ℕ} (hn : 1 ≤ n)
    (hknn : knn.IsKnn n) {nsg' : NSG} {s : GrowState}
    (h : nsg.linked S N D gen rng n knn turns schedule = some (nsg', s)) :
    nsg'.ntotal = n ∧ nsg'.R = nsg.R ∧ nsg'.enterpoint < nsg'.ntotal ∧ s.Good nsg' ∧ Rooted nsg' s := by
  obtain ⟨-, -, h⟩ := Option.bind_eq_some_iff.mp h
  obtain ⟨ep, hep, h⟩ := Option.bind_eq_some_iff.mp h
  obtain ⟨rows, hrows, h⟩ := Option.bind_eq_some_iff.mp h
  obtain ⟨rfl, rfl⟩ := Prod.mk.inj (Option.some_inj.mp h)
  obtain ⟨scan, hscan, hid⟩ := Option.bind_eq_some_iff.mp hep
  have hbelow := searchOnGraph_below (fun u hu ↦ hknn.lt hu) (Nat.mod_lt _ hn) hscan
  have hlt : ep < n := by
    rw [← Option.some_inj.mp hid, List.getD_eq_getElem?_getD]
    cases hget : scan.retset[0]? with
    | none => exact hn
    | some nb => exact hbelow.retset_lt nb (List.mem_of_getElem? hget)
  exact ⟨rfl, rfl, hlt, good_startGrow (NSG.link_below (fun u hu ↦ hknn.lt hu) hlt hrows),
    rooted_startGrow hlt rows⟩

end Build

/-! ## Four points on a line -/

/-- The sort that keeps the order of nodes at the same distance. -/
def NodeSort.insertion : NodeSort where
  sort := List.insertionSort fun a b ↦ a.2.key ≤ b.2.key
  perm := List.perm_insertionSort _
  sorted := fun l _ ↦ by
    have : Std.Total fun a b : NSGNode ↦ a.2.key ≤ b.2.key := ⟨fun a b ↦ le_total a.2.key b.2.key⟩
    have : IsTrans NSGNode fun a b ↦ a.2.key ≤ b.2.key := ⟨fun a b c ↦ le_trans⟩
    exact List.pairwise_insertionSort _ l

/-- One vertex, which is its own neighbour twice. -/
def loopKnn : NSGGraph :=
  ⟨2, 1, fun _ ↦ 0⟩

theorem isKnn_loopKnn : loopKnn.IsKnn 1 :=
  fun _ _ _ _ ↦ .inr ⟨le_rfl, Int.one_pos⟩

/-- `R = 1`, `L = 2`, `C = 5` and `search_L = 1`, and all distances 0. -/
def loopNSG : NSG :=
  ⟨0, 1, 2, 5, 1, 0, none, false⟩

def loopDistances : NSGDistances :=
  ⟨fun _ ↦ ⟨0⟩, fun _ _ ↦ ⟨0⟩, fun _ _ ↦ ⟨0⟩⟩

/-- The loop of `tree_grow` ends at once, and nothing is attached. -/
theorem attachesLinked_loop {nsg' : NSG} {s t : GrowState}
    (h : loopNSG.linked PoolSort.insertion NodeSort.insertion loopDistances id (fun _ ↦ 0) 1 loopKnn 9
      [0] = some (nsg', s))
    (ht : nsg'.GrowSteps PoolSort.insertion NodeSort.insertion loopDistances id (fun _ ↦ 0) 9 s t) :
    nsg'.AttachesLinked PoolSort.insertion NodeSort.insertion loopDistances id 9 t := by
  have hrun : ((loopNSG.linked PoolSort.insertion NodeSort.insertion loopDistances id (fun _ ↦ 0) 1
      loopKnn 9 [0]).map fun p ↦
        ((p.1.growTurn PoolSort.insertion NodeSort.insertion loopDistances id (fun _ ↦ 0) 9 p.2).map
          fun u ↦ match u with | .done _ => true | .next _ => false,
        (dfs p.2.graph 9 p.2.vt p.2.root p.2.cnt).map fun d ↦
          (p.1.unlinked PoolSort.insertion NodeSort.insertion loopDistances id 9
            { p.2 with vt := d.vt, cnt := d.cnt }).isNone)) = some (some true, some true) := by
    decide +kernel
  rw [h, Option.map_some, Option.some_inj, Prod.mk.injEq] at hrun
  obtain ⟨hdone, hnone⟩ := hrun
  rcases Relation.ReflTransGen.cases_head ht with rfl | ⟨u, hu, -⟩
  · intro d hd id vt2 node hnode
    rw [hd, Option.map_some, Option.some_inj, hnode] at hnone
    exact absurd hnone (by simp)
  · rw [hu] at hdone
    exact absurd hdone (by simp)

/-- The squared distances between the points 0, 1, 10 and 12, as floats. -/
def lineDistance (a b : ℕ) : F32 :=
  ⟨if a = b then 0
    else if a + b = 1 then 0x3f800000#32
    else if a + b = 5 then 0x40800000#32
    else if a = 0 ∨ b = 0 then (if a + b = 2 then 0x42c80000#32 else 0x43100000#32)
    else (if a + b = 3 then 0x42a20000#32 else 0x42f20000#32)⟩

/-- The distances of the four points; their center is 5.75. -/
def lineDistances : NSGDistances where
  center v :=
    ⟨if v = 0 then 0x42044000#32
      else if v = 1 then 0x41b48000#32
      else if v = 2 then 0x41908000#32
      else 0x421c4000#32⟩
  query := lineDistance
  symmetric := lineDistance

def lineKnn : NSGGraph :=
  ⟨1, 4, fun p ↦ if p = 0 then 1 else if p = 1 then 0 else if p = 2 then 3 else 2⟩

/-- `R = 2`, `L = 4`, `C = 1` and `search_L = 4`. -/
def lineNSG : NSG :=
  ⟨0, 2, 4, 1, 4, 0, none, false⟩

/-- The build of the graph of the four points, with the threads one after the other. -/
def lineBuild : Option (NSG × GrowState) :=
  lineNSG.build PoolSort.insertion NodeSort.insertion lineDistances id (fun _ ↦ 0) 4 lineKnn 20
    [0, 0, 1, 1, 2, 2, 3, 3]

end FaissNavix
