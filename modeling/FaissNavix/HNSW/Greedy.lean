import FaissNavix.Float32
import FaissNavix.Lib.Buffer
import Mathlib.Data.Finset.Card

/-!
# The HNSW graph

The link structure of `faiss/impl/HNSW.h`: for every vertex its number of levels and, in one flat
table, the lists of its neighbours on each of them, a list being ids up to the first `-1` or the
end of its range.  Positions and ids are natural numbers; an entry of the table is an integer.
-/

namespace FaissNavix

structure HNSW where
  /-- number of neighbors stored per layer (cumulative) -/
  cumNneighborPerLevel : List ℕ
  /-- level of each vector (base level = 1), size = ntotal -/
  levels : List ℕ
  /-- `offsets[i]` is where the neighbours of vertex `i` start, size ntotal + 1 -/
  offsets : List ℕ
  neighbors : List ℤ
  entryPoint : ℤ
  maxLevel : ℤ
  efSearch : ℕ
  checkRelativeDistance : Bool
  searchBoundedQueue : Bool
deriving DecidableEq, Repr

namespace HNSW

/-- `levels.size()` -/
def ntotal (g : HNSW) : ℕ := g.levels.length

def level (g : HNSW) (i : ℕ) : ℕ := g.levels.getD i 0

def cumNbNeighbors (g : HNSW) (layerNo : ℕ) : ℕ := g.cumNneighborPerLevel.getD layerNo 0

def nbNeighbors (g : HNSW) (layerNo : ℕ) : ℕ :=
  g.cumNbNeighbors (layerNo + 1) - g.cumNbNeighbors layerNo

/-- `neighbor_range`: `begin` and `end`. -/
def neighborRange (g : HNSW) (no layerNo : ℕ) : ℕ × ℕ :=
  let o := g.offsets.getD no 0
  (o + g.cumNbNeighbors layerNo, o + g.cumNbNeighbors (layerNo + 1))

/-- The entries of a range of the table up to the first negative one, which is where every loop
over the neighbours of a vertex stops. -/
def neighborList (g : HNSW) (no layerNo : ℕ) : List ℕ :=
  let r := g.neighborRange no layerNo
  (((List.range' r.1 (r.2 - r.1)).map fun j ↦ g.neighbors.getD j (-1)).takeWhile
    fun v ↦ decide (0 ≤ v)).map Int.toNat

/-- `v` is a neighbour of `u` on level 0. -/
def Edge (g : HNSW) (u v : ℕ) : Prop := v ∈ g.neighborList u 0

/-- A graph as the insertion of vertices leaves it: the tables have the sizes that the levels
give, every list of a vertex on one of its levels consists of vertices on that level, and the entry
point is a vertex of the highest level. -/
structure WellFormed (g : HNSW) : Prop where
  offsets_length : g.offsets.length = g.ntotal + 1
  offsets_succ : ∀ i < g.ntotal,
    g.offsets.getD (i + 1) 0 = g.offsets.getD i 0 + g.cumNbNeighbors (g.level i)
  neighbors_length : g.neighbors.length = g.offsets.getD g.ntotal 0
  level_pos : ∀ i < g.ntotal, 1 ≤ g.level i
  neighbor : ∀ i < g.ntotal, ∀ l < g.level i, ∀ v ∈ g.neighborList i l,
    v < g.ntotal ∧ l < g.level v
  entry : (g.entryPoint = -1 ∧ g.ntotal = 0) ∨
    ∃ e : ℕ, g.entryPoint = e ∧ e < g.ntotal ∧ (g.level e : ℤ) = g.maxLevel + 1

theorem neighborList_length_le (g : HNSW) (no layerNo : ℕ) :
    (g.neighborList no layerNo).length ≤ g.nbNeighbors layerNo := by
  rw [neighborList, List.length_map]
  refine (List.takeWhile_sublist _).length_le.trans ?_
  rw [List.length_map, List.length_range', neighborRange, nbNeighbors, Nat.add_sub_add_left]

/-- The table that `set_default_probas` fills.  The loop over the levels ends at the first one whose
probability, a floating-point number, is negligible; `numLevels` is how many there are before. -/
def setDefaultProbas (M numLevels : ℕ) : List ℕ :=
  (List.range numLevels).scanl (fun nn level ↦ nn + if level = 0 then M * 2 else M) 0

theorem setDefaultProbas_succ (M n : ℕ) :
    ∃ l, setDefaultProbas M (n + 1) = 0 :: (M * 2) :: l := by
  obtain ⟨m, hm⟩ : ∃ l, List.range (n + 1) = 0 :: l := ⟨_, List.range_succ_eq_map⟩
  refine ⟨(m.scanl (fun nn level ↦ nn + if level = 0 then M * 2 else M) (M * 2)).tail, ?_⟩
  rw [setDefaultProbas, hm, List.scanl_cons]
  cases m <;> simp

variable {g : HNSW}

theorem WellFormed.edge_lt (h : g.WellFormed) {u v : ℕ} (hu : u < g.ntotal) (he : g.Edge u v) :
    v < g.ntotal :=
  (h.neighbor u hu 0 (h.level_pos u hu) v he).1

/-- Two vertices linked to each other on level 0, the first one being the entry point. -/
def pair : HNSW where
  cumNneighborPerLevel := [0, 2]
  levels := [1, 1]
  offsets := [0, 2, 4]
  neighbors := [1, -1, 0, -1]
  entryPoint := 0
  maxLevel := 0
  efSearch := 16
  checkRelativeDistance := true
  searchBoundedQueue := true

theorem wellFormed_pair : pair.WellFormed where
  offsets_length := rfl
  offsets_succ := by decide
  neighbors_length := rfl
  level_pos := by decide
  neighbor := by decide
  entry := Or.inr ⟨0, rfl, by decide, rfl⟩

end HNSW

end FaissNavix

/-!
# The greedy descent

`greedy_update_nearest` of `faiss/impl/HNSW.cpp`, which walks on one level to a vertex none of
whose neighbours is nearer to the query, and the loop over the upper levels with which every search
starts.

A walk that goes on has moved to a vertex at a strictly smaller distance, so that it ends whatever
the graph and the distances are, NaN included.
-/

namespace FaissNavix

/-- `HNSWStats` -/
structure HNSWStats where
  n1 : ℕ := 0
  n2 : ℕ := 0
  ndis : ℕ := 0
  nhops : ℕ := 0
deriving DecidableEq, Repr

def HNSWStats.combine (s other : HNSWStats) : HNSWStats where
  n1 := s.n1 + other.n1
  n2 := s.n2 + other.n2
  ndis := s.ndis + other.ndis
  nhops := s.nhops + other.nhops

/-- The nearest vertex so far, and its distance. -/
structure Nearest where
  nearest : ℕ
  dNearest : F32
deriving DecidableEq, Repr

/-- `update_with_candidate` -/
def Nearest.updateWithCandidate (s : Nearest) (idx : ℕ) (dis : F32) : Nearest :=
  if dis < s.dNearest then { nearest := idx, dNearest := dis } else s

namespace HNSW

variable (g : HNSW) (qdis : ℕ → F32)

/-- One pass over the neighbours of `s.nearest`, four distances at a time. -/
def greedyPass (level : ℕ) (s : Nearest) : Nearest :=
  (Lib.buffered 4 (fun t _ ↦ (true, t))
    (fun s buf ↦ (buf.map fun v ↦ (v, qdis v)).foldl
      (fun s p ↦ s.updateWithCandidate p.1 p.2) s)
    (fun s v ↦ s.updateWithCandidate v (qdis v)) (g.neighborList s.nearest level) [] () s).2

theorem entered_true {α : Type} (xs : List α) :
    Lib.entered (fun (t : Unit) (_ : α) ↦ (true, t)) xs () = ((), xs) := by
  induction xs with
  | nil => rfl
  | cons x xs ih => simp [Lib.entered, ih]

theorem greedyPass_eq (level : ℕ) (s : Nearest) :
    g.greedyPass qdis level s =
      (g.neighborList s.nearest level).foldl (fun s v ↦ s.updateWithCandidate v (qdis v)) s := by
  rw [greedyPass, Lib.buffered_eq (fun s buf _ ↦ by rw [List.foldl_map]), entered_true,
    List.nil_append]

/-- A pass moves to a strictly nearer neighbour, or does not move. -/
theorem foldl_updateWithCandidate (l : List ℕ) (s : Nearest) :
    l.foldl (fun s v ↦ s.updateWithCandidate v (qdis v)) s = s ∨
      ∃ v ∈ l, l.foldl (fun s v ↦ s.updateWithCandidate v (qdis v)) s = ⟨v, qdis v⟩ ∧
        qdis v < s.dNearest := by
  induction l generalizing s with
  | nil => exact Or.inl rfl
  | cons x l ih =>
      rw [List.foldl_cons]
      by_cases hx : qdis x < s.dNearest
      · have hs : s.updateWithCandidate x (qdis x) = ⟨x, qdis x⟩ := if_pos hx
        rw [hs]
        rcases ih ⟨x, qdis x⟩ with h | ⟨v, hv, h, hlt⟩
        · exact Or.inr ⟨x, List.mem_cons_self, h, hx⟩
        · refine Or.inr ⟨v, List.mem_cons_of_mem _ hv, h, ?_⟩
          rw [F32.lt_iff] at *
          exact ⟨hlt.1, hx.2.1, hlt.2.2.trans hx.2.2⟩
      · have hs : s.updateWithCandidate x (qdis x) = s := if_neg hx
        rw [hs]
        rcases ih s with h | ⟨v, hv, h, hlt⟩
        · exact Or.inl h
        · exact Or.inr ⟨v, List.mem_cons_of_mem _ hv, h, hlt⟩

theorem greedyPass_cases (level : ℕ) (s : Nearest) :
    g.greedyPass qdis level s = s ∨
      ∃ v ∈ g.neighborList s.nearest level,
        g.greedyPass qdis level s = ⟨v, qdis v⟩ ∧ qdis v < s.dNearest := by
  rw [greedyPass_eq]
  exact foldl_updateWithCandidate qdis _ s

/-- `greedy_update_nearest`: passes until one does not move. -/
def greedyUpdateNearest (level : ℕ) (s : Nearest) (stats : HNSWStats) : Nearest × HNSWStats :=
  let stats' := { stats with
    ndis := stats.ndis + (g.neighborList s.nearest level).length
    nhops := stats.nhops + 1 }
  if (g.greedyPass qdis level s).nearest = s.nearest then (g.greedyPass qdis level s, stats')
  else greedyUpdateNearest level (g.greedyPass qdis level s) stats'
termination_by s.dNearest.rank
decreasing_by
  rename_i hne
  rcases g.greedyPass_cases qdis level s with h | ⟨v, -, h, hlt⟩
  · exact absurd (by rw [h]) hne
  · rw [h]; exact F32.rank_lt_rank hlt

/-- The levels `max_level, …, 1` in the order the searches go through them. -/
def upperLevels : List ℕ := (List.range g.maxLevel.toNat).reverse.map (· + 1)

/-- The first lines of a search from the entry point `e`: the greedy walks on the upper levels. -/
def greedyDescent (e : ℕ) : Nearest × HNSWStats :=
  g.upperLevels.foldl
    (fun s level ↦
      let r := g.greedyUpdateNearest qdis level s.1 {}
      (r.1, s.2.combine r.2))
    (⟨e, qdis e⟩, {})

end HNSW

/-! ## Where the descent ends -/

/-- A vertex that exists on `level`, with its own distance. -/
structure Nearest.On (g : HNSW) (qdis : ℕ → F32) (level : ℕ) (s : Nearest) : Prop where
  lt : s.nearest < g.ntotal
  level_lt : level < g.level s.nearest
  dNearest_eq : s.dNearest = qdis s.nearest

theorem Nearest.On.mono {g : HNSW} {qdis : ℕ → F32} {l m : ℕ} {s : Nearest} (h : s.On g qdis l)
    (hm : m ≤ l) : s.On g qdis m :=
  ⟨h.lt, hm.trans_lt h.level_lt, h.dNearest_eq⟩

namespace HNSW

variable {g : HNSW} {qdis : ℕ → F32}

theorem greedyPass_on (hg : g.WellFormed) {level : ℕ} {s : Nearest} (hs : s.On g qdis level) :
    (g.greedyPass qdis level s).On g qdis level := by
  rcases g.greedyPass_cases qdis level s with h | ⟨v, hv, h, -⟩
  · rw [h]; exact hs
  · rw [h]
    obtain ⟨h1, h2⟩ := hg.neighbor _ hs.lt level hs.level_lt v hv
    exact ⟨h1, h2, rfl⟩

theorem greedyUpdateNearest_on (hg : g.WellFormed) {level : ℕ} (s : Nearest) (stats : HNSWStats)
    (hs : s.On g qdis level) : (g.greedyUpdateNearest qdis level s stats).1.On g qdis level := by
  induction s, stats using greedyUpdateNearest.induct g qdis level with
  | case1 s stats heq =>
      rw [greedyUpdateNearest]
      simp only [heq, if_true]
      exact greedyPass_on hg hs
  | case2 s stats _ hne ih =>
      rw [greedyUpdateNearest]
      simp only [hne, if_false]
      exact ih (greedyPass_on hg hs)

theorem foldl_upperLevels_on (hg : g.WellFormed) (m : ℕ) (s : Nearest × HNSWStats)
    (hs : s.1.On g qdis m) :
    (((List.range m).reverse.map (· + 1)).foldl
      (fun s level ↦
        let r := g.greedyUpdateNearest qdis level s.1 {}
        (r.1, s.2.combine r.2)) s).1.On g qdis 0 := by
  induction m generalizing s with
  | zero => exact hs
  | succ m ih =>
      rw [List.range_succ, List.reverse_append, List.reverse_singleton, List.singleton_append,
        List.map_cons, List.foldl_cons]
      exact ih _ ((greedyUpdateNearest_on hg _ _ hs).mono (Nat.le_succ m))

theorem greedyDescent_on (hg : g.WellFormed) {e : ℕ} (he : g.entryPoint = e) :
    (g.greedyDescent qdis e).1.On g qdis 0 := by
  rcases hg.entry with ⟨h, -⟩ | ⟨e', h, hlt, hlevel⟩
  · rw [he] at h; omega
  · obtain rfl : e = e' := by rw [he] at h; exact Int.ofNat_inj.mp h
    have hpos := hg.level_pos e hlt
    exact foldl_upperLevels_on hg _ _ ⟨hlt, by simp only; omega, rfl⟩

end HNSW

end FaissNavix

/-!
# Where a greedy walk stops

`greedy_update_nearest` has no counter.  Each pass that does not end the walk moves to a vertex that is
strictly closer to the query, so that the vertices that are closer still become fewer; and the last
pass has compared all neighbours of the vertex it stays at.
-/

namespace FaissNavix

namespace HNSW

variable {g : HNSW} {qdis : ℕ → F32} {level : ℕ}

/-- After a pass, no vertex of the list is closer. -/
theorem not_lt_foldl_updateWithCandidate (qdis : ℕ → F32) (l : List ℕ) (s : Nearest) :
    ∀ v ∈ l, ¬ qdis v < (l.foldl (fun s v ↦ s.updateWithCandidate v (qdis v)) s).dNearest := by
  induction l generalizing s with
  | nil =>
      intro v hv
      exact absurd hv List.not_mem_nil
  | cons x l ih =>
      intro v hv
      rw [List.foldl_cons]
      rcases List.mem_cons.mp hv with rfl | hv
      · -- the vertex itself was compared first, and what follows only lowers the distance
        have hfirst : ¬ qdis v < (s.updateWithCandidate v (qdis v)).dNearest := by
          unfold Nearest.updateWithCandidate
          split
          · exact F32.lt_irrefl _
          · next hnot => exact hnot
        intro hlt
        rcases foldl_updateWithCandidate qdis l (s.updateWithCandidate v (qdis v)) with
          h | ⟨u, -, h, hu⟩
        · rw [h] at hlt
          exact hfirst hlt
        · rw [h] at hlt
          exact hfirst (F32.lt_trans hlt hu)
      · exact ih _ v hv

theorem greedyPass_eq_self {s : Nearest} (hs : s.On g qdis level)
    (h : (g.greedyPass qdis level s).nearest = s.nearest) : g.greedyPass qdis level s = s := by
  rcases g.greedyPass_cases qdis level s with hpass | ⟨v, -, hpass, hlt⟩
  · exact hpass
  · -- the distance of a vertex is not below itself
    rw [hpass] at h
    dsimp only at h
    rw [h, hs.dNearest_eq] at hlt
    exact absurd hlt (F32.lt_irrefl _)

def closerVertices (g : HNSW) (qdis : ℕ → F32) (s : Nearest) : Finset ℕ :=
  (Finset.range g.ntotal).filter fun v ↦ qdis v < s.dNearest

theorem mem_closerVertices {s : Nearest} {v : ℕ} :
    v ∈ g.closerVertices qdis s ↔ v < g.ntotal ∧ qdis v < s.dNearest := by
  rw [closerVertices, Finset.mem_filter, Finset.mem_range]

theorem card_closerVertices_lt (hg : g.WellFormed) {s : Nearest} (hs : s.On g qdis level)
    (hne : (g.greedyPass qdis level s).nearest ≠ s.nearest) :
    (g.closerVertices qdis (g.greedyPass qdis level s)).card < (g.closerVertices qdis s).card := by
  have hon := greedyPass_on hg hs
  rcases g.greedyPass_cases qdis level s with hpass | ⟨v, -, hpass, hlt⟩
  · rw [hpass] at hne
    exact absurd rfl hne
  · rw [hpass] at hon ⊢
    refine Finset.card_lt_card (Finset.ssubset_iff_of_subset ?_ |>.mpr ⟨v, ?_, ?_⟩)
    · intro u hu
      obtain ⟨hu, hcloser⟩ := mem_closerVertices.mp hu
      exact mem_closerVertices.mpr ⟨hu, F32.lt_trans hcloser hlt⟩
    · exact mem_closerVertices.mpr ⟨hon.lt, hlt⟩
    · intro hv
      exact F32.lt_irrefl _ (mem_closerVertices.mp hv).2

/-- The number of passes of a walk, by the vertices that are closer than its start. -/
theorem nhops_greedyUpdateNearest_le (hg : g.WellFormed) (s : Nearest) (stats : HNSWStats)
    (hs : s.On g qdis level) :
    (g.greedyUpdateNearest qdis level s stats).2.nhops ≤
      stats.nhops + 1 + (g.closerVertices qdis s).card := by
  induction s, stats using greedyUpdateNearest.induct g qdis level with
  | case1 s stats heq =>
      rw [greedyUpdateNearest, if_pos heq]
      exact Nat.le_add_right _ _
  | case2 s stats stats' hne ih =>
      have hfewer := card_closerVertices_lt hg hs hne
      have hrest := ih (greedyPass_on hg hs)
      have hstats : stats'.nhops = stats.nhops + 1 := rfl
      rw [greedyUpdateNearest, if_neg hne]
      refine hrest.trans ?_
      rw [hstats]
      omega

/-- What a walk from `s` leaves in `nearest` and `d_nearest`. -/
structure LocalMinimum (g : HNSW) (qdis : ℕ → F32) (level : ℕ) (s r : Nearest) : Prop where
  on : r.On g qdis level
  /-- The distance is the one at the start, or a smaller one. -/
  le : r.dNearest = s.dNearest ∨ r.dNearest < s.dNearest
  /-- No neighbour is strictly closer. -/
  neighbor : ∀ v ∈ g.neighborList r.nearest level, ¬ qdis v < r.dNearest

theorem localMinimum_greedyPass {s : Nearest} (hs : s.On g qdis level)
    (heq : (g.greedyPass qdis level s).nearest = s.nearest) :
    LocalMinimum g qdis level s (g.greedyPass qdis level s) := by
  have hself := greedyPass_eq_self hs heq
  refine ⟨hself.symm ▸ hs, Or.inl (congrArg Nearest.dNearest hself), fun v hv ↦ ?_⟩
  rw [heq] at hv
  rw [greedyPass_eq]
  exact not_lt_foldl_updateWithCandidate qdis _ s v hv

theorem dNearest_greedyPass (g : HNSW) (qdis : ℕ → F32) (level : ℕ) (s : Nearest) :
    (g.greedyPass qdis level s).dNearest = s.dNearest ∨
      (g.greedyPass qdis level s).dNearest < s.dNearest := by
  rcases g.greedyPass_cases qdis level s with hpass | ⟨v, -, hpass, hlt⟩
  · exact Or.inl (congrArg Nearest.dNearest hpass)
  · rw [hpass]
    exact Or.inr hlt

/-- A walk ends at a local minimum. -/
theorem localMinimum_greedyUpdateNearest (hg : g.WellFormed) (s : Nearest) (stats : HNSWStats)
    (hs : s.On g qdis level) :
    LocalMinimum g qdis level s (g.greedyUpdateNearest qdis level s stats).1 := by
  induction s, stats using greedyUpdateNearest.induct g qdis level with
  | case1 s stats heq =>
      rw [greedyUpdateNearest, if_pos heq]
      exact localMinimum_greedyPass hs heq
  | case2 s stats _ hne ih =>
      obtain ⟨hon, hle, hneighbor⟩ := ih (greedyPass_on hg hs)
      rw [greedyUpdateNearest, if_neg hne]
      refine ⟨hon, ?_, hneighbor⟩
      rcases hle with heq | hlt
      · rw [heq]
        exact dNearest_greedyPass g qdis level s
      · rcases dNearest_greedyPass g qdis level s with h | h
        · exact Or.inr (h ▸ hlt)
        · exact Or.inr (F32.lt_trans hlt h)

/-- From a vertex of a level, `greedy_update_nearest` ends after at most as many passes as there are
vertices, at a vertex of the level with its own distance, which is no larger than that of the start, and
that no neighbour is strictly closer than. -/
theorem greedyUpdateNearest_localMinimum (hg : g.WellFormed) (s : Nearest) (stats : HNSWStats)
    (hs : s.On g qdis level) :
    (g.greedyUpdateNearest qdis level s stats).2.nhops ≤ stats.nhops + g.ntotal ∧
      LocalMinimum g qdis level s (g.greedyUpdateNearest qdis level s stats).1 := by
  refine ⟨?_, localMinimum_greedyUpdateNearest hg s stats hs⟩
  -- the start is not closer than itself
  have hself : s.nearest ∉ g.closerVertices qdis s := fun hmem ↦ by
    have hlt := (mem_closerVertices.mp hmem).2
    rw [← hs.dNearest_eq] at hlt
    exact F32.lt_irrefl _ hlt
  have hcard : (g.closerVertices qdis s).card < g.ntotal := by
    rw [← Finset.card_range g.ntotal]
    refine Finset.card_lt_card (Finset.ssubset_iff_of_subset (Finset.filter_subset _ _) |>.mpr ?_)
    exact ⟨s.nearest, Finset.mem_range.mpr hs.lt, hself⟩
  have hle := nhops_greedyUpdateNearest_le hg s stats hs
  omega

/-- Of two vertices that are linked to each other, the walk ends at the closer one. -/
theorem greedyUpdateNearest_localMinimum_pair :
    (pair.greedyUpdateNearest (fun v ↦ if v = 0 then ⟨2⟩ else ⟨1⟩) 0 ⟨0, ⟨2⟩⟩ {}).2.nhops ≤ 0 + 2 ∧
      LocalMinimum pair (fun v ↦ if v = 0 then ⟨2⟩ else ⟨1⟩) 0 ⟨0, ⟨2⟩⟩
        (pair.greedyUpdateNearest (fun v ↦ if v = 0 then ⟨2⟩ else ⟨1⟩) 0 ⟨0, ⟨2⟩⟩ {}).1 :=
  greedyUpdateNearest_localMinimum wellFormed_pair ⟨0, ⟨2⟩⟩ {}
    ⟨by decide, by decide, rfl⟩

end HNSW

end FaissNavix
