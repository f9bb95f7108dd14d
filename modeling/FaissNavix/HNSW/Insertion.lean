import FaissNavix.HNSW.Links

/-!
# Inserting a vertex

`add_links_starting_from` and `add_with_locks` of `faiss/impl/HNSW.cpp`, when no other thread holds
a lock: a greedy descent to the level of the new vertex, and on each of the levels below a search
for vertices to link to, followed by links in both directions.

The new vertex is in no list of a level before that level is worked on, since every search starts
from an inserted vertex and the lists hold vertices that are present only.  So the links of a level
are new, and none of them goes from a vertex to itself (`Linked.addLinksStartingFrom`).
-/

namespace FaissNavix

open Lib.PriorityQueue (drain)

/-- `DistanceComputer` with a query set. -/
structure DistanceComputer where
  dis : ℕ → F32
  symmetricDis : ℕ → ℕ → F32

/-- `hi, hi - 1, …, lo` -/
def downTo (hi : ℤ) (lo : ℕ) : List ℕ := (List.range' lo (hi + 1 - lo).toNat).reverse

namespace HNSW

variable (g : HNSW) (ptdis : DistanceComputer) (efConstruction : ℕ)

/-- `add_links_starting_from` -/
def addLinksStartingFrom (ptId nearest : ℕ) (dNearest : F32) (level : ℕ) (vt : VisitedTable)
    (keepMaxSizeLevel0 : Bool) : Option (HNSW × VisitedTable) := do
  let (linkTargets, vt) ← g.searchNeighborsToAdd ptdis.dis efConstruction [] nearest dNearest level
    vt false
  let linkTargets := FaissNavix.shrinkNeighborList ptdis.symmetricDis linkTargets
    (g.nbNeighbors level) keepMaxSizeLevel0
  let neighborsToAdd := (drain closer linkTargets.length linkTargets).map Prod.snd
  let g := neighborsToAdd.foldl
    (fun g otherId ↦ g.addLink ptdis.symmetricDis ptId otherId level keepMaxSizeLevel0) g
  let g := neighborsToAdd.foldl
    (fun g otherId ↦ g.addLink ptdis.symmetricDis otherId ptId level keepMaxSizeLevel0) g
  return (g, vt)

/-- `add_with_locks` -/
def addWithLocks (ptLevel ptId : ℕ) (vt : VisitedTable) (keepMaxSizeLevel0 : Bool) :
    Option (HNSW × VisitedTable) :=
  if g.entryPoint < 0 then
    some (if g.entryPoint = -1 then { g with maxLevel := ptLevel, entryPoint := ptId } else g, vt)
  else do
    let nearest := g.entryPoint.toNat
    let near := (downTo g.maxLevel (ptLevel + 1)).foldl
      (fun s level ↦ (g.greedyUpdateNearest ptdis.dis level s {}).1) ⟨nearest, ptdis.dis nearest⟩
    let (g, vt) ← (downTo (min g.maxLevel ptLevel) 0).foldlM
      (fun s level ↦ s.1.addLinksStartingFrom ptdis efConstruction ptId near.nearest near.dNearest
        level s.2 keepMaxSizeLevel0) (g, vt)
    return (if g.maxLevel < ptLevel then { g with maxLevel := ptLevel, entryPoint := ptId } else g, vt)

end HNSW

/-! ## The links of a level -/

variable {g : HNSW} {P : ℕ → ℕ → Prop} {ptId nearest level : ℕ}

theorem Layout.one_le_nbNeighbors (hg : Layout g) {i : ℕ} (hi : i < g.ntotal)
    (hl : level < g.level i) : 1 ≤ g.nbNeighbors level :=
  Nat.sub_pos_of_lt (hg.room level ((Nat.succ_le_of_lt hl).trans_lt (hg.level_lt i hi)))

/-- Linking a vertex on a level where it is not present yet. -/
theorem Linked.addLinksStartingFrom (h : Linked g P) (ptdis : DistanceComputer)
    (efConstruction : ℕ) (dNearest : F32) (vt : VisitedTable) (keepMaxSizeLevel0 : Bool)
    (hnear : P level nearest) (hpt : ptId < g.ntotal) (hl : level < g.level ptId)
    (hnew : ¬P level ptId) :
    ∃ g' vt', g.addLinksStartingFrom ptdis efConstruction ptId nearest dNearest level vt
        keepMaxSizeLevel0 = some (g', vt') ∧
      Linked g' (fun l v ↦ P l v ∨ l = level ∧ v = ptId) ∧ Rewired g g' := by
  have hclosed : ∀ u, P level u → ∀ v ∈ g.neighborList u level, P level v ∧ v < g.ntotal := by
    intro u hu v hv
    obtain ⟨hlt, hlu⟩ := h.lt level u hu
    have hPv := (h.list u hlt level hlu).present v hv
    exact ⟨hPv, (h.lt level v hPv).1⟩
  obtain ⟨results, met, vt', hsearch, hvis, hresults, hmet⟩ :=
    searchNeighborsToAdd_spec ptdis.dis efConstruction hclosed [] hnear dNearest vt
  have htargets := (drain_shrinkNeighborList ptdis.symmetricDis keepMaxSizeLevel0 results
    (h.layout.one_le_nbNeighbors hpt hl) rfl).1.trans hresults
  rw [HNSW.addLinksStartingFrom, hsearch]
  dsimp only [Option.bind_eq_bind, Option.bind_some]
  generalize FaissNavix.shrinkNeighborList ptdis.symmetricDis results (g.nbNeighbors level)
    keepMaxSizeLevel0 = linkTargets at htargets ⊢
  generalize (drain closer linkTargets.length linkTargets).map Prod.snd = targets at htargets ⊢
  have hstart : (↑met : Multiset ℕ) + nearest ::ₘ nodeIds [] = nearest ::ₘ ↑met := by
    rw [Multiset.add_cons]
    exact congrArg _ (add_zero _)
  rw [hstart] at htargets
  have hnearest : nearest ∉ met := by
    intro hmem
    have hfresh := (hvis.fresh nearest hmem).2
    rw [vt.get_set_self] at hfresh
    exact Bool.false_ne_true hfresh.symm
  have hnodup : targets.Nodup :=
    Multiset.nodup_of_le htargets (List.nodup_cons.mpr ⟨hnearest, hvis.nodup⟩)
  have hpresent : ∀ t ∈ targets, P level t := by
    intro t ht
    rcases Multiset.mem_cons.mp (Multiset.mem_of_le htargets (Multiset.mem_coe.mpr ht)) with rfl | ht
    · exact hnear
    · exact hmet t ht
  have hother : ∀ t ∈ targets, t ≠ ptId := fun t ht heq ↦ hnew (heq ▸ hpresent t ht)
  have hnext := h.mono (fun l v hv ↦ Or.inl hv) (Q := fun l v ↦ P l v ∨ l = level ∧ v = ptId)
    fun l v hv ↦ by
      rcases hv with hv | ⟨rfl, rfl⟩
      · exact h.lt l v hv
      · exact ⟨hpt, hl⟩
  have hnodup' : (targets.map (fun t ↦ (ptId, t)) ++ targets.map fun t ↦ (t, ptId)).Nodup := by
    refine List.nodup_append.mpr ⟨hnodup.map fun t t' heq ↦ (Prod.mk.inj heq).2,
      hnodup.map fun t t' heq ↦ (Prod.mk.inj heq).1, fun x hx y hy heq ↦ ?_⟩
    obtain ⟨t, -, rfl⟩ := List.mem_map.mp hx
    obtain ⟨t', ht', rfl⟩ := List.mem_map.mp hy
    exact hother t' ht' (Prod.mk.inj heq).1.symm
  have hlinks := hnext.foldl_addLink ptdis.symmetricDis keepMaxSizeLevel0 _ hnodup'
    fun x hx ↦ by
      rcases List.mem_append.mp hx with hx | hx
      · obtain ⟨t, ht, rfl⟩ := List.mem_map.mp hx
        refine ⟨Or.inr ⟨rfl, rfl⟩, Or.inl (hpresent t ht), (hother t ht).symm, fun hmem ↦ ?_⟩
        exact hnew ((h.list ptId hpt level hl).owner (List.ne_nil_of_mem hmem))
      · obtain ⟨t, ht, rfl⟩ := List.mem_map.mp hx
        obtain ⟨hlt, hlevel⟩ := h.lt level t (hpresent t ht)
        refine ⟨Or.inl (hpresent t ht), Or.inr ⟨rfl, rfl⟩, hother t ht, fun hmem ↦ ?_⟩
        exact hnew ((h.list t hlt level hlevel).present ptId hmem)
  rw [List.foldl_append, List.foldl_map, List.foldl_map] at hlinks
  exact ⟨_, _, rfl, hlinks⟩

/-- Linking a vertex on several levels, one after the other. -/
theorem Linked.foldlM_addLinks (h : Linked g P) (ptdis : DistanceComputer) (efConstruction : ℕ)
    (dNearest : F32) (vt : VisitedTable) (keepMaxSizeLevel0 : Bool) (hpt : ptId < g.ntotal)
    {levels : List ℕ} (hnodup : levels.Nodup)
    (hlevels : ∀ l ∈ levels, P l nearest ∧ l < g.level ptId ∧ ¬P l ptId) :
    ∃ g' vt', levels.foldlM
        (fun s level ↦ s.1.addLinksStartingFrom ptdis efConstruction ptId nearest dNearest level s.2
          keepMaxSizeLevel0) (g, vt) = some (g', vt') ∧
      Linked g' (fun l v ↦ P l v ∨ l ∈ levels ∧ v = ptId) ∧ Rewired g g' := by
  induction levels generalizing g vt P with
  | nil =>
      exact ⟨g, vt, rfl, h.mono (fun l v hv ↦ Or.inl hv) fun l v hv ↦
        hv.elim (h.lt l v) fun hv ↦ absurd hv.1 List.not_mem_nil, Rewired.refl g⟩
  | cons level levels ih =>
      obtain ⟨hlevel, hnodup'⟩ := List.nodup_cons.mp hnodup
      obtain ⟨hnear, hl, hnew⟩ := hlevels level List.mem_cons_self
      obtain ⟨g₁, vt₁, hstep, h₁, hrewired⟩ := h.addLinksStartingFrom ptdis efConstruction dNearest
        vt keepMaxSizeLevel0 hnear hpt hl hnew
      obtain ⟨neighbors, rfl⟩ := hrewired
      obtain ⟨g₂, vt₂, hrun, h₂, hrewired'⟩ := ih h₁ vt₁ hpt hnodup' fun l hmem ↦ by
        obtain ⟨hnear', hl', hnew'⟩ := hlevels l (List.mem_cons_of_mem _ hmem)
        refine ⟨Or.inl hnear', hl', fun hor ↦ ?_⟩
        rcases hor with hold | ⟨rfl, -⟩
        · exact hnew' hold
        · exact hlevel hmem
      refine ⟨g₂, vt₂, ?_, h₂.mono (fun l v hv ↦ ?_) fun l v hv ↦ h₂.lt l v ?_,
        Rewired.trans ⟨neighbors, rfl⟩ hrewired'⟩
      · rw [List.foldlM_cons, hstep]
        exact hrun
      · rcases hv with (hv | ⟨rfl, rfl⟩) | ⟨hmem, rfl⟩
        · exact Or.inl hv
        · exact Or.inr ⟨List.mem_cons_self, rfl⟩
        · exact Or.inr ⟨List.mem_cons_of_mem _ hmem, rfl⟩
      · rcases hv with hv | ⟨hmem, rfl⟩
        · exact Or.inl (Or.inl hv)
        · rcases List.mem_cons.mp hmem with rfl | hmem
          · exact Or.inl (Or.inr ⟨rfl, rfl⟩)
          · exact Or.inr ⟨hmem, rfl⟩

/-! ## The descent to the level of the vertex -/

theorem mem_downTo {hi : ℤ} {lo l : ℕ} : l ∈ downTo hi lo ↔ lo ≤ l ∧ (l : ℤ) ≤ hi := by
  rw [downTo, List.mem_reverse, List.mem_range'_1]
  omega

theorem nodup_downTo (hi : ℤ) (lo : ℕ) : (downTo hi lo).Nodup :=
  List.nodup_reverse.mpr List.nodup_range'

/-- A greedy walk stays among the vertices whose neighbours are among them. -/
theorem greedyUpdateNearest_mem {Q : ℕ → Prop} {qdis : ℕ → F32}
    (hQ : ∀ u, Q u → ∀ v ∈ g.neighborList u level, Q v) (s : Nearest) (stats : HNSWStats)
    (hs : Q s.nearest) : Q (g.greedyUpdateNearest qdis level s stats).1.nearest := by
  have hpass : ∀ s : Nearest, Q s.nearest → Q (g.greedyPass qdis level s).nearest := by
    intro s hs
    rcases g.greedyPass_cases qdis level s with h | ⟨v, hv, h, -⟩
    · rw [h]; exact hs
    · rw [h]; exact hQ _ hs v hv
  induction s, stats using HNSW.greedyUpdateNearest.induct g qdis level with
  | case1 s stats heq =>
      rw [HNSW.greedyUpdateNearest]
      simp only [heq, if_true]
      exact hs
  | case2 s stats _ hne ih =>
      rw [HNSW.greedyUpdateNearest]
      simp only [hne, if_false]
      exact ih (hpass s hs)

/-! ## The vertices that are inserted -/

/-- The vertices of `ins` are inserted: they are linked with each other on their levels, and the
entry point is one of the highest of them. -/
structure Inserted (g : HNSW) (ins : ℕ → Prop) : Prop where
  linked : Linked g fun l v ↦ ins v ∧ v < g.ntotal ∧ l < g.level v
  lt : ∀ v, ins v → v < g.ntotal
  entry : (g.entryPoint = -1 ∧ g.maxLevel = -1 ∧ ∀ v, ¬ins v) ∨
    ∃ e : ℕ, g.entryPoint = e ∧ ins e ∧ (g.level e : ℤ) = g.maxLevel + 1
  level_le : ∀ v, ins v → (g.level v : ℤ) ≤ g.maxLevel + 1

variable {ins : ℕ → Prop}

/-- The walks on the upper levels end at an inserted vertex that is on the level below them. -/
theorem Inserted.descend (h : Inserted g ins) (qdis : ℕ → F32) (lo n : ℕ) (s : Nearest)
    (hs : ins s.nearest) (hlevel : lo + n ≤ g.level s.nearest) :
    ins ((List.range' lo n).reverse.foldl
        (fun s level ↦ (g.greedyUpdateNearest qdis level s {}).1) s).nearest ∧
      lo ≤ g.level ((List.range' lo n).reverse.foldl
        (fun s level ↦ (g.greedyUpdateNearest qdis level s {}).1) s).nearest := by
  induction n generalizing s with
  | zero => exact ⟨hs, hlevel⟩
  | succ n ih =>
      have hstep : ins (g.greedyUpdateNearest qdis (lo + n) s {}).1.nearest ∧
          lo + n < g.level (g.greedyUpdateNearest qdis (lo + n) s {}).1.nearest :=
        greedyUpdateNearest_mem (Q := fun v ↦ ins v ∧ lo + n < g.level v)
          (fun u hu v hv ↦
            let hlist := h.linked.list u (h.lt u hu.1) (lo + n) hu.2
            ⟨(hlist.present v hv).1, (hlist.present v hv).2.2⟩) s {} ⟨hs, hlevel⟩
      rw [List.range'_1_concat, List.reverse_append, List.reverse_singleton, List.singleton_append,
        List.foldl_cons]
      exact ih _ hstep.1 hstep.2.le

theorem Inserted.descend_downTo (h : Inserted g ins) (qdis : ℕ → F32) (ptLevel : ℕ) (s : Nearest)
    (hs : ins s.nearest) (hmax : (g.level s.nearest : ℤ) = g.maxLevel + 1) :
    ins ((downTo g.maxLevel (ptLevel + 1)).foldl
        (fun s level ↦ (g.greedyUpdateNearest qdis level s {}).1) s).nearest ∧
      ∀ l : ℕ, (l : ℤ) ≤ min g.maxLevel ptLevel →
        l < g.level ((downTo g.maxLevel (ptLevel + 1)).foldl
          (fun s level ↦ (g.greedyUpdateNearest qdis level s {}).1) s).nearest := by
  by_cases hlow : g.maxLevel < ptLevel
  · have hnil : downTo g.maxLevel (ptLevel + 1) = [] := by
      rw [downTo, Int.toNat_of_nonpos (by omega)]
      rfl
    rw [hnil]
    exact ⟨hs, fun l hl ↦ by rw [List.foldl_nil]; omega⟩
  · obtain ⟨hnear, hon⟩ := h.descend qdis (ptLevel + 1)
      (g.maxLevel + 1 - (ptLevel + 1 : ℕ)).toNat s hs (by omega)
    exact ⟨hnear, fun l hl ↦ lt_of_lt_of_le (by omega) hon⟩

/-- The tables that an insertion leaves alone. -/
structure SameLevels (g g' : HNSW) : Prop where
  levels : g'.levels = g.levels
  offsets : g'.offsets = g.offsets
  cum : g'.cumNneighborPerLevel = g.cumNneighborPerLevel

theorem SameLevels.refl (g : HNSW) : SameLevels g g := ⟨rfl, rfl, rfl⟩

theorem SameLevels.trans {g' g'' : HNSW} (h : SameLevels g g') (h' : SameLevels g' g'') :
    SameLevels g g'' :=
  ⟨h'.levels.trans h.levels, h'.offsets.trans h.offsets, h'.cum.trans h.cum⟩

theorem Linked.setEntry (h : Linked g P) (maxLevel entryPoint : ℤ) :
    Linked { g with maxLevel, entryPoint } P :=
  ⟨⟨h.layout.offsets_length, h.layout.offsets_succ, h.layout.neighbors_length, h.layout.room,
    h.layout.level_pos, h.layout.level_lt⟩, h.lt, h.padded, h.list⟩

/-- Inserting a vertex. -/
theorem Inserted.addWithLocks (h : Inserted g ins) (ptdis : DistanceComputer) (efConstruction : ℕ)
    {ptLevel : ℕ} (vt : VisitedTable) (keepMaxSizeLevel0 : Bool) (hpt : ptId < g.ntotal)
    (hlevel : g.level ptId = ptLevel + 1) (hnew : ¬ins ptId) :
    ∃ g' vt', g.addWithLocks ptdis efConstruction ptLevel ptId vt keepMaxSizeLevel0 =
        some (g', vt') ∧ Inserted g' (fun v ↦ ins v ∨ v = ptId) ∧ SameLevels g g' := by
  have hlt : ∀ v, ins v ∨ v = ptId → v < g.ntotal := by
    rintro v (hv | rfl)
    · exact h.lt v hv
    · exact hpt
  rw [HNSW.addWithLocks]
  rcases h.entry with ⟨hentry, hmax, hnone⟩ | ⟨e, hentry, he, hemax⟩
  · rw [if_pos (by omega), if_pos hentry]
    refine ⟨_, _, rfl, ⟨(h.linked.mono ?_ ?_).setEntry _ _, hlt, Or.inr ⟨ptId, rfl, Or.inr rfl, ?_⟩,
      fun v hv ↦ ?_⟩, ⟨rfl, rfl, rfl⟩⟩
    · exact fun l v hv ↦ ⟨Or.inl hv.1, hv.2⟩
    · exact fun l v hv ↦ hv.2
    · change (g.level ptId : ℤ) = ptLevel + 1
      rw [hlevel]
      exact Int.natCast_succ ptLevel
    · rcases hv with hv | rfl
      · exact absurd hv (hnone v)
      · change (g.level v : ℤ) ≤ ptLevel + 1
        rw [hlevel]
        exact (Int.natCast_succ ptLevel).le
  · obtain ⟨hnear, hon⟩ := h.descend_downTo ptdis.dis ptLevel ⟨e, ptdis.dis e⟩ he hemax
    rw [if_neg (by omega), hentry, Int.toNat_natCast]
    dsimp only
    generalize (downTo g.maxLevel (ptLevel + 1)).foldl
      (fun s level ↦ (g.greedyUpdateNearest ptdis.dis level s {}).1) ⟨e, ptdis.dis e⟩ = near
      at hnear hon ⊢
    obtain ⟨g', vt', hrun, hlinked, neighbors, rfl⟩ := h.linked.foldlM_addLinks ptdis efConstruction
      near.dNearest vt keepMaxSizeLevel0 hpt (nodup_downTo (min g.maxLevel ptLevel) 0)
      fun l hl ↦ ⟨⟨hnear, h.lt _ hnear, hon l (mem_downTo.mp hl).2⟩,
        by rw [hlevel]; have := (mem_downTo.mp hl).2; omega, fun hP ↦ hnew hP.1⟩
    rw [hrun]
    have hlinked' := hlinked.mono
      (Q := fun l v ↦ (ins v ∨ v = ptId) ∧ v < g.ntotal ∧ l < g.level v) (fun l v hv ↦ ?_)
      fun l v hv ↦ hv.2
    · dsimp only [Option.bind_eq_bind, Option.bind_some]
      split
      · next hhigh =>
        refine ⟨_, _, rfl, ⟨hlinked'.setEntry _ _, hlt, Or.inr ⟨ptId, rfl, Or.inr rfl, ?_⟩,
          fun v hv ↦ ?_⟩, ⟨rfl, rfl, rfl⟩⟩
        · change (g.level ptId : ℤ) = ptLevel + 1
          rw [hlevel]
          exact Int.natCast_succ ptLevel
        · change (g.level v : ℤ) ≤ ptLevel + 1
          rcases hv with hv | rfl
          · have := h.level_le v hv
            change g.maxLevel < ptLevel at hhigh
            omega
          · rw [hlevel]
            exact (Int.natCast_succ ptLevel).le
      · next hhigh =>
        refine ⟨_, _, rfl, ⟨hlinked', hlt, Or.inr ⟨e, hentry, Or.inl he, hemax⟩, fun v hv ↦ ?_⟩,
          ⟨rfl, rfl, rfl⟩⟩
        change (g.level v : ℤ) ≤ g.maxLevel + 1
        rcases hv with hv | rfl
        · exact h.level_le v hv
        · rw [hlevel]
          change ¬g.maxLevel < ptLevel at hhigh
          omega
    · rcases hv with ⟨hv, hv'⟩ | ⟨hl, rfl⟩
      · exact ⟨Or.inl hv, hv'⟩
      · refine ⟨Or.inr rfl, hpt, ?_⟩
        rw [hlevel]
        have := (mem_downTo.mp hl).2
        omega

end FaissNavix
