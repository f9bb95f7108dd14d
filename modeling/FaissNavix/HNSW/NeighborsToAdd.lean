import FaissNavix.HNSW.Navix

/-!
# The vertices to link to

`search_neighbors_to_add` of `faiss/impl/HNSW.cpp`, with which an insertion looks for the
neighbours of the new vertex on one level.  Its last argument chooses between the loop over the
neighbours that it is used with, which computes four distances at a time, and a reference version
of that loop, which computes them one by one.

The search is handed the queue it adds to and its visited table and returns them; as in the other
searches, the number of turns of the outer loop is bounded.
-/

namespace FaissNavix

open Lib
open Lib.PriorityQueue (pop top pop_perm)

/-- `NodeDistCloser`: the farthest one is on top. -/
def closer (a b : Node) : Bool := decide (a.1 < b.1)

/-- `results.top().d > dis` -/
def topFarther (results : List Node) (dis : F32) : Bool :=
  match top closer results with
  | none => false
  | some t => decide (dis < t.1)

/-- The two queues that the neighbours of a vertex are added to. -/
structure Targets where
  results : List Node
  candidates : List Node

/-- `update_with_candidate`, which is also the body of the reference version. -/
def Targets.updateWithCandidate (efConstruction : ℕ) (s : Targets) (idx : ℕ) (dis : F32) :
    Targets :=
  if s.results.length < efConstruction ∨ topFarther s.results dis then
    let results := (dis, idx) :: s.results
    { candidates := (dis, idx) :: s.candidates
      results := if efConstruction < results.length then
          match pop closer results with
          | none => results
          | some (_, results) => results
        else results }
  else s

/-- A neighbour is left out if it was visited, and marked otherwise. -/
def enterUnvisited (vt : VisitedTable) (nodeId : ℕ) : Bool × VisitedTable :=
  if vt.get nodeId then (false, vt) else (true, vt.set nodeId)

/-- The variables of the loop of `search_neighbors_to_add`. -/
structure TargetLoop extends Targets where
  vt : VisitedTable

namespace HNSW

variable (g : HNSW) (qdis : ℕ → F32)

def entries (no layerNo : ℕ) : List ℤ :=
  let r := g.neighborRange no layerNo
  (List.range' r.1 (r.2 - r.1)).map fun j ↦ g.neighbors.getD j (-1)

/-- The body of the reference version. -/
def targetStep (efConstruction : ℕ) (s : TargetLoop) (nodeId : ℤ) : TargetLoop :=
  if s.vt.get nodeId.toNat then s
  else
    { toTargets := s.updateWithCandidate efConstruction nodeId.toNat (qdis nodeId.toNat)
      vt := s.vt.set nodeId.toNat }

/-- The loop over the neighbours of `currNode`. -/
def expandTarget (efConstruction level currNode : ℕ) (referenceVersion : Bool) (s : TargetLoop) :
    TargetLoop :=
  if referenceVersion then
    forUntil (fun nodeId ↦ decide (nodeId < 0)) (targetStep qdis efConstruction)
      (g.entries currNode level) s
  else
    let r := buffered 4 enterUnvisited
      (fun s buf ↦ (buf.map fun v ↦ (v, qdis v)).foldl
        (fun s p ↦ s.updateWithCandidate efConstruction p.1 p.2) s)
      (fun s v ↦ s.updateWithCandidate efConstruction v (qdis v))
      (g.neighborList currNode level) [] s.vt s.toTargets
    { toTargets := r.2, vt := r.1 }

/-- One turn of the loop. -/
def targetTurn (efConstruction level : ℕ) (referenceVersion : Bool) (s : TargetLoop) :
    Turn TargetLoop :=
  match pop farther s.candidates with
  | none => .done s
  | some ((d, currNode), candidates) =>
    match top closer s.results with
    | none => .done s
    | some t =>
      if t.1 < d then .done s
      else .next (g.expandTarget qdis efConstruction level currNode referenceVersion
        { s with candidates })

/-- `search_neighbors_to_add`: the queue and the visited table. -/
def searchNeighborsToAdd (efConstruction : ℕ) (results : List Node) (entryPoint : ℕ)
    (dEntryPoint : F32) (level : ℕ) (vt : VisitedTable) (referenceVersion : Bool) :
    Option (List Node × VisitedTable) := do
  let s ← iterate (g.targetTurn qdis efConstruction level referenceVersion) (g.ntotal + 2)
    { results := (dEntryPoint, entryPoint) :: results
      candidates := [(dEntryPoint, entryPoint)]
      vt := vt.set entryPoint }
  return (s.results, s.vt.advance)

end HNSW

/-! ## What the search finds

Every vertex that gets into the queues was not visited before, so that none is found twice, and the
number of vertices that wait or are not visited gets smaller with every turn.  Here `P` holds of
the start and of all neighbours of the vertices it holds of. -/

variable {g : HNSW} {qdis : ℕ → F32} {efConstruction level : ℕ}

theorem enterUnvisited_eq : enterUnvisited = enterFresh := by
  funext vt v
  rw [enterUnvisited, enterFresh]
  cases h : vt.get v with
  | false => rfl
  | true => rw [VisitedTable.set_of_get h]; rfl

def nodeIds (q : List Node) : Multiset ℕ := ↑(q.map Prod.snd)

theorem nodeIds_pop_le {lt : Node → Node → Bool} {q q' : List Node} {x : Node}
    (h : pop lt q = some (x, q')) : nodeIds q' ≤ nodeIds q := by
  rw [nodeIds, nodeIds, Multiset.coe_eq_coe.mpr ((pop_perm h).map Prod.snd), List.map_cons]
  exact Multiset.le_cons_self _ _

theorem Targets.updateWithCandidate_spec (efConstruction : ℕ) (s : Targets) (v : ℕ) (d : F32) :
    nodeIds (s.updateWithCandidate efConstruction v d).results ≤ v ::ₘ nodeIds s.results ∧
      ((s.updateWithCandidate efConstruction v d).candidates = s.candidates ∨
        (s.updateWithCandidate efConstruction v d).candidates = (d, v) :: s.candidates) := by
  have hpush : nodeIds ((d, v) :: s.results) ≤ v ::ₘ nodeIds s.results := le_rfl
  rw [updateWithCandidate]
  split
  · refine ⟨?_, Or.inr rfl⟩
    dsimp only
    split
    · split
      · exact hpush
      · next hpop => exact (nodeIds_pop_le hpop).trans hpush
    · exact hpush
  · exact ⟨Multiset.le_cons_self _ _, Or.inl rfl⟩

theorem Targets.foldl_updateWithCandidate (qdis : ℕ → F32) (efConstruction : ℕ) (l : List ℕ) (s : Targets) :
    nodeIds (l.foldl (fun s v ↦ s.updateWithCandidate efConstruction v (qdis v)) s).results ≤
        ↑l + nodeIds s.results ∧
      (l.foldl (fun s v ↦ s.updateWithCandidate efConstruction v (qdis v)) s).candidates.length ≤
        l.length + s.candidates.length ∧
      ∀ x ∈ (l.foldl (fun s v ↦ s.updateWithCandidate efConstruction v (qdis v)) s).candidates,
        x ∈ s.candidates ∨ x.2 ∈ l := by
  induction l generalizing s with
  | nil => exact ⟨by simp, by simp, fun x hx ↦ Or.inl hx⟩
  | cons v l ih =>
      obtain ⟨hres, hcand⟩ := s.updateWithCandidate_spec efConstruction v (qdis v)
      obtain ⟨ihres, ihlen, ihmem⟩ := ih (s.updateWithCandidate efConstruction v (qdis v))
      rw [List.foldl_cons]
      refine ⟨ihres.trans ?_, ihlen.trans ?_, fun x hx ↦ ?_⟩
      · rw [← Multiset.cons_coe, Multiset.cons_add, ← Multiset.add_cons]
        exact add_le_add le_rfl hres
      · rcases hcand with h | h <;> rw [h] <;> simp only [List.length_cons] <;> omega
      · rcases ihmem x hx with hx | hx
        · rcases hcand with h | h
          · exact Or.inl (h ▸ hx)
          · rw [h] at hx
            rcases List.mem_cons.mp hx with rfl | hx
            · exact Or.inr List.mem_cons_self
            · exact Or.inl hx
        · exact Or.inr (List.mem_cons_of_mem _ hx)

theorem expandTarget_eq (currNode : ℕ) (s : TargetLoop) :
    g.expandTarget qdis efConstruction level currNode false s =
      { toTargets := (entered enterFresh (g.neighborList currNode level) s.vt).2.foldl
          (fun s v ↦ s.updateWithCandidate efConstruction v (qdis v)) s.toTargets
        vt := (entered enterFresh (g.neighborList currNode level) s.vt).1 } := by
  have hfull : ∀ (t : Targets) (buf : List ℕ), buf.length = 4 →
      (buf.map fun v ↦ (v, qdis v)).foldl
          (fun s p ↦ s.updateWithCandidate efConstruction p.1 p.2) t =
        buf.foldl (fun s v ↦ s.updateWithCandidate efConstruction v (qdis v)) t :=
    fun t buf _ ↦ List.foldl_map
  rw [HNSW.expandTarget, if_neg Bool.false_ne_true, buffered_eq hfull, enterUnvisited_eq,
    List.nil_append]

/-- The state of the search after it has marked the vertices of `met`. -/
structure TargetLoop.Finds (P : ℕ → Prop) (vt₀ : VisitedTable) (start : Multiset ℕ)
    (s : TargetLoop) (met : List ℕ) : Prop where
  visits : Visits (fun _ ↦ true) vt₀ s.vt met
  results_le : nodeIds s.results ≤ ↑met + start
  met : ∀ v ∈ met, P v
  candidates : ∀ x ∈ s.candidates, P x.2

/-- The vertices that wait or are not visited. -/
def TargetLoop.left (g : HNSW) (s : TargetLoop) : ℕ :=
  s.candidates.length + unvisited (fun _ ↦ true) g.ntotal s.vt

variable {P : ℕ → Prop} {vt₀ : VisitedTable} {start : Multiset ℕ} {s : TargetLoop} {met : List ℕ}

/-- Expanding a vertex whose neighbours are in the graph. -/
theorem TargetLoop.Finds.expand (qdis : ℕ → F32) (efConstruction : ℕ)
    (h : s.Finds P vt₀ start met) {u : ℕ}
    (hu : ∀ v ∈ g.neighborList u level, P v ∧ v < g.ntotal) :
    (∃ met', (g.expandTarget qdis efConstruction level u false s).Finds P vt₀ start met') ∧
      (g.expandTarget qdis efConstruction level u false s).left g ≤ s.left g := by
  obtain ⟨hvis, -, hsub⟩ := visits_entered (g.neighborList u level) s.vt
  rw [expandTarget_eq]
  generalize entered enterFresh (g.neighborList u level) s.vt = r at hvis hsub ⊢
  obtain ⟨hres, hlen, hmem⟩ := Targets.foldl_updateWithCandidate qdis efConstruction r.2 s.toTargets
  refine ⟨⟨met ++ r.2, h.visits.append hvis, hres.trans ?_, ?_, ?_⟩, ?_⟩
  · rw [← Multiset.coe_add, add_comm (met : Multiset ℕ), add_assoc]
    exact add_le_add le_rfl h.results_le
  · intro v hv
    rcases List.mem_append.mp hv with hv | hv
    · exact h.met v hv
    · exact (hu v (hsub v hv)).1
  · intro x hx
    rcases hmem x hx with hx | hx
    · exact h.candidates x hx
    · exact (hu _ (hsub _ hx)).1
  · have hleft := hvis.unvisited_add_length fun v hv ↦ (hu v (hsub v hv)).2
    rw [left, left, ← hleft]
    dsimp only
    omega

theorem TargetLoop.Finds.turn (h : s.Finds P vt₀ start met)
    (hP : ∀ u, P u → ∀ v ∈ g.neighborList u level, P v ∧ v < g.ntotal) :
    g.targetTurn qdis efConstruction level false s = .done s ∨
      ∃ s', g.targetTurn qdis efConstruction level false s = .next s' ∧
        (∃ met', s'.Finds P vt₀ start met') ∧ s'.left g < s.left g := by
  rw [HNSW.targetTurn]
  split
  · exact Or.inl rfl
  · next d u candidates hpop =>
      have hperm := pop_perm hpop
      have hmem : ∀ x ∈ candidates, x ∈ s.candidates :=
        fun x hx ↦ hperm.mem_iff.mpr (List.mem_cons_of_mem _ hx)
      have hpopped : ({ s with candidates } : TargetLoop).Finds P vt₀ start met :=
        { h with candidates := fun x hx ↦ h.candidates x (hmem x hx) }
      obtain ⟨hmet', hleft⟩ := hpopped.expand qdis efConstruction
        (hP u (h.candidates _ (hperm.mem_iff.mpr List.mem_cons_self)))
      split
      · exact Or.inl rfl
      · split
        · exact Or.inl rfl
        · refine Or.inr ⟨_, rfl, hmet', hleft.trans_lt ?_⟩
          rw [left, left, hperm.length_eq, List.length_cons]
          dsimp only
          omega

/-- The search ends, and finds vertices with `P` each of which it has marked. -/
theorem searchNeighborsToAdd_spec (qdis : ℕ → F32) (efConstruction : ℕ) {P : ℕ → Prop}
    (hP : ∀ u, P u → ∀ v ∈ g.neighborList u level, P v ∧ v < g.ntotal) (results : List Node)
    {e : ℕ} (he : P e) (d : F32) (vt : VisitedTable) :
    ∃ results' met vt', g.searchNeighborsToAdd qdis efConstruction results e d level vt false =
        some (results', vt'.advance) ∧ Visits (fun _ ↦ true) (vt.set e) vt' met ∧
      nodeIds results' ≤ ↑met + e ::ₘ nodeIds results ∧ ∀ v ∈ met, P v := by
  have hstart : ({ results := (d, e) :: results, candidates := [(d, e)], vt := vt.set e } :
      TargetLoop).Finds P (vt.set e) (e ::ₘ nodeIds results) [] :=
    { visits := Visits.refl _ _
      results_le := (zero_add _).ge
      met := fun v hv ↦ absurd hv List.not_mem_nil
      candidates := fun x hx ↦ by rw [List.mem_singleton.mp hx]; exact he }
  have hturn : ∀ s : TargetLoop, (∃ met, s.Finds P (vt.set e) (e ::ₘ nodeIds results) met) →
      (∃ s', g.targetTurn qdis efConstruction level false s = .done s' ∧
        ∃ met, s'.Finds P (vt.set e) (e ::ₘ nodeIds results) met) ∨
      ∃ s', g.targetTurn qdis efConstruction level false s = .next s' ∧
        (∃ met, s'.Finds P (vt.set e) (e ::ₘ nodeIds results) met) ∧ s'.left g < s.left g :=
    fun s ⟨met, h⟩ ↦ (h.turn hP).imp (fun hdone ↦ ⟨s, hdone, met, h⟩) id
  have hle := unvisited_le (fun _ ↦ true) g.ntotal (vt.set e)
  obtain ⟨s, hs, met, h⟩ := iterate_total (TargetLoop.left g) hturn (g.ntotal + 2) _ ⟨[], hstart⟩
    (by rw [TargetLoop.left, List.length_singleton]; dsimp only; omega)
  refine ⟨s.results, met, s.vt, ?_, h.visits, h.results_le, h.met⟩
  rw [HNSW.searchNeighborsToAdd, hs]
  rfl

end FaissNavix
