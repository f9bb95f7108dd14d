import FaissNavix.HNSW.Greedy
import FaissNavix.HNSW.MinimaxHeap
import FaissNavix.Lib.Loop
import FaissNavix.ResultHandler

/-!
# The table of visited vertices

`VisitedTable` of `faiss/impl/AuxIndexStructures.h`: a byte for every vertex, compared with a
generation number that `advance` increments, so that clearing the flags usually writes nothing.
The bytes are erased only when the generation number wraps.
-/

namespace FaissNavix

open Function

structure VisitedTable where
  size : ℕ
  visited : ℕ → UInt8
  visno : UInt8

namespace VisitedTable

section
variable (vt : VisitedTable) (size n : ℕ)

/-- The constructor: all bytes zero. -/
def new : VisitedTable := { size, visited := fun _ ↦ 0, visno := 1 }

/-- set flag #no to true -/
def set (no : ℕ) : VisitedTable :=
  { vt with visited := update vt.visited no vt.visno }

/-- get flag #no -/
def get (no : ℕ) : Bool := vt.visited no == vt.visno

/-- reset all flags to false -/
def advance : VisitedTable :=
  if vt.visno + 1 = 250 then
    { vt with visited := fun i ↦ if i < vt.size then 0 else vt.visited i, visno := 1 }
  else { vt with visno := vt.visno + 1 }

@[simp] theorem get_set_self (no : ℕ) : (vt.set no).get no = true := by
  simp [set, get]

theorem get_set_of_ne {no v : ℕ} (h : v ≠ no) :
    (vt.set no).get v = vt.get v := by
  simp [set, get, update_of_ne h]

theorem get_set (no v : ℕ) :
    (vt.set no).get v = true ↔ v = no ∨ vt.get v = true := by
  by_cases h : v = no
  · subst h; simp
  · simp [get_set_of_ne vt h, h]

theorem get_set_of_get (no : ℕ) {v : ℕ} (h : vt.get v = true) :
    (vt.set no).get v = true :=
  (get_set vt no v).mpr (Or.inr h)

/-- No flag of a vertex below `n` is set. -/
def Clean : Prop := ∀ v < n, vt.get v = false

theorem clean_new : (new size).Clean n := fun _ _ ↦ rfl

end

/-- The bytes never exceed the generation number, which `advance` relies on. -/
structure Valid (vt : VisitedTable) : Prop where
  visno_pos : 1 ≤ vt.visno
  visno_lt : vt.visno < 250
  visited_le : ∀ v < vt.size, vt.visited v ≤ vt.visno

theorem valid_new (size : ℕ) : (new size).Valid where
  visno_pos := show (1 : UInt8) ≤ 1 by decide
  visno_lt := show (1 : UInt8) < 250 by decide
  visited_le := fun _ _ ↦ by change (0 : UInt8) ≤ 1; decide

theorem Valid.set {vt : VisitedTable} (h : vt.Valid) (no : ℕ) : (vt.set no).Valid where
  visno_pos := h.visno_pos
  visno_lt := h.visno_lt
  visited_le v hv := by
    by_cases hvn : v = no
    · subst hvn; simp [VisitedTable.set]
    · simpa [VisitedTable.set, update_of_ne hvn] using h.visited_le v hv

theorem Valid.visno_succ {vt : VisitedTable} (h : vt.Valid) : vt.visno < vt.visno + 1 := by
  have h1 := h.visno_lt
  rw [UInt8.lt_iff_toNat_lt] at h1 ⊢
  rw [UInt8.toNat_add]
  have : (250 : UInt8).toNat = 250 := rfl
  have : (1 : UInt8).toNat = 1 := rfl
  omega

theorem Valid.advance {vt : VisitedTable} (h : vt.Valid) : vt.advance.Valid := by
  have hs := h.visno_succ
  unfold VisitedTable.advance
  split
  · exact ⟨show (1 : UInt8) ≤ 1 by decide, show (1 : UInt8) < 250 by decide, fun v hv ↦ by
      change (if v < vt.size then (0 : UInt8) else vt.visited v) ≤ 1
      rw [if_pos hv]; decide⟩
  · rename_i hne
    refine ⟨?_, ?_, fun v hv ↦ ?_⟩
    · exact UInt8.le_trans h.visno_pos (UInt8.le_of_lt hs)
    · have h1 := h.visno_lt
      have h2 : (vt.visno + 1).toNat ≠ 250 := fun hc ↦ hne (UInt8.toNat_inj.mp hc)
      change vt.visno + 1 < 250
      rw [UInt8.lt_iff_toNat_lt] at h1 ⊢
      have h3 : (250 : UInt8).toNat = 250 := rfl
      have h4 : (1 : UInt8).toNat = 1 := rfl
      rw [UInt8.toNat_add] at h2 ⊢
      omega
    · exact UInt8.le_trans (h.visited_le v hv) (UInt8.le_of_lt hs)

theorem Valid.clean_advance {vt : VisitedTable} (h : vt.Valid) : vt.advance.Clean vt.size := by
  intro v hv
  have hs := h.visno_succ
  unfold VisitedTable.advance
  split
  · simp [get, hv]
  · have hle := h.visited_le v hv
    have hne : vt.visited v ≠ vt.visno + 1 := fun hc ↦ by
      rw [hc] at hle
      exact absurd (UInt8.lt_of_lt_of_le hs hle) (UInt8.lt_irrefl _)
    simpa [get] using hne

theorem size_advance (vt : VisitedTable) : vt.advance.size = vt.size := by
  unfold advance
  split <;> rfl

end VisitedTable

end FaissNavix

/-!
# Searching the graph

`HNSW::search` of `faiss/impl/HNSW.cpp` with its two traversals of level 0:
`search_from_candidates`, whose candidates are a bounded heap, and
`search_from_candidate_unbounded`, which keeps the best vertices and the candidates in two priority
queues.  Both read the neighbours of a vertex through a buffer of four.

A search is handed its result handler and its visited table and returns them; the bound on the
number of turns of the outer loop is the number of vertices, and a search that needs more turns has
no result.
-/

namespace FaissNavix

open Lib (Turn buffered iterate)
open Lib.PriorityQueue (pop top shrink drain)
open ResultHandler (threshold addResult heapK)

/-- The fields that `SearchParametersHNSW` adds. -/
structure SearchParametersHNSW where
  efSearch : ℕ
  checkRelativeDistance : Bool
  boundedQueue : Bool

/-- `SearchParameters`; `hnsw` is what the `dynamic_cast` to `SearchParametersHNSW` finds. -/
structure SearchParameters where
  sel : Option (ℤ → Bool)
  hnsw : Option SearchParametersHNSW

/-- `!sel || sel->is_member(v)` -/
def isSelected (sel : Option (ℤ → Bool)) (v : ℕ) : Bool :=
  match sel with
  | none => true
  | some isMember => isMember v

namespace HNSW

/-- The overrides at the start of the searches: a parameter is taken from `params` if these are
parameters for an HNSW index. -/
def override {α : Type} (params : Option SearchParameters) (f : SearchParametersHNSW → α)
    (default : α) : α :=
  match params.bind (·.hnsw) with
  | some p => f p
  | none => default

variable (g : HNSW) (qdis : ℕ → F32)

variable (params : Option SearchParameters)

def efSearchOf : ℕ := override params (·.efSearch) g.efSearch

def doDisCheckOf : Bool :=
  override params (·.checkRelativeDistance) g.checkRelativeDistance

def boundedQueueOf : Bool :=
  override params (·.boundedQueue) g.searchBoundedQueue

def selOf : Option (ℤ → Bool) := params.bind (·.sel)

end HNSW

/-- `vget = vt.get(v1); vt.set(v1)`: a neighbour enters the buffer if it was not visited. -/
def enterFresh (vt : VisitedTable) (v1 : ℕ) : Bool × VisitedTable := (!vt.get v1, vt.set v1)

/-! ## The bounded queue -/

/-- What the neighbours of a candidate are added to. -/
structure Collected (H : Type) where
  off : Offering H
  candidates : MinimaxHeap
  ndis : ℕ

variable {H : Type} [ResultHandler H]

section
variable (sel : Option (ℤ → Bool)) (qdis : ℕ → F32) (s : Collected H)

/-- `add_to_heap` of `search_from_candidates` -/
def Collected.addToHeap (idx : ℕ) (dis : F32) :
    Collected H :=
  { s with
    off := if isSelected sel idx then s.off.offer dis idx else s.off
    candidates := s.candidates.push idx dis }

def Collected.addFour (savedJ : List ℕ) : Collected H :=
  let s' := (savedJ.map fun v ↦ (v, qdis v)).foldl (fun s p ↦ s.addToHeap sel p.1 p.2) s
  { s' with ndis := s'.ndis + 4 }

/-- One of the leftovers. -/
def Collected.addOne (v : ℕ) :
    Collected H :=
  let s' := s.addToHeap sel v (qdis v)
  { s' with ndis := s'.ndis + 1 }

end

/-- The variables of the loop of `search_from_candidates`. -/
structure CandidateLoop (H : Type) extends Collected H where
  vt : VisitedTable
  nstep : ℕ

namespace HNSW

variable (g : HNSW) (qdis : ℕ → F32)

/-- The loop over the initial candidates. -/
def initCandidates (sel : Option (ℤ → Bool)) (candidates : MinimaxHeap)
    (s : Offering H × VisitedTable) (i : ℕ) : Offering H × VisitedTable :=
  let v1 := (candidates.heap i).2.toNat
  let off := if isSelected sel v1 then
      { s.1.offer (candidates.heap i).1 v1 with nres := s.1.nres }
    else s.1
  (off, s.2.set v1)

/-- The expansion of the candidate `v0`. -/
def expandCandidate (sel : Option (ℤ → Bool)) (level v0 : ℕ) (s : CandidateLoop H) :
    CandidateLoop H :=
  let off := { s.off with threshold := threshold s.off.res }
  let r := buffered 4 enterFresh (Collected.addFour sel qdis) (Collected.addOne sel qdis)
    (g.neighborList v0 level) [] s.vt { s.toCollected with off }
  { toCollected := r.2, vt := r.1, nstep := s.nstep + 1 }

/-- One turn of the loop.  `pop_min` always finds an entry here, since `size()` counts the valid
ones. -/
def candidateTurn (sel : Option (ℤ → Bool)) (doDisCheck : Bool) (efSearch level : ℕ)
    (s : CandidateLoop H) : Turn (CandidateLoop H) :=
  if s.candidates.size = 0 then .done s
  else
    match s.candidates.popMin with
    | none => .done s
    | some (v0, d0, candidates) =>
      let s := { s with candidates }
      if doDisCheck ∧ efSearch ≤ candidates.countBelow d0 then .done s
      else
        let s := g.expandCandidate qdis sel level v0.toNat s
        if !doDisCheck ∧ efSearch < s.nstep then .done s else .next s

/-- `search_from_candidates`, up to the statistics. -/
def candidateLoop (res : H) (candidates : MinimaxHeap) (vt : VisitedTable) (level nresIn : ℕ)
    (params : Option SearchParameters) : Option (CandidateLoop H) :=
  let sel := selOf params
  let (off, vt) := (List.range candidates.size).foldl (initCandidates sel candidates)
    (Offering.start res nresIn, vt)
  iterate (g.candidateTurn qdis sel (g.doDisCheckOf params) (g.efSearchOf params) level)
    (candidates.size + g.ntotal + 1) { off, candidates, ndis := 0, vt, nstep := 0 }

/-- `search_from_candidates`: the number of results, the statistics and the final variables. -/
def searchFromCandidates (res : H) (candidates : MinimaxHeap) (vt : VisitedTable)
    (stats : HNSWStats) (level nresIn : ℕ) (params : Option SearchParameters) :
    Option (ℕ × HNSWStats × CandidateLoop H) := do
  let s ← g.candidateLoop qdis res candidates vt level nresIn params
  let stats := if level = 0 then
      { n1 := stats.n1 + 1
        n2 := if s.candidates.size = 0 then stats.n2 + 1 else stats.n2
        ndis := stats.ndis + s.ndis
        nhops := stats.nhops + s.nstep }
    else stats
  return (s.off.nres, stats, s)

end HNSW

/-! ## The unbounded queue -/

/-- `HNSW::Node`, with its order: by distance, then by id. -/
abbrev Node := F32 × ℕ

def nodeLt (a b : Node) : Bool := decide (a.1 < b.1) || (!decide (b.1 < a.1) && decide (a.2 < b.2))

def nodeGt (a b : Node) : Bool := nodeLt b a

/-- The variables of the loop of `search_from_candidate_unbounded`. -/
structure UnboundedLoop where
  topCandidates : List Node
  candidates : List Node
  vt : VisitedTable
  ndis : ℕ
  nhops : ℕ

/-- The two queues that the neighbours of a candidate are added to. -/
structure Queues where
  topCandidates : List Node
  candidates : List Node
  ndis : ℕ

section
variable (ef : ℕ) (qdis : ℕ → F32) (s : Queues) (q : List Node)

/-- `top_candidates.pop()` -/
def popTop : List Node :=
  match pop nodeLt q with
  | none => q
  | some (_, q') => q'

/-- `top_candidates.top().first > dis` -/
def topAbove (dis : F32) : Bool :=
  match top nodeLt q with
  | none => false
  | some t => decide (dis < t.1)

/-- `add_to_heap` of `search_from_candidate_unbounded` -/
def Queues.addToHeap (idx : ℕ) (dis : F32) : Queues :=
  if topAbove s.topCandidates dis ∨ s.topCandidates.length < ef then
    let topCandidates := (dis, idx) :: s.topCandidates
    { s with
      candidates := (dis, idx) :: s.candidates
      topCandidates := if ef < topCandidates.length then popTop topCandidates else topCandidates }
  else s

def Queues.addFour (savedJ : List ℕ) : Queues :=
  let s' := (savedJ.map fun v ↦ (v, qdis v)).foldl (fun s p ↦ s.addToHeap ef p.1 p.2) s
  { s' with ndis := s'.ndis + 4 }

def Queues.addOne (v : ℕ) : Queues :=
  let s' := s.addToHeap ef v (qdis v)
  { s' with ndis := s'.ndis + 1 }

end

namespace HNSW

variable (g : HNSW) (qdis : ℕ → F32)

/-- The expansion of the candidate `v0`, which has been popped. -/
def expandUnbounded (ef v0 : ℕ) (s : UnboundedLoop) : UnboundedLoop :=
  let r := buffered 4 enterFresh (Queues.addFour ef qdis) (Queues.addOne ef qdis)
    (g.neighborList v0 0) [] s.vt
    { topCandidates := s.topCandidates, candidates := s.candidates, ndis := s.ndis }
  { topCandidates := r.2.topCandidates, candidates := r.2.candidates, vt := r.1
    ndis := r.2.ndis, nhops := s.nhops + 1 }

/-- One turn of the loop. -/
def unboundedTurn (ef : ℕ) (s : UnboundedLoop) : Turn UnboundedLoop :=
  match pop nodeGt s.candidates with
  | none => .done s
  | some ((d0, v0), candidates) =>
    match top nodeLt s.topCandidates with
    | none => .done s
    | some t =>
      if t.1 < d0 then .done s
      else .next (g.expandUnbounded qdis ef v0 { s with candidates })

/-- `search_from_candidate_unbounded`: the final variables, `top_candidates` among them, and the
statistics. -/
def searchFromCandidateUnbounded (node : Node) (ef : ℕ) (vt : VisitedTable) (stats : HNSWStats) :
    Option (UnboundedLoop × HNSWStats) := do
  let s ← iterate (g.unboundedTurn qdis ef) (g.ntotal + 2)
    { topCandidates := [node], candidates := [node], vt := vt.set node.2, ndis := 0, nhops := 0 }
  return (s,
    { n1 := stats.n1 + 1
      n2 := if s.candidates.length = 0 then stats.n2 + 1 else stats.n2
      ndis := stats.ndis + s.ndis
      nhops := stats.nhops + s.nhops })

/-- `extract_k_from_ResultHandler` -/
def extractK (res : H) : ℕ := (heapK res).getD 1

/-- The loops after `search_from_candidate_unbounded`: the `k` best vertices go to the handler,
worst first. -/
def addTopCandidates (k : ℕ) (topCandidates : List Node) (res : H) : H :=
  let q := shrink nodeLt k topCandidates.length topCandidates
  (drain nodeLt q.length q).foldl (fun res p ↦ (addResult res p.1 p.2).1) res

/-- `HNSW::search`: the statistics, the handler and the visited table. -/
def search (res : H) (vt : VisitedTable) (params : Option SearchParameters) :
    Option (HNSWStats × H × VisitedTable) :=
  if g.entryPoint = -1 then some ({}, res, vt)
  else
    let k := extractK res
    let (near, stats) := g.greedyDescent qdis g.entryPoint.toNat
    let ef := max (g.efSearchOf params) k
    if g.boundedQueueOf params then do
      let candidates := (MinimaxHeap.new ef).push near.nearest near.dNearest
      let (_, stats, s) ← g.searchFromCandidates qdis res candidates vt stats 0 0 params
      return (stats, s.off.res, s.vt.advance)
    else do
      let (s, stats) ←
        g.searchFromCandidateUnbounded qdis (near.dNearest, near.nearest) ef vt stats
      return (stats, addTopCandidates k s.topCandidates res, s.vt.advance)

end HNSW

end FaissNavix

/-!
# Marking vertices

The loops over neighbours mark vertices in the visited table and collect some of them.  `Visits p
vt vt' new` says what such a loop has done as far as the vertices with `p` are concerned: the ones
it marked are the ones in `new`, each of them once, and none of them was marked before.  Vertices
without `p` may have been marked or not.

The number of vertices left to mark is what the loops of the searches decrease.
-/

namespace FaissNavix

open Lib (entered)

/-- From `vt` to `vt'` the vertices with `p` that were marked are those of `new`. -/
structure Visits (p : ℕ → Bool) (vt vt' : VisitedTable) (new : List ℕ) : Prop where
  nodup : new.Nodup
  fresh : ∀ v ∈ new, p v = true ∧ vt.get v = false
  get_iff : ∀ v, p v = true → (vt'.get v = true ↔ vt.get v = true ∨ v ∈ new)
  mono : ∀ v, vt.get v = true → vt'.get v = true
  valid : vt.Valid → vt'.Valid
  size_eq : vt'.size = vt.size

namespace Visits

variable {p : ℕ → Bool} {vt vt' vt'' : VisitedTable} {new new' : List ℕ} {n v : ℕ}

theorem refl (p : ℕ → Bool) (vt : VisitedTable) : Visits p vt vt [] where
  nodup := List.nodup_nil
  fresh := fun _ hv ↦ absurd hv List.not_mem_nil
  get_iff := by simp
  mono := fun _ h ↦ h
  valid := id
  size_eq := rfl

theorem mark (hp : p v = true) (hv : vt.get v = false) : Visits p vt (vt.set v) [v] where
  nodup := List.nodup_singleton v
  fresh := by simp [hp, hv]
  get_iff := fun u _ ↦ by rw [VisitedTable.get_set, List.mem_singleton, or_comm]
  mono := fun _ h ↦ vt.get_set_of_get v h
  valid := fun h ↦ h.set v
  size_eq := rfl

theorem markOther (hp : p v = false) : Visits p vt (vt.set v) [] where
  nodup := List.nodup_nil
  fresh := fun _ hv ↦ absurd hv List.not_mem_nil
  get_iff := fun u hu ↦ by
    have huv : u ≠ v := fun h ↦ by rw [h, hp] at hu; exact absurd hu (by simp)
    simp [VisitedTable.get_set, huv]
  mono := fun _ h ↦ vt.get_set_of_get v h
  valid := fun h ↦ h.set v
  size_eq := rfl

theorem append (h : Visits p vt vt' new) (h' : Visits p vt' vt'' new') :
    Visits p vt vt'' (new ++ new') where
  nodup := List.nodup_append.mpr ⟨h.nodup, h'.nodup, fun a ha b hb hab ↦ by
    obtain ⟨hp, hget⟩ := h'.fresh b hb
    have : vt'.get b = true := (h.get_iff b hp).mpr (Or.inr (hab ▸ ha))
    rw [hget] at this
    exact absurd this (by simp)⟩
  fresh := fun u hu ↦ by
    rcases List.mem_append.mp hu with hu | hu
    · exact h.fresh u hu
    · obtain ⟨hp, hget⟩ := h'.fresh u hu
      refine ⟨hp, ?_⟩
      cases hvt : vt.get u with
      | false => rfl
      | true => rw [h.mono u hvt] at hget; exact absurd hget (by simp)
  get_iff := fun u hp ↦ by rw [h'.get_iff u hp, h.get_iff u hp, List.mem_append, or_assoc]
  mono := fun u hu ↦ h'.mono u (h.mono u hu)
  valid := fun hvt ↦ h'.valid (h.valid hvt)
  size_eq := h'.size_eq.trans h.size_eq

theorem mem_of_get (h : Visits p vt vt' new) (hp : p v = true) (hv : vt.get v = false)
    (hv' : vt'.get v = true) : v ∈ new := by
  rcases (h.get_iff v hp).mp hv' with h1 | h1
  · rw [hv] at h1; exact absurd h1 (by simp)
  · exact h1

end Visits

theorem length_le_of_nodup {l : List ℕ} {n : ℕ} (hl : l.Nodup) (hn : ∀ v ∈ l, v < n) :
    l.length ≤ n := by
  have hsub : l.toFinset ⊆ Finset.range n := fun v hv ↦
    Finset.mem_range.mpr (hn v (List.mem_toFinset.mp hv))
  have := Finset.card_le_card hsub
  rwa [List.toFinset_card_of_nodup hl, Finset.card_range] at this

/-- The number of vertices below `n` with `p` that are not marked. -/
def unvisited (p : ℕ → Bool) (n : ℕ) (vt : VisitedTable) : ℕ :=
  ((Finset.range n).filter fun v ↦ p v = true ∧ vt.get v = false).card

theorem unvisited_le (p : ℕ → Bool) (n : ℕ) (vt : VisitedTable) : unvisited p n vt ≤ n :=
  (Finset.card_filter_le _ _).trans (Finset.card_range n).le

theorem Visits.unvisited_add_length {p : ℕ → Bool} {vt vt' : VisitedTable} {new : List ℕ} {n : ℕ}
    (h : Visits p vt vt' new) (hn : ∀ v ∈ new, v < n) :
    unvisited p n vt' + new.length = unvisited p n vt := by
  have hsub : new.toFinset ⊆ (Finset.range n).filter fun v ↦ p v = true ∧ vt.get v = false := by
    intro v hv
    have hv := List.mem_toFinset.mp hv
    exact Finset.mem_filter.mpr ⟨Finset.mem_range.mpr (hn v hv), h.fresh v hv⟩
  have heq : ((Finset.range n).filter fun v ↦ p v = true ∧ vt'.get v = false) =
      ((Finset.range n).filter fun v ↦ p v = true ∧ vt.get v = false) \ new.toFinset := by
    ext v
    simp only [Finset.mem_filter, Finset.mem_sdiff, List.mem_toFinset, and_assoc]
    refine and_congr_right fun _ ↦ and_congr_right fun hp ↦ ?_
    rw [← not_iff_not, Bool.not_eq_false, h.get_iff v hp, not_and_or, not_not, Bool.not_eq_false]
  have hcard := Finset.card_sdiff_add_card_eq_card hsub
  rw [unvisited, heq, unvisited, ← hcard, List.toFinset_card_of_nodup h.nodup]

/-! ## The neighbours that were not visited -/

theorem VisitedTable.set_of_get {vt : VisitedTable} {v : ℕ} (h : vt.get v = true) :
    vt.set v = vt := by
  have hb : vt.visited v = vt.visno := by simpa [VisitedTable.get] using h
  rw [VisitedTable.set, ← hb, Function.update_eq_self, hb]

/-- What goes through the buffers of the plain searches: the neighbours that were not visited. -/
theorem visits_entered (xs : List ℕ) (vt : VisitedTable) :
    Visits (fun _ ↦ true) vt (entered enterFresh xs vt).1 (entered enterFresh xs vt).2 ∧
      (∀ v ∈ xs, (entered enterFresh xs vt).1.get v = true) ∧
      ∀ v ∈ (entered enterFresh xs vt).2, v ∈ xs := by
  induction xs generalizing vt with
  | nil => exact ⟨Visits.refl _ _, by simp, by simp [entered]⟩
  | cons x xs ih =>
      obtain ⟨hvis, hall, hsub⟩ := ih (vt.set x)
      have hx : (entered enterFresh xs (vt.set x)).1.get x = true :=
        hvis.mono x (vt.get_set_self x)
      have hall' : ∀ v ∈ x :: xs, (entered enterFresh xs (vt.set x)).1.get v = true := by
        intro v hv
        rcases List.mem_cons.mp hv with rfl | hv
        · exact hx
        · exact hall v hv
      cases hget : vt.get x with
      | true =>
          rw [VisitedTable.set_of_get hget] at hvis hall' hsub
          simp only [entered, enterFresh, hget, VisitedTable.set_of_get hget, Bool.not_true,
            Bool.false_eq_true, if_false]
          exact ⟨hvis, hall', fun v hv ↦ List.mem_cons_of_mem _ (hsub v hv)⟩
      | false =>
          simp only [entered, enterFresh, hget, Bool.not_false, if_true]
          refine ⟨(Visits.mark rfl hget).append hvis, hall', fun v hv ↦ ?_⟩
          rcases List.mem_cons.mp hv with rfl | hv
          · exact List.mem_cons_self
          · exact List.mem_cons_of_mem _ (hsub v hv)

end FaissNavix
