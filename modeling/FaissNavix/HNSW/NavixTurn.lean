import FaissNavix.HNSW.Bounded
import FaissNavix.HNSW.Navix

/-!
# One turn of the Navix search

Whichever way a candidate is expanded, a turn offers and pushes passing vertices that were not
marked before, each once, and marks them (`navixTurn_spec`).  All passing neighbours of the
candidate are marked afterwards.  The directed expansion marks vertices that do not pass as well,
which is why `Visits` speaks of the passing ones only.

The ids written to the buffer are counted along the way.
-/

namespace FaissNavix

open Lib
open Lib.PriorityQueue (pop pop_perm)
open MinimaxHeap (pushAll)

variable {H : Type} [ResultHandler H] {g : HNSW} {qdis : ℕ → F32} {filterIdMap : ℕ → UInt8}

/-! ## The buffer -/

namespace NodeArray

section
variable (a : NodeArray) (l : List ℕ)

def pushAll : NodeArray := l.foldl push a

@[simp] theorem pushAll_nil : a.pushAll [] = a := rfl

theorem pushAll_append (l' : List ℕ) :
    a.pushAll (l ++ l') = (a.pushAll l).pushAll l' := List.foldl_append

@[simp] theorem ids_pushAll : (a.pushAll l).ids = a.ids ++ l := by
  induction l generalizing a with
  | nil => simp
  | cons v l ih => rw [pushAll, List.foldl_cons]; exact (ih _).trans (by simp [push])

/-- Whether a write goes past the end depends on the number of ids only. -/
theorem overflow_pushAll :
    (a.pushAll l).overflow = false ↔
      a.overflow = false ∧ (l = [] ∨ a.ids.length + l.length ≤ capacity) := by
  induction l generalizing a with
  | nil => simp
  | cons v l ih =>
      rw [pushAll, List.foldl_cons]
      refine (ih _).trans ?_
      simp only [push, Bool.or_eq_false_iff, decide_eq_false_iff_not, not_le, List.length_append,
        List.length_cons, List.length_nil, reduceCtorEq, false_or]
      constructor
      · rintro ⟨⟨h1, h2⟩, rfl | h3⟩
        · exact ⟨h1, by simp only [List.length_nil]; omega⟩
        · exact ⟨h1, by omega⟩
      · rintro ⟨h1, h2⟩
        exact ⟨⟨h1, by omega⟩, Or.inr (by omega)⟩

end

theorem overflow_pushAll_of_overflow {a : NodeArray} (h : a.overflow = true) (l : List ℕ) :
    (a.pushAll l).overflow = true := by
  by_contra hl
  exact absurd ((overflow_pushAll a l).mp (by simpa using hl)).1 (by simp [h])

end NodeArray

/-- From one state to the other, the passing vertices marked are those written to the buffer. -/
structure Gathers (filterIdMap : ℕ → UInt8) (s s' : VisitedTable × NodeArray) (new : List ℕ) :
    Prop where
  visits : Visits (passes filterIdMap) s.1 s'.1 new
  array_eq : s'.2 = s.2.pushAll new

namespace Gathers

variable {s s' s'' : VisitedTable × NodeArray} {new new' : List ℕ}

theorem refl (s : VisitedTable × NodeArray) : Gathers filterIdMap s s [] := ⟨Visits.refl _ _, rfl⟩

theorem append (h : Gathers filterIdMap s s' new) (h' : Gathers filterIdMap s' s'' new') :
    Gathers filterIdMap s s'' (new ++ new') :=
  ⟨h.visits.append h'.visits, by rw [h'.array_eq, h.array_eq, NodeArray.pushAll_append]⟩

theorem foldl_collectMasked (filterIdMap : ℕ → UInt8) (l : List ℕ) (s : VisitedTable × NodeArray) :
    ∃ new, Gathers filterIdMap s (l.foldl (HNSW.collectMasked filterIdMap) s) new ∧
      (∀ v ∈ l, passes filterIdMap v = true →
        (l.foldl (HNSW.collectMasked filterIdMap) s).1.get v = true) ∧
      ∀ v ∈ new, v ∈ l := by
  induction l generalizing s with
  | nil => exact ⟨[], refl s, by simp, by simp⟩
  | cons x l ih =>
      obtain ⟨new, hnew, hall, hsub⟩ := ih (HNSW.collectMasked filterIdMap s x)
      rw [List.foldl_cons]
      by_cases hx : passes filterIdMap x = true ∧ s.1.get x = false
      · have hone : HNSW.collectMasked filterIdMap s x = (s.1.set x, s.2.push x) := if_pos hx
        rw [hone] at hnew hall ⊢
        have hmark : Gathers filterIdMap s (s.1.set x, s.2.push x) [x] :=
          ⟨Visits.mark hx.1 hx.2, rfl⟩
        refine ⟨x :: new, hmark.append hnew, fun v hv hp ↦ ?_, fun v hv ↦ ?_⟩
        · rcases List.mem_cons.mp hv with rfl | hv
          · exact hnew.visits.mono _ (s.1.get_set_self _)
          · exact hall v hv hp
        · rcases List.mem_cons.mp hv with rfl | hv
          · exact List.mem_cons_self
          · exact List.mem_cons_of_mem _ (hsub v hv)
      · have hone : HNSW.collectMasked filterIdMap s x = s := if_neg hx
        rw [hone] at hnew hall ⊢
        refine ⟨new, hnew, fun v hv hp ↦ ?_, fun v hv ↦ List.mem_cons_of_mem _ (hsub v hv)⟩
        rcases List.mem_cons.mp hv with rfl | hv
        · refine hnew.visits.mono _ ?_
          by_contra hget
          exact hx ⟨hp, by simpa using hget⟩
        · exact hall v hv hp

theorem length_le (h : Gathers filterIdMap s s' new) {l : List ℕ} (hsub : ∀ v ∈ new, v ∈ l) :
    new.length ≤ l.countP (passes filterIdMap) := by
  rw [List.countP_eq_length_filter]
  refine (List.subperm_of_subset h.visits.nodup fun v hv ↦ ?_).length_le
  exact List.mem_filter.mpr ⟨hsub v hv, (h.visits.fresh v hv).1⟩

end Gathers

/-! ## The three expansions -/

theorem mem_two_hops (x : ℕ) (nbrs : List ℕ) (v : ℕ) :
    (v ∈ x :: nbrs ++ (x :: nbrs).flatMap fun u ↦ g.neighborList u 0) ↔
      v ∈ x :: g.neighborList x 0 ∨ v ∈ nbrs ++ nbrs.flatMap fun u ↦ g.neighborList u 0 := by
  simp only [List.flatMap_cons, List.mem_append, List.mem_cons]
  tauto

/-- `navix_full_two_hop` gathers from the neighbours and their neighbours. -/
theorem navixFullTwoHop_spec (g : HNSW) (filterIdMap : ℕ → UInt8) (nbrs : List ℕ) (vt : VisitedTable) (a : NodeArray) (nhops : ℕ) :
    ∃ new, Gathers filterIdMap (vt, a)
        ((g.navixFullTwoHop filterIdMap nbrs vt a nhops).1,
          (g.navixFullTwoHop filterIdMap nbrs vt a nhops).2.1) new ∧
      (∀ v ∈ nbrs ++ nbrs.flatMap fun u ↦ g.neighborList u 0, passes filterIdMap v = true →
        (g.navixFullTwoHop filterIdMap nbrs vt a nhops).1.get v = true) ∧
      ∀ v ∈ new, v ∈ nbrs ++ nbrs.flatMap fun u ↦ g.neighborList u 0 := by
  induction nbrs generalizing vt a nhops with
  | nil => exact ⟨[], Gathers.refl _, by simp, by simp⟩
  | cons x nbrs ih =>
      obtain ⟨new₁, h₁, hall₁, hsub₁⟩ :=
        Gathers.foldl_collectMasked filterIdMap (x :: g.neighborList x 0) (vt, a)
      rw [List.foldl_cons] at h₁ hall₁
      obtain ⟨new₂, h₂, hall₂, hsub₂⟩ := ih
        ((g.neighborList x 0).foldl (HNSW.collectMasked filterIdMap)
          (HNSW.collectMasked filterIdMap (vt, a) x)).1
        ((g.neighborList x 0).foldl (HNSW.collectMasked filterIdMap)
          (HNSW.collectMasked filterIdMap (vt, a) x)).2 (nhops + 1)
      refine ⟨new₁ ++ new₂, h₁.append h₂, fun v hv hp ↦ ?_, fun v hv ↦ ?_⟩
      · rcases (mem_two_hops x nbrs v).mp hv with hv | hv
        · exact h₂.visits.mono v (hall₁ v hv hp)
        · exact hall₂ v hv hp
      · rw [mem_two_hops]
        exact (List.mem_append.mp hv).imp (hsub₁ v) (hsub₂ v)

/-! ### The directed expansion -/

/-- The first loop of `navix_directed` writes the neighbours that were not marked and marks the
passing ones among them; `visited_set_size` counts the passing neighbours. -/
theorem foldl_directedFirstHop (filterIdMap : ℕ → UInt8) (nbrs : List ℕ) (n : ℕ) (vt : VisitedTable) (a : NodeArray) :
    ∃ ids vt', nbrs.foldl (HNSW.directedFirstHop filterIdMap) (n, vt, a) =
        (n + nbrs.countP (passes filterIdMap), vt', a.pushAll ids) ∧
      Visits (passes filterIdMap) vt vt' (ids.filter (passes filterIdMap)) ∧
      (∀ v ∈ nbrs, passes filterIdMap v = true → vt'.get v = true) ∧
      ids.Sublist nbrs := by
  induction nbrs generalizing n vt a with
  | nil => exact ⟨[], vt, rfl, Visits.refl _ _, by simp, List.Sublist.slnil⟩
  | cons x nbrs ih =>
      rw [List.foldl_cons, List.countP_cons]
      cases hp : passes filterIdMap x with
      | false =>
          cases hget : vt.get x with
          | true =>
              have hone : HNSW.directedFirstHop filterIdMap (n, vt, a) x = (n, vt, a) := by
                simp [HNSW.directedFirstHop, hp, hget]
              obtain ⟨ids, vt', heq, hvis, hall, hsub⟩ := ih n vt a
              refine ⟨ids, vt', by rw [hone, heq]; simp, hvis, fun v hv hpv ↦ ?_, hsub.cons x⟩
              rcases List.mem_cons.mp hv with rfl | hv
              · rw [hp] at hpv; exact absurd hpv (by simp)
              · exact hall v hv hpv
          | false =>
              have hone : HNSW.directedFirstHop filterIdMap (n, vt, a) x = (n, vt, a.push x) := by
                simp [HNSW.directedFirstHop, hp, hget]
              obtain ⟨ids, vt', heq, hvis, hall, hsub⟩ := ih n vt (a.push x)
              refine ⟨x :: ids, vt', by rw [hone, heq]; simp [NodeArray.pushAll], ?_,
                fun v hv hpv ↦ ?_, hsub.cons_cons x⟩
              · rw [List.filter_cons, hp]; exact hvis
              · rcases List.mem_cons.mp hv with rfl | hv
                · rw [hp] at hpv; exact absurd hpv (by simp)
                · exact hall v hv hpv
      | true =>
          cases hget : vt.get x with
          | true =>
              have hone : HNSW.directedFirstHop filterIdMap (n, vt, a) x = (n + 1, vt, a) := by
                simp [HNSW.directedFirstHop, hp, hget]
              obtain ⟨ids, vt', heq, hvis, hall, hsub⟩ := ih (n + 1) vt a
              refine ⟨ids, vt', ?_, hvis, fun v hv hpv ↦ ?_, hsub.cons x⟩
              · rw [hone, heq, Nat.add_assoc, Nat.add_comm 1]; rfl
              · rcases List.mem_cons.mp hv with rfl | hv
                · exact hvis.mono _ hget
                · exact hall v hv hpv
          | false =>
              have hone : HNSW.directedFirstHop filterIdMap (n, vt, a) x =
                  (n + 1, vt.set x, a.push x) := by
                simp [HNSW.directedFirstHop, hp, hget]
              obtain ⟨ids, vt', heq, hvis, hall, hsub⟩ := ih (n + 1) (vt.set x) (a.push x)
              refine ⟨x :: ids, vt', ?_, ?_, fun v hv hpv ↦ ?_, hsub.cons_cons x⟩
              · rw [hone, heq, Nat.add_assoc, Nat.add_comm 1]; rfl
              · rw [List.filter_cons, hp]; exact (Visits.mark hp hget).append hvis
              · rcases List.mem_cons.mp hv with rfl | hv
                · exact hvis.mono _ (vt.get_set_self _)
                · exact hall v hv hpv

/-- Offering the vertices of the buffer, in `navix_batch_directed_compute_distance`. -/
theorem foldl_directedOne (l : List ℕ) (q : List Node) (c : Collected H) :
    l.foldl (HNSW.directedOne qdis filterIdMap) (q, c) =
      ((l.map fun v ↦ (qdis v, v)).reverse ++ q,
        { off := c.off.offerEach qdis (l.filter (passes filterIdMap))
          candidates := pushAll qdis c.candidates (l.filter (passes filterIdMap))
          ndis := c.ndis + l.length }) := by
  induction l generalizing q c with
  | nil => rfl
  | cons v l ih =>
      rw [List.foldl_cons, HNSW.directedOne, ih, List.filter_cons]
      unfold Collected.addMasked Collected.addToHeap
      have hlist : (l.map fun v ↦ (qdis v, v)).reverse ++ (qdis v, v) :: q =
          ((v :: l).map fun v ↦ (qdis v, v)).reverse ++ q := by simp
      rw [hlist, List.length_cons, ← Nat.add_assoc, Nat.add_right_comm]
      split <;> rfl

theorem directedFour_eq (s : List Node × Collected H) (l : List ℕ) (hl : l.length = 4) :
    HNSW.directedFour qdis filterIdMap s l = l.foldl (HNSW.directedOne qdis filterIdMap) s := by
  have hfold : ∀ (l : List ℕ) (q : List Node) (c : Collected H),
      (l.map fun v ↦ (v, qdis v)).foldl
          (fun s p ↦ ((p.2, p.1) :: s.1, s.2.addMasked filterIdMap p.1 p.2)) (q, c) =
        ((l.map fun v ↦ (qdis v, v)).reverse ++ q,
          { off := c.off.offerEach qdis (l.filter (passes filterIdMap))
            candidates := pushAll qdis c.candidates (l.filter (passes filterIdMap))
            ndis := c.ndis }) := by
    intro l
    induction l with
    | nil => intro q c; rfl
    | cons v l ih =>
        intro q c
        rw [List.map_cons, List.foldl_cons, ih, List.filter_cons]
        unfold Collected.addMasked Collected.addToHeap
        have hlist : (l.map fun v ↦ (qdis v, v)).reverse ++ (qdis v, v) :: q =
            ((v :: l).map fun v ↦ (qdis v, v)).reverse ++ q := by simp
        rw [hlist]
        split <;> rfl
  rw [HNSW.directedFour, hfold, foldl_directedOne, hl]

/-- The second loop of `navix_directed` over the neighbours of a vertex collects them like the
other expansions; the counter grows by the number of the passing ones. -/
theorem foldl_directedSecondHop (l : List ℕ) (n : ℕ) (s : VisitedTable × NodeArray) :
    l.foldl (HNSW.directedSecondHop filterIdMap) (n, s) =
      (n + l.countP (passes filterIdMap), l.foldl (HNSW.collectMasked filterIdMap) s) := by
  induction l generalizing n s with
  | nil => rfl
  | cons v l ih =>
      rw [List.foldl_cons, List.foldl_cons, List.countP_cons, HNSW.directedSecondHop, ih]
      split
      · rw [Nat.add_assoc, Nat.add_comm 1]
      · rfl

/-- The second half of `navix_directed`: only passing vertices are gathered, since the vertices to
explore that pass are marked already.  The counter bounds how many. -/
theorem exploreNbrs_spec (filterIdMap : ℕ → UInt8) (hg : g.WellFormed) (filterNbrsToFind : ℕ) (n : ℕ) (s : HNSW.Exploring)
    (hmarked : ∀ x ∈ s.nbrsToExplore, passes filterIdMap x.2 = true → s.vt.get x.2 = true)
    (hlt : ∀ x ∈ s.nbrsToExplore, x.2 < g.ntotal) :
    ∃ new, Gathers filterIdMap (s.vt, s.nodeArray)
        ((g.exploreNbrs filterIdMap filterNbrsToFind n s).vt,
          (g.exploreNbrs filterIdMap filterNbrsToFind n s).nodeArray) new ∧
      (∀ v ∈ new, v < g.ntotal) ∧
      new.length + s.visitedSetSize ≤
        max s.visitedSetSize (filterNbrsToFind + g.nbNeighbors 0) := by
  induction n generalizing s with
  | zero => exact ⟨[], Gathers.refl _, by simp, by simp⟩
  | succ n ih =>
      rw [HNSW.exploreNbrs]
      cases hpop : pop farther s.nbrsToExplore with
      | none => exact ⟨[], Gathers.refl _, by simp, by simp⟩
      | some r =>
          obtain ⟨⟨d, id⟩, q⟩ := r
          have hperm := pop_perm hpop
          have hid : (d, id) ∈ s.nbrsToExplore := hperm.mem_iff.mpr List.mem_cons_self
          have hq : ∀ x ∈ q, x ∈ s.nbrsToExplore := fun x hx ↦
            hperm.mem_iff.mpr (List.mem_cons_of_mem _ hx)
          dsimp only
          split
          · exact ⟨[], Gathers.refl _, by simp, by simp⟩
          · rename_i hfind
            split
            · exact ih { s with nbrsToExplore := q } (fun x hx ↦ hmarked x (hq x hx))
                fun x hx ↦ hlt x (hq x hx)
            · rename_i hget
              -- `id` is not marked, so that it does not pass
              have hidp : passes filterIdMap id = false := by
                by_contra hp
                exact hget (hmarked _ hid (by simpa using hp))
              rw [foldl_directedSecondHop]
              obtain ⟨new₁, h₁, -, hsub₁⟩ := Gathers.foldl_collectMasked filterIdMap
                (g.neighborList id 0) (s.vt.set id, s.nodeArray)
              have hmono := h₁.visits.mono
              have hset : Gathers filterIdMap (s.vt, s.nodeArray) (s.vt.set id, s.nodeArray) [] :=
                ⟨Visits.markOther hidp, rfl⟩
              obtain ⟨new₂, h₂, hlt₂, hlen₂⟩ := ih
                { s with
                  nbrsToExplore := q
                  visitedSetSize := s.visitedSetSize +
                    (g.neighborList id 0).countP (passes filterIdMap)
                  vt := ((g.neighborList id 0).foldl (HNSW.collectMasked filterIdMap)
                    (s.vt.set id, s.nodeArray)).1
                  nodeArray := ((g.neighborList id 0).foldl (HNSW.collectMasked filterIdMap)
                    (s.vt.set id, s.nodeArray)).2
                  nhops := s.nhops + 1 }
                (fun x hx hp ↦ hmono _ (s.vt.get_set_of_get id (hmarked x (hq x hx) hp)))
                fun x hx ↦ hlt x (hq x hx)
              refine ⟨new₁ ++ new₂, (hset.append h₁).append h₂, fun v hv ↦ ?_, ?_⟩
              · rcases List.mem_append.mp hv with hv | hv
                · exact hg.edge_lt (hlt _ hid) (hsub₁ v hv)
                · exact hlt₂ v hv
              · have hlen₁ := h₁.length_le hsub₁
                have hcount : (g.neighborList id 0).countP (passes filterIdMap) ≤ g.nbNeighbors 0 :=
                  List.countP_le_length.trans (g.neighborList_length_le id 0)
                rw [List.length_append]
                simp only at hlen₂
                omega

/-! ## Expanding a candidate -/

/-- What an expansion does, from an empty buffer: it offers and pushes the vertices of `offered`,
and leaves those in the buffer for later. -/
structure Expanded (g : HNSW) (qdis : ℕ → F32) (filterIdMap : ℕ → UInt8) (nbrs : List ℕ)
    (a : NodeArray) (s : NavixState H) (r : NodeArray × NavixState H) (offered : List ℕ) : Prop where
  visits : Visits (passes filterIdMap) s.vt r.2.vt (offered ++ r.1.ids)
  covered : ∀ v ∈ nbrs, passes filterIdMap v = true → r.2.vt.get v = true
  lt : ∀ v ∈ offered ++ r.1.ids, v < g.ntotal
  of_all : (∀ v ∈ nbrs, passes filterIdMap v = true) → ∀ v ∈ offered ++ r.1.ids, v ∈ nbrs
  res_eq : r.2.res = offerAll qdis s.res offered
  candidates_eq : r.2.candidates = pushAll qdis s.candidates offered
  keeps : a.overflow = true → r.1.overflow = true
  fits : a.overflow = false →
    g.nbNeighbors 0 + g.nbNeighbors 0 * g.nbNeighbors 0 ≤ NodeArray.capacity →
    r.1.overflow = false

/-- An expansion that only writes to the buffer. -/
theorem expanded_of_gathers {nbrs l new : List ℕ} {a : NodeArray} {s : NavixState H}
    {r : VisitedTable × NodeArray} (stats : HNSWStats) (ha : a.ids = [])
    (h : Gathers filterIdMap (s.vt, a) r new)
    (hall : ∀ v ∈ nbrs, passes filterIdMap v = true → r.1.get v = true) (hsub : ∀ v ∈ new, v ∈ l)
    (hofall : (∀ v ∈ nbrs, passes filterIdMap v = true) → ∀ v ∈ l, v ∈ nbrs)
    (hlt : ∀ v ∈ l, v < g.ntotal)
    (hlen : l.length ≤ g.nbNeighbors 0 + g.nbNeighbors 0 * g.nbNeighbors 0) :
    Expanded g qdis filterIdMap nbrs a s (r.2, { s with vt := r.1, stats }) [] := by
  have hids : r.2.ids = new := by rw [h.array_eq, NodeArray.ids_pushAll, ha, List.nil_append]
  refine ⟨by rw [List.nil_append, hids]; exact h.visits, hall, fun v hv ↦ ?_, fun hp v hv ↦ ?_,
    rfl, rfl, fun hover ↦ ?_, ?_⟩
  · rw [List.nil_append, hids] at hv
    exact hlt v (hsub v hv)
  · rw [List.nil_append, hids] at hv
    exact hofall hp v (hsub v hv)
  · rw [h.array_eq]
    exact NodeArray.overflow_pushAll_of_overflow hover new
  · intro hover hcap
    have hle := (h.length_le hsub).trans List.countP_le_length
    rw [h.array_eq, NodeArray.overflow_pushAll, ha]
    exact ⟨hover, Or.inr (by rw [List.length_nil]; omega)⟩

theorem length_two_hops {nbrs : List ℕ} (hlen : nbrs.length ≤ g.nbNeighbors 0) :
    (nbrs ++ nbrs.flatMap fun u ↦ g.neighborList u 0).length ≤
      g.nbNeighbors 0 + g.nbNeighbors 0 * g.nbNeighbors 0 := by
  have hsum : ∀ l : List ℕ, (l.flatMap fun u ↦ g.neighborList u 0).length ≤
      l.length * g.nbNeighbors 0 := by
    intro l
    induction l with
    | nil => simp
    | cons x l ih =>
        rw [List.flatMap_cons, List.length_append, List.length_cons, Nat.succ_mul]
        have := g.neighborList_length_le x 0
        omega
  rw [List.length_append]
  exact Nat.add_le_add hlen ((hsum nbrs).trans (Nat.mul_le_mul_right _ hlen))

/-- `navix_batch_directed_compute_distance` offers the passing vertices of the buffer. -/
theorem navixBatchDirectedComputeDistance_spec [LawfulResultHandler H] (qdis : ℕ → F32)
    (filterIdMap : ℕ → UInt8) (a : NodeArray) (s : NavixState H) :
    ∃ stats, HNSW.navixBatchDirectedComputeDistance qdis filterIdMap a [] s =
      (a.reset, (a.ids.map fun v ↦ (qdis v, v)).reverse,
        { s with
          res := offerAll qdis s.res (a.ids.filter (passes filterIdMap))
          candidates := pushAll qdis s.candidates (a.ids.filter (passes filterIdMap))
          stats }) := by
  have hsync : s.collect.off.Synced := rfl
  rw [HNSW.navixBatchDirectedComputeDistance, batched_eq directedFour_eq, foldl_directedOne,
    List.append_nil]
  refine ⟨{ s.stats with ndis := s.collect.ndis + a.ids.length }, ?_⟩
  rw [NavixState.collected, (hsync.offerEach _).2]
  rfl

theorem navixDirected_spec [LawfulResultHandler H] (hg : g.WellFormed) {nbrs : List ℕ}
    (hnbrs : ∀ v ∈ nbrs, v < g.ntotal) (hlen : nbrs.length ≤ g.nbNeighbors 0)
    (hsome : ¬ ∀ v ∈ nbrs, passes filterIdMap v = true) {a : NodeArray}
    (ha : a.ids = []) (s : NavixState H) :
    ∃ offered, Expanded g qdis filterIdMap nbrs a s
      (g.navixDirected qdis filterIdMap nbrs nbrs.length a s) offered := by
  obtain ⟨ids, vt', hfirst, hvis, hall, hsub⟩ :=
    foldl_directedFirstHop filterIdMap nbrs 0 s.vt a
  obtain ⟨stats, hbatch⟩ := navixBatchDirectedComputeDistance_spec qdis filterIdMap
    (a.pushAll ids) { s with vt := vt' }
  have hids : (a.pushAll ids).ids = ids := by rw [NodeArray.ids_pushAll, ha, List.nil_append]
  rw [hids] at hbatch
  have hmem : ∀ x ∈ (ids.map fun v ↦ (qdis v, v)).reverse, x.2 ∈ ids := fun x hx ↦ by
    obtain ⟨v, hv, rfl⟩ := List.mem_map.mp (List.mem_reverse.mp hx)
    exact hv
  obtain ⟨new, hnew, hlt, hcount⟩ := exploreNbrs_spec filterIdMap hg nbrs.length
    (ids.map fun v ↦ (qdis v, v)).reverse.length
    { nbrsToExplore := (ids.map fun v ↦ (qdis v, v)).reverse
      visitedSetSize := 0 + nbrs.countP (passes filterIdMap)
      vt := vt'
      nodeArray := (a.pushAll ids).reset
      nhops := stats.nhops }
    (fun x hx hp ↦ hall _ (hsub.subset (hmem x hx)) hp)
    fun x hx ↦ hnbrs _ (hsub.subset (hmem x hx))
  obtain ⟨e, hgather, stats', heq⟩ : ∃ e : HNSW.Exploring,
      Gathers filterIdMap (vt', (a.pushAll ids).reset) (e.vt, e.nodeArray) new ∧ ∃ stats',
      g.navixDirected qdis filterIdMap nbrs nbrs.length a s =
        (e.nodeArray,
          { res := offerAll qdis s.res (ids.filter (passes filterIdMap))
            candidates := pushAll qdis s.candidates (ids.filter (passes filterIdMap))
            vt := e.vt
            stats := stats' }) := by
    refine ⟨_, hnew, ?_⟩
    rw [HNSW.navixDirected, hfirst]
    dsimp only
    rw [hbatch]
    exact ⟨_, rfl⟩
  have harray : e.nodeArray = (a.pushAll ids).reset.pushAll new := hgather.array_eq
  have hnewids : e.nodeArray.ids = new := by
    rw [harray, NodeArray.ids_pushAll]
    rfl
  refine ⟨ids.filter (passes filterIdMap), ?_⟩
  rw [heq]
  refine ⟨?_, fun v hv hp ↦ hgather.visits.mono v (hall v hv hp), fun v hv ↦ ?_,
    fun hp ↦ absurd hp hsome, rfl, rfl, fun hover ↦ ?_, ?_⟩
  · rw [hnewids]
    exact hvis.append hgather.visits
  · rw [hnewids] at hv
    rcases List.mem_append.mp hv with hv | hv
    · exact hnbrs v (hsub.subset (List.mem_of_mem_filter hv))
    · exact hlt v hv
  · rw [harray]
    exact NodeArray.overflow_pushAll_of_overflow
      (a := (a.pushAll ids).reset) (NodeArray.overflow_pushAll_of_overflow hover ids) new
  · intro hover hcap
    -- the first phase writes at most `nbrs.length` ids, the second stops at twice as many
    have h1 : ids.length ≤ NodeArray.capacity := by
      have := hsub.length_le
      omega
    have h2 : nbrs.countP (passes filterIdMap) ≤ nbrs.length := List.countP_le_length
    have h3 : g.nbNeighbors 0 ≤ g.nbNeighbors 0 * g.nbNeighbors 0 := Nat.le_mul_self _
    rw [harray, NodeArray.overflow_pushAll]
    refine ⟨(NodeArray.overflow_pushAll a ids).mpr ⟨hover, Or.inr ?_⟩, Or.inr ?_⟩
    · rw [ha, List.length_nil]; omega
    · simp only [NodeArray.reset, List.length_nil]
      simp only at hcount
      omega

theorem expansion_self (n : ℕ) :
    HNSW.expansion n n = if 0 < n then .oneHop else .fullTwoHop := by
  unfold HNSW.expansion
  split
  · rename_i h
    rw [if_pos h.1]
  · rename_i h
    obtain rfl : n = 0 := by omega
    rfl

/-- The three ways to expand a candidate. -/
theorem navixExpand_spec [LawfulResultHandler H] (qdis : ℕ → F32) (filterIdMap : ℕ → UInt8)
    (hg : g.WellFormed) {v : ℕ} (hv : v < g.ntotal)
    {a : NodeArray} (ha : a.ids = []) (s : NavixState H) :
    ∃ offered, Expanded g qdis filterIdMap (g.neighborList v 0) a s
      (g.navixExpand qdis filterIdMap (g.neighborList v 0) a s) offered := by
  have hnbrs : ∀ u ∈ g.neighborList v 0, u < g.ntotal := fun u hu ↦ hg.edge_lt hv hu
  have hlen := g.neighborList_length_le v 0
  have hexp : (∀ u ∈ g.neighborList v 0, passes filterIdMap u = true) →
      HNSW.expansion (g.neighborList v 0).length
          ((g.neighborList v 0).countP (passes filterIdMap)) =
        if 0 < (g.neighborList v 0).length then .oneHop else .fullTwoHop := fun hp ↦ by
    rw [List.countP_eq_length.mpr hp, expansion_self]
  unfold HNSW.navixExpand
  split
  · obtain ⟨new, hnew, hall, hsub⟩ :=
      Gathers.foldl_collectMasked filterIdMap (g.neighborList v 0) (s.vt, a)
    exact ⟨[], expanded_of_gathers s.stats ha hnew hall hsub (fun _ _ hu ↦ hu) hnbrs (by omega)⟩
  · rename_i heq
    refine navixDirected_spec hg hnbrs hlen (fun hp ↦ ?_) ha s
    rw [hexp hp] at heq
    split at heq <;> simp at heq
  · rename_i heq
    obtain ⟨new, hnew, hall, hsub⟩ :=
      navixFullTwoHop_spec g filterIdMap (g.neighborList v 0) s.vt a s.stats.nhops
    refine ⟨[], expanded_of_gathers _ ha hnew (fun u hu ↦ hall u (List.mem_append_left _ hu)) hsub
      (fun hp u hu ↦ ?_) (fun u hu ↦ ?_) (length_two_hops hlen)⟩
    · rw [hexp hp] at heq
      split at heq
      · simp at heq
      · rename_i hnil
        rw [List.length_eq_zero_iff.mp (Nat.eq_zero_of_not_pos hnil)] at hu
        simp at hu
    · rcases List.mem_append.mp hu with hu | hu
      · exact hnbrs u hu
      · obtain ⟨w, hw, huw⟩ := List.mem_flatMap.mp hu
        exact hg.edge_lt (hnbrs w hw) huw

/-! ## The turn -/

/-- `navix_batch_compute_distance` offers and pushes the vertices of the buffer. -/
theorem navixBatchComputeDistance_spec [LawfulResultHandler H] (qdis : ℕ → F32) (a : NodeArray)
    (s : NavixState H) :
    ∃ stats, HNSW.navixBatchComputeDistance qdis a s =
      (a.reset, { s with
        res := offerAll qdis s.res a.ids
        candidates := pushAll qdis s.candidates a.ids
        stats }) := by
  have hsync : s.collect.off.Synced := rfl
  have hfilter : (a.ids.filter fun v ↦ isSelected none v) = a.ids :=
    List.filter_eq_self.mpr fun v _ ↦ rfl
  rw [HNSW.navixBatchComputeDistance, batched_eq Collected.addFour_eq, Collected.foldl_addOne,
    hfilter]
  refine ⟨{ s.stats with ndis := s.collect.ndis + a.ids.length }, ?_⟩
  rw [NavixState.collected, (hsync.offerEach _).2]
  rfl

/-- What a turn that goes round again does, once `v` is taken out of the candidates `c`. -/
structure NavixStep (g : HNSW) (qdis : ℕ → F32) (filterIdMap : ℕ → UInt8) (v : ℕ)
    (c : MinimaxHeap) (s s' : NodeArray × NavixState H) (new : List ℕ) : Prop where
  visits : Visits (passes filterIdMap) s.2.vt s'.2.vt new
  covered : ∀ u, g.Edge v u → passes filterIdMap u = true → s'.2.vt.get u = true
  lt : ∀ u ∈ new, u < g.ntotal
  of_all : (∀ u, g.Edge v u → passes filterIdMap u = true) → ∀ u ∈ new, g.Edge v u
  res_eq : s'.2.res = offerAll qdis s.2.res new
  candidates_eq : s'.2.candidates = pushAll qdis c new
  ids_eq : s'.1.ids = []
  keeps : s.1.overflow = true → s'.1.overflow = true
  fits : s.1.overflow = false →
    g.nbNeighbors 0 + g.nbNeighbors 0 * g.nbNeighbors 0 ≤ NodeArray.capacity →
    s'.1.overflow = false

theorem navixTurn_done {efSearch : ℕ} {s : NodeArray × NavixState H}
    (hsize : s.2.candidates.size = 0) : g.navixTurn qdis filterIdMap efSearch s = .done s := by
  rw [HNSW.navixTurn, if_pos hsize]

/-- A turn with a candidate left that the stopping rule does not apply to. -/
theorem navixTurn_next {efSearch v : ℕ} {d : F32} {c : MinimaxHeap} {s : NodeArray × NavixState H}
    (hsize : s.2.candidates.size ≠ 0) (hpop : s.2.candidates.popMin = some ((v : ℤ), d, c))
    (hstop : ¬ efSearch ≤ c.countBelow d) :
    g.navixTurn qdis filterIdMap efSearch s = .next
      (HNSW.navixBatchComputeDistance qdis
        (g.navixExpand qdis filterIdMap (g.neighborList v 0) s.1
          { s.2 with candidates := c, stats := { s.2.stats with nhops := s.2.stats.nhops + 1 } }).1
        (g.navixExpand qdis filterIdMap (g.neighborList v 0) s.1
          { s.2 with candidates := c
                     stats := { s.2.stats with nhops := s.2.stats.nhops + 1 } }).2) := by
  rw [HNSW.navixTurn, if_neg hsize, hpop]
  dsimp only
  rw [if_neg hstop, Int.toNat_natCast]

theorem navixTurn_spec [LawfulResultHandler H] (hg : g.WellFormed) (efSearch : ℕ) {v : ℕ} {d : F32}
    {c : MinimaxHeap} {s : NodeArray × NavixState H} (hsize : s.2.candidates.size ≠ 0)
    (hpop : s.2.candidates.popMin = some ((v : ℤ), d, c)) (hv : v < g.ntotal)
    (hids : s.1.ids = []) :
    (efSearch ≤ c.countBelow d ∧
      g.navixTurn qdis filterIdMap efSearch s = .done (s.1, { s.2 with candidates := c })) ∨
    ¬ efSearch ≤ c.countBelow d ∧
      ∃ s' new, g.navixTurn qdis filterIdMap efSearch s = .next s' ∧
        NavixStep g qdis filterIdMap v c s s' new := by
  by_cases hstop : efSearch ≤ c.countBelow d
  · refine Or.inl ⟨hstop, ?_⟩
    rw [HNSW.navixTurn, if_neg hsize, hpop]
    exact if_pos hstop
  · refine Or.inr ⟨hstop, ?_⟩
    rw [navixTurn_next hsize hpop hstop]
    obtain ⟨offered, hexp⟩ := navixExpand_spec qdis filterIdMap hg hv hids
      { s.2 with candidates := c, stats := { s.2.stats with nhops := s.2.stats.nhops + 1 } }
    generalize g.navixExpand qdis filterIdMap (g.neighborList v 0) s.1
      { s.2 with candidates := c, stats := { s.2.stats with nhops := s.2.stats.nhops + 1 } } = r
      at hexp ⊢
    obtain ⟨stats, hbatch⟩ := navixBatchComputeDistance_spec qdis r.1 r.2
    refine ⟨_, offered ++ r.1.ids, rfl, ?_⟩
    rw [hbatch]
    refine ⟨hexp.visits, hexp.covered, hexp.lt, hexp.of_all, ?_, ?_, rfl, hexp.keeps, hexp.fits⟩
    · rw [offerAll_append]
      exact congrArg (fun res ↦ offerAll qdis res r.1.ids) hexp.res_eq
    · rw [MinimaxHeap.pushAll_append]
      exact congrArg (fun c ↦ pushAll qdis c r.1.ids) hexp.candidates_eq

end FaissNavix
