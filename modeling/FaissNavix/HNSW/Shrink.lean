import FaissNavix.HNSW.NeighborsToAdd

/-!
# Shrinking lists of neighbours

The two functions `shrink_neighbor_list` of `faiss/impl/HNSW.cpp`.  The member function goes through
the candidates from the nearest to the farthest and keeps those that no kept one is closer to than
the query is; the other one, which the insertions call, leaves a queue alone that is small enough
and puts what is kept back into it otherwise.

Whatever the distances are, no candidate is kept twice, and no more than the list has room for.
-/

namespace FaissNavix

open Lib.PriorityQueue (pop drain pushEach pop_perm drain_perm pushEach_nil_perm)

/-- The loop that fills the output up with outsiders. -/
def fillUp (maxSize : ℕ) : List Node → List Node → List Node
  | [], output => output
  | v :: outsiders, output =>
    if output.length < maxSize then fillUp maxSize outsiders (output ++ [v]) else output

/-- The last lines of `HNSW::shrink_neighbor_list`. -/
def finishShrink (maxSize : ℕ) (keepMaxSizeLevel0 : Bool) (outsiders output : List Node) :
    List Node :=
  if keepMaxSizeLevel0 then fillUp maxSize outsiders output else output

/-- `HNSW::shrink_neighbor_list`; the first argument bounds the number of candidates.  What a kept
vertex and a candidate are apart is a matter of `symmetricDis`. -/
def HNSW.shrinkNeighborList (symmetricDis : ℕ → ℕ → F32) (maxSize : ℕ) (keepMaxSizeLevel0 : Bool) :
    ℕ → List Node → List Node → List Node → List Node
  | 0, _, output, outsiders => finishShrink maxSize keepMaxSizeLevel0 outsiders output
  | n + 1, input, output, outsiders =>
    match pop farther input with
    | none => finishShrink maxSize keepMaxSizeLevel0 outsiders output
    | some (v1, input) =>
      if output.all fun v2 ↦ !decide (symmetricDis v2.2 v1.2 < v1.1) then
        let output := output ++ [v1]
        if maxSize ≤ output.length then output
        else shrinkNeighborList symmetricDis maxSize keepMaxSizeLevel0 n input output outsiders
      else
        let outsiders := if keepMaxSizeLevel0 then outsiders ++ [v1] else outsiders
        shrinkNeighborList symmetricDis maxSize keepMaxSizeLevel0 n input output outsiders

/-- `shrink_neighbor_list` -/
def shrinkNeighborList (symmetricDis : ℕ → ℕ → F32) (resultSet1 : List Node) (maxSize : ℕ)
    (keepMaxSizeLevel0 : Bool) : List Node :=
  if resultSet1.length < maxSize then resultSet1
  else
    let resultSet := pushEach [] (drain closer resultSet1.length resultSet1)
    pushEach [] (HNSW.shrinkNeighborList symmetricDis maxSize keepMaxSizeLevel0 resultSet.length
      resultSet [] [])

/-! ## What is kept -/

variable {maxSize : ℕ} (symmetricDis : ℕ → ℕ → F32) (keepMaxSizeLevel0 : Bool)

/-- At most `maxSize` elements of `all`, none more often than it is there. -/
structure Kept (maxSize : ℕ) (all : Multiset Node) (kept : List Node) : Prop where
  le : (↑kept : Multiset Node) ≤ all
  length_le : kept.length ≤ maxSize

theorem kept_fillUp (outsiders output : List Node) (h : output.length ≤ maxSize) :
    Kept maxSize (↑output + ↑outsiders) (fillUp maxSize outsiders output) := by
  induction outsiders generalizing output with
  | nil => exact ⟨by rw [fillUp]; simp, h⟩
  | cons v outsiders ih =>
      rw [fillUp]
      split
      · next hlt =>
        obtain ⟨hle, hlen⟩ := ih (output ++ [v]) (by rw [List.length_append]; exact hlt)
        refine ⟨hle.trans (le_of_eq ?_), hlen⟩
        rw [← Multiset.coe_add, add_assoc, Multiset.coe_add [v] outsiders]
        rfl
      · exact ⟨Multiset.le_add_right _ _, h⟩

theorem kept_finishShrink (outsiders output : List Node) (h : output.length ≤ maxSize) :
    Kept maxSize (↑output + ↑outsiders)
      (finishShrink maxSize keepMaxSizeLevel0 outsiders output) := by
  rw [finishShrink]
  split
  · exact kept_fillUp outsiders output h
  · exact ⟨Multiset.le_add_right _ _, h⟩

theorem coe_snoc (l : List Node) (v : Node) : (↑(l ++ [v]) : Multiset Node) = v ::ₘ ↑l :=
  Multiset.coe_eq_coe.mpr (List.perm_append_singleton v l)

/-- The loop keeps some of the candidates it goes through and of those it has put aside. -/
theorem kept_shrinkLoop (n : ℕ) (input output outsiders : List Node)
    (h : output.length < maxSize) :
    Kept maxSize (↑output + ↑outsiders + ↑input)
      (HNSW.shrinkNeighborList symmetricDis maxSize keepMaxSizeLevel0 n input output outsiders) := by
  induction n generalizing input output outsiders with
  | zero =>
      obtain ⟨hle, hlen⟩ := kept_finishShrink keepMaxSizeLevel0 outsiders output h.le
      exact ⟨hle.trans (Multiset.le_add_right _ _), hlen⟩
  | succ n ih =>
      rw [HNSW.shrinkNeighborList]
      split
      · obtain ⟨hle, hlen⟩ := kept_finishShrink keepMaxSizeLevel0 outsiders output h.le
        exact ⟨hle.trans (Multiset.le_add_right _ _), hlen⟩
      · next v1 input' hpop =>
        rw [Multiset.coe_eq_coe.mpr (pop_perm hpop), ← Multiset.cons_coe, Multiset.add_cons]
        dsimp only
        split
        · split
          · refine ⟨?_, by rw [List.length_append]; exact h⟩
            rw [coe_snoc, add_assoc]
            exact Multiset.cons_le_cons v1 (Multiset.le_add_right _ _)
          · next hroom =>
            have hkept := ih input' (output ++ [v1]) outsiders (Nat.lt_of_not_le hroom)
            rw [coe_snoc, Multiset.cons_add, Multiset.cons_add] at hkept
            exact hkept
        · obtain ⟨hle, hlen⟩ := ih input' output
            (if keepMaxSizeLevel0 then outsiders ++ [v1] else outsiders) h
          refine ⟨hle.trans ?_, hlen⟩
          cases keepMaxSizeLevel0 with
          | false => exact Multiset.le_cons_self _ _
          | true => rw [if_pos rfl, coe_snoc, Multiset.add_cons, Multiset.cons_add]

/-- Shrinking a queue keeps at most `maxSize` of its elements. -/
theorem kept_shrinkNeighborList (resultSet1 : List Node) (h : 1 ≤ maxSize) :
    Kept maxSize ↑resultSet1
      (shrinkNeighborList symmetricDis resultSet1 maxSize keepMaxSizeLevel0) := by
  rw [shrinkNeighborList]
  split
  · next hlt => exact ⟨le_rfl, hlt.le⟩
  · dsimp only
    have hdrain : (pushEach [] (drain closer resultSet1.length resultSet1)).Perm resultSet1 :=
      (pushEach_nil_perm _).trans (drain_perm _ _ le_rfl)
    generalize pushEach [] (drain closer resultSet1.length resultSet1) = resultSet at hdrain ⊢
    obtain ⟨hle, hlen⟩ := kept_shrinkLoop symmetricDis keepMaxSizeLevel0 resultSet.length resultSet
      [] [] h
    generalize HNSW.shrinkNeighborList symmetricDis maxSize keepMaxSizeLevel0 resultSet.length
      resultSet [] [] = kept at hle hlen ⊢
    have hpush := pushEach_nil_perm kept
    refine ⟨?_, hpush.length_eq.trans_le hlen⟩
    rw [Multiset.coe_eq_coe.mpr hpush, ← Multiset.coe_eq_coe.mpr hdrain]
    simpa using hle

theorem nodeIds_mono {q q' : List Node} (h : (↑q : Multiset Node) ≤ ↑q') :
    nodeIds q ≤ nodeIds q' :=
  Multiset.map_le_map h

theorem drain_shrinkNeighborList (resultSet1 : List Node) (h : 1 ≤ maxSize) {kept : List Node}
    (hkept : shrinkNeighborList symmetricDis resultSet1 maxSize keepMaxSizeLevel0 = kept) :
    (↑((drain closer kept.length kept).map Prod.snd) : Multiset ℕ) ≤ nodeIds resultSet1 ∧
      ((drain closer kept.length kept).map Prod.snd).length ≤ maxSize := by
  obtain ⟨hle, hlen⟩ := kept_shrinkNeighborList symmetricDis keepMaxSizeLevel0 resultSet1 h
  rw [hkept] at hle hlen
  have hdrain : (drain closer kept.length kept).Perm kept := drain_perm _ _ le_rfl
  refine ⟨?_, ?_⟩
  · rw [Multiset.coe_eq_coe.mpr (hdrain.map Prod.snd)]
    exact nodeIds_mono hle
  · rw [List.length_map, hdrain.length_eq]
    exact hlen

end FaissNavix

/-!
# The neighbours that are kept

`HNSW::shrink_neighbor_list` goes through the candidates in the order they leave the queue in.  A
candidate is kept if no earlier kept one is strictly closer to it than the query is.  The loop ends
early once enough are kept; without that, and with `keep_max_size_level0`, the list is filled up with
candidates that were not kept.
-/

namespace FaissNavix

open Lib.BinaryHeap (Refines)
open Lib.PriorityQueue (pop drain pop_perm pop_eq_none drain_perm pairwise_drain)

theorem farther_refines :
    Refines (fun x y ↦ farther y x) (fun x : Node ↦ -x.1.key) (fun x ↦ x.1.Comparable) where
  le_of_gt {x y} hx hy h := by
    have hlt : x.1 < y.1 := of_decide_eq_true h
    exact neg_le_neg (F32.lt_iff.mp hlt).2.2.le
  le_of_not_gt {x y} hx hy h := by
    have hnot : ¬ x.1 < y.1 := of_decide_eq_false h
    exact neg_le_neg ((F32.not_lt_iff hx hy).mp hnot)

/-- Candidates that are examined one after the other, and those of them that are kept. -/
inductive Pruning (symmetricDis : ℕ → ℕ → F32) : List Node → List Node → Prop where
  | nil : Pruning symmetricDis [] []
  /-- No earlier kept one is closer to the candidate than the query. -/
  | keep {examined kept : List Node} {v1 : Node} (h : Pruning symmetricDis examined kept)
      (hgood : ∀ v2 ∈ kept, ¬ symmetricDis v2.2 v1.2 < v1.1) :
      Pruning symmetricDis (examined ++ [v1]) (kept ++ [v1])
  /-- An earlier kept one is closer to the candidate than the query. -/
  | drop {examined kept : List Node} {v1 v2 : Node} (h : Pruning symmetricDis examined kept)
      (hv2 : v2 ∈ kept) (hcloser : symmetricDis v2.2 v1.2 < v1.1) :
      Pruning symmetricDis (examined ++ [v1]) kept

namespace Pruning

variable {symmetricDis : ℕ → ℕ → F32} {examined kept : List Node}

theorem sublist (h : Pruning symmetricDis examined kept) : kept.Sublist examined := by
  induction h with
  | nil => exact List.Sublist.refl _
  | keep h hgood ih => exact ih.append (List.Sublist.refl _)
  | drop h hv2 hcloser ih => exact ih.trans (List.sublist_append_left _ _)

theorem diverse (h : Pruning symmetricDis examined kept) :
    kept.Pairwise fun v2 v1 ↦ ¬ symmetricDis v2.2 v1.2 < v1.1 := by
  induction h with
  | nil => exact List.Pairwise.nil
  | keep h hgood ih =>
      refine List.pairwise_append.mpr ⟨ih, List.pairwise_singleton _ _, fun v2 hv2 v1 hv1 ↦ ?_⟩
      rw [List.mem_singleton.mp hv1]
      exact hgood v2 hv2
  | drop h hv2 hcloser ih => exact ih

theorem head_eq (h : Pruning symmetricDis examined kept) : kept.head? = examined.head? := by
  induction h with
  | nil => rfl
  | @keep examined kept v1 h hgood ih =>
      rw [List.head?_append, List.head?_append, ih]
  | @drop examined kept v1 v2 h hv2 hcloser ih =>
      rw [List.head?_append, ← ih]
      cases kept with
      | nil => exact absurd hv2 List.not_mem_nil
      | cons v kept => rfl

end Pruning

section Loop

variable (symmetricDis : ℕ → ℕ → F32) {maxSize : ℕ}

theorem all_good_iff {output : List Node} {v1 : Node} :
    (output.all fun v2 ↦ !decide (symmetricDis v2.2 v1.2 < v1.1)) = true ↔
      ∀ v2 ∈ output, ¬ symmetricDis v2.2 v1.2 < v1.1 := by
  rw [List.all_eq_true]
  refine forall₂_congr fun v2 _ ↦ ?_
  rw [Bool.not_eq_true', decide_eq_false_iff_not]

/-- The loop examines candidates in the order they leave the queue in, until none is left or enough are
kept. -/
theorem pruning_shrinkLoop (n : ℕ) (input output outsiders examined : List Node)
    (hn : input.length ≤ n) (hroom : output.length < maxSize)
    (h : Pruning symmetricDis examined output) :
    ∃ next, next <+: drain farther n input ∧
      Pruning symmetricDis (examined ++ next)
        (HNSW.shrinkNeighborList symmetricDis maxSize false n input output outsiders) ∧
      (next = drain farther n input ∨
        (HNSW.shrinkNeighborList symmetricDis maxSize false n input output outsiders).length =
          maxSize) := by
  induction n generalizing input output outsiders examined with
  | zero =>
      refine ⟨[], List.nil_prefix, ?_, Or.inl rfl⟩
      rw [List.append_nil]
      exact h
  | succ n ih =>
      rw [HNSW.shrinkNeighborList, drain]
      cases hpop : pop farther input with
      | none =>
          refine ⟨[], List.nil_prefix, ?_, Or.inl rfl⟩
          rw [List.append_nil]
          exact h
      | some r =>
          obtain ⟨v1, input'⟩ := r
          have hlen := (pop_perm hpop).length_eq
          rw [List.length_cons] at hlen
          dsimp only
          by_cases hgood : (output.all fun v2 ↦ !decide (symmetricDis v2.2 v1.2 < v1.1)) = true
          · rw [if_pos hgood]
            have hkeep := h.keep ((all_good_iff _).mp hgood)
            by_cases hfull : maxSize ≤ (output ++ [v1]).length
            · -- the early return
              rw [if_pos hfull]
              refine ⟨[v1], ⟨_, rfl⟩, hkeep, Or.inr ?_⟩
              rw [List.length_append, List.length_singleton] at hfull ⊢
              omega
            · rw [if_neg hfull]
              obtain ⟨next, hnext, hprune, hend⟩ :=
                ih input' (output ++ [v1]) outsiders _ (by omega) (Nat.lt_of_not_le hfull) hkeep
              refine ⟨v1 :: next, List.cons_prefix_cons.mpr ⟨rfl, hnext⟩, ?_, ?_⟩
              · rw [List.append_cons]
                exact hprune
              · exact hend.imp (congrArg (List.cons v1)) id
          · rw [if_neg hgood]
            obtain ⟨v2, hv2, hcloser⟩ : ∃ v2 ∈ output, symmetricDis v2.2 v1.2 < v1.1 := by
              by_contra hnone
              exact hgood ((all_good_iff _).mpr fun v2 hv2 hcloser ↦ hnone ⟨v2, hv2, hcloser⟩)
            obtain ⟨next, hnext, hprune, hend⟩ :=
              ih input' output outsiders _ (by omega) hroom (h.drop hv2 hcloser)
            refine ⟨v1 :: next, List.cons_prefix_cons.mpr ⟨rfl, hnext⟩, ?_, ?_⟩
            · rw [List.append_cons]
              exact hprune
            · exact hend.imp (congrArg (List.cons v1)) id

theorem length_fillUp (outsiders output : List Node) (h : output.length ≤ maxSize) :
    (fillUp maxSize outsiders output).length =
      min maxSize (output.length + outsiders.length) := by
  induction outsiders generalizing output with
  | nil =>
      rw [fillUp, List.length_nil, Nat.add_zero, min_eq_right h]
  | cons v outsiders ih =>
      rw [fillUp]
      split
      · next hlt =>
        rw [ih (output ++ [v]) (by rw [List.length_append]; exact hlt), List.length_append,
          List.length_singleton, List.length_cons]
        omega
      · next hfull =>
        rw [List.length_cons]
        omega

/-- With `keep_max_size_level0`, no room is left that a candidate could have. -/
theorem length_shrinkLoop (n : ℕ) (input output outsiders : List Node) (hn : input.length ≤ n)
    (hroom : output.length < maxSize) :
    (HNSW.shrinkNeighborList symmetricDis maxSize true n input output outsiders).length =
      min maxSize (output.length + outsiders.length + input.length) := by
  induction n generalizing input output outsiders with
  | zero =>
      rw [Nat.le_zero.mp hn, Nat.add_zero]
      exact length_fillUp outsiders output hroom.le
  | succ n ih =>
      rw [HNSW.shrinkNeighborList]
      cases hpop : pop farther input with
      | none =>
          rw [pop_eq_none.mp hpop, List.length_nil, Nat.add_zero]
          exact length_fillUp outsiders output hroom.le
      | some r =>
          obtain ⟨v1, input'⟩ := r
          have hlen := (pop_perm hpop).length_eq
          rw [List.length_cons] at hlen
          dsimp only
          split
          · split
            · next hfull =>
              rw [List.length_append, List.length_singleton] at hfull ⊢
              omega
            · next hfull =>
              rw [ih input' (output ++ [v1]) outsiders (by omega) (Nat.lt_of_not_le hfull),
                List.length_append, List.length_singleton]
              omega
          · rw [if_pos rfl, ih input' output (outsiders ++ [v1]) (by omega) hroom,
              List.length_append, List.length_singleton]
            omega

end Loop

/-! ## The lists of neighbours -/

/-- The list `kept` of neighbours that candidates are reduced to. -/
structure DiverseNeighbors (symmetricDis : ℕ → ℕ → F32) (maxSize : ℕ) (input kept : List Node) :
    Prop where
  /-- From the nearest to the farthest. -/
  sorted : kept.Pairwise fun u v ↦ ¬ v.1 < u.1
  /-- The first one is a nearest candidate. -/
  nearest : ∀ x ∈ input, ∃ u, kept.head? = some u ∧ ¬ x.1 < u.1
  /-- None is closer to an earlier one than to the query. -/
  diverse : kept.Pairwise fun u v ↦ ¬ symmetricDis u.2 v.2 < v.1
  /-- All candidates are examined, or as many of them as it takes to fill the list. -/
  dropped : ∃ examined, examined <+: drain farther input.length input ∧
    Pruning symmetricDis examined kept ∧
    (examined = drain farther input.length input ∨ kept.length = maxSize)

theorem Kept.nodup {maxSize : ℕ} {input kept : List Node} (h : Kept maxSize ↑input kept)
    (hinput : (input.map Prod.snd).Nodup) : (kept.map Prod.snd).Nodup :=
  Multiset.coe_nodup.mp (Multiset.nodup_of_le (Multiset.map_le_map h.le) hinput)

theorem kept_shrinkNeighborList_empty (symmetricDis : ℕ → ℕ → F32) {maxSize : ℕ} (hmax : 1 ≤ maxSize)
    (keepMaxSizeLevel0 : Bool) (input : List Node) :
    Kept maxSize ↑input (HNSW.shrinkNeighborList symmetricDis maxSize keepMaxSizeLevel0 input.length
      input [] []) := by
  have hkept := kept_shrinkLoop symmetricDis keepMaxSizeLevel0 input.length input [] [] hmax
  rwa [Multiset.coe_nil, zero_add, zero_add] at hkept

theorem diverseNeighbors_shrinkNeighborList (symmetricDis : ℕ → ℕ → F32) {maxSize : ℕ}
    (hmax : 1 ≤ maxSize) {input : List Node} (hinput : ∀ x ∈ input, x.1.Comparable) :
    DiverseNeighbors symmetricDis maxSize input
      (HNSW.shrinkNeighborList symmetricDis maxSize false input.length input [] []) := by
  obtain ⟨examined, hfront, hprune, hend⟩ := pruning_shrinkLoop symmetricDis input.length
    input [] [] [] le_rfl hmax .nil
  rw [List.nil_append] at hprune
  generalize HNSW.shrinkNeighborList symmetricDis maxSize false input.length input [] [] = kept
    at hprune hend
  have hperm : (drain farther input.length input).Perm input := drain_perm _ _ le_rfl
  have hsorted := pairwise_drain farther_refines input.length le_rfl hinput
  have hcomparable : ∀ x ∈ drain farther input.length input, x.1.Comparable := fun x hx ↦
    hinput x (hperm.mem_iff.mp hx)
  have hsub : kept.Sublist (drain farther input.length input) :=
    hprune.sublist.trans hfront.sublist
  refine ⟨?_, fun x hx ↦ ?_, hprune.diverse, examined, hfront, hprune, hend⟩
  · refine (hsorted.sublist hsub).imp_of_mem fun {u v} hu hv hle ↦ ?_
    rw [F32.not_lt_iff (hcomparable v (hsub.subset hv)) (hcomparable u (hsub.subset hu))]
    exact neg_le_neg_iff.mp hle
  · have hx' : x ∈ drain farther input.length input := hperm.mem_iff.mpr hx
    cases hdrain : drain farther input.length input with
    | nil =>
        rw [hdrain] at hx'
        exact absurd hx' List.not_mem_nil
    | cons u rest =>
        rw [hdrain] at hx' hsorted hcomparable hfront hend
        -- the loop does not end before the first candidate is examined
        have hhead : examined.head? = some u := by
          cases examined with
          | nil =>
              rcases hend with hend | hend
              · cases hend
              · rw [List.eq_nil_of_sublist_nil hprune.sublist] at hend
                exact absurd hend (by rw [List.length_nil]; omega)
          | cons v examined => rw [(List.cons_prefix_cons.mp hfront).1, List.head?_cons]
        refine ⟨u, hprune.head_eq.trans hhead, ?_⟩
        rw [F32.not_lt_iff (hcomparable x hx') (hcomparable u List.mem_cons_self)]
        rcases List.mem_cons.mp hx' with rfl | hrest
        · exact le_rfl
        · exact neg_le_neg_iff.mp ((List.pairwise_cons.mp hsorted).1 x hrest)

/-- `HNSW::shrink_neighbor_list` keeps at most `max_size` candidates, each at most as often as it is in
the queue.  Without `keep_max_size_level0` they are a diverse list, and with it there are as many of
them as there is room for. -/
theorem shrinkNeighborList_diverse (symmetricDis : ℕ → ℕ → F32) {maxSize : ℕ} (hmax : 1 ≤ maxSize)
    {input : List Node} (hinput : ∀ x ∈ input, x.1.Comparable) :
    (∀ keepMaxSizeLevel0, ∀ kept, kept = HNSW.shrinkNeighborList symmetricDis maxSize
        keepMaxSizeLevel0 input.length input [] [] →
      Kept maxSize ↑input kept ∧
        ((input.map Prod.snd).Nodup → (kept.map Prod.snd).Nodup)) ∧
    DiverseNeighbors symmetricDis maxSize input
      (HNSW.shrinkNeighborList symmetricDis maxSize false input.length input [] []) ∧
    (HNSW.shrinkNeighborList symmetricDis maxSize true input.length input [] []).length =
      min maxSize input.length := by
  refine ⟨fun keepMaxSizeLevel0 kept hkept ↦ ?_,
    diverseNeighbors_shrinkNeighborList symmetricDis hmax hinput, ?_⟩
  · have h := kept_shrinkNeighborList_empty symmetricDis hmax keepMaxSizeLevel0 input
    rw [← hkept] at h
    exact ⟨h, h.nodup⟩
  · have hlen := length_shrinkLoop symmetricDis input.length input [] [] le_rfl hmax
    rwa [List.length_nil, Nat.zero_add] at hlen

/-- Of three candidates, the second one is dropped. -/
theorem shrinkNeighborList_diverse_three :
    DiverseNeighbors (fun u v ↦ if u + v = 1 then ⟨1⟩ else ⟨9⟩) 2
        [(⟨2⟩, 0), (⟨3⟩, 1), (⟨4⟩, 2)]
        (HNSW.shrinkNeighborList (fun u v ↦ if u + v = 1 then ⟨1⟩ else ⟨9⟩) 2 false 3
          [(⟨2⟩, 0), (⟨3⟩, 1), (⟨4⟩, 2)] [] []) ∧
      (HNSW.shrinkNeighborList (fun u v ↦ if u + v = 1 then ⟨1⟩ else ⟨9⟩) 2 true 3
          [(⟨2⟩, 0), (⟨3⟩, 1), (⟨4⟩, 2)] [] []).length = 2 :=
  (shrinkNeighborList_diverse (fun u v ↦ if u + v = 1 then ⟨1⟩ else ⟨9⟩) (by decide)
    (by decide)).2

end FaissNavix
