import FaissNavix.Invlists.InvertedLists
import FaissNavix.Lib.Pareto
import Mathlib.Algebra.Order.Ring.Rat
import Mathlib.Data.List.GetD

/-!
# Operating points

`OperatingPoints` of `faiss/AutoTune.cpp` collects measurements of performance against time, and
keeps those among them that are Pareto-optimal.

`optimalPts` is always a front (`Lib.Pareto.IsFront`) that covers all the points and holds nothing
else (`OperatingPoints.Collects`), so that `t_for_perf` looks up the least time of any of the points
that perform well enough (`Collects.tForPerf_eq`).
-/

namespace FaissNavix

open Lib.Pareto (Covers Dominates IsFront lookup thin)

/-- `OperatingPoint`.  A string is a list of `char`s. -/
structure OperatingPoint where
  perf : ℚ
  t : ℚ
  key : List Char
  cno : ℤ
deriving DecidableEq

/-- Doing nothing gives no performance, and takes no time. -/
def OperatingPoint.idle : OperatingPoint where
  perf := 0
  t := 0
  key := []
  cno := -1

/-- `OperatingPoints`, as its constructor makes it. -/
structure OperatingPoints where
  allPts : List OperatingPoint := []
  optimalPts : List OperatingPoint := [OperatingPoint.idle]

/-- The double that is written `1e50`. -/
def noTime : ℚ := 100000000000000007629769841091887003294964970946560

theorem noTime_pos : 0 < noTime := by decide

namespace OperatingPoints

open OperatingPoint (idle)

/-- The loop that erases non-optimal points, from position `i` down. -/
def removeNonOptimal (a : List OperatingPoint) : ℕ → List OperatingPoint
  | 0 => a
  | i + 1 =>
      if (a.getD (i + 1) idle).t < (a.getD i idle).t then removeNonOptimal (a.eraseIdx i) i
      else removeNonOptimal a i

/-- `OperatingPoints::add`, with whether the point is kept. -/
def add (ops : OperatingPoints) (perf t : ℚ) (key : List Char) (cno : ℕ) :
    Except Fault (OperatingPoints × Bool) := do
  let op : OperatingPoint := ⟨perf, t, key, cno⟩
  let allPts := ops.allPts ++ [op]
  let a := ops.optimalPts
  let back := a.getLastD idle
  let keep (a : List OperatingPoint) : Except Fault (OperatingPoints × Bool) :=
    pure (⟨allPts, removeNonOptimal a (a.length - 1)⟩, true)
  let drop : Except Fault (OperatingPoints × Bool) := pure (⟨allPts, a⟩, false)
  -- no method for 0 accuracy is faster than doing nothing
  if perf = 0 then drop
  else if back.perf < perf then keep (a ++ [op])
  else if perf = back.perf then
    if t < back.t then keep (a.dropLast ++ [op]) else drop
  else do
    let i := a.findIdx fun x ↦ decide (perf ≤ x.perf)
    Fault.assert (decide (i < a.length)) "i < a.size()"
    if t < (a.getD i idle).t then
      if (a.getD i idle).perf = perf then keep (a.set i op) else keep (a.insertIdx i op)
    else drop

/-- The bisection of `t_for_perf`. -/
def bisectPerf (a : List OperatingPoint) (perf : ℚ) : ℕ → ℤ → ℤ → ℤ
  | 0, _, i1 => i1
  | fuel + 1, i0, i1 =>
      if i0 + 1 < i1 then
        let imed := (i0 + i1 + 1) / 2
        if (a.getD imed.toNat idle).perf < perf then bisectPerf a perf fuel imed i1
        else bisectPerf a perf fuel i0 imed
      else i1

/-- `OperatingPoints::t_for_perf` -/
def tForPerf (ops : OperatingPoints) (perf : ℚ) : ℚ :=
  let a := ops.optimalPts
  if (a.getLastD idle).perf < perf then noTime
  else (a.getD (bisectPerf a perf a.length (-1) (a.length - 1)).toNat idle).t

/-! ## Thinning out from the end -/

/-- The positions above `a.length` are done with. -/
theorem removeNonOptimal_append (a r : List OperatingPoint) (x : OperatingPoint) :
    removeNonOptimal (a ++ x :: r) a.length = thin OperatingPoint.t (a ++ [x]) ++ r := by
  induction a using List.reverseRecOn generalizing x r with
  | nil => rfl
  | append_singleton a y ih =>
      rw [List.length_append, List.length_singleton, removeNonOptimal, List.append_assoc,
        List.singleton_append]
      have hx : (a ++ y :: x :: r).getD (a.length + 1) idle = x := by simp
      have hy : (a ++ y :: x :: r).getD a.length idle = y := by simp
      rw [hx, hy, List.append_assoc, List.singleton_append]
      by_cases hxy : x.t < y.t
      · rw [if_pos hxy, List.eraseIdx_append_of_length_le le_rfl, Nat.sub_self,
          List.eraseIdx_cons_zero, ih]
        have hthin : thin OperatingPoint.t [y, x] = thin OperatingPoint.t [x] := by
          rw [thin, thin]
          exact if_pos hxy
        rw [Lib.Pareto.thin_append_congr hthin]
      · have hthin : thin OperatingPoint.t [y, x] = y :: [x] := by
          rw [thin, thin]
          exact if_neg hxy
        rw [if_neg hxy, ih, Lib.Pareto.thin_append_cons hthin, List.append_assoc,
          List.singleton_append]

theorem removeNonOptimal_eq {a : List OperatingPoint} (h : a ≠ []) :
    removeNonOptimal a (a.length - 1) = thin OperatingPoint.t a := by
  obtain ⟨a, x, rfl⟩ := List.eq_nil_or_concat' a |>.resolve_left h
  have hremove := removeNonOptimal_append a [] x
  rw [List.append_nil] at hremove
  rw [List.length_append, List.length_singleton, Nat.add_sub_cancel, hremove]

/-! ## Looking a performance up -/

def Rising (a : List OperatingPoint) : Prop := a.Pairwise fun x y ↦ x.perf < y.perf

theorem Rising.getD_lt {a : List OperatingPoint} (h : Rising a) {i j : ℕ} (hij : i < j)
    (hj : j < a.length) : (a.getD i idle).perf < (a.getD j idle).perf := by
  rw [List.getD_eq_getElem _ _ (hij.trans hj), List.getD_eq_getElem _ _ hj]
  exact List.pairwise_iff_getElem.mp h i j _ _ hij

/-- The invariant of the bisection is that the points up to `i0` perform worse, and that at `i1`
does not. -/
theorem bisectPerf_spec {a : List OperatingPoint} (h : Rising a) {perf : ℚ} {fuel : ℕ} {i0 i1 : ℤ}
    (hfuel : i1 ≤ i0 + 1 + fuel) (h0 : -1 ≤ i0) (hlt : i0 < i1) (h1 : i1 < a.length)
    (hbelow : ∀ j : ℕ, (j : ℤ) ≤ i0 → (a.getD j idle).perf < perf)
    (habove : perf ≤ (a.getD i1.toNat idle).perf) :
    ∃ i : ℕ, bisectPerf a perf fuel i0 i1 = i ∧ i < a.length ∧
      (∀ j < i, (a.getD j idle).perf < perf) ∧ perf ≤ (a.getD i idle).perf := by
  fun_induction bisectPerf a perf fuel i0 i1 with
  | case1 i0 i1 => exact ⟨i1.toNat, by omega, by omega, fun j hj ↦ hbelow j (by omega), habove⟩
  | case2 fuel i0 i1 hgap imed hmed ih =>
      have himed : imed = (i0 + i1 + 1) / 2 := rfl
      refine ih (by omega) (by omega) (by omega) h1 (fun j hj ↦ ?_) habove
      rcases Nat.lt_or_eq_of_le (by omega : j ≤ imed.toNat) with hj | rfl
      · exact (h.getD_lt hj (by omega)).trans hmed
      · exact hmed
  | case3 fuel i0 i1 hgap imed hmed ih =>
      have himed : imed = (i0 + i1 + 1) / 2 := rfl
      exact ih (by omega) h0 (by omega) (by omega) hbelow (not_lt.mp hmed)
  | case4 fuel i0 i1 hgap =>
      exact ⟨i1.toNat, by omega, by omega, fun j hj ↦ hbelow j (by omega), habove⟩

theorem getLastD_eq_getD (a : List OperatingPoint) :
    a.getLastD idle = a.getD (a.length - 1) idle := by
  rw [List.getLastD_eq_getLast?, List.getLast?_eq_getElem?, List.getD_eq_getElem?_getD]

/-- `t_for_perf` is the time of the first point that performs well enough. -/
theorem tForPerf_eq_lookup {ops : OperatingPoints} (h : Rising ops.optimalPts)
    (hne : ops.optimalPts ≠ []) (p : ℚ) :
    ops.tForPerf p = ((lookup OperatingPoint.perf ops.optimalPts p).map OperatingPoint.t).getD
      noTime := by
  have hlen := List.length_pos_iff.mpr hne
  unfold tForPerf
  dsimp only
  rw [getLastD_eq_getD]
  generalize ops.optimalPts = a at h hne hlen
  by_cases hback : (a.getD (a.length - 1) idle).perf < p
  · have hnone : lookup OperatingPoint.perf a p = none := by
      refine Lib.Pareto.lookup_eq_none.mpr fun x hx ↦ ?_
      obtain ⟨i, hi, rfl⟩ := List.getElem_of_mem hx
      rw [← List.getD_eq_getElem _ idle hi]
      rcases Nat.lt_or_eq_of_le (by omega : i ≤ a.length - 1) with hlt | rfl
      · exact (h.getD_lt hlt (by omega)).trans hback
      · exact hback
    rw [if_pos hback, hnone]
    rfl
  · have hend : p ≤ (a.getD ((a.length : ℤ) - 1).toNat idle).perf := by
      rw [show ((a.length : ℤ) - 1).toNat = a.length - 1 by omega]
      exact not_lt.mp hback
    obtain ⟨i, hi, hlt, hbelow, habove⟩ := bisectPerf_spec h
      (by omega : ((a.length : ℤ) - 1) ≤ -1 + 1 + a.length) le_rfl (by omega) (by omega)
      (fun j hj ↦ by omega) hend
    have hsome : lookup OperatingPoint.perf a p = some (a.getD i idle) := by
      refine List.find?_eq_some_iff_getElem.mpr ⟨decide_eq_true habove, i, hlt,
        (List.getD_eq_getElem _ _ hlt).symm, fun j hj ↦ ?_⟩
      have := hbelow j hj
      rw [List.getD_eq_getElem _ _ (hj.trans hlt)] at this
      simpa using this
    rw [if_neg hback, hi, hsome, Int.toNat_natCast]
    rfl

/-! ## What the points collect -/

/-- The optimal points are a front over all the points. -/
structure Collects (ops : OperatingPoints) : Prop where
  front : IsFront OperatingPoint.perf OperatingPoint.t ops.optimalPts
  covers : Covers OperatingPoint.perf OperatingPoint.t ops.optimalPts (idle :: ops.allPts)
  subset : ops.optimalPts ⊆ idle :: ops.allPts

theorem collects_empty : Collects {} where
  front := List.pairwise_singleton _ _
  covers := Covers.refl _
  subset := List.Subset.refl _

variable {ops : OperatingPoints}

theorem Collects.rising (h : ops.Collects) : Rising ops.optimalPts := h.front.imp fun hxy ↦ hxy.1

theorem Collects.optimalPts_ne_nil (h : ops.Collects) : ops.optimalPts ≠ [] := by
  obtain ⟨x, hx, -⟩ := h.covers idle List.mem_cons_self
  exact List.ne_nil_of_mem hx

theorem Collects.tForPerf_eq (h : ops.Collects) (p : ℚ) :
    ops.tForPerf p = ((lookup OperatingPoint.perf ops.optimalPts p).map OperatingPoint.t).getD
      noTime :=
  tForPerf_eq_lookup h.rising h.optimalPts_ne_nil p

section
variable {before after : List OperatingPoint} {x op : OperatingPoint}
  (h : Rising (before ++ x :: after)) (hbefore : ∀ y ∈ before, y.perf < op.perf)
include h hbefore

/-- A point takes the place of one that performs no worse, unless it performs as badly as the ones
before. -/
theorem Rising.replace (hx : op.perf ≤ x.perf) : Rising (before ++ op :: after) := by
  obtain ⟨hb, ha, hcross⟩ := List.pairwise_append.mp h
  obtain ⟨hxa, ha⟩ := List.pairwise_cons.mp ha
  refine List.pairwise_append.mpr ⟨hb, List.pairwise_cons.mpr
    ⟨fun z hz ↦ hx.trans_lt (hxa z hz), ha⟩, fun y hy z hz ↦ ?_⟩
  rcases List.mem_cons.mp hz with rfl | hz
  · exact hbefore y hy
  · exact hcross y hy z (List.mem_cons_of_mem x hz)

theorem Rising.insert (hx : op.perf < x.perf) : Rising (before ++ op :: x :: after) := by
  obtain ⟨hb, ha, hcross⟩ := List.pairwise_append.mp h
  refine List.pairwise_append.mpr ⟨hb, List.pairwise_cons.mpr ⟨fun z hz ↦ ?_, ha⟩,
    fun y hy z hz ↦ ?_⟩
  · rcases List.mem_cons.mp hz with rfl | hz
    · exact hx
    · exact hx.trans ((List.pairwise_cons.mp ha).1 z hz)
  · rcases List.mem_cons.mp hz with rfl | hz
    · exact hbefore y hy
    · exact hcross y hy z hz

end

/-- What is kept of a list that has the new point, and all the others that it does not beat. -/
theorem Collects.keep (h : ops.Collects) {op : OperatingPoint} {a : List OperatingPoint}
    (ha : Rising a) (hop : op ∈ a) (hsub : a ⊆ op :: ops.optimalPts)
    (hall : ∀ x ∈ ops.optimalPts, x ∈ a ∨ Dominates OperatingPoint.perf OperatingPoint.t op x) :
    Collects ⟨ops.allPts ++ [op], removeNonOptimal a (a.length - 1)⟩ := by
  have hnew : ∀ x, x ∈ idle :: (ops.allPts ++ [op]) ↔ x = op ∨ x ∈ idle :: ops.allPts := by
    intro x
    simp only [List.mem_cons, List.mem_append, List.mem_nil_iff, or_false]
    tauto
  rw [removeNonOptimal_eq (List.ne_nil_of_mem hop)]
  refine ⟨Lib.Pareto.isFront_thin ha, ?_, fun x hx ↦ (hnew x).mpr ?_⟩
  · refine (Lib.Pareto.covers_thin ha).trans fun x hx ↦ ?_
    rcases (hnew x).mp hx with rfl | hx
    · exact ⟨x, hop, Dominates.refl x⟩
    · obtain ⟨y, hy, hyx⟩ := h.covers x hx
      rcases hall y hy with hya | hdom
      · exact ⟨y, hya, hyx⟩
      · exact ⟨op, hop, hdom.trans hyx⟩
  · exact (List.mem_cons.mp (hsub ((Lib.Pareto.thin_sublist a).subset hx))).imp_right
      fun hx ↦ h.subset hx

theorem Collects.drop (h : ops.Collects) {op : OperatingPoint}
    (hop : ∃ x ∈ ops.optimalPts, Dominates OperatingPoint.perf OperatingPoint.t x op) :
    Collects ⟨ops.allPts ++ [op], ops.optimalPts⟩ := by
  refine ⟨h.front, fun x hx ↦ ?_, fun x hx ↦ ?_⟩
  · rcases List.mem_cons.mp hx with rfl | hx
    · exact h.covers _ List.mem_cons_self
    · rcases List.mem_append.mp hx with hx | hx
      · exact h.covers x (List.mem_cons_of_mem _ hx)
      · rwa [List.mem_singleton.mp hx]
  · rcases List.mem_cons.mp (h.subset hx) with rfl | hx
    · exact List.mem_cons_self
    · exact List.mem_cons_of_mem _ (List.mem_append_left _ hx)

/-- Where a performance comes among the points that are not all worse. -/
theorem exists_split {a : List OperatingPoint} {perf : ℚ}
    (hx : ∃ x ∈ a, perf ≤ x.perf) :
    ∃ before x after, a = before ++ x :: after ∧ perf ≤ x.perf ∧ (∀ y ∈ before, y.perf < perf) ∧
      (a.findIdx fun x ↦ decide (perf ≤ x.perf)) = before.length := by
  have hlt : (a.findIdx fun x ↦ decide (perf ≤ x.perf)) < a.length := by
    obtain ⟨x, hx, hp⟩ := hx
    exact List.findIdx_lt_length_of_exists ⟨x, hx, decide_eq_true hp⟩
  generalize hi : (a.findIdx fun x ↦ decide (perf ≤ x.perf)) = i at hlt
  obtain ⟨hfound, hbefore⟩ := (List.findIdx_eq hlt).mp hi
  refine ⟨a.take i, a[i], a.drop (i + 1), by simp, of_decide_eq_true hfound, fun y hy ↦ ?_,
    (List.length_take_of_le hlt.le).symm⟩
  obtain ⟨j, hj, rfl⟩ := List.getElem_of_mem hy
  rw [List.length_take_of_le hlt.le] at hj
  have := hbefore j hj
  simpa using this

theorem insertIdx_length (before after : List OperatingPoint) (op : OperatingPoint) :
    (before ++ after).insertIdx before.length op = before ++ op :: after := by
  induction before with
  | nil => rfl
  | cons x before ih =>
      rw [List.length_cons, List.cons_append, List.insertIdx_succ_cons, ih, List.cons_append]

/-- What `add` does: a point that is dominated is dropped, and any other takes its place among the
points by performance, perhaps that of a slower one. -/
theorem Collects.add_cases (h : ops.Collects) (perf : ℚ) {t : ℚ} (ht : 0 ≤ t) (key : List Char)
    (cno : ℕ) :
    (∃ x ∈ ops.optimalPts,
        Dominates OperatingPoint.perf OperatingPoint.t x ⟨perf, t, key, cno⟩ ∧
        ops.add perf t key cno = .ok (⟨ops.allPts ++ [⟨perf, t, key, cno⟩], ops.optimalPts⟩, false)) ∨
      (∀ x ∈ ops.optimalPts,
          ¬Dominates OperatingPoint.perf OperatingPoint.t x ⟨perf, t, key, cno⟩) ∧
        ∃ a, Rising a ∧ (⟨perf, t, key, cno⟩ : OperatingPoint) ∈ a ∧
          a ⊆ ⟨perf, t, key, cno⟩ :: ops.optimalPts ∧
          (∀ x ∈ ops.optimalPts, x ∈ a ∨ (x.perf = perf ∧ t < x.t)) ∧
          ops.add perf t key cno = .ok
            (⟨ops.allPts ++ [⟨perf, t, key, cno⟩], removeNonOptimal a (a.length - 1)⟩, true) := by
  obtain ⟨a', back, ha⟩ : ∃ a' back, ops.optimalPts = a' ++ [back] :=
    (List.eq_nil_or_concat' _).resolve_left h.optimalPts_ne_nil
  have hback : ops.optimalPts.getLastD idle = back := by rw [ha, List.getLastD_concat]
  have hmem : back ∈ ops.optimalPts := by simp [ha]
  have hrising := h.rising
  rw [ha] at hrising
  have hlast : ∀ x ∈ a', x.perf < back.perf := fun x hx ↦
    (List.pairwise_append.mp hrising).2.2 x hx back List.mem_cons_self
  have hle : ∀ x ∈ ops.optimalPts, x.perf ≤ back.perf := fun x hx ↦ by
    rw [ha] at hx
    rcases List.mem_append.mp hx with hx | hx
    · exact (hlast x hx).le
    · rw [List.mem_singleton.mp hx]
  unfold OperatingPoints.add
  dsimp only
  rw [hback]
  by_cases hzero : perf = 0
  · -- nothing is cheaper than doing nothing
    obtain ⟨x, hx, hdom⟩ := h.covers idle List.mem_cons_self
    rw [if_pos hzero]
    exact Or.inl ⟨x, hx, ⟨hzero ▸ hdom.1, hdom.2.trans ht⟩, rfl⟩
  rw [if_neg hzero]
  by_cases habove : back.perf < perf
  · rw [if_pos habove]
    refine Or.inr ⟨fun x hx hdom ↦ ?_, _, ?_, by simp, by simp, fun x hx ↦ Or.inl (by simp [hx]), rfl⟩
    · exact absurd (hdom.1.trans (hle x hx)) (not_le.mpr habove)
    rw [ha]
    refine List.pairwise_append.mpr ⟨hrising, List.pairwise_singleton _ _, fun x hx y hy ↦ ?_⟩
    rw [List.mem_singleton.mp hy]
    exact (hle x (ha ▸ hx)).trans_lt habove
  rw [if_neg habove]
  by_cases heq : perf = back.perf
  · rw [if_pos heq]
    by_cases hfaster : t < back.t
    · rw [if_pos hfaster, ha, List.dropLast_concat]
      refine Or.inr ⟨fun x hx hdom ↦ ?_, _, hrising.replace (fun x hx ↦ heq ▸ hlast x hx) heq.le,
        by simp, fun x hx ↦ ?_, fun x hx ↦ ?_, rfl⟩
      · rcases List.mem_append.mp hx with hx | hx
        · exact absurd (heq ▸ hdom.1) (not_le.mpr (hlast x hx))
        · rw [List.mem_singleton.mp hx] at hdom
          exact absurd hdom.2 (not_le.mpr hfaster)
      · simp only [List.mem_append, List.mem_cons] at hx ⊢
        tauto
      · rcases List.mem_append.mp hx with hx | hx
        · exact Or.inl (List.mem_append_left _ hx)
        · rw [List.mem_singleton.mp hx]
          exact Or.inr ⟨heq.symm, hfaster⟩
    · rw [if_neg hfaster]
      exact Or.inl ⟨back, hmem, ⟨heq.le, not_lt.mp hfaster⟩, rfl⟩
  rw [if_neg heq]
  obtain ⟨before, x, after, hsplit, hx, hbefore, hi⟩ :=
    exists_split ⟨back, hmem, not_lt.mp habove⟩
  have hrising := h.rising
  have hxmem : x ∈ ops.optimalPts := by simp [hsplit]
  have hget : ops.optimalPts.getD before.length idle = x := by simp [hsplit]
  have hlt : before.length < ops.optimalPts.length := by simp [hsplit]
  rw [hi, decide_eq_true hlt, Fault.assert_true, hget]
  by_cases hfaster : t < x.t
  · right
    refine ⟨fun y hy hdom ↦ ?_, ?_⟩
    · -- all points that perform as well are at least as slow as `x`
      have hfront := h.front
      rw [hsplit] at hy hfront
      rcases List.mem_append.mp hy with hy | hy
      · exact absurd hdom.1 (not_le.mpr (hbefore y hy))
      · rcases List.mem_cons.mp hy with rfl | hy
        · exact absurd hdom.2 (not_le.mpr hfaster)
        · have hcost := ((List.pairwise_cons.mp (List.pairwise_append.mp hfront).2.1).1 y hy).2
          exact absurd (hcost.trans hdom.2) (not_le.mpr hfaster)
    rw [hsplit] at hrising
    change ∃ a, Rising a ∧ _ ∧ _ ∧ _ ∧ (if t < x.t then _ else _) = _
    rw [if_pos hfaster]
    by_cases hsame : x.perf = perf
    · have hset : ops.optimalPts.set before.length ⟨perf, t, key, cno⟩ =
          before ++ ⟨perf, t, key, cno⟩ :: after := by simp [hsplit]
      rw [if_pos hsame, hset]
      refine ⟨_, hrising.replace hbefore hx, by simp, fun y hy ↦ ?_, fun y hy ↦ ?_, rfl⟩
      · rw [hsplit]
        simp only [List.mem_append, List.mem_cons] at hy ⊢
        tauto
      · rw [hsplit] at hy
        rcases List.mem_append.mp hy with hy | hy
        · exact Or.inl (List.mem_append_left _ hy)
        · rcases List.mem_cons.mp hy with rfl | hy
          · exact Or.inr ⟨hsame, hfaster⟩
          · exact Or.inl (List.mem_append_right _ (List.mem_cons_of_mem _ hy))
    · have hinsert : ops.optimalPts.insertIdx before.length ⟨perf, t, key, cno⟩ =
          before ++ ⟨perf, t, key, cno⟩ :: x :: after := by
        rw [hsplit, insertIdx_length]
      rw [if_neg hsame, hinsert]
      refine ⟨_, hrising.insert hbefore (lt_of_le_of_ne hx (Ne.symm hsame)), by simp,
        fun y hy ↦ ?_, fun y hy ↦ Or.inl ?_, rfl⟩
      · rw [hsplit]
        simp only [List.mem_append, List.mem_cons] at hy ⊢
        tauto
      · rw [hsplit] at hy
        simp only [List.mem_append, List.mem_cons] at hy ⊢
        tauto
  · left
    refine ⟨x, hxmem, ⟨hx, not_lt.mp hfaster⟩, ?_⟩
    change (if t < x.t then _ else _) = _
    rw [if_neg hfaster]
    rfl

/-- `add` keeps what the points are, and never runs past their end. -/
theorem Collects.add (h : ops.Collects) (perf : ℚ) {t : ℚ} (ht : 0 ≤ t)
    (key : List Char) (cno : ℕ) :
    ∃ r, ops.add perf t key cno = .ok r ∧ r.1.allPts = ops.allPts ++ [⟨perf, t, key, cno⟩] ∧
      r.1.Collects := by
  rcases h.add_cases perf ht key cno with ⟨x, hx, hdom, hadd⟩ | ⟨-, a, ha, hop, hsub, hall, hadd⟩
  · exact ⟨_, hadd, rfl, h.drop ⟨x, hx, hdom⟩⟩
  · exact ⟨_, hadd, rfl, h.keep ha hop hsub fun x hx ↦
      (hall x hx).imp_right fun hslow ↦ ⟨hslow.1.le, hslow.2.le⟩⟩

end OperatingPoints

end FaissNavix
