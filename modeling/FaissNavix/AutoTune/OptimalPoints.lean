import FaissNavix.AutoTune.OperatingPoints

/-!
# Operating points in any order

Which points `OperatingPoints::add` keeps when it is called with one point after the other.  A new
point is kept unless an old one performs no worse and takes no more time, and then throws out the
points that perform no better and take more time (`OperatingPoints.Collects.mem_add`).

The loop of `add` that removes points compares times with `<`.  A point that performs worse than the
new one in the same time stays, so that the points that are kept are the optimal ones only if no such
point comes before one that beats it (`optimalPts_eq_front_iff`).
-/

namespace FaissNavix

open Lib.Pareto (Covers Dominates IsFront lookup thin)

/-- The arguments of a call of `add`. -/
structure AddedPoint where
  perf : ℚ
  t : ℚ
  key : List Char
  cno : ℕ

namespace AddedPoint

/-- `x` performs no worse than `y` and takes no more time. -/
def Covers (x y : AddedPoint) : Prop := y.perf ≤ x.perf ∧ x.t ≤ y.t

/-- `x` performs no worse than `y` and takes less time. -/
def Outruns (x y : AddedPoint) : Prop := y.perf ≤ x.perf ∧ x.t < y.t

/-- `x` is better than `y` in performance or in time, and not worse in the other. -/
def Beats (x y : AddedPoint) : Prop := x.Covers y ∧ (y.perf < x.perf ∨ x.t < y.t)

end AddedPoint

namespace OperatingPoints

open OperatingPoint (idle)

/-- The pair of `perf` and `t` is that of a point that is not beaten by any other one. -/
def OnFront (calls : List AddedPoint) (perf t : ℚ) : Prop :=
  0 < perf ∧ ∃ x ∈ calls, x.perf = perf ∧ x.t = t ∧ ∀ y ∈ calls, ¬y.Beats x

/-- The pair of `perf` and `t` is that of a point that nothing covered when it came, and that nothing
outran afterwards. -/
def Kept (calls : List AddedPoint) (perf t : ℚ) : Prop :=
  0 < perf ∧ ∃ before x after, calls = before ++ x :: after ∧ x.perf = perf ∧ x.t = t ∧
    (∀ y ∈ before, ¬y.Covers x) ∧ ∀ y ∈ after, ¬y.Outruns x

/-- A point that nothing covered when it came is outrun, if a point that performs better in the same
time comes after it. -/
def InTime (calls : List AddedPoint) : Prop :=
  ∀ before x after, calls = before ++ x :: after → 0 < x.perf → (∀ y ∈ before, ¬y.Covers x) →
    (∃ y ∈ after, x.perf < y.perf ∧ y.t = x.t) → ∃ z ∈ after, z.Outruns x

/-- `time` is the least time of the points that perform as well as `p`, doing nothing included, if there
are any. -/
def IsTimeFor (calls : List AddedPoint) (p time : ℚ) : Prop :=
  (p ≤ 0 ∨ ∃ x ∈ calls, p ≤ x.perf) ∧
      IsLeast {t | (p ≤ 0 ∧ t = 0) ∨ ∃ x ∈ calls, p ≤ x.perf ∧ x.t = t} time ∨
    ¬(p ≤ 0 ∨ ∃ x ∈ calls, p ≤ x.perf) ∧ time = noTime

/-- `add`, call after call. -/
def addAll (ops : OperatingPoints) (calls : List AddedPoint) : Except Fault OperatingPoints :=
  calls.foldlM (fun ops x ↦ (ops.add x.perf x.t x.key x.cno).map Prod.fst) ops

def HasPair (ops : OperatingPoints) (perf t : ℚ) : Prop :=
  ∃ x ∈ ops.optimalPts, x.perf = perf ∧ x.t = t

variable {ops : OperatingPoints} {calls : List AddedPoint}

theorem Rising.eq_of_perf_eq {a : List OperatingPoint} (h : Rising a) {x y : OperatingPoint}
    (hx : x ∈ a) (hy : y ∈ a) (hxy : x.perf = y.perf) : x = y := by
  induction a with
  | nil => exact absurd hx List.not_mem_nil
  | cons z a ih =>
      obtain ⟨hz, ha⟩ := List.pairwise_cons.mp h
      rcases List.mem_cons.mp hx with rfl | hx
      · rcases List.mem_cons.mp hy with rfl | hy
        · rfl
        · exact absurd hxy (hz y hy).ne
      · rcases List.mem_cons.mp hy with heq | hy
        · rw [heq] at hxy
          exact absurd hxy (hz x hx).ne'
        · exact ih ha hx hy

/-! ## One call -/

/-- The points after a call are the old ones that the new one does not outrun, and the new one unless
an old one covers it. -/
theorem Collects.mem_add (h : ops.Collects) (perf : ℚ) {t : ℚ} (ht : 0 ≤ t) (key : List Char)
    (cno : ℕ) :
    ∃ r, ops.add perf t key cno = .ok r ∧ r.1.allPts = ops.allPts ++ [⟨perf, t, key, cno⟩] ∧
      r.1.Collects ∧ ∀ x, x ∈ r.1.optimalPts ↔
        (x ∈ ops.optimalPts ∧ ¬(x.perf ≤ perf ∧ t < x.t)) ∨
          (x = ⟨perf, t, key, cno⟩ ∧
            ∀ y ∈ ops.optimalPts, ¬Dominates OperatingPoint.perf OperatingPoint.t y x) := by
  rcases h.add_cases perf ht key cno with
    ⟨y, hy, hdom, hadd⟩ | ⟨hfree, a, ha, hop, hsub, hall, hadd⟩
  · refine ⟨_, hadd, rfl, h.drop ⟨y, hy, hdom⟩, fun x ↦ ⟨fun hx ↦ Or.inl ⟨hx, fun hout ↦ ?_⟩, ?_⟩⟩
    · exact absurd (h.front.cost_le hx hy (hout.1.trans hdom.1))
        (not_le.mpr (hdom.2.trans_lt hout.2))
    · rintro (⟨hx, -⟩ | ⟨rfl, hfree⟩)
      · exact hx
      · exact absurd hdom (hfree y hy)
  · refine ⟨_, hadd, rfl, h.keep ha hop hsub fun x hx ↦
      (hall x hx).imp_right fun hslow ↦ ⟨hslow.1.le, hslow.2.le⟩, fun x ↦ ?_⟩
    change x ∈ removeNonOptimal a (a.length - 1) ↔ _
    rw [removeNonOptimal_eq (List.ne_nil_of_mem hop), Lib.Pareto.mem_thin_iff ha]
    constructor
    · rintro ⟨hx, hcheap⟩
      rcases List.mem_cons.mp (hsub hx) with rfl | hold
      · exact Or.inr ⟨rfl, hfree⟩
      · refine Or.inl ⟨hold, fun hout ↦ ?_⟩
        rcases hout.1.lt_or_eq with hlt | heq
        · exact absurd (hcheap _ hop hlt) (not_le.mpr hout.2)
        · rw [ha.eq_of_perf_eq hx hop heq] at hout
          exact lt_irrefl _ hout.2
    · rintro (⟨hx, hout⟩ | ⟨rfl, -⟩)
      · refine ⟨(hall x hx).resolve_right fun hslow ↦ hout ⟨hslow.1.le, hslow.2⟩, fun y hy hlt ↦ ?_⟩
        rcases List.mem_cons.mp (hsub hy) with rfl | hy
        · exact not_lt.mp fun hslow ↦ hout ⟨hlt.le, hslow⟩
        · exact h.front.cost_le hx hy hlt.le
      · refine ⟨hop, fun y hy hlt ↦ ?_⟩
        rcases List.mem_cons.mp (hsub hy) with rfl | hy
        · exact le_rfl
        · exact le_of_lt (not_le.mp fun hle ↦ hfree y hy ⟨hlt.le, hle⟩)

/-! ## Runs -/

theorem kept_concat (calls : List AddedPoint) (op : AddedPoint) (perf t : ℚ) :
    Kept (calls ++ [op]) perf t ↔ (Kept calls perf t ∧ ¬(perf ≤ op.perf ∧ op.t < t)) ∨
      (0 < perf ∧ op.perf = perf ∧ op.t = t ∧ ∀ y ∈ calls, ¬y.Covers op) := by
  constructor
  · rintro ⟨hpos, before, x, after, hsplit, rfl, rfl, hbefore, hafter⟩
    rcases List.eq_nil_or_concat' after with rfl | ⟨after, z, rfl⟩
    · obtain ⟨rfl, hop⟩ := List.append_inj' hsplit rfl
      obtain rfl := List.singleton_inj.mp hop
      exact Or.inr ⟨hpos, rfl, rfl, hbefore⟩
    · rw [← List.cons_append, ← List.append_assoc] at hsplit
      obtain ⟨rfl, hop⟩ := List.append_inj' hsplit rfl
      obtain rfl := List.singleton_inj.mp hop
      exact Or.inl ⟨⟨hpos, before, x, after, rfl, rfl, rfl, hbefore,
        fun y hy ↦ hafter y (List.mem_append_left _ hy)⟩,
        hafter _ (List.mem_append_right _ (List.mem_singleton_self op))⟩
  · rintro (⟨⟨hpos, before, x, after, rfl, rfl, rfl, hbefore, hafter⟩, hout⟩ |
      ⟨hpos, rfl, rfl, hfree⟩)
    · refine ⟨hpos, before, x, after ++ [op], by rw [List.append_assoc, List.cons_append], rfl, rfl,
        hbefore, fun y hy ↦ ?_⟩
      rcases List.mem_append.mp hy with hy | hy
      · exact hafter y hy
      · rw [List.mem_singleton.mp hy]
        exact hout
    · exact ⟨hpos, calls, op, [], rfl, rfl, rfl, hfree, fun y hy ↦ absurd hy List.not_mem_nil⟩

/-- What a run of calls leaves behind. -/
structure After (ops : OperatingPoints) (calls : List AddedPoint) : Prop where
  collects : ops.Collects
  allPts : ops.allPts = calls.map fun x ↦ ⟨x.perf, x.t, x.key, x.cno⟩
  pairs : ∀ perf t, ops.HasPair perf t ↔ (perf = 0 ∧ t = 0) ∨ Kept calls perf t

theorem after_nil : After {} [] where
  collects := collects_empty
  allPts := rfl
  pairs := fun perf t ↦ by
    constructor
    · rintro ⟨x, hx, rfl, rfl⟩
      rw [List.mem_singleton.mp hx]
      exact Or.inl ⟨rfl, rfl⟩
    · rintro (⟨rfl, rfl⟩ | ⟨-, before, x, after, hsplit, -⟩)
      · exact ⟨idle, List.mem_cons_self, rfl, rfl⟩
      · exact absurd hsplit (List.append_ne_nil_of_right_ne_nil _ (List.cons_ne_nil x after)).symm

/-- The optimal points dominate what the added ones and the point of doing nothing do. -/
theorem After.exists_dominates_iff (h : After ops calls) (x : OperatingPoint) :
    (∃ y ∈ ops.optimalPts, Dominates OperatingPoint.perf OperatingPoint.t y x) ↔
      (x.perf ≤ 0 ∧ 0 ≤ x.t) ∨ ∃ y ∈ calls, x.perf ≤ y.perf ∧ y.t ≤ x.t := by
  have hall : ∀ y, y ∈ idle :: ops.allPts ↔
      y = idle ∨ ∃ z ∈ calls, (⟨z.perf, z.t, z.key, z.cno⟩ : OperatingPoint) = y := fun y ↦ by
    rw [List.mem_cons, h.allPts, List.mem_map]
  constructor
  · rintro ⟨y, hy, hdom⟩
    rcases (hall y).mp (h.collects.subset hy) with rfl | ⟨z, hz, rfl⟩
    · exact Or.inl hdom
    · exact Or.inr ⟨z, hz, hdom⟩
  · have hcover : ∀ y ∈ idle :: ops.allPts,
        Dominates OperatingPoint.perf OperatingPoint.t y x →
        ∃ y ∈ ops.optimalPts, Dominates OperatingPoint.perf OperatingPoint.t y x := fun y hy hdom ↦ by
      obtain ⟨z, hz, hzy⟩ := h.collects.covers y hy
      exact ⟨z, hz, hzy.trans hdom⟩
    rintro (hidle | ⟨z, hz, hdom⟩)
    · exact hcover idle List.mem_cons_self hidle
    · exact hcover _ ((hall _).mpr (Or.inr ⟨z, hz, rfl⟩)) hdom

theorem After.add (h : After ops calls) (op : AddedPoint) (ht : 0 < op.t) :
    ∃ r, ops.add op.perf op.t op.key op.cno = .ok r ∧ After r.1 (calls ++ [op]) := by
  obtain ⟨r, hadd, hallPts, hcollects, hmem⟩ := h.collects.mem_add op.perf ht.le op.key op.cno
  refine ⟨r, hadd, hcollects, ?_, fun perf t ↦ ?_⟩
  · rw [hallPts, h.allPts, List.map_append]
    rfl
  have hfree : (∀ y ∈ ops.optimalPts, ¬Dominates OperatingPoint.perf OperatingPoint.t y
      ⟨op.perf, op.t, op.key, op.cno⟩) ↔ 0 < op.perf ∧ ∀ y ∈ calls, ¬y.Covers op := by
    have hiff := not_congr (h.exists_dominates_iff ⟨op.perf, op.t, op.key, op.cno⟩)
    rw [not_or] at hiff
    constructor
    · intro hall
      obtain ⟨hidle, hcalls⟩ := hiff.mp fun ⟨y, hy, hdom⟩ ↦ hall y hy hdom
      exact ⟨not_le.mp fun hle ↦ hidle ⟨hle, ht.le⟩, fun y hy hcov ↦ hcalls ⟨y, hy, hcov⟩⟩
    · rintro ⟨hpos, hcalls⟩ y hy hdom
      exact hiff.mpr ⟨fun hidle ↦ absurd hpos (not_lt.mpr hidle.1),
        fun ⟨z, hz, hcov⟩ ↦ hcalls z hz hcov⟩ ⟨y, hy, hdom⟩
  have hnew : r.1.HasPair perf t ↔
      (ops.HasPair perf t ∧ ¬(perf ≤ op.perf ∧ op.t < t)) ∨
        (op.perf = perf ∧ op.t = t ∧ 0 < op.perf ∧ ∀ y ∈ calls, ¬y.Covers op) := by
    constructor
    · rintro ⟨x, hx, rfl, rfl⟩
      rcases (hmem x).mp hx with ⟨hx, hout⟩ | ⟨rfl, hdom⟩
      · exact Or.inl ⟨⟨x, hx, rfl, rfl⟩, hout⟩
      · exact Or.inr ⟨rfl, rfl, hfree.mp hdom⟩
    · rintro (⟨⟨x, hx, rfl, rfl⟩, hout⟩ | ⟨rfl, rfl, hpos⟩)
      · exact ⟨x, (hmem x).mpr (Or.inl ⟨hx, hout⟩), rfl, rfl⟩
      · exact ⟨_, (hmem _).mpr (Or.inr ⟨rfl, hfree.mpr hpos⟩), rfl, rfl⟩
  rw [hnew, h.pairs, kept_concat]
  constructor
  · rintro (⟨hidle | hkept, hout⟩ | ⟨rfl, rfl, hpos, hcalls⟩)
    · exact Or.inl hidle
    · exact Or.inr (Or.inl ⟨hkept, hout⟩)
    · exact Or.inr (Or.inr ⟨hpos, rfl, rfl, hcalls⟩)
  · rintro (⟨rfl, rfl⟩ | ⟨hkept, hout⟩ | ⟨hpos, rfl, rfl, hcalls⟩)
    · exact Or.inl ⟨Or.inl ⟨rfl, rfl⟩, fun hout ↦ absurd hout.2 ht.not_gt⟩
    · exact Or.inl ⟨Or.inr hkept, hout⟩
    · exact Or.inr ⟨rfl, rfl, hpos, hcalls⟩

theorem After.addAll (h : After ops calls) (rest : List AddedPoint)
    (hrest : ∀ x ∈ rest, 0 < x.t) :
    ∃ ops', ops.addAll rest = .ok ops' ∧ After ops' (calls ++ rest) := by
  induction rest generalizing ops calls with
  | nil => exact ⟨ops, rfl, by rwa [List.append_nil]⟩
  | cons x rest ih =>
      obtain ⟨r, hadd, hr⟩ := h.add x (hrest x List.mem_cons_self)
      obtain ⟨ops', hrun, hops'⟩ := ih hr fun y hy ↦ hrest y (List.mem_cons_of_mem x hy)
      refine ⟨ops', ?_, by rwa [List.append_assoc] at hops'⟩
      rw [OperatingPoints.addAll, List.foldlM_cons, hadd]
      exact hrun

/-! ## The front -/

/-- The points that are kept are those on the front exactly if all come in time. -/
theorem kept_iff_onFront_iff (calls : List AddedPoint) :
    (∀ perf t, Kept calls perf t ↔ OnFront calls perf t) ↔ InTime calls := by
  constructor
  · rintro h before x after rfl hpos hbefore ⟨y, hy, hperf, ht⟩
    by_contra hnone
    have hkept : Kept (before ++ x :: after) x.perf x.t :=
      ⟨hpos, before, x, after, rfl, rfl, rfl, hbefore, fun z hz hout ↦ hnone ⟨z, hz, hout⟩⟩
    obtain ⟨-, x', -, hx', ht', hbest⟩ := (h x.perf x.t).mp hkept
    refine hbest y (List.mem_append_right _ (List.mem_cons_of_mem x hy)) ?_
    rw [AddedPoint.Beats, AddedPoint.Covers, hx', ht']
    exact ⟨⟨hperf.le, ht.le⟩, Or.inl hperf⟩
  · intro h perf t
    constructor
    · rintro ⟨hpos, before, x, after, rfl, rfl, rfl, hbefore, hafter⟩
      refine ⟨hpos, x, List.mem_append_right _ List.mem_cons_self, rfl, rfl, ?_⟩
      rintro y hy ⟨hcov, hstrict⟩
      rcases List.mem_append.mp hy with hy | hy
      · exact hbefore y hy hcov
      rcases List.mem_cons.mp hy with rfl | hy
      · exact hstrict.elim (lt_irrefl _) (lt_irrefl _)
      · have ht : y.t = x.t := le_antisymm hcov.2
          (not_lt.mp fun hlt ↦ hafter y hy ⟨hcov.1, hlt⟩)
        have hperf : x.perf < y.perf := hstrict.resolve_right ht.not_lt
        obtain ⟨z, hz, hout⟩ := h before x after rfl hpos hbefore ⟨y, hy, hperf, ht⟩
        exact hafter z hz hout
    · rintro ⟨hpos, x, hx, rfl, rfl, hbest⟩
      -- the first call with this pair
      obtain ⟨before, x', after, rfl, hpair, hfirst⟩ : ∃ before x' after,
          calls = before ++ x' :: after ∧ (x'.perf = x.perf ∧ x'.t = x.t) ∧
            ∀ y ∈ before, ¬(y.perf = x.perf ∧ y.t = x.t) := by
        let same := fun y : AddedPoint ↦ decide (y.perf = x.perf ∧ y.t = x.t)
        obtain ⟨x', hfind⟩ := Option.isSome_iff_exists.mp
          (List.find?_isSome.mpr ⟨x, hx, decide_eq_true (⟨rfl, rfl⟩ : x.perf = x.perf ∧ x.t = x.t)⟩ :
            (calls.find? same).isSome)
        obtain ⟨hsame, before, after, hsplit, hbefore⟩ := List.find?_eq_some_iff_append.mp hfind
        exact ⟨before, x', after, hsplit, of_decide_eq_true hsame, fun y hy heq ↦ by
          simpa [same, heq] using hbefore y hy⟩
      refine ⟨hpos, before, x', after, rfl, hpair.1, hpair.2, fun y hy hcov ↦ ?_, fun y hy hout ↦ ?_⟩
      · rw [AddedPoint.Covers, hpair.1, hpair.2] at hcov
        refine hbest y (List.mem_append_left _ hy) ⟨hcov, ?_⟩
        by_contra hnot
        rw [not_or, not_lt, not_lt] at hnot
        exact hfirst y hy ⟨le_antisymm hnot.1 hcov.1, le_antisymm hcov.2 hnot.2⟩
      · rw [AddedPoint.Outruns, hpair.1, hpair.2] at hout
        exact hbest y (List.mem_append_right _ (List.mem_cons_of_mem x' hy))
          ⟨⟨hout.1, hout.2.le⟩, Or.inr hout.2⟩

theorem After.isTimeFor (h : After ops calls) (p : ℚ) : IsTimeFor calls p (ops.tForPerf p) := by
  have hcover : ∀ perf t, (perf = 0 ∧ t = 0) ∨ (∃ y ∈ calls, y.perf = perf ∧ y.t = t) →
      ∃ x ∈ ops.optimalPts, perf ≤ x.perf ∧ x.t ≤ t := by
    rintro perf t (⟨rfl, rfl⟩ | ⟨y, hy, rfl, rfl⟩)
    · exact (h.exists_dominates_iff idle).mpr (Or.inl ⟨le_rfl, le_rfl⟩)
    · exact (h.exists_dominates_iff ⟨y.perf, y.t, y.key, y.cno⟩).mpr
        (Or.inr ⟨y, hy, le_rfl, le_rfl⟩)
  rw [h.collects.tForPerf_eq]
  cases hfind : lookup OperatingPoint.perf ops.optimalPts p with
  | none =>
      have hslow := Lib.Pareto.lookup_eq_none.mp hfind
      refine Or.inr ⟨?_, rfl⟩
      rintro (hp | ⟨y, hy, hp⟩)
      · obtain ⟨x, hx, hperf, -⟩ := hcover 0 0 (Or.inl ⟨rfl, rfl⟩)
        exact absurd (hslow x hx) (not_lt.mpr (hp.trans hperf))
      · obtain ⟨x, hx, hperf, -⟩ := hcover y.perf y.t (Or.inr ⟨y, hy, rfl, rfl⟩)
        exact absurd (hslow x hx) (not_lt.mpr (hp.trans hperf))
  | some x =>
      have hp := Lib.Pareto.le_of_lookup hfind
      have hx := h.collects.subset (List.mem_of_find?_eq_some hfind)
      have hmem : (p ≤ 0 ∧ x.t = 0) ∨ ∃ y ∈ calls, p ≤ y.perf ∧ y.t = x.t := by
        rw [h.allPts] at hx
        rcases List.mem_cons.mp hx with rfl | hx
        · exact Or.inl ⟨hp, rfl⟩
        · obtain ⟨y, hy, rfl⟩ := List.mem_map.mp hx
          exact Or.inr ⟨y, hy, hp, rfl⟩
      refine Or.inl ⟨hmem.imp (·.1) fun ⟨y, hy, hpy, _⟩ ↦ ⟨y, hy, hpy⟩, hmem, ?_⟩
      rintro t (⟨hp0, rfl⟩ | ⟨y, hy, hpy, rfl⟩)
      · obtain ⟨z, hz, hperf, ht⟩ := hcover 0 0 (Or.inl ⟨rfl, rfl⟩)
        exact (h.collects.front.lookup_le hfind hz (hp0.trans hperf)).trans ht
      · obtain ⟨z, hz, hperf, ht⟩ := hcover y.perf y.t (Or.inr ⟨y, hy, rfl, rfl⟩)
        exact (h.collects.front.lookup_le hfind hz (hpy.trans hperf)).trans ht

end OperatingPoints

open OperatingPoints

/-- After any calls of `add`, the optimal points rise in performance, and `t_for_perf` gives the least
time for every performance.  They are the points on the front exactly if all points come in time. -/
theorem optimalPts_eq_front_iff (calls : List AddedPoint)
    (hcalls : ∀ x ∈ calls, 0 ≤ x.perf ∧ 0 < x.t) :
    ∃ ops, addAll {} calls = .ok ops ∧ Rising ops.optimalPts ∧
      (∀ p, IsTimeFor calls p (ops.tForPerf p)) ∧
      ((∀ perf t, ops.HasPair perf t ↔ (perf = 0 ∧ t = 0) ∨ OnFront calls perf t) ↔
        InTime calls) := by
  obtain ⟨ops, hrun, h⟩ := after_nil.addAll calls fun x hx ↦ (hcalls x hx).2
  rw [List.nil_append] at h
  refine ⟨ops, hrun, h.collects.rising, h.isTimeFor, ?_⟩
  rw [← kept_iff_onFront_iff]
  refine forall₂_congr fun perf t ↦ ?_
  rw [h.pairs]
  constructor
  · intro hiff
    constructor
    · intro hkept
      refine (hiff.mp (Or.inr hkept)).resolve_left ?_
      rintro ⟨rfl, -⟩
      exact lt_irrefl _ hkept.1
    · intro hfront
      refine (hiff.mpr (Or.inr hfront)).resolve_left ?_
      rintro ⟨rfl, -⟩
      exact lt_irrefl _ hfront.1
  · exact or_congr_right

/-- Two points of which neither beats the other, the better one first. -/
theorem optimalPts_eq_front_iff_two : ∃ ops, addAll {} [⟨2, 5, [], 0⟩, ⟨1, 5, [], 1⟩] = .ok ops ∧
    ∀ perf t, ops.HasPair perf t ↔
      (perf = 0 ∧ t = 0) ∨ OnFront [⟨2, 5, [], 0⟩, ⟨1, 5, [], 1⟩] perf t := by
  obtain ⟨ops, hrun, -, -, hiff⟩ := optimalPts_eq_front_iff [⟨2, 5, [], 0⟩, ⟨1, 5, [], 1⟩]
    (List.forall_mem_cons.mpr ⟨by decide, List.forall_mem_singleton.mpr (by decide)⟩)
  refine ⟨ops, hrun, hiff.mpr ?_⟩
  rintro before x after hsplit - - ⟨y, hy, hperf, -⟩
  rcases before with _ | ⟨z, before⟩
  · obtain ⟨rfl, rfl⟩ := List.cons.inj hsplit
    rw [List.mem_singleton.mp hy] at hperf
    exact absurd hperf (by decide)
  · obtain ⟨-, hrest⟩ := List.cons.inj hsplit
    rcases List.append_eq_singleton_iff.mp hrest.symm with ⟨-, hx⟩ | ⟨-, hx⟩
    · obtain ⟨-, rfl⟩ := List.cons.inj hx
      exact absurd hy List.not_mem_nil
    · exact absurd hx (List.cons_ne_nil x after)

/-- The worse one first: both stay. -/
theorem not_front_worse_first : ∃ ops, addAll {} [⟨1, 5, [], 0⟩, ⟨2, 5, [], 1⟩] = .ok ops ∧
    ops.HasPair 1 5 ∧ ¬OnFront [⟨1, 5, [], 0⟩, ⟨2, 5, [], 1⟩] 1 5 := by
  obtain ⟨ops, hrun, h⟩ := after_nil.addAll [⟨1, 5, [], 0⟩, ⟨2, 5, [], 1⟩]
    (List.forall_mem_cons.mpr ⟨by decide, List.forall_mem_singleton.mpr (by decide)⟩)
  refine ⟨ops, hrun, (h.pairs 1 5).mpr (Or.inr ⟨by decide, [], _, [_], rfl, rfl, rfl,
    fun y hy ↦ absurd hy List.not_mem_nil, fun y hy hout ↦ ?_⟩), ?_⟩
  · rw [List.mem_singleton.mp hy] at hout
    exact absurd hout.2 (by decide)
  · rintro ⟨-, x, -, hperf, ht, hbest⟩
    refine hbest _ (List.mem_cons_of_mem _ (List.mem_singleton_self _)) ?_
    rw [AddedPoint.Beats, AddedPoint.Covers, hperf, ht]
    decide

/-! ## Merging -/

namespace OperatingPoints

/-- A turn of the loop of `merge_with`. -/
def mergePoint (pre : List Char) (s : OperatingPoints × ℕ) (op : OperatingPoint) :
    Except Fault (OperatingPoints × ℕ) := do
  let (ops, kept) ← s.1.add op.perf op.t (pre ++ op.key) op.cno.toNat
  return (ops, if kept then s.2 + 1 else s.2)

/-- `merge_with`, with the number of points that are kept. -/
def mergeWith (ops other : OperatingPoints) (pre : List Char) : Except Fault (OperatingPoints × ℕ) :=
  other.allPts.foldlM (mergePoint pre) (ops, 0)

theorem After.merge {ops : OperatingPoints} {calls : List AddedPoint} (h : After ops calls) (pre : List Char)
    (n : ℕ) (rest : List AddedPoint) (hrest : ∀ x ∈ rest, 0 < x.t) :
    ∃ r, (rest.map fun x ↦ (⟨x.perf, x.t, x.key, x.cno⟩ : OperatingPoint)).foldlM (mergePoint pre) (ops, n) = .ok r ∧
      r.2 ≤ n + rest.length ∧ After r.1 (calls ++ rest.map fun x ↦ { x with key := pre ++ x.key }) := by
  induction rest generalizing ops calls n with
  | nil => exact ⟨_, rfl, le_rfl, by rwa [List.map_nil, List.append_nil]⟩
  | cons x rest ih =>
      obtain ⟨r, hadd, hr⟩ := h.add { x with key := pre ++ x.key } (hrest x List.mem_cons_self)
      obtain ⟨r', hrun, hle, hr'⟩ := ih hr (if r.2 then n + 1 else n) fun y hy ↦ hrest y (List.mem_cons_of_mem x hy)
      refine ⟨r', Fault.bind_eq_ok.mpr ⟨_, Fault.bind_eq_ok.mpr ⟨r, hadd, rfl⟩, hrun⟩, ?_,
        by rwa [List.append_assoc] at hr'⟩
      rw [List.length_cons]
      split at hle <;> omega

theorem isTimeFor_map {f : AddedPoint → AddedPoint} (hf : ∀ x, (f x).perf = x.perf ∧ (f x).t = x.t)
    (calls rest : List AddedPoint) (p time : ℚ) :
    IsTimeFor (calls ++ rest.map f) p time ↔ IsTimeFor (calls ++ rest) p time := by
  have hmem : ∀ P : ℚ → ℚ → Prop,
      (∃ x ∈ calls ++ rest.map f, P x.perf x.t) ↔ ∃ x ∈ calls ++ rest, P x.perf x.t := fun P ↦ by
    simp only [List.mem_append, List.mem_map, or_and_right, exists_or, exists_exists_and_eq_and, hf]
  have hsome := hmem fun perf _ ↦ p ≤ perf
  have htime : ∀ t, _ ↔ _ := fun t ↦ hmem fun perf t' ↦ p ≤ perf ∧ t' = t
  simp only [IsTimeFor, hsome, htime]

end OperatingPoints

/-- Where points are collected apart and merged, `t_for_perf` gives the least time among all of them. -/
theorem mergeWith_isTimeFor (calls calls' : List AddedPoint) (hcalls : ∀ x ∈ calls, 0 < x.t)
    (hcalls' : ∀ x ∈ calls', 0 < x.t) (pre : List Char) :
    ∃ a b r, addAll {} calls = .ok a ∧ addAll {} calls' = .ok b ∧ a.mergeWith b pre = .ok r ∧
      r.2 ≤ calls'.length ∧ Rising r.1.optimalPts ∧ ∀ p, IsTimeFor (calls ++ calls') p (r.1.tForPerf p) := by
  obtain ⟨a, ha, hafter⟩ := after_nil.addAll calls hcalls
  obtain ⟨b, hb, hafter'⟩ := after_nil.addAll calls' hcalls'
  rw [List.nil_append] at hafter hafter'
  obtain ⟨r, hr, hle, hmerged⟩ := hafter.merge pre 0 calls' hcalls'
  refine ⟨a, b, r, ha, hb, ?_, by rwa [Nat.zero_add] at hle, hmerged.collects.rising, fun p ↦ ?_⟩
  · rw [mergeWith, hafter'.allPts]
    exact hr
  · exact (isTimeFor_map (f := fun x ↦ { x with key := pre ++ x.key }) (fun _ ↦ ⟨rfl, rfl⟩) calls calls' p _).mp
      (hmerged.isTimeFor p)

theorem mergeWith_isTimeFor_one : ∃ a b r, addAll {} [⟨1, 5, [], 0⟩] = .ok a ∧
    addAll {} [⟨2, 3, [], 0⟩] = .ok b ∧ a.mergeWith b ['p'] = .ok r ∧ r.2 ≤ 1 ∧ Rising r.1.optimalPts ∧
      ∀ p, IsTimeFor [⟨1, 5, [], 0⟩, ⟨2, 3, [], 0⟩] p (r.1.tForPerf p) :=
  mergeWith_isTimeFor [⟨1, 5, [], 0⟩] [⟨2, 3, [], 0⟩] (List.forall_mem_singleton.mpr (by decide))
    (List.forall_mem_singleton.mpr (by decide)) ['p']

end FaissNavix
