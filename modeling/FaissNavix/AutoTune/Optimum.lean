import FaissNavix.AutoTune.Explore
import Mathlib.Tactic.Linarith
import Mathlib.Tactic.Positivity

/-!
# The optimum of a pruned exploration

`explore` with as many experiments as there are combinations finds what measuring all of them finds
(`ParameterSpace.findsOptimum_iff`), except that it refuses a space of two combinations, that
`combination_name` refuses names that do not fit its buffer, and that `t_for_perf` says `1e50` where
there is nothing to find.
-/

namespace FaissNavix

open OperatingPoint (idle)
open Lib.Pareto (Covers Dominates lookup)

namespace ParameterSpace

variable {space : ParameterSpace} {m : Measurement} {printG : ℚ → List Char} {mt : ℕ → ℕ}
  {ops all : OperatingPoints} {c : ℕ}

/-- Where the points reach each combination that matters, they answer as all the points do. -/
theorem Explored.tForPerf_eq (hm : m.Regular space) (h : Explored space m ops)
    (hall : Explored space m all)
    (hpoints : ∀ c < space.nCombinations, ∃ op ∈ all.allPts, IsPoint m c op)
    (hreached : ∀ c < space.nCombinations, Reached m ops c ∨
      noTime ≤ m.t c ∧ (∀ op ∈ ops.allPts, op.t ≤ m.t c) ∧
        ∃ d < space.nCombinations, m.perf c ≤ m.perf d ∧ m.t d = noTime) (p : ℚ) :
    ops.tForPerf p = all.tForPerf p := by
  have hcovers : Covers OperatingPoint.perf OperatingPoint.t all.optimalPts ops.optimalPts := by
    intro x hx
    rcases List.mem_cons.mp (h.collects.subset hx) with rfl | hx
    · exact hall.collects.covers _ List.mem_cons_self
    · obtain ⟨c, hc, hperf, ht, -⟩ := h.measured x hx
      obtain ⟨op, hop, hpoint⟩ := hpoints c hc
      obtain ⟨y, hy, hdom⟩ := hall.collects.covers op (List.mem_cons_of_mem _ hop)
      exact ⟨y, hy, by rw [hperf, ← hpoint.1]; exact hdom.1, by rw [ht, ← hpoint.2.1]; exact hdom.2⟩
  rw [h.collects.tForPerf_eq, hall.collects.tForPerf_eq]
  cases hy : lookup OperatingPoint.perf all.optimalPts p with
  | none =>
      cases hx : lookup OperatingPoint.perf ops.optimalPts p with
      | none => rfl
      | some x =>
          have := hcovers.lookup_isSome (by rw [hx]; rfl)
          rw [hy] at this
          cases this
  | some y =>
      have hp := Lib.Pareto.le_of_lookup hy
      rcases List.mem_cons.mp (hall.collects.subset (List.mem_of_find?_eq_some hy)) with rfl | hmem
      · -- nothing is asked for
        obtain ⟨x, hx, hdom⟩ := h.collects.covers idle List.mem_cons_self
        obtain ⟨z, hz⟩ := Option.isSome_iff_exists.mp
          (Lib.Pareto.lookup_isSome.mpr ⟨x, hx, hp.trans hdom.1⟩)
        rw [hz]
        refine le_antisymm ((h.collects.front.lookup_le hz hx (hp.trans hdom.1)).trans hdom.2) ?_
        exact hall.collects.front.lookup_le_of_covers hcovers hy hz
      · obtain ⟨c, hc, hperf, ht, -⟩ := hall.measured y hmem
        rcases hreached c hc with ⟨x, hx, hxperf, hxt⟩ | ⟨hlong, hpts, d, hd, hdperf, hdt⟩
        · obtain ⟨z, hz⟩ := Option.isSome_iff_exists.mp
            (Lib.Pareto.lookup_isSome.mpr ⟨x, hx, (hperf ▸ hp).trans hxperf⟩)
          rw [hz]
          refine le_antisymm ?_ (hall.collects.front.lookup_le_of_covers hcovers hy hz)
          exact (h.collects.front.lookup_le hz hx ((hperf ▸ hp).trans hxperf)).trans (hxt.trans ht.ge)
        · cases hz : lookup OperatingPoint.perf ops.optimalPts p with
          | none =>
              -- the least of the times that are too long is that of no time
              obtain ⟨op, hop, hpoint⟩ := hpoints d hd
              obtain ⟨x, hx, hdom⟩ := hall.collects.covers op (List.mem_cons_of_mem _ hop)
              have hle := hall.collects.front.lookup_le hy hx
                ((hperf ▸ hp).trans (hdperf.trans (hpoint.1 ▸ hdom.1)))
              exact le_antisymm (hlong.trans ht.ge)
                (hle.trans (hdom.2.trans (hpoint.2.1.trans hdt).le))
          | some z =>
              refine le_antisymm ?_ (hall.collects.front.lookup_le_of_covers hcovers hy hz)
              rcases List.mem_cons.mp (h.collects.subset (List.mem_of_find?_eq_some hz)) with rfl | hzmem
              · exact ((hm.t_pos c hc).le).trans ht.ge
              · exact (hpts z hzmem).trans ht.ge

/-- `explore` from no points finds the times that measuring all the combinations finds. -/
def FindsOptimum (printG : ℚ → List Char) (mt : ℕ → ℕ) (space : ParameterSpace) (m : Measurement)
    (nq : ℕ) : Prop :=
  ∃ ops all, space.explore printG m mt nq nq {} = .ok ops ∧
    { space with nExperiments := 0 }.explore printG m mt nq nq {} = .ok all ∧
    ∀ p, ops.tForPerf p = all.tForPerf p

/-! ## Which explorations return -/

theorem nExp_eq (hexp : (space.nCombinations : ℤ) ≤ space.nExperiments.toInt) :
    space.nCombinations < 2 ^ 31 ∧
      (if space.nCombinations < sizeOfInt space.nExperiments then Int32.ofNat space.nCombinations
        else space.nExperiments) = Int32.ofNat space.nCombinations := by
  have hlt := Int32.toInt_lt space.nExperiments
  have hn : space.nCombinations < 2 ^ 31 := by omega
  refine ⟨hn, ?_⟩
  split
  · rfl
  · rename_i hle
    refine Int32.toInt_inj.mp ?_
    rw [Int32.toInt_ofNat_of_lt hn]
    rw [sizeOfInt] at hle
    omega

/-- With as many experiments as combinations, each combination is tried. -/
theorem explore_eq_ok_iff {nq : ℕ} (hexp : (space.nCombinations : ℤ) ≤ space.nExperiments.toInt)
    (hsome : space.nExperiments ≠ 0) :
    space.explore printG m mt nq nq {} = .ok ops ↔
      (space.nCombinations = 1 ∨ 2 < space.nCombinations) ∧
        (perm mt space.nCombinations).foldlM (space.experiment printG m) {} = .ok ops := by
  obtain ⟨hn, hnExp⟩ := nExp_eq hexp
  have hcmp : (2 < Int32.ofNat space.nCombinations) ↔ 2 < space.nCombinations := by
    rw [Int32.lt_iff_toInt_lt, Int32.toInt_ofNat_of_lt hn]
    exact Int.ofNat_lt (n := 2)
  have hguard : (decide (space.nCombinations = 1) ||
      decide (2 < Int32.ofNat space.nCombinations)) = true ↔
        space.nCombinations = 1 ∨ 2 < space.nCombinations := by
    rw [Bool.or_eq_true, decide_eq_true_iff, decide_eq_true_iff, hcmp]
  unfold explore
  rw [decide_eq_true rfl, Fault.throwIfNotMsg_true]
  change (if space.nExperiments = 0 then _ else _) = _ ↔ _
  rw [if_neg hsome, hnExp, Fault.bind_eq_ok]
  constructor
  · rintro ⟨_, hthrow, hrun⟩
    have hcount := hguard.mp (Fault.throwIfNot_eq_ok.mp hthrow)
    refine ⟨hcount, ?_⟩
    rwa [sizeOfInt_ofNat hn, List.take_of_length_le] at hrun
    rw [(perm_perm mt (by omega)).length_eq, List.length_range]
  · rintro ⟨hcount, hrun⟩
    refine ⟨(), Fault.throwIfNot_eq_ok.mpr (hguard.mpr hcount), ?_⟩
    rw [sizeOfInt_ofNat hn, List.take_of_length_le]
    · exact hrun
    · rw [(perm_perm mt (by omega)).length_eq, List.length_range]

theorem explore_zero {nq : ℕ} (hzero : space.nExperiments = 0) :
    space.explore printG m mt nq nq {} =
      (List.range space.nCombinations).foldlM (space.measure printG m) {} := by
  unfold explore
  rw [decide_eq_true rfl, Fault.throwIfNotMsg_true]
  change (if space.nExperiments = 0 then _ else _) = _
  rw [if_pos hzero]

theorem nameFits_of_foldlM {cs : List ℕ} (h : cs.foldlM (space.measure printG m) ops = .ok all) :
    ∀ c ∈ cs, space.NameFits printG c := by
  induction cs generalizing ops with
  | nil => exact fun c hc ↦ absurd hc List.not_mem_nil
  | cons d cs ih =>
      rw [List.foldlM_cons] at h
      obtain ⟨ops', hd, hcs⟩ := Fault.bind_eq_ok.mp h
      obtain ⟨name, hname, -⟩ := Fault.bind_eq_ok.mp hd
      intro c hc
      rcases List.mem_cons.mp hc with rfl | hc
      · exact (exists_combinationName_iff printG).mp ⟨name, hname⟩
      · exact ih hcs c hc

theorem exists_perm (mt : ℕ → ℕ) {n : ℕ} (hn : 1 ≤ n) : ∃ cs, perm mt n = 0 :: cs := by
  unfold perm
  split
  · exact ⟨_, rfl⟩
  · obtain rfl : n = 1 := by omega
    exact ⟨[], rfl⟩

section
variable (hm : m.Regular space) (hn : 1 ≤ space.nCombinations)
  (hnames : ∀ c < space.nCombinations, space.NameFits printG c)
include hm hn hnames

/-- The pruned loop, unless the first combination takes too long. -/
theorem exists_explore_of_lt (hshort : m.t 0 < noTime)
    (hlast : ∀ c, space.combinationGe (space.nCombinations - 1) c = true) :
    ∃ ops, (perm mt space.nCombinations).foldlM (space.experiment printG m) {} = .ok ops ∧
      Explored space m ops ∧ ∀ c < space.nCombinations, Reached m ops c := by
  obtain ⟨ops, op, hfirst, h, hop, hall⟩ := exists_first hm hn (hnames 0 hn)
  have hperm := perm_perm mt hn
  have hmem : ∀ c, c < space.nCombinations ↔ c ∈ perm mt space.nCombinations := fun c ↦ by
    rw [hperm.mem_iff, List.mem_range]
  by_cases hmany : 1 < space.nCombinations
  · obtain ⟨cs, hcs⟩ : ∃ cs, perm mt space.nCombinations = 0 :: (space.nCombinations - 1) :: cs :=
      ⟨_, if_pos hmany⟩
    rw [hcs] at hmem ⊢
    obtain ⟨ops', hsecond, h', htop, hzero, hlast⟩ :=
      exists_second hm h hop hall hshort hn hlast (hnames _ (by omega))
    have hdone : ∀ c ∈ [0, space.nCombinations - 1], Reached m ops' c := by
      intro c hc
      rcases List.mem_cons.mp hc with rfl | hc
      · exact hzero
      · rw [List.mem_singleton.mp hc]
        exact hlast
    obtain ⟨ops'', hrun, h'', hreached⟩ := htop.exists_foldlM hm h' hdone
      (fun c hc ↦ ⟨(hmem c).mpr hc, hnames c ((hmem c).mpr hc)⟩ : ∀ c ∈ _ ++ cs, _)
    refine ⟨ops'', ?_, h'', fun c hc ↦ hreached c ((hmem c).mp hc)⟩
    rw [List.foldlM_cons, hfirst]
    change ((space.nCombinations - 1) :: cs).foldlM (space.experiment printG m) ops = _
    rw [List.foldlM_cons, hsecond]
    exact hrun
  · have hone : space.nCombinations = 1 := by omega
    rw [hone] at hmem ⊢
    refine ⟨ops, ?_, h, fun c hc ↦ ?_⟩
    · change [0].foldlM (space.experiment printG m) {} = _
      rw [List.foldlM_cons, hfirst]
      rfl
    · obtain rfl : c = 0 := by omega
      exact h.reached (by rw [hall]; exact List.mem_singleton_self op) hop

/-- The pruned loop leaves each combination reached, or too long. -/
theorem exists_explore :
    ∃ ops, (perm mt space.nCombinations).foldlM (space.experiment printG m) {} = .ok ops ∧
      Explored space m ops ∧
        ∀ c < space.nCombinations, Reached m ops c ∨ noTime ≤ m.t c := by
  obtain ⟨ops, op, hfirst, h, hop, hall⟩ := exists_first hm hn (hnames 0 hn)
  obtain ⟨cs, hcs⟩ := exists_perm mt hn
  have hmem : ∀ c, c < space.nCombinations ↔ c ∈ [0] ++ cs := fun c ↦ by
    rw [← List.mem_range, ← (perm_perm mt hn).mem_iff, hcs]
    rfl
  have hdone : ∀ c ∈ [0], Reached m ops c ∨ noTime ≤ m.t c := by
    intro c hc
    rw [List.mem_singleton.mp hc]
    exact .inl (h.reached (by rw [hall]; exact List.mem_singleton_self op) hop)
  obtain ⟨ops', hrun, h', hreached⟩ := exists_foldlM_experiment hm h hdone
    (fun c hc ↦ ⟨(hmem c).mpr hc, hnames c ((hmem c).mpr hc)⟩ : ∀ c ∈ [0] ++ cs, _)
  refine ⟨ops', ?_, h', fun c hc ↦ hreached c ((hmem c).mp hc)⟩
  rw [hcs, List.foldlM_cons, hfirst]
  exact hrun

/-- If the first combination takes too long, it is the only one that is measured. -/
theorem exists_explore_of_le (hlong : noTime ≤ m.t 0) :
    ∃ ops op, (perm mt space.nCombinations).foldlM (space.experiment printG m) {} = .ok ops ∧
      Explored space m ops ∧ IsPoint m 0 op ∧ ops.allPts = [op] := by
  obtain ⟨ops, op, hfirst, h, hop, hall⟩ := exists_first hm hn (hnames 0 hn)
  obtain ⟨cs, hcs⟩ := exists_perm mt hn
  have hmem : ∀ c ∈ cs, c < space.nCombinations := fun c hc ↦ by
    rw [← List.mem_range, ← (perm_perm mt hn).mem_iff, hcs]
    exact List.mem_cons_of_mem 0 hc
  refine ⟨ops, op, ?_, h, hop, hall⟩
  rw [hcs, List.foldlM_cons, hfirst]
  exact foldlM_experiment_of_le hm h hop hall hlong hmem fun c hc ↦ hnames c (hmem c hc)

end

/-- What can only be had for too long a time can be had for `1e50`, if the first combination takes as
long. -/
def NoneTooLong (space : ParameterSpace) (m : Measurement) : Prop :=
  m.t 0 < noTime ∨ ∀ c < space.nCombinations, m.perf 0 < m.perf c →
    ∃ d < space.nCombinations, m.perf c ≤ m.perf d ∧ m.t d = noTime

/-- The pruned loop finds the optimum, if nothing takes too long. -/
theorem exists_explore_reached (hvalues : ∀ pr ∈ space.parameterRanges, pr.values ≠ [])
    (hlt : space.nCombinations < 2 ^ 31) (hm : m.Regular space)
    (hclock : numCombinations space.parameterRanges < 2 ^ 64 ∨
      ∀ c < space.nCombinations, m.t c ≤ noTime)
    (hn : 1 ≤ space.nCombinations)
    (hnames : ∀ c < space.nCombinations, space.NameFits printG c) (hlong : space.NoneTooLong m) :
    ∃ ops, (perm mt space.nCombinations).foldlM (space.experiment printG m) {} = .ok ops ∧
      Explored space m ops ∧ ∀ c < space.nCombinations, Reached m ops c ∨
        noTime ≤ m.t c ∧ (∀ op ∈ ops.allPts, op.t ≤ m.t c) ∧
          ∃ d < space.nCombinations, m.perf c ≤ m.perf d ∧ m.t d = noTime := by
  rcases hclock with hfits | hclock
  · by_cases hshort : m.t 0 < noTime
    · obtain ⟨ops, hrun, h, hreached⟩ := exists_explore_of_lt hm hn hnames hshort
        (combinationGe_last hvalues hfits hlt)
      exact ⟨ops, hrun, h, fun c hc ↦ .inl (hreached c hc)⟩
    · have hlong := hlong.resolve_left hshort
      obtain ⟨ops, op, hrun, h, hop, hall⟩ :=
        exists_explore_of_le hm hn hnames (not_lt.mp hshort)
      refine ⟨ops, hrun, h, fun c hc ↦ ?_⟩
      have hge := hm.rising c hc 0 hn (tupleGe_zero _ c)
      by_cases hperf : m.perf c ≤ m.perf 0
      · obtain ⟨x, hx, hxperf, hxt⟩ :=
          h.reached (by rw [hall]; exact List.mem_singleton_self op) hop
        exact .inl ⟨x, hx, hperf.trans hxperf, hxt.trans hge.2⟩
      · refine .inr ⟨(not_lt.mp hshort).trans hge.2, fun x hx ↦ ?_, hlong c hc (not_le.mp hperf)⟩
        rw [hall] at hx
        rw [List.mem_singleton.mp hx, hop.2.1]
        exact hge.2
  · obtain ⟨ops, hrun, h, hreached⟩ := exists_explore hm hn hnames
    refine ⟨ops, hrun, h, fun c hc ↦ (hreached c hc).imp_right fun hle ↦ ⟨hle, fun x hx ↦ ?_, c, hc,
      le_rfl, le_antisymm (hclock c hc) hle⟩⟩
    obtain ⟨d, hd, -, ht, -⟩ := h.measured x hx
    rw [ht]
    exact (hclock d hd).trans hle

/-- A pruned exploration misses what takes too long. -/
theorem noneTooLong_of_tForPerf (hm : m.Regular space) (hn : 1 ≤ space.nCombinations)
    (hnames : ∀ c < space.nCombinations, space.NameFits printG c)
    (hrun : (perm mt space.nCombinations).foldlM (space.experiment printG m) {} = .ok ops)
    (hall : Explored space m all)
    (hpoints : ∀ c < space.nCombinations, ∃ op ∈ all.allPts, IsPoint m c op)
    (hfinds : ∀ p, ops.tForPerf p = all.tForPerf p) : space.NoneTooLong m := by
  by_contra hlong
  obtain ⟨hshort, hmissed⟩ := not_or.mp hlong
  push Not at hmissed
  obtain ⟨c, hc, hperf, hnone⟩ := hmissed
  obtain ⟨ops', op, hrun', h, hop, hone⟩ :=
    exists_explore_of_le hm hn hnames (not_lt.mp hshort)
  obtain rfl : ops = ops' := Except.ok.inj (hrun.symm.trans hrun')
  have hops : ops.tForPerf (m.perf c) = noTime := by
    have hlookup : lookup OperatingPoint.perf ops.optimalPts (m.perf c) = none := by
      refine Lib.Pareto.lookup_eq_none.mpr fun x hx ↦ ?_
      rcases List.mem_cons.mp (h.collects.subset hx) with rfl | hx
      · exact (hm.perf_nonneg 0 hn).trans_lt hperf
      · rw [hone] at hx
        rw [List.mem_singleton.mp hx, hop.1]
        exact hperf
    rw [h.collects.tForPerf_eq, hlookup]
    rfl
  obtain ⟨op', hop', hpoint⟩ := hpoints c hc
  obtain ⟨x, hx, hdom⟩ := hall.collects.covers op' (List.mem_cons_of_mem _ hop')
  obtain ⟨y, hy⟩ := Option.isSome_iff_exists.mp
    (Lib.Pareto.lookup_isSome.mpr ⟨x, hx, (hpoint.1 ▸ hdom.1 : m.perf c ≤ x.perf)⟩)
  have hyt : y.t = noTime := by
    have := (hfinds (m.perf c)).symm.trans hops
    rwa [hall.collects.tForPerf_eq, hy] at this
  have hyperf := Lib.Pareto.le_of_lookup hy
  rcases List.mem_cons.mp (hall.collects.subset (List.mem_of_find?_eq_some hy)) with rfl | hmem
  · exact absurd hyt noTime_pos.ne
  · obtain ⟨d, hd, hdperf, hdt, -⟩ := hall.measured y hmem
    exact hnone d hd (hdperf ▸ hyperf) (hdt ▸ hyt)

/-- Pruned exploration, of no fewer experiments than there are combinations, finds the optimum exactly
if the names fit their buffer, there are not two combinations, and nothing takes too long.

The times are those of a clock: if there are more combinations than a `size_t` counts, none is taken
for more than `1e50`. -/
theorem findsOptimum_iff (printG : ℚ → List Char) (mt : ℕ → ℕ) (nq : ℕ)
    (hvalues : ∀ pr ∈ space.parameterRanges, pr.values ≠ [])
    (hexp : (space.nCombinations : ℤ) ≤ space.nExperiments.toInt) (hm : m.Regular space)
    (hclock : numCombinations space.parameterRanges < 2 ^ 64 ∨
      ∀ c < space.nCombinations, m.t c ≤ noTime) :
    FindsOptimum printG mt space m nq ↔
      (space.nExperiments = 0 ∨ space.nCombinations = 1 ∨ 2 < space.nCombinations) ∧
        (∀ c < space.nCombinations, space.NameFits printG c) ∧ space.NoneTooLong m := by
  obtain ⟨hlt, -⟩ := nExp_eq hexp
  have hzero : ∀ ops, { space with nExperiments := 0 }.explore printG m mt nq nq {} = .ok ops ↔
      (List.range space.nCombinations).foldlM (space.measure printG m) {} = .ok ops := fun ops ↦ by
    rw [explore_zero rfl]
    rfl
  by_cases hsome : space.nExperiments = 0
  · -- the exhaustive exploration, of no combination
    have hnone : space.nCombinations = 0 := by
      rw [hsome] at hexp
      exact Nat.le_zero.mp (Int.ofNat_le.mp hexp)
    have hempty : ∀ c, ¬ c < space.nCombinations := fun c hc ↦ by omega
    refine iff_of_true ⟨{}, {}, ?_, ?_, fun _ ↦ rfl⟩ ⟨.inl hsome, fun c hc ↦ absurd hc (hempty c),
      .inr fun c hc ↦ absurd hc (hempty c)⟩
    · rw [explore_zero hsome, hnone]
      rfl
    · rw [hzero, hnone]
      rfl
  · constructor
    · rintro ⟨ops, all, hops, hall, hfinds⟩
      obtain ⟨hcount, hrun⟩ := (explore_eq_ok_iff hexp hsome).mp hops
      have hnames : ∀ c < space.nCombinations, space.NameFits printG c := fun c hc ↦
        nameFits_of_foldlM ((hzero all).mp hall) c (List.mem_range.mpr hc)
      obtain ⟨all', hall', hexplored, hpoints⟩ := exists_exhaustive hm hnames
      obtain rfl : all = all' := Except.ok.inj (((hzero all).mp hall).symm.trans hall')
      exact ⟨.inr hcount, hnames, noneTooLong_of_tForPerf hm (by omega) hnames hrun hexplored hpoints
        hfinds⟩
    · rintro ⟨hcount, hnames, hlong⟩
      have hcount := hcount.resolve_left hsome
      obtain ⟨ops, hrun, h, hreached⟩ :=
        exists_explore_reached hvalues hlt hm hclock (by omega) hnames hlong
      obtain ⟨all, hall, hexplored, hpoints⟩ := exists_exhaustive hm hnames
      exact ⟨ops, all, (explore_eq_ok_iff hexp hsome).mpr ⟨hcount, hrun⟩, (hzero all).mpr hall,
        h.tForPerf_eq hm hexplored hpoints hreached⟩

/-- One range of `n` values. -/
def oneRange (n : ℕ) (nExperiments : Int32) : ParameterSpace where
  parameterRanges := [⟨['n', 'p', 'r', 'o', 'b', 'e'], (List.range n).map fun i : ℕ ↦ (i : ℚ) + 1⟩]
  verbose := false
  nExperiments

def risingMeasurement : Measurement where
  perf c := c / 4
  t c := c + 1

theorem regular_oneRange {n : ℕ} (hn : n < 5) (nExperiments : Int32) :
    risingMeasurement.Regular (oneRange n nExperiments) := by
  have hcount : (oneRange n nExperiments).nCombinations = n := by
    rw [nCombinations, oneRange, List.foldl_cons, List.foldl_nil, List.length_map, List.length_range]
    omega
  refine ⟨fun c _ ↦ by unfold risingMeasurement; positivity, fun c hc ↦ ?_,
    fun c _ ↦ by unfold risingMeasurement; positivity, fun c1 h1 c2 h2 hge ↦ ?_⟩
  · rw [hcount] at hc
    change (c : ℚ) / 4 ≤ 1
    have : (c : ℚ) ≤ 4 := by exact_mod_cast (by omega : c ≤ 4)
    linarith
  · rw [hcount] at h1 h2
    have hle : c2 ≤ c1 := by
      rw [combinationGe, oneRange, tupleGe, List.length_map, List.length_range,
        sizeOfInt_ofNat (by omega), Nat.mod_eq_of_lt h1, Nat.mod_eq_of_lt h2] at hge
      by_contra hlt
      rw [if_pos hlt] at hge
      cases hge
    have : (c2 : ℚ) ≤ c1 := by exact_mod_cast hle
    change (c2 : ℚ) / 4 ≤ c1 / 4 ∧ (c2 : ℚ) + 1 ≤ c1 + 1
    constructor
    · linarith
    · linarith

/-- The exploration of two combinations throws. -/
theorem not_findsOptimum_two_combinations :
    risingMeasurement.Regular (oneRange 2 2) ∧
      ((oneRange 2 2).nCombinations : ℤ) ≤ (oneRange 2 2).nExperiments.toInt ∧
      ¬ FindsOptimum (fun _ ↦ ['1']) id (oneRange 2 2) risingMeasurement 1 := by
  refine ⟨regular_oneRange (by decide) 2, by decide, ?_⟩
  rintro ⟨ops, all, hops, -⟩
  cases hops

theorem findsOptimum_three_combinations :
    FindsOptimum (fun _ ↦ ['1']) id (oneRange 3 3) risingMeasurement 1 := by
  refine (findsOptimum_iff _ _ _ (by decide) (by decide) (regular_oneRange (by decide) 3)
    (.inl (by decide))).mpr ⟨.inr (.inr (by decide)), fun c _ ↦ ?_, .inl ?_⟩
  · exact ⟨Nat.zero_le _, trivial⟩
  · change ((0 : ℕ) : ℚ) + 1 < noTime
    norm_num [noTime]

end ParameterSpace

end FaissNavix
