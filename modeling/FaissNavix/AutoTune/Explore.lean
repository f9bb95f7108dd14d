import FaissNavix.AutoTune.ParameterSpace
import FaissNavix.Lib.Loop
import Mathlib.Tactic.Ring

/-!
# Pruned exploration

An experiment is skipped if what it can gain at most is had already for what it costs at least.  If
performance and time rise with the combinations, the points that are measured then cover the point
that is not (`Reached`), unless `t_for_perf` answered `1e50` because nothing performs well enough yet.
That answer never decides while the first combination takes less than `1e50` (`Topped`).
-/

namespace FaissNavix

open OperatingPoint (idle)
open OperatingPoints (Collects)
open Lib.Pareto (Covers Dominates lookup)

/-- Performances between 0 and 1 and positive times, that do not fall from a combination to a greater
one. -/
structure Measurement.Regular (m : Measurement) (space : ParameterSpace) : Prop where
  perf_nonneg : ∀ c < space.nCombinations, 0 ≤ m.perf c
  perf_le_one : ∀ c < space.nCombinations, m.perf c ≤ 1
  t_pos : ∀ c < space.nCombinations, 0 < m.t c
  rising : ∀ c1 < space.nCombinations, ∀ c2 < space.nCombinations,
    space.combinationGe c1 c2 = true → m.perf c2 ≤ m.perf c1 ∧ m.t c2 ≤ m.t c1

theorem OperatingPoints.Collects.tForPerf_le {ops : OperatingPoints} (h : ops.Collects) {p b : ℚ}
    (hb : noTime ≤ b) (hpts : ∀ x ∈ idle :: ops.allPts, x.t ≤ b) : ops.tForPerf p ≤ b := by
  rw [h.tForPerf_eq]
  cases hx : lookup OperatingPoint.perf ops.optimalPts p with
  | none => exact hb
  | some x => exact hpts x (h.subset (List.mem_of_find?_eq_some hx))

namespace ParameterSpace

variable {space : ParameterSpace} {m : Measurement} {printG : ℚ → List Char} {mt : ℕ → ℕ}
  {ops ops' all : OperatingPoints} {c : ℕ} {p v : ℚ}

/-! ## The bounds -/

def opCno (op : OperatingPoint) : ℕ := (op.cno % 2 ^ 64).toNat

/-- The upper bound is the best of what the greater combinations allow. -/
theorem le_boundsOf_iff {pts : List OperatingPoint} : v ≤ (space.boundsOf c pts).1 ↔
    v ≤ 1 ∧ ∀ op ∈ pts, space.combinationGe (opCno op) c = true → v ≤ op.perf := by
  induction pts using List.reverseRecOn with
  | nil => simp [boundsOf]
  | append_singleton pts op ih =>
      have hstep : (space.boundsOf c (pts ++ [op])).1 =
          if space.combinationGe (opCno op) c then
            if op.perf < (space.boundsOf c pts).1 then op.perf else (space.boundsOf c pts).1
          else (space.boundsOf c pts).1 := by
        rw [boundsOf, List.foldl_append]
        rfl
      rw [hstep]
      simp only [List.mem_append, List.mem_singleton, or_imp, forall_and, forall_eq]
      rw [← and_assoc, ← ih]
      by_cases hge : space.combinationGe (opCno op) c = true
      · rw [if_pos hge]
        split
        · rename_i hlt
          exact ⟨fun hv ↦ ⟨hv.trans hlt.le, fun _ ↦ hv⟩, fun hv ↦ hv.2 hge⟩
        · rename_i hlt
          exact ⟨fun hv ↦ ⟨hv, fun _ ↦ hv.trans (not_lt.mp hlt)⟩, fun hv ↦ hv.1⟩
      · rw [if_neg hge]
        exact ⟨fun hv ↦ ⟨hv, fun h ↦ absurd h hge⟩, fun hv ↦ hv.1⟩

/-- The lower bound is the worst that the lesser combinations allow. -/
theorem boundsOf_le_iff {pts : List OperatingPoint} : (space.boundsOf c pts).2 ≤ v ↔
    0 ≤ v ∧ ∀ op ∈ pts, space.combinationGe c (opCno op) = true → op.t ≤ v := by
  induction pts using List.reverseRecOn with
  | nil => simp [boundsOf]
  | append_singleton pts op ih =>
      have hstep : (space.boundsOf c (pts ++ [op])).2 =
          if space.combinationGe c (opCno op) then
            if (space.boundsOf c pts).2 < op.t then op.t else (space.boundsOf c pts).2
          else (space.boundsOf c pts).2 := by
        rw [boundsOf, List.foldl_append]
        rfl
      rw [hstep]
      simp only [List.mem_append, List.mem_singleton, or_imp, forall_and, forall_eq]
      rw [← and_assoc, ← ih]
      by_cases hge : space.combinationGe c (opCno op) = true
      · rw [if_pos hge]
        split
        · rename_i hlt
          exact ⟨fun hv ↦ ⟨hlt.le.trans hv, fun _ ↦ hv⟩, fun hv ↦ hv.2 hge⟩
        · rename_i hlt
          exact ⟨fun hv ↦ ⟨hv, fun _ ↦ (not_lt.mp hlt).trans hv⟩, fun hv ↦ hv.1⟩
      · rw [if_neg hge]
        exact ⟨fun hv ↦ ⟨hv, fun h ↦ absurd h hge⟩, fun hv ↦ hv.1⟩

/-! ## What is measured -/

/-- `op` is the measurement of `c`. -/
def IsPoint (m : Measurement) (c : ℕ) (op : OperatingPoint) : Prop :=
  op.perf = m.perf c ∧ op.t = m.t c ∧ op.cno = c

/-- The points are measurements of combinations. -/
structure Explored (space : ParameterSpace) (m : Measurement) (ops : OperatingPoints) : Prop where
  collects : ops.Collects
  measured : ∀ op ∈ ops.allPts, ∃ c < space.nCombinations, IsPoint m c op

/-- Something optimal performs no worse than `c` and takes no more time. -/
def Reached (m : Measurement) (ops : OperatingPoints) (c : ℕ) : Prop :=
  ∃ x ∈ ops.optimalPts, m.perf c ≤ x.perf ∧ x.t ≤ m.t c

theorem nCombinations_lt (space : ParameterSpace) : space.nCombinations < 2 ^ 64 := by
  have hfold : ∀ (prs : List ParameterRange) (n : ℕ), n < 2 ^ 64 →
      prs.foldl (fun n pr ↦ n * pr.values.length % 2 ^ 64) n < 2 ^ 64 := by
    intro prs
    induction prs with
    | nil => exact fun _ hn ↦ hn
    | cons pr prs ih => exact fun n _ ↦ ih _ (Nat.mod_lt _ (by norm_num))
  exact hfold _ 1 (by norm_num)

theorem opCno_of_isPoint {op : OperatingPoint} (hc : c < space.nCombinations)
    (h : IsPoint m c op) : opCno op = c := by
  have := nCombinations_lt space
  rw [opCno, h.2.2]
  omega

theorem explored_empty : Explored space m {} where
  collects := OperatingPoints.collects_empty
  measured := fun _ h ↦ absurd h List.not_mem_nil

theorem Explored.reached (h : Explored space m ops) {op : OperatingPoint} (hop : op ∈ ops.allPts)
    (hc : IsPoint m c op) : Reached m ops c := by
  obtain ⟨x, hx, hdom⟩ := h.collects.covers op (List.mem_cons_of_mem _ hop)
  exact ⟨x, hx, hc.1 ▸ hdom.1, hc.2.1 ▸ hdom.2⟩

theorem Explored.covers (h : Explored space m ops) (h' : Explored space m ops')
    (hsub : ops.allPts ⊆ ops'.allPts) :
    Covers OperatingPoint.perf OperatingPoint.t ops'.optimalPts ops.optimalPts :=
  h'.collects.covers.trans (Covers.of_subset fun _ hx ↦
    List.cons_subset_cons _ hsub (h.collects.subset hx))

theorem Reached.mono (hr : Reached m ops c) (h : Explored space m ops) (h' : Explored space m ops')
    (hsub : ops.allPts ⊆ ops'.allPts) : Reached m ops' c := by
  obtain ⟨x, hx, hperf, ht⟩ := hr
  obtain ⟨y, hy, hdom⟩ := h.covers h' hsub x hx
  exact ⟨y, hy, hperf.trans hdom.1, hdom.2.trans ht⟩

theorem Explored.add (h : Explored space m ops) (hc : c < space.nCombinations) (ht : 0 < m.t c)
    (name : List Char) : ∃ r, ops.add (m.perf c) (m.t c) name c = .ok r ∧ Explored space m r.1 ∧
      r.1.allPts = ops.allPts ++ [⟨m.perf c, m.t c, name, c⟩] := by
  obtain ⟨r, hr, hall, hcollects⟩ := h.collects.add (m.perf c) ht.le name c
  refine ⟨r, hr, ⟨hcollects, fun op hop ↦ ?_⟩, hall⟩
  rw [hall] at hop
  rcases List.mem_append.mp hop with hop | hop
  · exact h.measured op hop
  · rw [List.mem_singleton.mp hop]
    exact ⟨c, hc, rfl, rfl, rfl⟩

theorem exists_printName (hname : space.NameFits printG c) :
    ∃ name, space.printName printG c = .ok name := by
  obtain ⟨name, h⟩ := (exists_combinationName_iff printG).mpr hname
  unfold printName
  split
  · exact ⟨name, h⟩
  · exact ⟨[], rfl⟩

theorem Explored.measure (h : Explored space m ops) (hc : c < space.nCombinations) (ht : 0 < m.t c)
    (hname : space.NameFits printG c) : ∃ ops', space.measure printG m ops c = .ok ops' ∧
      Explored space m ops' ∧ ∃ op, IsPoint m c op ∧ ops'.allPts = ops.allPts ++ [op] := by
  obtain ⟨name, hn⟩ := (exists_combinationName_iff printG).mpr hname
  obtain ⟨_, hprint⟩ := exists_printName hname
  obtain ⟨r, hr, hexplored, hall⟩ := h.add hc ht name
  refine ⟨r.1, ?_, hexplored, _, ⟨rfl, rfl, rfl⟩, hall⟩
  rw [ParameterSpace.measure, hn]
  change (ops.add (m.perf c) (m.t c) name c >>= _) = _
  rw [hr]
  change (space.printName printG c >>= _) = _
  rw [hprint]
  rfl

/-- A turn of the pruned loop: either the experiment is skipped, or its point is added. -/
theorem Explored.experiment (h : Explored space m ops) (hc : c < space.nCombinations)
    (ht : 0 < m.t c) (hname : space.NameFits printG c) :
    ∃ ops', space.experiment printG m ops c = .ok ops' ∧ Explored space m ops' ∧
      (ops' = ops ∧ ops.tForPerf (space.boundsOf c ops.allPts).1 ≤ (space.boundsOf c ops.allPts).2 ∨
        ¬ ops.tForPerf (space.boundsOf c ops.allPts).1 ≤ (space.boundsOf c ops.allPts).2 ∧
          ∃ op, IsPoint m c op ∧ ops'.allPts = ops.allPts ++ [op]) := by
  obtain ⟨_, hprint⟩ := exists_printName hname
  have hrun : space.experiment printG m ops c =
      if ops.tForPerf (space.boundsOf c ops.allPts).1 ≤ (space.boundsOf c ops.allPts).2 then .ok ops
      else do
        let name ← space.combinationName printG c
        let r ← ops.add (m.perf c) (m.t c) name c
        return r.1 := by
    rw [ParameterSpace.experiment, hprint]
    rfl
  rw [hrun]
  by_cases hskip : ops.tForPerf (space.boundsOf c ops.allPts).1 ≤ (space.boundsOf c ops.allPts).2
  · rw [if_pos hskip]
    exact ⟨ops, rfl, h, .inl ⟨rfl, hskip⟩⟩
  · obtain ⟨name, hn⟩ := (exists_combinationName_iff printG).mpr hname
    obtain ⟨r, hr, hexplored, hall⟩ := h.add hc ht name
    refine ⟨r.1, ?_, hexplored, .inr ⟨hskip, _, ⟨rfl, rfl, rfl⟩, hall⟩⟩
    rw [if_neg hskip, hn]
    change (ops.add (m.perf c) (m.t c) name c >>= _) = _
    rw [hr]
    rfl

/-! ## What a skip rules out -/

theorem Explored.bounds (h : Explored space m ops) (hm : m.Regular space)
    (hc : c < space.nCombinations) : m.perf c ≤ (space.boundsOf c ops.allPts).1 ∧
      (space.boundsOf c ops.allPts).2 ≤ m.t c := by
  constructor
  · refine le_boundsOf_iff.mpr ⟨hm.perf_le_one c hc, fun op hop hge ↦ ?_⟩
    obtain ⟨d, hd, hpoint⟩ := h.measured op hop
    rw [opCno_of_isPoint hd hpoint] at hge
    exact hpoint.1 ▸ (hm.rising d hd c hc hge).1
  · refine boundsOf_le_iff.mpr ⟨(hm.t_pos c hc).le, fun op hop hge ↦ ?_⟩
    obtain ⟨d, hd, hpoint⟩ := h.measured op hop
    rw [opCno_of_isPoint hd hpoint] at hge
    exact hpoint.2.1 ▸ (hm.rising c hc d hd hge).2

section
variable (h : Explored space m ops) (hm : m.Regular space) (hc : c < space.nCombinations)
  (hskip : ops.tForPerf (space.boundsOf c ops.allPts).1 ≤ (space.boundsOf c ops.allPts).2)
include h hm hc hskip

theorem Explored.reached_of_skip
    (hsome : (lookup OperatingPoint.perf ops.optimalPts (space.boundsOf c ops.allPts).1).isSome) :
    Reached m ops c := by
  obtain ⟨hperf, ht⟩ := h.bounds hm hc
  obtain ⟨x, hx⟩ := Option.isSome_iff_exists.mp hsome
  rw [h.collects.tForPerf_eq, hx] at hskip
  exact ⟨x, List.mem_of_find?_eq_some hx, hperf.trans (Lib.Pareto.le_of_lookup hx), hskip.trans ht⟩

theorem Explored.reached_or_le :
    Reached m ops c ∨ noTime ≤ m.t c := by
  cases hx : lookup OperatingPoint.perf ops.optimalPts (space.boundsOf c ops.allPts).1 with
  | none =>
      rw [h.collects.tForPerf_eq, hx] at hskip
      exact .inr (hskip.trans (h.bounds hm hc).2)
  | some x => exact .inl (h.reached_of_skip hm hc hskip (Option.isSome_iff_exists.mpr ⟨x, hx⟩))

end

/-! ## The answer `1e50` -/

/-- Something performs as well as can be, or the greatest combination is measured. -/
def Topped (space : ParameterSpace) (ops : OperatingPoints) : Prop :=
  (lookup OperatingPoint.perf ops.optimalPts 1).isSome ∨
    ∃ op ∈ ops.allPts, ∀ c, space.combinationGe (opCno op) c = true

theorem Topped.mono (ht : Topped space ops) (h : Explored space m ops) (h' : Explored space m ops')
    (hsub : ops.allPts ⊆ ops'.allPts) : Topped space ops' := by
  rcases ht with hone | ⟨op, hop, hge⟩
  · exact .inl ((h.covers h' hsub).lookup_isSome hone)
  · exact .inr ⟨op, hsub hop, hge⟩

theorem Topped.lookup_isSome (ht : Topped space ops) (h : Explored space m ops) (c : ℕ) :
    (lookup OperatingPoint.perf ops.optimalPts (space.boundsOf c ops.allPts).1).isSome := by
  obtain ⟨hone, hbelow⟩ := le_boundsOf_iff.mp (le_refl (space.boundsOf c ops.allPts).1)
  rcases ht with htop | ⟨op, hop, hge⟩
  · obtain ⟨x, hx, hp⟩ := Lib.Pareto.lookup_isSome.mp htop
    exact Lib.Pareto.lookup_isSome.mpr ⟨x, hx, hone.trans hp⟩
  · obtain ⟨x, hx, hdom⟩ := h.collects.covers op (List.mem_cons_of_mem _ hop)
    exact Lib.Pareto.lookup_isSome.mpr ⟨x, hx, (hbelow op hop (hge c)).trans hdom.1⟩

/-! ## The runs -/

theorem exists_first (hm : m.Regular space) (hn : 1 ≤ space.nCombinations)
    (hname : space.NameFits printG 0) : ∃ ops op, space.experiment printG m {} 0 = .ok ops ∧
      Explored space m ops ∧ IsPoint m 0 op ∧ ops.allPts = [op] := by
  obtain ⟨ops, hops, hexplored, ⟨-, hskip⟩ | ⟨-, op, hop, hall⟩⟩ :=
    explored_empty.experiment hn (hm.t_pos 0 hn) hname
  · have hidle : ({} : OperatingPoints).tForPerf 1 = noTime := by
      rw [OperatingPoints.collects_empty.tForPerf_eq]
      rfl
    exact absurd (hidle ▸ hskip : noTime ≤ 0) (not_le.mpr noTime_pos)
  · exact ⟨ops, op, hops, hexplored, hop, hall⟩

/-- The other experiments, where the first one takes too long: all are skipped. -/
theorem foldlM_experiment_of_le (hm : m.Regular space) (h : Explored space m ops)
    {op : OperatingPoint} (hop : IsPoint m 0 op) (hall : ops.allPts = [op]) (hlong : noTime ≤ m.t 0)
    {cs : List ℕ} (hcs : ∀ c ∈ cs, c < space.nCombinations)
    (hnames : ∀ c ∈ cs, space.NameFits printG c) :
    cs.foldlM (space.experiment printG m) ops = .ok ops := by
  induction cs with
  | nil => rfl
  | cons c cs ih =>
      have hc := hcs c List.mem_cons_self
      have hn : 0 < space.nCombinations := Nat.zero_lt_of_lt hc
      have hskip : ops.tForPerf (space.boundsOf c ops.allPts).1 ≤ (space.boundsOf c ops.allPts).2 := by
        have hbelow := (boundsOf_le_iff.mp (le_refl (space.boundsOf c ops.allPts).2)).2 op
          (by rw [hall]; exact List.mem_singleton_self op)
          (by rw [opCno_of_isPoint hn hop]; exact tupleGe_zero _ c)
        rw [hop.2.1] at hbelow
        refine (h.collects.tForPerf_le hlong fun x hx ↦ ?_).trans hbelow
        rw [hall] at hx
        rcases List.mem_cons.mp hx with rfl | hx
        · exact (hm.t_pos 0 hn).le
        · rw [List.mem_singleton.mp hx, hop.2.1]
      obtain ⟨ops', hrun, -, ⟨rfl, -⟩ | ⟨hrun', -⟩⟩ :=
        h.experiment hc (hm.t_pos c hc) (hnames c List.mem_cons_self)
      · rw [List.foldlM_cons, hrun]
        exact ih (fun d hd ↦ hcs d (List.mem_cons_of_mem c hd))
          fun d hd ↦ hnames d (List.mem_cons_of_mem c hd)
      · exact absurd hskip hrun'

/-- Experiments that leave each combination reached, or as long as what cannot be reached. -/
theorem exists_foldlM_experiment (hm : m.Regular space) (h : Explored space m ops)
    {done cs : List ℕ} (hdone : ∀ c ∈ done, Reached m ops c ∨ noTime ≤ m.t c)
    (hcs : ∀ c ∈ done ++ cs, c < space.nCombinations ∧ space.NameFits printG c) :
    ∃ ops', cs.foldlM (space.experiment printG m) ops = .ok ops' ∧ Explored space m ops' ∧
      ∀ c ∈ done ++ cs, Reached m ops' c ∨ noTime ≤ m.t c := by
  refine Lib.foldlM_done (fun done ops ↦ Explored space m ops ∧
    ∀ c ∈ done, Reached m ops c ∨ noTime ≤ m.t c) ⟨h, hdone⟩ ?_
  rintro before c after ops hsplit ⟨h, hbefore⟩
  obtain ⟨hc, hname⟩ := hcs c (by rw [hsplit]; simp)
  obtain ⟨ops', hrun, h', ⟨rfl, hskip⟩ | ⟨-, op, hop, hall⟩⟩ := h.experiment hc (hm.t_pos c hc) hname
  · refine ⟨ops', hrun, h', fun d hd ↦ ?_⟩
    rcases List.mem_append.mp hd with hd | hd
    · exact hbefore d hd
    · rw [List.mem_singleton.mp hd]
      exact h.reached_or_le hm hc hskip
  · refine ⟨ops', hrun, h', fun d hd ↦ ?_⟩
    have hsub : ops.allPts ⊆ ops'.allPts := hall ▸ List.subset_append_left _ _
    rcases List.mem_append.mp hd with hd | hd
    · exact (hbefore d hd).imp_left fun hr ↦ hr.mono h h' hsub
    · rw [List.mem_singleton.mp hd]
      exact .inl (h'.reached (by rw [hall]; simp) hop)

/-- Experiments after the greatest combination leave each combination reached. -/
theorem Topped.exists_foldlM (htop : Topped space ops) (hm : m.Regular space)
    (h : Explored space m ops) {done cs : List ℕ} (hdone : ∀ c ∈ done, Reached m ops c)
    (hcs : ∀ c ∈ done ++ cs, c < space.nCombinations ∧ space.NameFits printG c) :
    ∃ ops', cs.foldlM (space.experiment printG m) ops = .ok ops' ∧ Explored space m ops' ∧
      ∀ c ∈ done ++ cs, Reached m ops' c := by
  obtain ⟨ops', hrun, h', hreached, -⟩ := Lib.foldlM_done (fun done ops ↦ Explored space m ops ∧
    (∀ c ∈ done, Reached m ops c) ∧ Topped space ops) ⟨h, hdone, htop⟩ fun before c after ops hsplit ↦ by
      rintro ⟨h, hbefore, htop⟩
      obtain ⟨hc, hname⟩ := hcs c (by rw [hsplit]; simp)
      obtain ⟨ops', hrun, h', ⟨rfl, hskip⟩ | ⟨-, op, hop, hall⟩⟩ :=
        h.experiment hc (hm.t_pos c hc) hname
      · refine ⟨ops', hrun, h', fun d hd ↦ ?_, htop⟩
        rcases List.mem_append.mp hd with hd | hd
        · exact hbefore d hd
        · rw [List.mem_singleton.mp hd]
          exact h.reached_of_skip hm hc hskip (htop.lookup_isSome h c)
      · have hsub : ops.allPts ⊆ ops'.allPts := hall ▸ List.subset_append_left _ _
        refine ⟨ops', hrun, h', fun d hd ↦ ?_, htop.mono h h' hsub⟩
        rcases List.mem_append.mp hd with hd | hd
        · exact (hbefore d hd).mono h h' hsub
        · rw [List.mem_singleton.mp hd]
          exact h'.reached (by rw [hall]; simp) hop
  exact ⟨ops', hrun, h', hreached⟩

/-- After the first two experiments, the space is topped. -/
theorem exists_second (hm : m.Regular space) (h : Explored space m ops) {op : OperatingPoint}
    (hop : IsPoint m 0 op) (hall : ops.allPts = [op]) (hshort : m.t 0 < noTime)
    (hn : 1 ≤ space.nCombinations)
    (hlast : ∀ c, space.combinationGe (space.nCombinations - 1) c = true)
    (hname : space.NameFits printG (space.nCombinations - 1)) :
    ∃ ops', space.experiment printG m ops (space.nCombinations - 1) = .ok ops' ∧
      Explored space m ops' ∧ Topped space ops' ∧ Reached m ops' 0 ∧
      Reached m ops' (space.nCombinations - 1) := by
  have hc : space.nCombinations - 1 < space.nCombinations := Nat.sub_lt hn Nat.one_pos
  have hmem : op ∈ ops.allPts := by rw [hall]; exact List.mem_singleton_self op
  have hzero : opCno op = 0 := opCno_of_isPoint hn hop
  obtain ⟨ops', hrun, h', ⟨rfl, hskip⟩ | ⟨-, op', hop', hall'⟩⟩ := h.experiment hc (hm.t_pos _ hc) hname
  · have hbound : (space.boundsOf (space.nCombinations - 1) ops'.allPts).2 ≤ m.t 0 := by
      refine boundsOf_le_iff.mpr ⟨(hm.t_pos 0 hn).le, fun x hx _ ↦ ?_⟩
      rw [hall] at hx
      rw [List.mem_singleton.mp hx, hop.2.1]
    have hsome : (lookup OperatingPoint.perf ops'.optimalPts
        (space.boundsOf (space.nCombinations - 1) ops'.allPts).1).isSome := by
      refine Option.isSome_iff_ne_none.mpr fun hnone ↦ ?_
      rw [h.collects.tForPerf_eq, hnone] at hskip
      exact absurd (hskip.trans hbound) (not_le.mpr hshort)
    refine ⟨ops', hrun, h, ?_, h.reached hmem hop, h.reached_of_skip hm hc hskip hsome⟩
    by_cases hge : space.combinationGe 0 (space.nCombinations - 1) = true
    · -- the first combination is as great as the last
      exact .inr ⟨op, hmem, fun c ↦ hzero ▸ tupleGe_trans hge (hlast c)⟩
    · obtain ⟨x, hx, hp⟩ := Lib.Pareto.lookup_isSome.mp hsome
      refine .inl (Lib.Pareto.lookup_isSome.mpr ⟨x, hx, le_trans ?_ hp⟩)
      refine le_boundsOf_iff.mpr ⟨le_rfl, fun y hy hy' ↦ ?_⟩
      rw [hall] at hy
      rw [List.mem_singleton.mp hy, hzero] at hy'
      exact absurd hy' hge
  · have hsub : ops.allPts ⊆ ops'.allPts := hall' ▸ List.subset_append_left _ _
    have hmem' : op' ∈ ops'.allPts := by rw [hall']; simp
    refine ⟨ops', hrun, h', .inr ⟨op', hmem', fun c ↦ ?_⟩, h'.reached (hsub hmem) hop,
      h'.reached hmem' hop'⟩
    rw [opCno_of_isPoint hc hop']
    exact hlast c

theorem exists_exhaustive (hm : m.Regular space)
    (hnames : ∀ c < space.nCombinations, space.NameFits printG c) :
    ∃ all, (List.range space.nCombinations).foldlM (space.measure printG m) {} = .ok all ∧
      Explored space m all ∧ ∀ c < space.nCombinations, ∃ op ∈ all.allPts, IsPoint m c op := by
  have hall : ∃ all, (List.range space.nCombinations).foldlM (space.measure printG m) {} = .ok all ∧
      Explored space m all ∧
        ∀ c ∈ [] ++ List.range space.nCombinations, ∃ op ∈ all.allPts, IsPoint m c op := by
    refine Lib.foldlM_done (fun done ops ↦ Explored space m ops ∧
      ∀ c ∈ done, ∃ op ∈ ops.allPts, IsPoint m c op)
      ⟨explored_empty, fun _ hc ↦ absurd hc List.not_mem_nil⟩ ?_
    rintro before c after ops hsplit ⟨h, hbefore⟩
    rw [List.nil_append] at hsplit
    have hc : c < space.nCombinations := List.mem_range.mp (by rw [hsplit]; simp)
    obtain ⟨ops', hrun, h', op, hop, hall⟩ := h.measure hc (hm.t_pos c hc) (hnames c hc)
    refine ⟨ops', hrun, h', fun d hd ↦ ?_⟩
    rcases List.mem_append.mp hd with hd | hd
    · obtain ⟨op', hop', hpoint⟩ := hbefore d hd
      exact ⟨op', hall ▸ List.mem_append_left _ hop', hpoint⟩
    · rw [List.mem_singleton.mp hd]
      exact ⟨op, by rw [hall]; simp, hop⟩
  obtain ⟨all, hrun, h, hpoints⟩ := hall
  exact ⟨all, hrun, h, fun c hc ↦ hpoints c (List.mem_range.mpr hc)⟩

end ParameterSpace

end FaissNavix
