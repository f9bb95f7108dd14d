import FaissNavix.IVF.Modes
import FaissNavix.Lib.Scatter

/-!
# Range search in an inverted file

`IndexIVF::range_search` and `range_search_preassigned` of `faiss/IndexIVF.cpp`, with the scanner of
`faiss/IndexIVFFlat.cpp`.  Every thread has a partial result to which its scans add what they find.
In the end a query has what the threads found for it, one thread after the other.
-/

namespace FaissNavix

open Lib (row mapM_of_ok ok_of_mapM flatMap_row_perm row_map_of_mem)

/-- What the local functions of `range_search_preassigned` capture. -/
structure RangeContext where
  nprobe : ℕ
  radius : F32
  storePairs : Bool
  sel : Option IDSelector

namespace IVFIndex

variable {Q QP : Type} (ivf : IVFIndex Q QP) (ctx : RangeContext)

/-! ## The scanner -/

/-- `scan_codes_range` -/
def scanCodesRange (query : Q) (key : ℤ) (coarseDis : F32) (entries : List Entry) :
    List (F32 × ℤ) :=
  (List.range entries.length).filterMap fun j ↦
    if skips ctx.sel (idAt entries j) then none
    else
      let dis := ivf.distanceToCode query key coarseDis (codeAt entries j)
      if ivf.metricType.order.cmp ctx.radius dis then
        some (dis, if ctx.storePairs then (loOf key j).toInt else (idAt entries j).toInt)
      else none

/-- `iterate_codes_range` -/
def iterateCodesRange (query : Q) (key : ℤ) (coarseDis : F32) (entries : List Entry) :
    List (F32 × ℤ) :=
  entries.filterMap fun e ↦
    let dis := ivf.distanceToCode query key coarseDis e.code
    if ivf.metricType.order.cmp ctx.radius dis then some (dis, e.id.toInt) else none

/-! ## `range_search_preassigned` -/

/-- `scan_list_func`: what is added for probe `ik`. -/
def scanListRange (query : Q) (probe : ℤ × F32) (ik : ℕ) : Except Fault (List (F32 × ℤ)) :=
  if probe.1 < 0 then .ok []
  else if ivf.nlist ≤ probe.1 then
    .error (.exception ("Error: 'key < (idx_t)nlist' failed: Invalid key=" ++ toString probe.1 ++
      " at ik=" ++ toString ik ++ " nlist=" ++ toString ivf.nlist ++ "\n"))
  else
    let entries := ivf.list probe.1.toNat
    if entries.isEmpty then .ok []
    else if ivf.useIterator then .ok (ivf.iterateCodesRange ctx query probe.1 probe.2 entries)
    else .ok (ivf.scanCodesRange ctx query probe.1 probe.2 entries)

variable (schedule : Schedule) (x : ℕ → Q) (assign : ℕ → ℤ × F32)

section
variable (nx : ℕ) (radius : F32) (storePairs : Bool) (params : Option (IVFSearchParameters QP))

/-- What is added in iteration `iik` of the loop over queries and probes. -/
def scanRangeAt (iik : ℕ) : Except Fault (List (F32 × ℤ)) :=
  ivf.scanListRange ctx (x (iik / ctx.nprobe)) (assign iik) (iik % ctx.nprobe)

/-- What the threads added for a query, where a piece is what a thread added at once. -/
def gather (pieces : List (ℕ × List (F32 × ℤ))) : List (F32 × ℤ) :=
  (List.range schedule.threads).flatMap (row pieces)

/-- Mode 0: the thread that has a query adds to its result probe after probe. -/
def rangeByQuery : Except Fault (ℕ → List (F32 × ℤ)) := do
  let pieces ← schedule.queries.mapM fun i ↦ do
    let rs ← (List.range ctx.nprobe).mapM fun ik ↦
      ivf.scanRangeAt ctx x assign (i * ctx.nprobe + ik)
    return (i, rs.flatten)
  return row pieces

/-- Mode 1: the probes of each query are shared among the threads. -/
def rangeByProbe : Except Fault (ℕ → List (F32 × ℤ)) := do
  let pieces ← (List.range nx).mapM fun i ↦ do
    let rs ← (schedule.probes i).mapM fun p ↦ do
      let r ← ivf.scanRangeAt ctx x assign (i * ctx.nprobe + p.2)
      return (p.1, r)
    return (i, gather schedule rs)
  return row pieces

/-- Mode 2: all probes of all queries are shared among the threads. -/
def rangeByPair : Except Fault (ℕ → List (F32 × ℤ)) := do
  let pieces ← schedule.pairs.mapM fun p ↦ do
    let r ← ivf.scanRangeAt ctx x assign p.2
    return (p, r)
  return fun i ↦ gather schedule
    ((pieces.filter fun p ↦ p.1.2 / ctx.nprobe = i).map fun p ↦ (p.1.1, p.2))

/-- The parallel section.  The mode is compared with its flag. -/
def rangeLoops : Except Fault (ℕ → List (F32 × ℤ)) :=
  if ivf.parallelMode = 0 then ivf.rangeByQuery ctx schedule x assign
  else if ivf.parallelMode = 1 then ivf.rangeByProbe ctx schedule x assign nx
  else if ivf.parallelMode = 2 then ivf.rangeByPair ctx schedule x assign
  else .error (.exception
    ("parallel_mode " ++ toString ivf.parallelMode.toInt ++ " not supported\n"))

/-- The checks before the parallel section, and the one in `get_InvertedListScanner`. -/
def checkRange :
    Except Fault Unit := do
  Fault.throwIfNot (decide (0 < ivf.nprobeOf params)) "nprobe > 0"
  Fault.throwIfNotMsg (!ivf.useIterator || (decide (ivf.maxCodesOf params = 0) && !storePairs))
    "!invlists->use_iterator || (max_codes == 0 && store_pairs == false)"
    "iterable inverted lists don't support max_codes and store_pairs"
  Fault.throwIfNot ((params.bind IVFSearchParameters.sel).isNone || ivf.takesSel) "!sel"

/-- `range_search_preassigned` -/
def rangeSearchPreassigned : Except Fault (ℕ → List (F32 × ℤ)) := do
  ivf.checkRange storePairs params
  let ctx : RangeContext :=
    ⟨ivf.nprobeOf params, radius, storePairs, params.bind IVFSearchParameters.sel⟩
  ivf.rangeLoops ctx schedule x assign nx

/-- `range_search` -/
def rangeSearch :
    Except Fault (ℕ → List (F32 × ℤ)) :=
  let nprobe := ivf.nprobeOf params
  let quantizerParams := params.bind IVFSearchParameters.quantizerParams
  let assign := fun p ↦ ivf.quantizer (x (p / nprobe)) nprobe quantizerParams (p % nprobe)
  ivf.rangeSearchPreassigned schedule x assign nx radius false params

end

/-! ## What is found -/

/-- What is found for a probe. -/
def rangeResults (query : Q) (probe : ℤ × F32) : List (F32 × ℤ) :=
  let entries := ivf.list probe.1.toNat
  if probe.1 < 0 then []
  else if entries.isEmpty then []
  else if ivf.useIterator then ivf.iterateCodesRange ctx query probe.1 probe.2 entries
  else ivf.scanCodesRange ctx query probe.1 probe.2 entries

/-- What is found for query `i`. -/
def rangeOf (i : ℕ) : List (F32 × ℤ) :=
  (List.range ctx.nprobe).flatMap fun ik ↦
    ivf.rangeResults ctx (x i) (assign (i * ctx.nprobe + ik))

variable {ivf ctx schedule x assign} {n i : ℕ}

theorem scanListRange_eq {query : Q} {probe : ℤ × F32} (h : probe.1 < ivf.nlist) (ik : ℕ) :
    ivf.scanListRange ctx query probe ik = .ok (ivf.rangeResults ctx query probe) := by
  unfold scanListRange rangeResults
  rw [if_neg (not_le.mpr h)]
  dsimp only
  split_ifs <;> rfl

theorem lt_of_scanListRange {query : Q} {probe : ℤ × F32} {ik : ℕ} {r : List (F32 × ℤ)}
    (h : ivf.scanListRange ctx query probe ik = .ok r) : probe.1 < ivf.nlist := by
  unfold scanListRange at h
  by_contra hge
  rw [if_neg (by omega), if_pos (not_lt.mp hge)] at h
  cases h

theorem scanRangeAt_eq {iik : ℕ} (h : (assign iik).1 < ivf.nlist) :
    ivf.scanRangeAt ctx x assign iik =
      .ok (ivf.rangeResults ctx (x (iik / ctx.nprobe)) (assign iik)) :=
  scanListRange_eq h _

theorem lt_of_scanRangeAt {iik : ℕ} {r : List (F32 × ℤ)}
    (h : ivf.scanRangeAt ctx x assign iik = .ok r) : (assign iik).1 < ivf.nlist :=
  lt_of_scanListRange h

theorem mul_add_lt {nprobe ik : ℕ} (hi : i < n) (hik : ik < nprobe) : i * nprobe + ik < n * nprobe :=
  calc i * nprobe + ik < (i + 1) * nprobe := by rw [Nat.add_mul, Nat.one_mul]; omega
    _ ≤ n * nprobe := Nat.mul_le_mul_right _ hi

theorem mul_add_div {nprobe ik : ℕ} (i : ℕ) (hik : ik < nprobe) : (i * nprobe + ik) / nprobe = i := by
  rw [Nat.mul_comm, Nat.mul_add_div (by omega), Nat.div_eq_of_lt hik, Nat.add_zero]

theorem forall_iterations {nprobe : ℕ} {P : ℕ → Prop}
    (h : ∀ i < n, ∀ ik < nprobe, P (i * nprobe + ik)) : ∀ iik < n * nprobe, P iik := by
  intro iik hiik
  have hpos : 0 < nprobe := Nat.pos_of_ne_zero fun h0 ↦ by
    rw [h0, Nat.mul_zero] at hiik
    exact Nat.not_lt_zero iik hiik
  have hdiv : iik / nprobe < n := Nat.div_lt_of_lt_mul (by rwa [Nat.mul_comm])
  have := h _ hdiv _ (Nat.mod_lt iik hpos)
  rwa [Nat.mul_comm, Nat.div_add_mod] at this

/-! ### Mode 0 -/

theorem rangeByQuery_holds (hs : schedule.queries.Perm (List.range n))
    (hkeys : ∀ iik < n * ctx.nprobe, (assign iik).1 < ivf.nlist) :
    ∃ rows, ivf.rangeByQuery ctx schedule x assign = .ok rows ∧
      ∀ i < n, (rows i).Perm (ivf.rangeOf ctx x assign i) := by
  have hmem : ∀ i, i ∈ schedule.queries ↔ i < n := fun i ↦ hs.mem_iff.trans List.mem_range
  have hquery : ∀ i ∈ schedule.queries, (do
      let rs ← (List.range ctx.nprobe).mapM fun ik ↦
        ivf.scanRangeAt ctx x assign (i * ctx.nprobe + ik)
      return (i, rs.flatten) : Except Fault (ℕ × List (F32 × ℤ))) =
        .ok (i, ivf.rangeOf ctx x assign i) := fun i hi ↦ by
    have hscan : ∀ ik ∈ List.range ctx.nprobe,
        ivf.scanRangeAt ctx x assign (i * ctx.nprobe + ik) = .ok (ivf.rangeResults ctx
          (x ((i * ctx.nprobe + ik) / ctx.nprobe)) (assign (i * ctx.nprobe + ik))) :=
      fun ik hik ↦ scanRangeAt_eq
        (hkeys _ (mul_add_lt ((hmem i).mp hi) (List.mem_range.mp hik)))
    rw [mapM_of_ok hscan]
    refine congrArg (fun rs ↦ Except.ok (i, rs)) ?_
    rw [rangeOf, List.flatMap_def]
    refine congrArg List.flatten (List.map_congr_left fun ik hik ↦ ?_)
    rw [mul_add_div i (List.mem_range.mp hik)]
  refine ⟨_, by rw [rangeByQuery, mapM_of_ok hquery]; rfl, fun i hi ↦ ?_⟩
  rw [row_map_of_mem (hs.nodup_iff.mpr List.nodup_range) ((hmem i).mpr hi)]

theorem keys_of_rangeByQuery (hs : schedule.queries.Perm (List.range n)) {rows : ℕ → List (F32 × ℤ)}
    (h : ivf.rangeByQuery ctx schedule x assign = .ok rows) :
    ∀ iik < n * ctx.nprobe, (assign iik).1 < ivf.nlist := by
  refine forall_iterations fun i hi ik hik ↦ ?_
  obtain ⟨pieces, hpieces, -⟩ := Fault.bind_eq_ok.mp h
  obtain ⟨piece, hpiece⟩ := ok_of_mapM hpieces i (hs.mem_iff.mpr (List.mem_range.mpr hi))
  obtain ⟨rs, hrs, -⟩ := Fault.bind_eq_ok.mp hpiece
  obtain ⟨r, hr⟩ := ok_of_mapM hrs ik (List.mem_range.mpr hik)
  exact lt_of_scanRangeAt hr

/-! ### Modes 1 and 2 -/

theorem gather_perm {ps : List (ℕ × ℕ)} {nprobe : ℕ} {found : ℕ → List (F32 × ℤ)}
    (hthreads : ∀ p ∈ ps, p.1 < schedule.threads)
    (hprobes : (ps.map Prod.snd).Perm (List.range nprobe)) :
    (gather schedule (ps.map fun p ↦ (p.1, found p.2))).Perm
      ((List.range nprobe).flatMap found) := by
  have hpieces : ∀ q ∈ ps.map fun p ↦ (p.1, found p.2), q.1 < schedule.threads :=
    List.forall_mem_map.mpr hthreads
  refine (flatMap_row_perm hpieces).trans ?_
  have hfound := hprobes.flatMap_right found
  rw [List.flatMap_map] at hfound ⊢
  exact hfound

section
variable (hs : schedule.Valid n ctx.nprobe) {rows : ℕ → List (F32 × ℤ)}
include hs

theorem rangeByProbe_holds (hkeys : ∀ iik < n * ctx.nprobe, (assign iik).1 < ivf.nlist) :
    ∃ rows, ivf.rangeByProbe ctx schedule x assign n = .ok rows ∧
      ∀ i < n, (rows i).Perm (ivf.rangeOf ctx x assign i) := by
  have hprobe : ∀ i < n, ∀ p ∈ schedule.probes i, p.2 < ctx.nprobe := fun i hi p hp ↦
    List.mem_range.mp ((hs.probes i hi).mem_iff.mp (List.mem_map_of_mem hp))
  let found := fun i ik ↦ ivf.rangeResults ctx (x i) (assign (i * ctx.nprobe + ik))
  have hquery : ∀ i ∈ List.range n, (do
      let rs ← (schedule.probes i).mapM fun p ↦ do
        let r ← ivf.scanRangeAt ctx x assign (i * ctx.nprobe + p.2)
        return (p.1, r)
      return (i, gather schedule rs) : Except Fault (ℕ × List (F32 × ℤ))) =
        .ok (i, gather schedule ((schedule.probes i).map fun p ↦ (p.1, found i p.2))) := by
    intro i hi
    have hi := List.mem_range.mp hi
    have hscan : ∀ p ∈ schedule.probes i, (do
        let r ← ivf.scanRangeAt ctx x assign (i * ctx.nprobe + p.2)
        return (p.1, r) : Except Fault (ℕ × List (F32 × ℤ))) = .ok (p.1, found i p.2) := by
      intro p hp
      have hlt := hprobe i hi p hp
      rw [scanRangeAt_eq (hkeys _ (mul_add_lt hi hlt)), mul_add_div i hlt]
      rfl
    rw [mapM_of_ok hscan]
    rfl
  refine ⟨_, by rw [rangeByProbe, mapM_of_ok hquery]; rfl, fun i hi ↦ ?_⟩
  rw [row_map_of_mem List.nodup_range (List.mem_range.mpr hi)]
  exact gather_perm (hs.threads i hi) (hs.probes i hi)

theorem keys_of_rangeByProbe (h : ivf.rangeByProbe ctx schedule x assign n = .ok rows) :
    ∀ iik < n * ctx.nprobe, (assign iik).1 < ivf.nlist := by
  refine forall_iterations fun i hi ik hik ↦ ?_
  obtain ⟨pieces, hpieces, -⟩ := Fault.bind_eq_ok.mp h
  obtain ⟨piece, hpiece⟩ := ok_of_mapM hpieces i (List.mem_range.mpr hi)
  obtain ⟨rs, hrs, -⟩ := Fault.bind_eq_ok.mp hpiece
  obtain ⟨p, hp, rfl⟩ := List.mem_map.mp
    ((hs.probes i hi).mem_iff.mpr (List.mem_range.mpr hik))
  obtain ⟨r, hr⟩ := ok_of_mapM hrs p hp
  obtain ⟨r, hr, -⟩ := Fault.bind_eq_ok.mp hr
  exact lt_of_scanRangeAt hr

theorem rangeByPair_holds (hkeys : ∀ iik < n * ctx.nprobe, (assign iik).1 < ivf.nlist) :
    ∃ rows, ivf.rangeByPair ctx schedule x assign = .ok rows ∧
      ∀ i < n, (rows i).Perm (ivf.rangeOf ctx x assign i) := by
  have hpair : ∀ p ∈ schedule.pairs, p.2 < n * ctx.nprobe := fun p hp ↦
    List.mem_range.mp (hs.pairs.mem_iff.mp (List.mem_map_of_mem hp))
  let found := fun iik ↦ ivf.rangeResults ctx (x (iik / ctx.nprobe)) (assign iik)
  have hscan : ∀ p ∈ schedule.pairs, (do
      let r ← ivf.scanRangeAt ctx x assign p.2
      return (p, r) : Except Fault ((ℕ × ℕ) × List (F32 × ℤ))) = .ok (p, found p.2) := by
    intro p hp
    rw [scanRangeAt_eq (hkeys _ (hpair p hp))]
    rfl
  refine ⟨_, by rw [rangeByPair, mapM_of_ok hscan]; rfl, fun i hi ↦ ?_⟩
  -- The pieces of query `i`, each with the thread and the iteration it is of.
  let mine := schedule.pairs.filter fun p ↦ p.2 / ctx.nprobe = i
  have hmine : ((schedule.pairs.map fun p ↦ (p, found p.2)).filter fun p ↦
      p.1.2 / ctx.nprobe = i).map (fun p ↦ (p.1.1, p.2)) =
        mine.map fun p ↦ (p.1, found p.2) := by
    rw [List.filter_map, List.map_map]
    rfl
  have hthreads : ∀ q ∈ mine.map fun p ↦ (p.1, found p.2), q.1 < schedule.threads :=
    List.forall_mem_map.mpr fun p hp ↦ hs.pairThreads p (List.mem_of_mem_filter hp)
  have hiterations : (mine.map Prod.snd).Perm
      ((List.range ctx.nprobe).map (i * ctx.nprobe + ·)) := by
    have hperm := hs.pairs.filter (· / ctx.nprobe = i)
    rwa [filter_div_eq _ hi, List.filter_map] at hperm
  rw [hmine]
  refine (flatMap_row_perm hthreads).trans ?_
  have hfound := hiterations.flatMap_right found
  rw [List.flatMap_map, List.flatMap_map] at hfound
  rw [List.flatMap_map]
  refine hfound.trans (List.Perm.of_eq ?_)
  rw [rangeOf]
  refine List.flatMap_congr fun ik hik ↦ ?_
  change ivf.rangeResults ctx (x ((i * ctx.nprobe + ik) / ctx.nprobe)) _ = _
  rw [mul_add_div i (List.mem_range.mp hik)]

theorem keys_of_rangeByPair (h : ivf.rangeByPair ctx schedule x assign = .ok rows) :
    ∀ iik < n * ctx.nprobe, (assign iik).1 < ivf.nlist := by
  intro iik hiik
  obtain ⟨pieces, hpieces, -⟩ := Fault.bind_eq_ok.mp h
  obtain ⟨p, hp, rfl⟩ := List.mem_map.mp (hs.pairs.mem_iff.mpr (List.mem_range.mpr hiik))
  obtain ⟨r, hr⟩ := ok_of_mapM hpieces p hp
  obtain ⟨r, hr, -⟩ := Fault.bind_eq_ok.mp hr
  exact lt_of_scanRangeAt hr

end

/-! ## Any mode -/

/-- A range search comes to an end if and only if its checks pass, its mode is one of the three, and
the keys are numbers of lists. -/
def RangeReturns (ivf : IVFIndex Q QP) (assign : ℕ → ℤ × F32) (n : ℕ) (storePairs : Bool)
    (params : Option (IVFSearchParameters QP)) : Prop :=
  ivf.checkRange storePairs params = .ok () ∧
    (ivf.parallelMode = 0 ∨ ivf.parallelMode = 1 ∨ ivf.parallelMode = 2) ∧
    ∀ iik < n * ivf.nprobeOf params, (assign iik).1 < ivf.nlist

theorem rangeLoops_holds (hs : schedule.Valid n ctx.nprobe)
    (hmode : ivf.parallelMode = 0 ∨ ivf.parallelMode = 1 ∨ ivf.parallelMode = 2)
    (hkeys : ∀ iik < n * ctx.nprobe, (assign iik).1 < ivf.nlist) :
    ∃ rows, ivf.rangeLoops ctx schedule x assign n = .ok rows ∧
      ∀ i < n, (rows i).Perm (ivf.rangeOf ctx x assign i) := by
  unfold rangeLoops
  rcases hmode with h0 | h1 | h2
  · rw [if_pos h0]
    exact rangeByQuery_holds hs.queries hkeys
  · rw [h1, if_neg (by decide), if_pos rfl]
    exact rangeByProbe_holds hs hkeys
  · rw [h2, if_neg (by decide), if_neg (by decide), if_pos rfl]
    exact rangeByPair_holds hs hkeys

theorem of_rangeLoops (hs : schedule.Valid n ctx.nprobe) {rows : ℕ → List (F32 × ℤ)}
    (h : ivf.rangeLoops ctx schedule x assign n = .ok rows) :
    (ivf.parallelMode = 0 ∨ ivf.parallelMode = 1 ∨ ivf.parallelMode = 2) ∧
      ∀ iik < n * ctx.nprobe, (assign iik).1 < ivf.nlist := by
  unfold rangeLoops at h
  split_ifs at h with h0 h1 h2
  · exact ⟨Or.inl h0, keys_of_rangeByQuery hs.queries h⟩
  · exact ⟨Or.inr (Or.inl h1), keys_of_rangeByProbe hs h⟩
  · exact ⟨Or.inr (Or.inr h2), keys_of_rangeByPair hs h⟩

theorem rangeSearchPreassigned_holds {storePairs : Bool} {params : Option (IVFSearchParameters QP)}
    (hs : schedule.Valid n (ivf.nprobeOf params)) (radius : F32)
    (h : ivf.RangeReturns assign n storePairs params) :
    ∃ rows, ivf.rangeSearchPreassigned schedule x assign n radius storePairs params = .ok rows ∧
      ∀ i < n, (rows i).Perm (ivf.rangeOf ⟨ivf.nprobeOf params, radius, storePairs,
        params.bind IVFSearchParameters.sel⟩ x assign i) := by
  obtain ⟨hcheck, hmode, hkeys⟩ := h
  rw [rangeSearchPreassigned, hcheck]
  exact rangeLoops_holds hs hmode hkeys

theorem returns_of_rangeSearchPreassigned {storePairs : Bool} {radius : F32}
    {params : Option (IVFSearchParameters QP)} {rows : ℕ → List (F32 × ℤ)}
    (hs : schedule.Valid n (ivf.nprobeOf params))
    (h : ivf.rangeSearchPreassigned schedule x assign n radius storePairs params = .ok rows) :
    ivf.RangeReturns assign n storePairs params := by
  obtain ⟨⟨⟩, hcheck, h⟩ := Fault.bind_eq_ok.mp h
  exact ⟨hcheck, of_rangeLoops hs h⟩

theorem nprobeOf_pos_of_returns {storePairs : Bool} {params : Option (IVFSearchParameters QP)}
    (h : ivf.RangeReturns assign n storePairs params) : 0 < ivf.nprobeOf params := by
  obtain ⟨_, hnprobe, -⟩ := Fault.bind_eq_ok.mp h.1
  exact of_decide_eq_true (Fault.throwIfNot_eq_ok.mp hnprobe)

/-- Two range searches that read the same of their assignments find the same. -/
theorem rangeSearchPreassigned_agree {storePairs : Bool} {params : Option (IVFSearchParameters QP)}
    {schedule' : Schedule} {assign' : ℕ → ℤ × F32} {radius : F32} {rows : ℕ → List (F32 × ℤ)}
    (hs : schedule.Valid n (ivf.nprobeOf params)) (hs' : schedule'.Valid n (ivf.nprobeOf params))
    (hassign : ∀ p < n * ivf.nprobeOf params, assign p = assign' p)
    (h : ivf.rangeSearchPreassigned schedule x assign n radius storePairs params = .ok rows) :
    ∃ rows', ivf.rangeSearchPreassigned schedule' x assign' n radius storePairs params = .ok rows' ∧
      ∀ i < n, (rows i).Perm (rows' i) := by
  have hreturns := returns_of_rangeSearchPreassigned hs h
  have hreturns' : ivf.RangeReturns assign' n storePairs params :=
    ⟨hreturns.1, hreturns.2.1, fun p hp ↦ hassign p hp ▸ hreturns.2.2 p hp⟩
  obtain ⟨rows₀, hrun, hrows⟩ := rangeSearchPreassigned_holds (x := x) hs radius hreturns
  obtain ⟨rows', hrun', hrows'⟩ := rangeSearchPreassigned_holds (x := x) hs' radius hreturns'
  rw [h, Except.ok.injEq] at hrun
  subst hrun
  refine ⟨rows', hrun', fun i hi ↦ (hrows i hi).trans (List.Perm.trans ?_ (hrows' i hi).symm)⟩
  refine List.Perm.of_eq (List.flatMap_congr fun ik hik ↦ ?_)
  rw [hassign _ (mul_add_lt hi (List.mem_range.mp hik))]

end IVFIndex

end FaissNavix
