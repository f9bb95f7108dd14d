import FaissNavix.HNSW.Growth
import FaissNavix.IndexRows

/-!
# The period of the interrupt checks

`InterruptCallback::get_period_hint` of `faiss/impl/AuxIndexStructures.cpp` with an instance installed,
as `hnsw_add_vertices`, `hnsw_search` and `IndexHNSW::navix_search` of `faiss/IndexHNSW.cpp` call it.

The hint is handed `max_level * d * ef`, an `int` that is converted to a `size_t` and increased by one
before it divides.  The product is negative where `max_level` is the -1 of an index with nothing in it,
and a product of -1 makes the divisor 0.  The highest level that `prepare_level_tab` returns is never
negative, so that `add` is safe (`InterruptedIndex.flops_add_ne`); a search is not, if an index without
vectors has `d = 1` and is searched with `efSearch = 1` (`periods_ok_iff`).
-/

namespace FaissNavix

open Lib

/-! ## The hint -/

/-- The conversion of an `int` to `size_t`. -/
def toSizeT (x : ℤ) : ℕ := (x % 2 ^ 64).toNat

/-- `InterruptCallback::get_period_hint` with an instance installed, which gives nothing where it
divides by 0. -/
def getPeriodHint (flops : ℕ) : Option ℕ :=
  let divisor := (flops + 1) % 2 ^ 64
  if divisor = 0 then none else some (max (10 * 10 * 1000 * 1000 / divisor) 1)

/-- A turn of `for (idx_t i0 = 0; i0 < n; i0 += check_period)`. -/
def blockTurn (n checkPeriod i0 : ℕ) : Turn ℕ :=
  if i0 < n then .next (i0 + checkPeriod) else .done i0

/-- The divisor is not 0, the period is at least 1, and the loops that advance by it come to an end. -/
def PeriodOk (flops : ℤ) : Prop :=
  (toSizeT flops + 1) % 2 ^ 64 ≠ 0 ∧ ∃ checkPeriod, getPeriodHint (toSizeT flops) = some checkPeriod ∧
    1 ≤ checkPeriod ∧ ∀ n, ∃ fuel i0, iterate (blockTurn n checkPeriod) fuel 0 = some i0 ∧ n ≤ i0

/-- The value is one of an `int`. -/
def FitsInt (x : ℤ) : Prop := -2 ^ 31 ≤ x ∧ x < 2 ^ 31

theorem blockTurn_ends {checkPeriod : ℕ} (h : 1 ≤ checkPeriod) (n : ℕ) :
    ∃ fuel i0, iterate (blockTurn n checkPeriod) fuel 0 = some i0 ∧ n ≤ i0 := by
  have hturn : ∀ i0, True → (∃ i1, blockTurn n checkPeriod i0 = .done i1 ∧ n ≤ i1) ∨
      ∃ i1, blockTurn n checkPeriod i0 = .next i1 ∧ True ∧ n - i1 < n - i0 := ?_
  · exact ⟨n + 1, iterate_total (fun i0 ↦ n - i0) hturn (n + 1) 0 trivial (Nat.lt_succ_self n)⟩
  intro i0 _
  rw [blockTurn]
  by_cases hi : i0 < n
  · rw [if_pos hi]
    exact Or.inr ⟨_, rfl, trivial, by omega⟩
  · rw [if_neg hi]
    exact Or.inl ⟨_, rfl, Nat.le_of_not_lt hi⟩

theorem divisor_eq_zero_iff {flops : ℤ} (h : FitsInt flops) :
    (toSizeT flops + 1) % 2 ^ 64 = 0 ↔ flops = -1 := by
  obtain ⟨hlo, hhi⟩ := h
  rw [toSizeT]
  omega

theorem periodOk_iff {flops : ℤ} (h : FitsInt flops) : PeriodOk flops ↔ flops ≠ -1 := by
  rw [PeriodOk, Ne, divisor_eq_zero_iff h]
  refine ⟨fun hok ↦ hok.1, fun hne ↦ ⟨hne, ?_⟩⟩
  rw [getPeriodHint, if_neg (mt (divisor_eq_zero_iff h).mp hne)]
  exact ⟨_, rfl, le_max_right _ _, blockTurn_ends (le_max_right _ _)⟩

theorem getPeriodHint_eq {rt : Runtime} (hrt : rt.callback = true) {flops : ℤ} (h : FitsInt flops)
    (hne : flops ≠ -1) : getPeriodHint (toSizeT flops) = some (rt.getPeriodHint flops) := by
  have hsum : (toSizeT flops + 1) % 2 ^ 64 = toSizeT flops + 1 := by
    have hne0 := mt (divisor_eq_zero_iff h).mp hne
    rw [toSizeT] at hne0 ⊢
    omega
  rw [getPeriodHint, if_neg (mt (divisor_eq_zero_iff h).mp hne), hsum, Runtime.getPeriodHint,
    if_pos hrt]
  rfl

/-! ## The highest level -/

namespace HNSW

variable {g g' : HNSW}

@[simp] theorem maxLevel_addLink (g : HNSW) (symmetricDis : ℕ → ℕ → F32) (src dest level : ℕ)
    (keepMaxSizeLevel0 : Bool) :
    (g.addLink symmetricDis src dest level keepMaxSizeLevel0).maxLevel = g.maxLevel := by
  unfold addLink
  dsimp only
  split <;> rfl

theorem maxLevel_foldl {f : HNSW → ℕ → HNSW} (hf : ∀ t v, (f t v).maxLevel = t.maxLevel)
    (ids : List ℕ) : (ids.foldl f g).maxLevel = g.maxLevel :=
  foldl_invariant (fun t : HNSW ↦ t.maxLevel = g.maxLevel) rfl fun v _ t ht ↦ (hf t v).trans ht

theorem maxLevel_addLinksStartingFrom {ptdis : DistanceComputer} {efConstruction ptId nearest : ℕ}
    {dNearest : F32} {level : ℕ} {vt vt' : VisitedTable} {keepMaxSizeLevel0 : Bool}
    (h : g.addLinksStartingFrom ptdis efConstruction ptId nearest dNearest level vt
      keepMaxSizeLevel0 = some (g', vt')) : g'.maxLevel = g.maxLevel := by
  obtain ⟨found, -, h⟩ := Option.bind_eq_some_iff.mp h
  obtain ⟨rfl, -⟩ := Prod.mk.inj (Option.some.inj h)
  exact (maxLevel_foldl (fun t v ↦ maxLevel_addLink t _ v ptId _ _) _).trans
    (maxLevel_foldl (fun t v ↦ maxLevel_addLink t _ ptId v _ _) _)

theorem maxLevel_addWithLocks {ptdis : DistanceComputer} {efConstruction ptLevel ptId : ℕ}
    {vt vt' : VisitedTable} {keepMaxSizeLevel0 : Bool} (hlow : -1 ≤ g.maxLevel)
    (h : g.addWithLocks ptdis efConstruction ptLevel ptId vt keepMaxSizeLevel0 = some (g', vt')) :
    -1 ≤ g'.maxLevel := by
  unfold addWithLocks at h
  split at h
  · obtain ⟨rfl, -⟩ := Prod.mk.inj (Option.some.inj h)
    split
    · exact le_trans (by norm_num) (Int.natCast_nonneg ptLevel)
    · exact hlow
  · obtain ⟨⟨g₁, vt₁⟩, hrun, h⟩ := Option.bind_eq_some_iff.mp h
    have hsame := foldlM_invariant (fun t : HNSW × VisitedTable ↦ t.1.maxLevel = g.maxLevel) rfl
      (fun l _ t t' ht hstep ↦ (maxLevel_addLinksStartingFrom hstep).trans ht) hrun
    obtain ⟨rfl, -⟩ := Prod.mk.inj (Option.some.inj h)
    split
    · exact le_trans (by norm_num) (Int.natCast_nonneg ptLevel)
    · exact hlow.trans_eq hsame.symm

theorem maxLevel_prepareLevelTab {n maxLevel2 : ℕ} {presetLevels : Bool} {randomLevels : List ℕ}
    (h : g.prepareLevelTab n presetLevels randomLevels = some (g', maxLevel2)) :
    g'.maxLevel = g.maxLevel := by
  unfold prepareLevelTab at h
  dsimp only at h
  split at h <;> split at h
  · obtain ⟨rfl, -⟩ := Prod.mk.inj (Option.some.inj h)
    rfl
  · cases h
  · obtain ⟨rfl, -⟩ := Prod.mk.inj (Option.some.inj h)
    rfl
  · cases h

/-- A batch does not make the highest level smaller than -1. -/
theorem maxLevel_addVertices {settings : AddSettings} {c : AddCall} {n0 n : ℕ} {presetLevels : Bool}
    (hlow : -1 ≤ g.maxLevel) (h : hnswAddVertices settings c g n0 n presetLevels = some g') :
    -1 ≤ g'.maxLevel := by
  unfold hnswAddVertices at h
  split at h
  · rwa [← Option.some.inj h]
  · obtain ⟨⟨g₁, maxLevel2⟩, hprep, h⟩ := Option.bind_eq_some_iff.mp h
    obtain ⟨s, hrun, h⟩ := Option.bind_eq_some_iff.mp h
    have hs : -1 ≤ s.hnsw.maxLevel := by
      refine foldlM_invariant (fun t : AddLoop ↦ -1 ≤ t.hnsw.maxLevel)
        (hlow.trans_eq (maxLevel_prepareLevelTab hprep).symm) (fun l _ t t' ht hstep ↦ ?_) hrun
      obtain ⟨⟨g₂, vt₂⟩, hlevel, hstep⟩ := Option.bind_eq_some_iff.mp hstep
      obtain rfl := Option.some.inj hstep
      exact foldlM_invariant (fun r : HNSW × VisitedTable ↦ -1 ≤ r.1.maxLevel) ht
        (fun i _ r r' hr hadd ↦ maxLevel_addWithLocks hr hadd) hlevel
    have hg : g' = s.hnsw := by
      split at h <;> split at h
      · exact (Option.some.inj h).symm
      · cases h
      · exact (Option.some.inj h).symm
      · cases h
    rwa [hg]

/-- `HNSW::reset` -/
def reset (g : HNSW) : HNSW :=
  { g with maxLevel := -1, entryPoint := -1, offsets := [0], levels := [], neighbors := [] }

end HNSW

theorem Growing.maxLevel_add {settings : AddSettings} {s s' : Growing} {c : AddCall}
    (hlow : -1 ≤ s.hnsw.maxLevel) (h : s.add settings c = some s') : -1 ≤ s'.hnsw.maxLevel := by
  obtain ⟨g, hadd, h⟩ := Option.bind_eq_some_iff.mp h
  obtain rfl := Option.some.inj h
  refine HNSW.maxLevel_addVertices ?_ hadd
  split <;> exact hlow

/-! ## Calls -/

/-- An index, as far as these calls are concerned. -/
structure InterruptedIndex where
  growing : Growing
  settings : AddSettings
  d : ℕ

/-- The calls, and the assignments to the fields that enter the product. -/
inductive IndexCall where
  | add (c : AddCall)
  | reset
  | setEfSearch (efSearch : ℕ)
  | setEfConstruction (efConstruction : ℕ)
  | search (params : Option SearchParameters)
  | navixSearch (params : Option SearchParameters)

namespace InterruptedIndex

/-- An index with nothing in it. -/
def empty (cumNneighborPerLevel : List ℕ) (efSearch : ℕ) (checkRelativeDistance searchBoundedQueue : Bool)
    (settings : AddSettings) (d : ℕ) : InterruptedIndex where
  growing := Growing.empty cumNneighborPerLevel efSearch checkRelativeDistance searchBoundedQueue
  settings := settings
  d := d

variable (s : InterruptedIndex)

/-- What a call changes. -/
def step : IndexCall → Option InterruptedIndex
  | .add c => (s.growing.add s.settings c).map fun growing ↦ { s with growing }
  | .reset => some { s with growing := { hnsw := s.growing.hnsw.reset, ntotal := 0 } }
  | .setEfSearch efSearch =>
      some { s with growing := { s.growing with hnsw := { s.growing.hnsw with efSearch } } }
  | .setEfConstruction efConstruction => some { s with settings := { s.settings with efConstruction } }
  | .search _ => some s
  | .navixSearch _ => some s

/-- The highest level among the vertices that `add` inserts, if it gets as far as to ask for the
period. -/
def addedMaxLevel (c : AddCall) : Option ℕ :=
  let g := if c.preset then
      { s.growing.hnsw with levels := s.growing.hnsw.levels ++ c.levels.map (· + 1) }
    else s.growing.hnsw
  let n := c.levels.length
  if n = 0 then none
  else (g.prepareLevelTab n (decide (g.levels.length = s.growing.ntotal + n)) c.levels).map Prod.snd

/-- The `efSearch` of a search. -/
def efSearchOf (params : Option SearchParameters) : ℕ :=
  HNSW.override params (·.efSearch) s.growing.hnsw.efSearch

/-- The product that a call hands to `get_period_hint`. -/
def flops : IndexCall → Option ℤ
  | .add c => (s.addedMaxLevel c).map fun maxLevel : ℕ ↦ (maxLevel : ℤ) * s.d * s.settings.efConstruction
  | .search params => some (s.growing.hnsw.maxLevel * s.d * s.efSearchOf params)
  | .navixSearch params => some (s.growing.hnsw.maxLevel * s.d * s.efSearchOf params)
  | _ => none

/-- `P` holds of every call of a run and the state in which it is made. -/
def AtEachCall (P : InterruptedIndex → IndexCall → Prop) : InterruptedIndex → List IndexCall → Prop
  | _, [] => True
  | s, call :: calls => P s call ∧ ∀ s', s.step call = some s' → AtEachCall P s' calls

/-- A search of an index whose graph has no highest level and whose vectors have one component, with
a list of one candidate. -/
def AsksForNothing : IndexCall → Prop
  | .search params => s.growing.hnsw.maxLevel = -1 ∧ s.d * s.efSearchOf params = 1
  | .navixSearch params => s.growing.hnsw.maxLevel = -1 ∧ s.d * s.efSearchOf params = 1
  | _ => False

variable {s} {call : IndexCall}

/-- What the steps of a run keep. -/
structure Started (s : InterruptedIndex) (d : ℕ) : Prop where
  maxLevel : -1 ≤ s.growing.hnsw.maxLevel
  d_eq : s.d = d

theorem Started.step {d : ℕ} (h : s.Started d) {s' : InterruptedIndex} (hs : s.step call = some s') :
    s'.Started d := by
  cases call with
  | add c =>
      obtain ⟨growing, hadd, rfl⟩ := Option.map_eq_some_iff.mp hs
      exact ⟨Growing.maxLevel_add h.maxLevel hadd, h.d_eq⟩
  | reset =>
      obtain rfl := Option.some.inj hs
      exact ⟨le_rfl, h.d_eq⟩
  | setEfSearch efSearch =>
      obtain rfl := Option.some.inj hs
      exact ⟨h.maxLevel, h.d_eq⟩
  | setEfConstruction efConstruction =>
      obtain rfl := Option.some.inj hs
      exact ⟨h.maxLevel, h.d_eq⟩
  | search params =>
      obtain rfl := Option.some.inj hs
      exact h
  | navixSearch params =>
      obtain rfl := Option.some.inj hs
      exact h

theorem product_eq_neg_one_iff {maxLevel : ℤ} (h : -1 ≤ maxLevel) (d ef : ℕ) :
    maxLevel * d * ef = -1 ↔ maxLevel = -1 ∧ d * ef = 1 := by
  rw [Int.mul_assoc, ← Int.natCast_mul]
  constructor
  · intro hprod
    have hneg : maxLevel = -1 := by
      by_contra hne
      have := Int.mul_nonneg (by omega : 0 ≤ maxLevel) (Int.natCast_nonneg (d * ef))
      omega
    rw [hneg] at hprod
    exact ⟨hneg, by omega⟩
  · rintro ⟨rfl, hone⟩
    rw [hone]
    rfl

theorem flops_add_ne {c : AddCall} {x : ℤ} (h : s.flops (.add c) = some x) : x ≠ -1 := by
  obtain ⟨maxLevel2, -, rfl⟩ := Option.map_eq_some_iff.mp h
  rintro hneg
  have := Int.mul_nonneg (Int.mul_nonneg (Int.natCast_nonneg maxLevel2) (Int.natCast_nonneg s.d))
    (Int.natCast_nonneg s.settings.efConstruction)
  omega

theorem Started.periodOk_iff {d : ℕ} (h : s.Started d) (hfits : ∀ x ∈ s.flops call, FitsInt x) :
    (∀ x ∈ s.flops call, PeriodOk x) ↔ ¬s.AsksForNothing call := by
  have hok : (∀ x ∈ s.flops call, PeriodOk x) ↔ ∀ x ∈ s.flops call, x ≠ -1 :=
    forall₂_congr fun x hx ↦ FaissNavix.periodOk_iff (hfits x hx)
  rw [hok]
  cases call with
  | add c => exact iff_of_true (fun x hx ↦ flops_add_ne hx) id
  | reset => exact iff_of_true (fun x hx ↦ absurd hx (Option.not_mem_none x)) id
  | setEfSearch efSearch => exact iff_of_true (fun x hx ↦ absurd hx (Option.not_mem_none x)) id
  | setEfConstruction efConstruction =>
      exact iff_of_true (fun x hx ↦ absurd hx (Option.not_mem_none x)) id
  | search params =>
      rw [AsksForNothing, ← product_eq_neg_one_iff h.maxLevel]
      exact ⟨fun hx ↦ hx _ rfl, fun hne x hx ↦ Option.some.inj hx ▸ hne⟩
  | navixSearch params =>
      rw [AsksForNothing, ← product_eq_neg_one_iff h.maxLevel]
      exact ⟨fun hx ↦ hx _ rfl, fun hne x hx ↦ Option.some.inj hx ▸ hne⟩

theorem Started.atEachCall_iff {d : ℕ} (h : s.Started d) (calls : List IndexCall)
    (hfits : s.AtEachCall (fun s call ↦ ∀ x ∈ s.flops call, FitsInt x) calls) :
    s.AtEachCall (fun s call ↦ ∀ x ∈ s.flops call, PeriodOk x) calls ↔
      s.AtEachCall (fun s call ↦ ¬s.AsksForNothing call) calls := by
  induction calls generalizing s with
  | nil => exact Iff.rfl
  | cons call calls ih =>
      exact and_congr (h.periodOk_iff hfits.1)
        (forall₂_congr fun s' hs ↦ ih (h.step hs) (hfits.2 s' hs))

end InterruptedIndex

/-- In a run of calls on a new index, with products that fit in an `int`, the periods of all calls are
well defined exactly if no search is made with `d = 1` and `efSearch = 1` while `max_level` is -1. -/
theorem periods_ok_iff (cumNneighborPerLevel : List ℕ) (efSearch : ℕ)
    (checkRelativeDistance searchBoundedQueue : Bool) (settings : AddSettings) (d : ℕ)
    (calls : List IndexCall)
    (hfits : (InterruptedIndex.empty cumNneighborPerLevel efSearch checkRelativeDistance
      searchBoundedQueue settings d).AtEachCall (fun s call ↦ ∀ x ∈ s.flops call, FitsInt x) calls) :
    (InterruptedIndex.empty cumNneighborPerLevel efSearch checkRelativeDistance searchBoundedQueue
        settings d).AtEachCall (fun s call ↦ ∀ x ∈ s.flops call, PeriodOk x) calls ↔
      (InterruptedIndex.empty cumNneighborPerLevel efSearch checkRelativeDistance searchBoundedQueue
        settings d).AtEachCall (fun s call ↦ ¬s.AsksForNothing call) calls :=
  InterruptedIndex.Started.atEachCall_iff ⟨le_rfl, rfl⟩ calls hfits

/-- Vectors of two components. -/
theorem periods_ok_iff_two :
    (InterruptedIndex.empty [0, 2] 16 true true ⟨40, true, false⟩ 2).AtEachCall
      (fun s call ↦ ∀ x ∈ s.flops call, PeriodOk x) [.search none, .reset, .navixSearch none] := by
  have hproduct : ∀ s : InterruptedIndex, s.growing.hnsw.maxLevel * s.d * s.efSearchOf none = -32 →
      ∀ x ∈ s.flops (.search none), FitsInt x := by
    rintro s hs x ⟨⟩
    rw [hs]
    exact ⟨by norm_num, by norm_num⟩
  refine (periods_ok_iff [0, 2] 16 true true ⟨40, true, false⟩ 2
    [.search none, .reset, .navixSearch none] ?_).mpr ?_
  · refine ⟨hproduct _ rfl, ?_⟩
    rintro s ⟨⟩
    refine ⟨fun x hx ↦ absurd hx (Option.not_mem_none x), ?_⟩
    rintro s ⟨⟩
    exact ⟨hproduct _ rfl, fun _ _ ↦ trivial⟩
  · refine ⟨fun h ↦ absurd h.2 (by decide), ?_⟩
    rintro s ⟨⟩
    refine ⟨id, ?_⟩
    rintro s ⟨⟩
    exact ⟨fun h ↦ absurd h.2 (by decide), fun _ _ ↦ trivial⟩

/-- A search of an empty index for vectors of one component, with a list of one candidate, divides
by 0. -/
theorem not_periodOk_empty : ¬(InterruptedIndex.empty [0, 2] 1 true true ⟨40, true, false⟩ 1).AtEachCall
    (fun s call ↦ ∀ x ∈ s.flops call, PeriodOk x) [.search none] :=
  fun h ↦ (h.1 (-1) rfl).1 (by decide)

end FaissNavix
