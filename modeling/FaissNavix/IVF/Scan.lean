import FaissNavix.IVF.Search
import Mathlib.Data.List.GetD

/-!
# What a scan offers to the heap

The entries of a list that a selector has are offered in their order, each with its distance and its
label.  A scan of the lists of some probes offers what they have one after the other, and does
nothing else to the heap.
-/

namespace FaissNavix

open Function
open Lib (bisect bisect_mem)

/-! ## The section of a sorted range -/

namespace IDSelectorRange

variable (sel : IDSelectorRange) (n : ℕ) (ids : ℕ → Idx)

theorem jmin_le : sel.jmin n ids ≤ n := by
  unfold jmin
  split
  · exact Nat.zero_le n
  · obtain rfl | hn := Nat.eq_zero_or_pos n
    · exact le_rfl
    · exact (bisect_mem _ hn).2

theorem le_jmax {j : ℕ} (hj : j ≤ n) : j ≤ sel.jmax n ids j ∧ sel.jmax n ids j ≤ n := by
  unfold jmax
  split
  · exact ⟨le_rfl, hj⟩
  · rename_i h
    have hlt : j < n := by omega
    obtain ⟨h1, h2⟩ := bisect_mem (fun j ↦ decide (sel.imax ≤ ids j)) hlt
    exact ⟨h1.le, h2⟩

theorem exists_bounds (hsorted : sel.assumeSorted = true) :
    ∃ b, sel.findSortedIdsBounds n (some ids) = .ok b ∧ b.1 ≤ b.2 ∧ b.2 ≤ n := by
  unfold findSortedIdsBounds
  rw [hsorted, Fault.assert_true]
  obtain rfl | hn := Nat.eq_zero_or_pos n
  · exact ⟨(0, 0), rfl, le_rfl, le_rfl⟩
  · rw [if_neg hn.ne']
    by_cases hout : sel.imax ≤ ids 0 ∨ ids (n - 1) < sel.imin
    · exact ⟨(0, 0), if_pos hout, le_rfl, Nat.zero_le n⟩
    · obtain ⟨h1, h2⟩ := sel.le_jmax n ids (sel.jmin_le n ids)
      exact ⟨(sel.jmin n ids, sel.jmax n ids (sel.jmin n ids)), if_neg hout, h1, h2⟩

end IDSelectorRange

/-- A context in which the ids that are needed are there. -/
structure SearchContext.Readable (ctx : SearchContext) : Prop where
  sel : ctx.storePairs = true → ctx.sel = none
  selr : ∀ selr, ctx.selr = some selr →
    ctx.storePairs = false ∧ ctx.sel = none ∧ selr.assumeSorted = true

namespace IVFIndex

variable {Q QP : Type} (ivf : IVFIndex Q QP) (ctx : SearchContext)

section
variable (query : Q) (probe : ℤ × F32) (listSizeMax : Option ℕ)

/-- The offsets of the entries that are offered among the first `listSize` ones, in their order. -/
def scanned (entries : List Entry) (listSize : ℕ) : List ℕ :=
  match ctx.selr with
  | none => (List.range listSize).filter fun j ↦ !skips ctx.sel (idAt entries j)
  | some selr =>
      match selr.findSortedIdsBounds listSize (some (idAt entries)) with
      | .ok b => (List.range (b.2 - b.1)).map (b.1 + ·)
      | .error _ => []

/-- The number of codes visited among the first `listSize` ones. -/
def visited (entries : List Entry) (listSize : ℕ) : ℕ :=
  match ctx.selr with
  | none => listSize
  | some _ => (scanned ctx entries listSize).length

def label (key : ℤ) (entries : List Entry) (j : ℕ) : ℤ :=
  if ctx.storePairs then (loOf key j).toInt else (idAt entries j).toInt

def resultAt (j : ℕ) : F32 × ℤ :=
  let entries := ivf.list probe.1.toNat
  (ivf.distanceToCode query probe.1 probe.2 (codeAt entries j), label ctx probe.1 entries j)

/-- The size of a list, under a limit. -/
def listSizeUpTo (size : ℕ) : ℕ :=
  match listSizeMax with
  | none => size
  | some m => min size m

/-- The offsets that are offered for a probe, which may be no list. -/
def scannedOf : List ℕ :=
  let entries := ivf.list probe.1.toNat
  if probe.1 < 0 then [] else scanned ctx entries (listSizeUpTo listSizeMax entries.length)

def visitedOf : ℕ :=
  let entries := ivf.list probe.1.toNat
  if probe.1 < 0 then 0 else visited ctx entries (listSizeUpTo listSizeMax entries.length)

def offersOf : List (F32 × ℤ) :=
  (ivf.scannedOf ctx probe listSizeMax).map (ivf.resultAt ctx query probe)

/-- One of several probes, by its number. -/
def probeAt (probes : List (ℤ × F32)) (a : ℕ) : ℤ × F32 :=
  probes.getD a (-1, ⟨0#32⟩)

/-- The places that are scanned for the probes with some numbers, when some codes were visited
before: the number of the probe, and the offset in its list. -/
def placesFrom (probes : List (ℤ × F32)) : List ℕ → ℕ → List (ℕ × ℕ)
  | [], _ => []
  | a :: as, nscan =>
      let listSizeMax := ctx.maxCodes.map (· - nscan)
      let nscan' := nscan + ivf.visitedOf ctx (probeAt probes a) listSizeMax
      (ivf.scannedOf ctx (probeAt probes a) listSizeMax).map (Prod.mk a) ++
        if ctx.maxCodes.any (· ≤ nscan') then [] else placesFrom probes as nscan'

def places (probes : List (ℤ × F32)) : List (ℕ × ℕ) :=
  ivf.placesFrom ctx probes (List.range probes.length) 0

def resultOf (probes : List (ℤ × F32)) (p : ℕ × ℕ) : F32 × ℤ :=
  ivf.resultAt ctx query (probeAt probes p.1) p.2

def rowOffers (probes : List (ℤ × F32)) : List (F32 × ℤ) :=
  (ivf.places ctx probes).map (ivf.resultOf ctx query probes)

end

variable {ivf ctx} {query : Q} {probe : ℤ × F32} {probes : List (ℤ × F32)} {entries : List Entry}
  {heap : ResultHeap} {listSize : ℕ} {listSizeMax : Option ℕ}

theorem listSizeUpTo_le (listSizeMax : Option ℕ) (size : ℕ) :
    listSizeUpTo listSizeMax size ≤ size := by
  cases listSizeMax with
  | none => exact le_rfl
  | some m => exact min_le_left size m

/-! ## The places of the results -/

theorem scanned_of_none (h : ctx.selr = none) (entries : List Entry) (listSize : ℕ) :
    scanned ctx entries listSize =
      (List.range listSize).filter fun j ↦ !skips ctx.sel (idAt entries j) := by
  rw [scanned, h]

theorem scanned_of_some {selr : IDSelectorRange} (h : ctx.selr = some selr) {b : ℕ × ℕ}
    (hb : selr.findSortedIdsBounds listSize (some (idAt entries)) = .ok b) :
    scanned ctx entries listSize = (List.range (b.2 - b.1)).map (b.1 + ·) := by
  rw [scanned, h]
  simp only [hb]

theorem lt_of_mem_scanned (hctx : ctx.Readable) {j : ℕ} (hj : j ∈ scanned ctx entries listSize) :
    j < listSize := by
  cases hselr : ctx.selr with
  | none =>
      rw [scanned_of_none hselr] at hj
      exact List.mem_range.mp (List.mem_of_mem_filter hj)
  | some selr =>
      obtain ⟨b, hb, hle, hlen⟩ := selr.exists_bounds listSize (idAt entries)
        (hctx.selr selr hselr).2.2
      rw [scanned_of_some hselr hb] at hj
      obtain ⟨i, hi, rfl⟩ := List.mem_map.mp hj
      have := List.mem_range.mp hi
      omega

section
variable (hctx : ctx.Readable) (entries : List Entry)
include hctx

theorem scanned_nodup (listSize : ℕ) :
    (scanned ctx entries listSize).Nodup := by
  cases hselr : ctx.selr with
  | none =>
      rw [scanned_of_none hselr]
      exact List.nodup_range.filter _
  | some selr =>
      obtain ⟨b, hb, -⟩ := selr.exists_bounds listSize (idAt entries)
        (hctx.selr selr hselr).2.2
      rw [scanned_of_some hselr hb]
      exact List.nodup_range.map fun i j h ↦ Nat.add_left_cancel h

theorem scanned_zero : scanned ctx entries 0 = [] :=
  List.eq_nil_iff_forall_not_mem.mpr fun _ hj ↦ Nat.not_lt_zero _ (lt_of_mem_scanned hctx hj)

theorem visited_zero : visited ctx entries 0 = 0 := by
  unfold visited
  cases ctx.selr with
  | none => rfl
  | some selr => rw [scanned_zero hctx, List.length_nil]

theorem mem_scannedOf {j : ℕ} (hj : j ∈ ivf.scannedOf ctx probe listSizeMax) :
    0 ≤ probe.1 ∧ j < (ivf.list probe.1.toNat).length := by
  unfold scannedOf at hj
  split at hj
  · exact absurd hj List.not_mem_nil
  · rename_i hneg
    exact ⟨not_lt.mp hneg, (lt_of_mem_scanned hctx hj).trans_le (listSizeUpTo_le _ _)⟩

theorem scannedOf_nodup (probe : ℤ × F32) (listSizeMax : Option ℕ) :
    (ivf.scannedOf ctx probe listSizeMax).Nodup := by
  unfold scannedOf
  split
  · exact List.nodup_nil
  · exact scanned_nodup hctx _ _

end

theorem mem_placesFrom {as : List ℕ} {nscan : ℕ} {p : ℕ × ℕ}
    (hp : p ∈ ivf.placesFrom ctx probes as nscan) :
    p.1 ∈ as ∧ ∃ listSizeMax, p.2 ∈ ivf.scannedOf ctx (probeAt probes p.1) listSizeMax := by
  induction as generalizing nscan with
  | nil => exact absurd hp List.not_mem_nil
  | cons a as ih =>
      rcases List.mem_append.mp hp with hp | hp
      · obtain ⟨j, hj, rfl⟩ := List.mem_map.mp hp
        exact ⟨List.mem_cons_self, _, hj⟩
      · split at hp
        · exact absurd hp List.not_mem_nil
        · exact ⟨List.mem_cons_of_mem a (ih hp).1, (ih hp).2⟩

theorem mem_places (hctx : ctx.Readable) {p : ℕ × ℕ} (hp : p ∈ ivf.places ctx probes) :
    p.1 < probes.length ∧ 0 ≤ (probeAt probes p.1).1 ∧
      p.2 < (ivf.list (probeAt probes p.1).1.toNat).length := by
  obtain ⟨ha, listSizeMax, hj⟩ := mem_placesFrom hp
  exact ⟨List.mem_range.mp ha, mem_scannedOf hctx hj⟩

/-- No place is scanned twice. -/
theorem placesFrom_nodup (hctx : ctx.Readable) {as : List ℕ} (has : as.Nodup) (nscan : ℕ) :
    (ivf.placesFrom ctx probes as nscan).Nodup := by
  induction as generalizing nscan with
  | nil => exact List.nodup_nil
  | cons a as ih =>
      obtain ⟨ha, has⟩ := List.nodup_cons.mp has
      refine List.nodup_append'.mpr
        ⟨(scannedOf_nodup hctx _ _).map (Prod.mk_right_injective a), ?_, ?_⟩
      · split
        · exact List.nodup_nil
        · exact ih has _
      · intro p hp hp'
        obtain ⟨j, -, rfl⟩ := List.mem_map.mp hp
        split at hp'
        · exact absurd hp' List.not_mem_nil
        · exact ha (mem_placesFrom hp').1

theorem places_nodup (hctx : ctx.Readable) (probes : List (ℤ × F32)) :
    (ivf.places ctx probes).Nodup :=
  placesFrom_nodup hctx List.nodup_range 0

/-- The places depend on how entries are selected, and on the limit. -/
theorem places_congr {ivf' : IVFIndex Q QP} {ctx' : SearchContext} (hlist : ivf'.list = ivf.list)
    (hsel : ctx'.sel = ctx.sel) (hselr : ctx'.selr = ctx.selr) (hmax : ctx'.maxCodes = ctx.maxCodes)
    (probes : List (ℤ × F32)) : ivf'.places ctx' probes = ivf.places ctx probes := by
  have hscanned : scanned ctx' = scanned ctx := by
    funext entries listSize
    rw [scanned, scanned, hselr, hsel]
  have hvisited : visited ctx' = visited ctx := by
    funext entries listSize
    rw [visited, visited, hscanned, hselr]
  have hfrom : ∀ (as : List ℕ) (nscan : ℕ),
      ivf'.placesFrom ctx' probes as nscan = ivf.placesFrom ctx probes as nscan := by
    intro as
    induction as with
    | nil => exact fun _ ↦ rfl
    | cons a as ih =>
        intro nscan
        rw [placesFrom, placesFrom, ih, scannedOf, scannedOf, visitedOf, visitedOf, hscanned,
          hvisited, hlist, hmax]
  exact hfrom _ 0

theorem map_probeAt (probes : List (ℤ × F32)) :
    (List.range probes.length).map (probeAt probes) = probes :=
  List.ext_getElem (by rw [List.length_map, List.length_range]) fun a h _ ↦ by
    rw [List.length_map, List.length_range] at h
    rw [List.getElem_map, List.getElem_range, probeAt, List.getD_eq_getElem _ _ h]

theorem probeAt_mem {a : ℕ} (ha : a < probes.length) : probeAt probes a ∈ probes := by
  rw [probeAt, List.getD_eq_getElem _ _ ha]
  exact List.getElem_mem ha

/-- Without a limit, the lists of the probes are scanned one after the other. -/
theorem rowOffers_unlimited (hmax : ctx.maxCodes = none) (query : Q) (probes : List (ℤ × F32)) :
    ivf.rowOffers ctx query probes = probes.flatMap fun probe ↦ ivf.offersOf ctx query probe none := by
  have hfrom : ∀ (as : List ℕ) (nscan : ℕ),
      (ivf.placesFrom ctx probes as nscan).map (ivf.resultOf ctx query probes) =
        (as.map (probeAt probes)).flatMap fun probe ↦ ivf.offersOf ctx query probe none := by
    intro as
    induction as with
    | nil => exact fun _ ↦ rfl
    | cons a as ih =>
        intro nscan
        rw [placesFrom, hmax, List.map_append, List.map_map, List.map_cons, List.flatMap_cons]
        exact congrArg (_ ++ ·) (ih _)
  conv_rhs => rw [← map_probeAt probes]
  exact hfrom _ 0

/-! ## The scans -/

theorem scanCodes_eq (key : ℤ) (coarseDis : F32) (listSize : ℕ) (codes : ℕ → List UInt8)
    (ids : Option (ℕ → Idx)) :
    ivf.scanCodes ctx query key coarseDis listSize codes ids heap =
      heapOffers ivf.metricType.order ctx.k heap
        (((List.range listSize).filter fun j ↦ !skips ctx.sel (ids.getD (fun _ ↦ 0) j)).map
          fun j ↦ (ivf.distanceToCode query key coarseDis (codes j),
            if ctx.storePairs then (loOf key j).toInt else (ids.getD (fun _ ↦ 0) j).toInt)) := by
  rw [heapOffers, List.foldl_map, List.foldl_filter, scanCodes]
  congr 1
  funext heap j
  cases skips ctx.sel (ids.getD (fun _ ↦ 0) j) with
  | true => rfl
  | false => rfl

theorem resultAt_of_pairs (h : ctx.storePairs = true) (query : Q) (probe : ℤ × F32) (j : ℕ) :
    ivf.resultAt ctx query probe j =
      (ivf.distanceToCode query probe.1 probe.2 (codeAt (ivf.list probe.1.toNat) j),
        (loOf probe.1 j).toInt) := by
  rw [resultAt, label, h, if_pos rfl]

theorem resultAt_of_ids (h : ctx.storePairs = false) (query : Q) (probe : ℤ × F32) (j : ℕ) :
    ivf.resultAt ctx query probe j =
      (ivf.distanceToCode query probe.1 probe.2 (codeAt (ivf.list probe.1.toNat) j),
        (idAt (ivf.list probe.1.toNat) j).toInt) := by
  rw [resultAt, label, h, if_neg Bool.false_ne_true]

/-- A scan of a list offers what is scanned of its first entries. -/
theorem scanEntries_eq (hctx : ctx.Readable) (query : Q) (probe : ℤ × F32) (heap : ResultHeap)
    (entries : List Entry) (hentries : entries = ivf.list probe.1.toNat) (listSize : ℕ) :
    ivf.scanEntries ctx query probe.1 probe.2 entries listSize heap =
      .ok (heapOffers ivf.metricType.order ctx.k heap
        ((scanned ctx entries listSize).map (ivf.resultAt ctx query probe)),
        visited ctx entries listSize) := by
  subst hentries
  generalize hentries : ivf.list probe.1.toNat = entries
  unfold scanEntries visited
  cases hselr : ctx.selr with
  | none =>
      rw [scanned_of_none hselr]
      refine congrArg (fun h ↦ Except.ok (h, listSize)) ?_
      rw [scanCodes_eq]
      cases hpairs : ctx.storePairs with
      | true =>
          rw [hctx.sel hpairs]
          refine congrArg _ (List.map_congr_left fun j _ ↦ ?_)
          rw [resultAt_of_pairs hpairs, hentries, if_pos rfl]
      | false =>
          refine congrArg _ (List.map_congr_left fun j _ ↦ ?_)
          rw [resultAt_of_ids hpairs, hentries, if_neg Bool.false_ne_true]
          rfl
  | some selr =>
      obtain ⟨hpairs, hsel, hsorted⟩ := hctx.selr selr hselr
      obtain ⟨b, hb, hle, hlen⟩ := selr.exists_bounds listSize (idAt entries) hsorted
      rw [hpairs, if_neg Bool.false_ne_true, scanned_of_some hselr hb]
      simp only [hb, List.length_map, List.length_range]
      by_cases hnone : b.2 - b.1 = 0
      · rw [hnone]
        exact if_pos hnone
      · refine (if_neg hnone).trans (congrArg (fun h ↦ Except.ok (h, b.2 - b.1)) ?_)
        rw [scanCodes_eq, hsel, hpairs, List.map_map]
        have hall : ((List.range (b.2 - b.1)).filter fun _ ↦ true) = List.range (b.2 - b.1) :=
          List.filter_eq_self.mpr fun _ _ ↦ rfl
        refine congrArg _ (Eq.trans (congrArg _ hall) (List.map_congr_left fun j _ ↦ ?_))
        rw [Function.comp_apply, resultAt_of_ids hpairs, hentries, if_neg Bool.false_ne_true]
        rfl

section
variable (hctx : ctx.Readable) (hiter : ivf.useIterator = false) (hkey : probe.1 < ivf.nlist)
  (query : Q) (heap : ResultHeap)
include hctx hiter hkey

/-- `scan_one_list` offers what is scanned for the probe. -/
theorem scanOneList_eq (listSizeMax : Option ℕ) :
    ivf.scanOneList ctx query probe heap listSizeMax =
      .ok (heapOffers ivf.metricType.order ctx.k heap (ivf.offersOf ctx query probe listSizeMax),
        ivf.visitedOf ctx probe listSizeMax) := by
  unfold scanOneList offersOf scannedOf visitedOf
  by_cases hneg : probe.1 < 0
  · rw [if_pos hneg, if_pos hneg, if_pos hneg]
    rfl
  · rw [if_neg hneg, if_neg hneg, if_neg hneg, if_neg (not_le.mpr hkey)]
    cases hentries : ivf.list probe.1.toNat with
    | nil =>
        have hzero : listSizeUpTo listSizeMax ([] : List Entry).length = 0 :=
          Nat.le_zero.mp (listSizeUpTo_le listSizeMax 0)
        rw [hzero, scanned_zero hctx, visited_zero hctx]
        rfl
    | cons e entries =>
        rw [hiter]
        exact scanEntries_eq hctx query probe heap _ hentries.symm _

theorem scanAll_eq :
    ivf.scanAll ctx query probe heap =
      .ok (heapOffers ivf.metricType.order ctx.k heap (ivf.offersOf ctx query probe none)) := by
  rw [scanAll, scanOneList_eq hctx hiter hkey]
  rfl

end

/-- The loop over the probes offers what is scanned for them. -/
theorem scanProbes_eq (hctx : ctx.Readable) (hiter : ivf.useIterator = false)
    (hkeys : ∀ probe ∈ probes, probe.1 < ivf.nlist) (query : Q) (heap : ResultHeap) :
    ivf.scanProbes ctx query probes heap 0 =
      .ok (heapOffers ivf.metricType.order ctx.k heap (ivf.rowOffers ctx query probes)) := by
  have hfrom : ∀ (as : List ℕ) (heap : ResultHeap) (nscan : ℕ),
      (∀ a ∈ as, (probeAt probes a).1 < ivf.nlist) →
      ivf.scanProbes ctx query (as.map (probeAt probes)) heap nscan =
        .ok (heapOffers ivf.metricType.order ctx.k heap
          ((ivf.placesFrom ctx probes as nscan).map (ivf.resultOf ctx query probes))) := by
    intro as
    induction as with
    | nil => exact fun _ _ _ ↦ rfl
    | cons a as ih =>
        intro heap nscan has
        rw [List.map_cons, scanProbes, scanOneList_eq hctx hiter (has a List.mem_cons_self),
          placesFrom, List.map_append, List.map_map, heapOffers_append]
        change (if _ then _ else _) = _
        split
        · rfl
        · exact ih _ _ fun b hb ↦ has b (List.mem_cons_of_mem a hb)
  conv_lhs => rw [← map_probeAt probes]
  exact hfrom _ heap 0 fun a ha ↦ hkeys _ (probeAt_mem (List.mem_range.mp ha))

end IVFIndex

end FaissNavix
