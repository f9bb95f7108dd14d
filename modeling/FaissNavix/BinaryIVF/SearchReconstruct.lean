import FaissNavix.BinaryIVF.Reconstruct
import FaissNavix.IVF.Pairs

/-!
# Reconstructing what a binary search finds

`IndexBinaryIVF::search_and_reconstruct` asks the search for places instead of ids, copies the codes that
are stored there and replaces the places by the ids.
-/

namespace FaissNavix

open Function
open Lib (KSmallest read write)
open TopK (ofHeap)

namespace IndexBinaryIVF

variable {QP : Type} {ivf : IndexBinaryIVF} {params : Option (IVFSearchParameters QP)} {k n nscan : ℕ}
variable {x : ℕ → UInt8} {keys : ℕ → ℤ}

/-! ## The lists that are scanned -/

/-- The lists that a query scans until it has met `max_codes` entries. -/
def scannedLists (ivf : IndexBinaryIVF) (maxCodes : ℕ) : List ℤ → ℕ → List ℕ
  | [], _ => []
  | key :: keys, nscan =>
    if key < 0 then scannedLists ivf maxCodes keys nscan
    else
      let nscan := nscan + (ivf.list key.toNat).length
      key.toNat ::
        if maxCodes ≠ 0 ∧ maxCodes ≤ nscan then [] else scannedLists ivf maxCodes keys nscan

theorem scanProbes_eq_scannedLists {S : Type} {maxCodes : ℕ} (scan : ℕ → S → Option S) {keys : List ℤ}
    (h : ∀ key ∈ keys, key < ivf.nlist) (nscan : ℕ) (s : S) :
    ivf.scanProbes maxCodes scan keys nscan s =
      (ivf.scannedLists maxCodes keys nscan).foldlM (fun s l ↦ scan l s) s := by
  induction keys generalizing nscan s with
  | nil => rfl
  | cons key keys ih =>
      have hrest := fun key hkey ↦ h key (List.mem_cons_of_mem _ hkey)
      unfold scanProbes scannedLists
      by_cases hkey : key < 0
      · rw [if_pos hkey, if_pos hkey]
        exact ih hrest nscan s
      · rw [if_neg hkey, if_neg hkey, if_neg (Int.not_le.mpr (h key List.mem_cons_self))]
        dsimp only
        rw [List.foldlM_cons]
        refine congrArg _ (funext fun s ↦ ?_)
        split
        · rfl
        · exact ih hrest _ s

theorem mem_scannedLists {maxCodes : ℕ} {keys : List ℤ} {l : ℕ}
    (h : l ∈ ivf.scannedLists maxCodes keys nscan) : (l : ℤ) ∈ keys := by
  induction keys generalizing nscan with
  | nil => exact absurd h List.not_mem_nil
  | cons key keys ih =>
      unfold scannedLists at h
      split at h
      · exact List.mem_cons_of_mem _ (ih h)
      · rename_i hkey
        rcases List.mem_cons.mp h with rfl | h
        · rw [Int.toNat_of_nonneg (Int.not_lt.mp hkey)]
          exact List.mem_cons_self
        · split at h
          · exact absurd h List.not_mem_nil
          · exact List.mem_cons_of_mem _ (ih h)

/-- As long as nothing has been found, the scan goes on. -/
theorem exists_mem_scannedLists (ivf : IndexBinaryIVF) (maxCodes : ℕ) (keys : List ℤ) :
    (∃ l ∈ ivf.scannedLists maxCodes keys 0, ivf.list l ≠ []) ↔
      ∃ l ∈ probedLists keys, ivf.list l ≠ [] := by
  induction keys with
  | nil => exact Iff.rfl
  | cons key keys ih =>
      unfold scannedLists probedLists
      rw [List.filter_cons]
      by_cases hkey : key < 0
      · rw [if_pos hkey, if_neg (by simpa using hkey)]
        exact ih
      · rw [if_neg hkey, if_pos (by simpa using hkey), List.map_cons]
        dsimp only
        by_cases hempty : ivf.list key.toNat = []
        · rw [hempty, List.length_nil, if_neg (by omega)]
          simp only [List.mem_cons, exists_eq_or_imp, hempty, ne_eq, not_true_eq_false, false_or]
          exact ih
        · exact iff_of_true ⟨_, List.mem_cons_self, hempty⟩ ⟨_, List.mem_cons_self, hempty⟩

/-- The places of the entries of the lists that are scanned, with their distances to query `i`. -/
def scannedPlaces (ivf : IndexBinaryIVF) (params : Option (IVFSearchParameters QP)) (x : ℕ → UInt8)
    (keys : ℕ → ℤ) (i : ℕ) : List (ℤ × ℤ) :=
  (ivf.scannedLists (ivf.maxCodesOf params) (keysOf (ivf.nprobeOf params) keys i) 0).flatMap
    (ivf.offersOf true x i)

theorem scannedPlaces_eq_nil {i : ℕ} : ivf.scannedPlaces params x keys i = [] ↔
    ∀ l ∈ probedLists (keysOf (ivf.nprobeOf params) keys i), ivf.list l = [] := by
  have hexists := ivf.exists_mem_scannedLists (ivf.maxCodesOf params)
    (keysOf (ivf.nprobeOf params) keys i)
  have hempty : ∀ l, ivf.offersOf true x i l = [] ↔ ivf.list l = [] := by
    intro l
    rw [offersOf, List.map_eq_nil_iff, List.zipIdx_eq_nil_iff]
  rw [scannedPlaces, List.flatMap_eq_nil_iff]
  simp only [hempty]
  rw [← not_iff_not]
  push Not
  exact hexists

/-- With heaps or counters, the search selects places. -/
theorem searchPreassigned_places (assertions : Bool) (turns : ℕ) (hk : 1 ≤ k) (tab : ℕ → ℤ × ℤ)
    (allIdsPerDis : ℕ → ℤ) (hper : ivf.perInvlistSearch = false)
    (hkeys : ∀ p < n * ivf.nprobeOf params, keys p < ivf.nlist)
    (hreal : ∀ i, ∀ l < ivf.nlist, ∀ y ∈ ivf.offersOf true x i l, y.2 ≠ -1) :
    ∃ rows : ℕ → List (ℤ × ℤ),
      ivf.searchPreassigned params assertions turns n x k keys tab allIdsPerDis true =
        some ((List.range n).map rows) ∧
      ∀ i < n, RowSelects k ↑(ivf.scannedPlaces params x keys i) (rows i) := by
  have hscan {S : Type} (scan : ℕ → S → Option S) (s : S) : ∀ i < n,
      ivf.scanProbes (ivf.maxCodesOf params) scan (keysOf (ivf.nprobeOf params) keys i) 0 s =
        (ivf.scannedLists (ivf.maxCodesOf params) (keysOf (ivf.nprobeOf params) keys i) 0).foldlM
          (fun s l ↦ scan l s) s :=
    fun i hi ↦ scanProbes_eq_scannedLists scan (keysOf_lt hkeys hi) 0 s
  have hlists : ∀ i < n, ∀ l ∈ ivf.scannedLists (ivf.maxCodesOf params)
      (keysOf (ivf.nprobeOf params) keys i) 0, l < ivf.nlist :=
    fun i hi l hl ↦ Int.ofNat_lt.mp (keysOf_lt hkeys hi _ (mem_scannedLists hl))
  unfold searchPreassigned
  rw [hper, if_neg Bool.false_ne_true]
  split
  · refine ⟨fun i ↦ firstEntries k (heapReorder CMaxInt k
      ((ivf.scannedLists (ivf.maxCodesOf params) (keysOf (ivf.nprobeOf params) keys i) 0).foldl
        (fun heap l ↦ heapOffers CMaxInt k heap (ivf.offersOf true x i l))
        (heapHeapify CMaxInt k fun j ↦ tab (k * i + j)))).2, Lib.mapM_eq_some_map fun i hi ↦ ?_, fun i hi ↦ ?_⟩
    · have hi := List.mem_range.mp hi
      rw [hscan _ _ i hi]
      exact congrArg (· >>= _) List.foldlM_pure
    · have hholds := ivf.foldl_holds (TopK.holds_heapHeapify hk fun j ↦ tab (k * i + j)) x i _
        fun l hl ↦ hreal i l (hlists i hi l hl)
      rw [add_zero] at hholds
      exact selects_of_holds hholds
  · have hreturns := fun i ↦ ivf.foldlM_has hk x i
      (ivf.scannedLists (ivf.maxCodesOf params) (keysOf (ivf.nprobeOf params) keys i) 0) true
      (HCounterState.has_new (8 * ivf.codeSize) hk fun p ↦ allIdsPerDis (i * (8 * ivf.codeSize + 1) * k + p))
    choose csi hcsi hhas using hreturns
    refine ⟨fun i ↦ (csi i).results (8 * ivf.codeSize + 1) k, Lib.mapM_eq_some_map fun i hi ↦ ?_,
      fun i hi ↦ ?_⟩
    · rw [hscan _ _ i (List.mem_range.mp hi), hcsi i]
      rfl
    · have hselects := (hhas i).selects fun y hy ↦ by
        rw [add_zero] at hy
        obtain ⟨l, -, hy⟩ := List.mem_flatMap.mp (Multiset.mem_coe.mp hy)
        obtain ⟨j, e, -, rfl⟩ := exists_of_mem_offersOf hy
        have := (ivf.distance_bounds x i e).2.1
        push_cast
        omega
      rw [add_zero] at hselects
      exact hselects

end IndexBinaryIVF

namespace MappedBinaryIVF

variable {QP : Type} {ivf : MappedBinaryIVF} {l o k n : ℕ} {e : Entry}

/-! ## The labels -/

section
variable (ivf : MappedBinaryIVF) (label : ℤ)

/-- The label is that of no result, or it is a place. -/
def Label : Prop :=
  label < 0 ∨ ∃ l o e, ivf.invlists.At l o e ∧ label = (loOf l o).toInt

/-- The entry at the place that is the label. -/
def labelled : Option Entry :=
  if label < 0 then none
  else (ivf.getSingle (IVFIndex.asInt (loListno (.ofInt label)))
    (IVFIndex.asInt (loOffset (.ofInt label)))).toOption

def settled (y : ℤ × ℤ) : ℤ × ℤ :=
  ((ivf.labelled y.2).map fun e ↦ (y.1, e.id.toInt)).getD y

def bytesOf : List UInt8 :=
  ((ivf.labelled label).map Entry.code).getD (List.replicate ivf.d 0xff)

end

theorem labelled_of_neg {label : ℤ} (h : label < 0) : ivf.labelled label = none :=
  if_pos h

theorem ArrayMapped.asInt_place (h : ivf.ArrayMapped) (hat : ivf.invlists.At l o e) :
    IVFIndex.asInt (loListno (.ofInt (loOf l o).toInt)) = l ∧
      IVFIndex.asInt (loOffset (.ofInt (loOf l o).toInt)) = o := by
  obtain ⟨hl, ho⟩ := h.lt_of_at hat
  have hlistno := loListno_loOf (l := l) (o := o) (by omega) (by omega)
  have hoffset := loOffset_loOf (l := l) (o := o) (by omega) (by omega)
  rw [IVFIndex.ofInt_toInt_loOf hl (by omega)]
  constructor
  · rw [IVFIndex.asInt_of_lt (by rw [hlistno]; exact hl), hlistno]
  · rw [IVFIndex.asInt_of_lt (by rw [hoffset]; exact ho), hoffset]

theorem ArrayMapped.labelled_place (h : ivf.ArrayMapped) (hat : ivf.invlists.At l o e) :
    ivf.labelled (loOf l o).toInt = some e := by
  obtain ⟨hl, ho⟩ := h.lt_of_at hat
  obtain ⟨hlistno, hoffset⟩ := h.asInt_place hat
  unfold labelled
  rw [if_neg (not_lt.mpr (loOf_nonneg hl (by omega))), hlistno, hoffset, getSingle_of_at hat]
  rfl

theorem ArrayMapped.reconstructResult_eq (h : ivf.ArrayMapped) {rows : List (ℤ × ℤ)} {y : ℤ × ℤ} {ij : ℕ}
    (hy : rows[ij]? = some y) (hlabel : ivf.Label y.2) (m : ℕ → UInt8) :
    ivf.reconstructResult (rows, m) ij =
      some (rows.set ij (ivf.settled y), write m (ij * ivf.d) (ivf.bytesOf y.2)) := by
  obtain ⟨hij, heq⟩ := List.getElem?_eq_some_iff.mp hy
  unfold reconstructResult
  rw [hy]
  change (if y.2 < 0 then some (rows, _) else _) = _
  rcases hlabel with hneg | ⟨l, o, e, hat, hplace⟩
  · rw [if_pos hneg, settled, bytesOf, labelled_of_neg hneg]
    change _ = some (rows.set ij y, _)
    rw [← heq, List.set_getElem_self]
    rfl
  · obtain ⟨hl, ho⟩ := h.lt_of_at hat
    obtain ⟨hlistno, hoffset⟩ := h.asInt_place hat
    rw [settled, bytesOf, hplace, h.labelled_place hat, if_neg (not_lt.mpr (loOf_nonneg hl (by omega))),
      hlistno, hoffset, getSingle_of_at hat, reconstructFromOffset_of_at hat]
    rfl

theorem ArrayMapped.foldlM_reconstructResult (h : ivf.ArrayMapped) {rows : List (ℤ × ℤ)}
    (hlabels : ∀ y ∈ rows, ivf.Label y.2) (m : ℕ → UInt8) {c : ℕ} (hc : c ≤ rows.length) :
    (List.range c).foldlM ivf.reconstructResult (rows, m) =
      some ((rows.take c).map ivf.settled ++ rows.drop c,
        (List.range c).foldl (fun m p ↦ write m (p * ivf.d) (ivf.bytesOf (rows.getD p (0, -1)).2)) m) := by
  induction c with
  | zero => rfl
  | succ c ih =>
      have hget : rows[c]? = some (rows.getD c (0, -1)) := by
        rw [List.getD_eq_getElem _ _ hc, List.getElem?_eq_getElem hc]
      have hmem : rows.getD c (0, -1) ∈ rows := List.mem_of_getElem? hget
      have hlength : ((rows.take c).map ivf.settled).length = c := by
        rw [List.length_map, List.length_take, min_eq_left (by omega)]
      have hdrop : rows.drop c = rows.getD c (0, -1) :: rows.drop (c + 1) := by
        rw [List.getD_eq_getElem _ _ hc]
        exact List.drop_eq_getElem_cons hc
      have hstate : ((rows.take c).map ivf.settled ++ rows.drop c)[c]? = some (rows.getD c (0, -1)) := by
        rw [List.getElem?_append_right hlength.le, hlength, Nat.sub_self, hdrop]
        rfl
      rw [List.range_succ, List.foldlM_append, ih (by omega), List.foldl_append]
      change (ivf.reconstructResult _ c >>= some) = _
      rw [h.reconstructResult_eq hstate (hlabels _ hmem), List.set_append_right _ _ hlength.le, hlength, Nat.sub_self,
        hdrop, List.take_add_one, hget, List.map_append, List.append_assoc]
      rfl

def idsOf (rows : List (ℤ × ℤ)) : List (Option Idx) :=
  rows.map fun y ↦ if y.2 < 0 then none else some (.ofInt y.2)

@[simp] theorem length_idsOf (rows : List (ℤ × ℤ)) : (idsOf rows).length = rows.length :=
  List.length_map _

theorem ArrayMapped.idsOf_settled (h : ivf.ArrayMapped) {rows : List (ℤ × ℤ)} (hlabels : ∀ y ∈ rows, ivf.Label y.2)
    {j : ℕ} {id : Idx} (hid : (idsOf (rows.map ivf.settled))[j]? = some (some id)) :
    ∃ l o e, ivf.invlists.At l o e ∧ e.id = id ∧ (rows.getD j (0, -1)).2 = (loOf l o).toInt := by
  rw [idsOf, List.map_map, List.getElem?_map, Option.map_eq_some_iff] at hid
  obtain ⟨y, hy, hid⟩ := hid
  have hget : rows.getD j (0, -1) = y := by rw [List.getD_eq_getElem?_getD, hy, Option.getD_some]
  rw [hget]
  rcases hlabels y (List.mem_of_getElem? hy) with hneg | ⟨l, o, e, hat, hplace⟩
  · have hsettled : ivf.settled y = y := by rw [settled, labelled_of_neg hneg]; rfl
    rw [comp_apply, hsettled, if_pos hneg] at hid
    exact absurd hid (Option.some_ne_none id).symm
  · have hsettled : ivf.settled y = (y.1, e.id.toInt) := by rw [settled, hplace, h.labelled_place hat]; rfl
    rw [comp_apply, hsettled, if_neg (not_lt.mpr (h.id_bounds hat).1), Int64.ofInt_toInt] at hid
    exact ⟨l, o, e, hat, Option.some.inj hid, hplace⟩

/-- What a search that asks for places returns, and what the loop over the results makes of it. -/
theorem ArrayMapped.searchAndReconstruct_eq (h : ivf.ArrayMapped) {assertions : Bool} {turns : ℕ}
    (x : ℕ → UInt8) {keys : ℕ → ℤ} (hk : 1 ≤ k) (tab : ℕ → ℤ × ℤ) (allIdsPerDis : ℕ → ℤ)
    (hper : ivf.perInvlistSearch = false) (hnprobe : ivf.nprobeOf (none : Option (IVFSearchParameters QP)) ≠ 0)
    (hkeys : ∀ p < n * ivf.nprobeOf (none : Option (IVFSearchParameters QP)), keys p < ivf.nlist) :
    ∃ rows : List (ℤ × ℤ), rows.length = n * k ∧ (∀ y ∈ rows, ivf.Label y.2) ∧
      (n * k = 1 → ((rows.getD 0 (0, -1)).2 < 0 ↔ ∀ l ∈ IndexBinaryIVF.probedLists (IndexBinaryIVF.keysOf
        (ivf.nprobeOf (none : Option (IVFSearchParameters QP))) keys 0), ivf.list l = [])) ∧
      ∀ m, ivf.searchAndReconstruct (none : Option (IVFSearchParameters QP)) assertions turns n x k keys tab
          allIdsPerDis m =
        some (rows.map ivf.settled, (List.range (n * k)).foldl
          (fun m p ↦ write m (p * ivf.d) (ivf.bytesOf (rows.getD p (0, -1)).2)) m) := by
  have hplaces : ∀ i, ∀ l < ivf.nlist, ∀ y ∈ ivf.offersOf true x i l,
      0 ≤ y.2 ∧ ∃ o e, ivf.invlists.At l o e ∧ y.2 = (loOf l o).toInt := by
    intro i l hl y hy
    obtain ⟨o, e, he, rfl⟩ := IndexBinaryIVF.exists_of_mem_offersOf hy
    have hat : ivf.invlists.At l o e := ⟨hl, he⟩
    obtain ⟨hl, ho⟩ := h.lt_of_at hat
    exact ⟨loOf_nonneg hl (by omega), o, e, hat, rfl⟩
  obtain ⟨rows, hrows, hselects⟩ := IndexBinaryIVF.searchPreassigned_places assertions turns hk tab
    allIdsPerDis hper hkeys fun i l hl y hy ↦ by
      have := (hplaces i l hl y hy).1
      omega
  have hscanned : ∀ i < n, ∀ y ∈ ivf.scannedPlaces (none : Option (IVFSearchParameters QP)) x keys i,
      0 ≤ y.2 ∧ ivf.Label y.2 := by
    intro i hi y hy
    obtain ⟨l, hl, hy⟩ := List.mem_flatMap.mp hy
    have hl := Int.ofNat_lt.mp (IndexBinaryIVF.keysOf_lt hkeys hi _ (IndexBinaryIVF.mem_scannedLists hl))
    obtain ⟨hpos, o, e, hat, hlo⟩ := hplaces i l hl y hy
    exact ⟨hpos, Or.inr ⟨l, o, e, hat, hlo⟩⟩
  have hlabels : ∀ y ∈ (List.range n).flatMap rows, ivf.Label y.2 := by
    intro y hy
    obtain ⟨i, hi, hy⟩ := List.mem_flatMap.mp hy
    have hi := List.mem_range.mp hi
    rcases (hselects i hi).mem hy with hy | hmissing
    · exact (hscanned i hi y (Multiset.mem_coe.mp hy)).2
    · exact Or.inl (by omega)
  have hlength : ((List.range n).flatMap rows).length = n * k :=
    Lib.length_flatMap_range fun i hi ↦ (hselects i hi).length_eq
  refine ⟨(List.range n).flatMap rows, hlength, hlabels, fun hone ↦ ?_, fun m ↦ ?_⟩
  · obtain rfl : n = 1 := Nat.eq_one_of_mul_eq_one_right hone
    obtain rfl : k = 1 := by omega
    have hfirst : (List.range 1).flatMap rows = rows 0 := List.append_nil _
    have hselects := hselects 0 Nat.one_pos
    rw [hfirst, ← IndexBinaryIVF.scannedPlaces_eq_nil (x := x)]
    constructor
    · intro hneg
      by_contra hne
      obtain ⟨y, hy, hhead⟩ := hselects.head_mem le_rfl (mt (Multiset.coe_eq_zero _).mp hne)
      have hpos := (hscanned 0 Nat.one_pos y (Multiset.mem_coe.mp hy)).1
      rw [List.getD_eq_getElem?_getD, ← List.head?_eq_getElem?, hhead, Option.getD_some] at hneg
      omega
    · intro hnil
      rw [hnil] at hselects
      have hlt : 0 < (rows 0).length := by rw [hselects.length_eq]; exact Nat.one_pos
      rw [List.getD_eq_getElem _ _ hlt]
      rcases hselects.mem (List.getElem_mem hlt) with hy | hmissing
      · exact absurd hy (Multiset.notMem_zero _)
      · omega
  · unfold searchAndReconstruct
    rw [if_neg (by simp), if_neg (by omega), if_neg hnprobe, hrows]
    change (List.range (n * k)).foldlM _ (((List.range n).map rows).flatten, m) = _
    rw [← List.flatMap_def, h.foldlM_reconstructResult hlabels m hlength.ge,
      List.take_of_length_le hlength.le, List.drop_of_length_le hlength.le, List.append_nil]

theorem ArrayMapped.length_bytesOf (h : ivf.ArrayMapped) {label : ℤ} (hlabel : ivf.Label label) :
    (ivf.bytesOf label).length = if label < 0 then ivf.d else ivf.codeSize := by
  rcases hlabel with hneg | ⟨l, o, e, hat, rfl⟩
  · rw [if_pos hneg, bytesOf, labelled_of_neg hneg]
    exact List.length_replicate
  · obtain ⟨hl, ho⟩ := h.lt_of_at hat
    rw [if_neg (not_lt.mpr (loOf_nonneg hl (by omega))), bytesOf, h.labelled_place hat]
    exact code_length_of_at hat

theorem write_inside {m : ℕ → UInt8} {a i : ℕ} {bytes : List UInt8} (h : i < bytes.length) :
    write m a bytes (a + i) = bytes.getD i 0 := by
  rw [Lib.write_of_inside h, List.getD_eq_getElem _ _ h]
  rfl

/-- `search_and_reconstruct` puts the vectors where they belong for a single result that is not missing only,
or for vectors without bytes. -/
theorem ArrayMapped.searchAndReconstruct_reconstructed_iff (h : ivf.ArrayMapped) {assertions : Bool} {turns : ℕ}
    (x : ℕ → UInt8) {keys : ℕ → ℤ} (hk : 1 ≤ k) (tab : ℕ → ℤ × ℤ) (allIdsPerDis : ℕ → ℤ)
    (hnprobe : ivf.nprobeOf (none : Option (IVFSearchParameters QP)) ≠ 0)
    (hkeys : ∀ p < n * ivf.nprobeOf (none : Option (IVFSearchParameters QP)), keys p < ivf.nlist) :
    (∀ m, ∃ rows m', ivf.searchAndReconstruct (none : Option (IVFSearchParameters QP)) assertions turns n x k keys
        tab allIdsPerDis m = some (rows, m') ∧ rows.length = n * k ∧ ivf.Reconstructed (idsOf rows) m m') ↔
      ivf.perInvlistSearch = false ∧ (ivf.codeSize = 0 ∨ n = 0 ∨ n * k = 1 ∧
        ∃ l ∈ IndexBinaryIVF.probedLists (IndexBinaryIVF.keysOf
          (ivf.nprobeOf (none : Option (IVFSearchParameters QP))) keys 0), ivf.list l ≠ []) := by
  by_cases hper : ivf.perInvlistSearch = true
  · refine iff_of_false (fun hall ↦ ?_) fun hcond ↦ absurd (hper.symm.trans hcond.1) (by decide)
    -- the search list by list cannot report places
    obtain ⟨rows, m', hrun, -⟩ := hall fun _ ↦ 0
    have hthrows : ivf.searchPreassigned (none : Option (IVFSearchParameters QP)) assertions turns n x k keys tab
        allIdsPerDis true = none := by
      unfold IndexBinaryIVF.searchPreassigned IndexBinaryIVF.searchKnnHammingPerInvlist
      rw [if_pos hper, if_pos rfl, ite_self]
    unfold searchAndReconstruct at hrun
    rw [if_neg (by simp), if_neg (by omega), if_neg hnprobe, hthrows] at hrun
    exact Option.some_ne_none _ hrun.symm
  have hper := Bool.eq_false_iff.mpr hper
  obtain ⟨rows, hlength, hlabels, hsingle, hrun⟩ :=
    h.searchAndReconstruct_eq x hk tab allIdsPerDis hper hnprobe hkeys
  have hids : (idsOf (rows.map ivf.settled)).length = n * k := by rw [length_idsOf, List.length_map, hlength]
  constructor
  · intro hall
    refine ⟨hper, ?_⟩
    by_contra! hboth
    obtain ⟨hsize, hn, hempty⟩ := hboth
    have hpos : 0 < n * k := Nat.mul_pos (Nat.pos_of_ne_zero hn) hk
    have hrange : List.range (n * k) = List.range (n * k - 1) ++ [n * k - 1] := by
      rw [← List.range_succ, Nat.succ_eq_add_one, Nat.sub_add_cancel hpos]
    have hmem : rows.getD (n * k - 1) (0, -1) ∈ rows := by
      rw [List.getD_eq_getElem _ _ (by omega)]
      exact List.getElem_mem _
    -- the memory differs from the first byte that is written for the last result
    obtain ⟨c, hc⟩ := exists_byte_ne ((ivf.bytesOf (rows.getD (n * k - 1) (0, -1)).2).getD 0 0)
    obtain ⟨rows', m', hm', -, hrec⟩ := hall fun _ ↦ c
    obtain ⟨rfl, rfl⟩ := Prod.mk.inj (Option.some.inj ((hrun fun _ ↦ c).symm.trans hm'))
    rw [hrange, List.foldl_append] at hrec
    have hbytes := h.length_bytesOf (hlabels _ hmem)
    have hd : ivf.d = 8 * ivf.codeSize := rfl
    by_cases hone : n * k = 1
    · have hneg := (hsingle hone).mpr (hempty hone)
      rw [hone, Nat.sub_self, if_pos hneg] at hbytes
      have hout := hrec.outside ivf.codeSize (by rw [hids, hone, Nat.one_mul])
      rw [hone, Nat.sub_self] at hout hc
      change write _ (0 * ivf.d) _ _ = _ at hout
      rw [Nat.zero_mul, ← Nat.zero_add ivf.codeSize, write_inside (by omega)] at hout
      rw [bytesOf, labelled_of_neg hneg] at hc hout
      change (List.replicate ivf.d 0xff).getD _ 0 = _ at hout
      change _ ≠ (List.replicate ivf.d 0xff).getD 0 0 at hc
      rw [List.getD_replicate _ (by omega)] at hout hc
      exact hc hout.symm
    · refine not_reconstructed (by rw [hids]; omega) ?_ hrec
      have hpos : 0 < (ivf.bytesOf (rows.getD (n * k - 1) (0, -1)).2).length := by
        rw [hbytes]
        split <;> omega
      rw [hids, List.foldl_cons, List.foldl_nil, ← Nat.add_zero ((n * k - 1) * ivf.d), write_inside hpos]
      exact Ne.symm hc
  · rintro ⟨-, hcases⟩ m
    refine ⟨_, _, hrun m, by rw [List.length_map, hlength], fun j id hid ↦ ?_, fun a ha ↦ ?_⟩
    · obtain ⟨l, o, e, hat, rfl, hplace⟩ := h.idsOf_settled hlabels hid
      refine ⟨_, h.reconstruct hat 0 m, ?_⟩
      obtain ⟨hj, -⟩ := List.getElem?_eq_some_iff.mp hid
      rw [hids] at hj
      rcases hcases with hsize | rfl | ⟨hone, -⟩
      · rw [hsize]
        rfl
      · omega
      · obtain rfl : j = 0 := by omega
        rw [hone, Nat.zero_mul]
        change read (write m (0 * ivf.d) _) 0 _ = _
        rw [Nat.zero_mul, bytesOf, hplace, h.labelled_place hat]
        rfl
    · rw [hids] at ha
      rcases hcases with hsize | rfl | ⟨hone, l, hl, hne⟩
      · have hnothing : ∀ p < n * k, ivf.bytesOf (rows.getD p (0, -1)).2 = [] := by
          intro p hp
          have hmem : rows.getD p (0, -1) ∈ rows := by
            rw [List.getD_eq_getElem _ _ (by omega)]
            exact List.getElem_mem _
          refine List.eq_nil_of_length_eq_zero ((h.length_bytesOf (hlabels _ hmem)).trans ?_)
          rw [d, hsize, Nat.mul_zero, ite_self]
        refine Lib.foldl_invariant (fun (m' : ℕ → UInt8) ↦ m' a = m a) rfl fun p hp m' hm' ↦ ?_
        rw [hnothing p (List.mem_range.mp hp), Lib.write_nil]
        exact hm'
      · rw [Nat.zero_mul]
        rfl
      · have hfound := mt (hsingle hone).mp fun hall ↦ hne (hall l hl)
        have hmem : rows.getD 0 (0, -1) ∈ rows := by
          rw [List.getD_eq_getElem _ _ (by omega)]
          exact List.getElem_mem _
        have hbytes := h.length_bytesOf (hlabels _ hmem)
        rw [if_neg hfound] at hbytes
        rw [hone] at ha ⊢
        change write m (0 * ivf.d) (ivf.bytesOf (rows.getD 0 (0, -1)).2) a = m a
        exact Lib.write_of_outside (Or.inr (by omega))

/-! ## Both functions -/

/-- When `reconstruct_n` puts the vectors of a range of stored ids one behind the other, and when
`search_and_reconstruct` does so with what it finds. -/
theorem ArrayMapped.bulk_iff (h : ivf.ArrayMapped) {i0 : ℤ} {ni : ℕ} (hstores : ∀ j < ni, ivf.Stores (i0 + j))
    {assertions : Bool} {turns : ℕ} (x : ℕ → UInt8) {keys : ℕ → ℤ} (hk : 1 ≤ k) (tab : ℕ → ℤ × ℤ)
    (allIdsPerDis : ℕ → ℤ) (hnprobe : ivf.nprobeOf (none : Option (IVFSearchParameters QP)) ≠ 0)
    (hkeys : ∀ p < n * ivf.nprobeOf (none : Option (IVFSearchParameters QP)), keys p < ivf.nlist) :
    ((∀ m, ∃ m', ivf.reconstructN i0 ni m = .ok m' ∧ ivf.Reconstructed (idsFrom i0 ni) m m') ↔
      ni ≤ 1 ∨ ivf.codeSize = 0) ∧
    ((∀ m, ∃ rows m', ivf.searchAndReconstruct (none : Option (IVFSearchParameters QP)) assertions turns n x k keys
        tab allIdsPerDis m = some (rows, m') ∧ rows.length = n * k ∧ ivf.Reconstructed (idsOf rows) m m') ↔
      ivf.perInvlistSearch = false ∧ (ivf.codeSize = 0 ∨ n = 0 ∨ n * k = 1 ∧
        ∃ l ∈ IndexBinaryIVF.probedLists (IndexBinaryIVF.keysOf
          (ivf.nprobeOf (none : Option (IVFSearchParameters QP))) keys 0), ivf.list l ≠ [])) :=
  ⟨h.reconstructN_reconstructed_iff hstores,
    h.searchAndReconstruct_reconstructed_iff x hk tab allIdsPerDis hnprobe hkeys⟩

/-- An index with two vectors of one byte in one list. -/
def twoVectors : MappedBinaryIVF where
  codeSize := 1
  nlist := 1
  nprobe := 1
  maxCodes := 0
  useHeap := true
  perInvlistSearch := false
  list := fun l ↦ if l = 0 then [⟨0, [7]⟩, ⟨1, [9]⟩] else []
  codeSize_lt := by decide
  id_ne := by
    intro l e he
    split at he
    · simp only [List.mem_cons, List.not_mem_nil, or_false] at he
      rcases he with rfl | rfl <;> decide
    · exact absurd he List.not_mem_nil
  directMap := ⟨.array, [0, 1], fun _ ↦ none⟩
  ntotal := 2
  code_length := by
    intro l e he
    split at he
    · simp only [List.mem_cons, List.not_mem_nil, or_false] at he
      rcases he with rfl | rfl <;> rfl
    · exact absurd he List.not_mem_nil

theorem twoVectors_arrayMapped : twoVectors.ArrayMapped where
  type := rfl
  ntotal_eq := rfl
  length_lt := by decide
  nlist_le := by decide
  list_le l hl := by
    obtain rfl : l = 0 := Nat.lt_one_iff.mp hl
    decide
  entry := by
    rintro l o e ⟨hl, he⟩
    obtain rfl : l = 0 := Nat.lt_one_iff.mp hl
    match o, he with
    | 0, he => exact ⟨0, by decide, by rw [← Option.some.inj he]; rfl, by decide⟩
    | 1, he => exact ⟨1, by decide, by rw [← Option.some.inj he]; rfl, by decide⟩

theorem twoVectors_stores : ∀ j < 2, twoVectors.Stores (0 + (j : ℕ)) := by
  intro j hj
  obtain rfl | rfl : j = 0 ∨ j = 1 := by omega
  · exact ⟨0, 0, ⟨0, [7]⟩, ⟨Nat.one_pos, rfl⟩, rfl⟩
  · exact ⟨0, 1, ⟨1, [9]⟩, ⟨Nat.one_pos, rfl⟩, rfl⟩

theorem twoVectors_baseReconstructN : ∃ m', twoVectors.baseReconstructN 0 2 (fun _ ↦ 7) = .ok m' ∧
    twoVectors.Reconstructed (idsFrom 0 2) (fun _ ↦ 7) m' :=
  twoVectors_arrayMapped.baseReconstructN_reconstructed twoVectors_stores _

theorem twoVectors_bulk_iff :
    ((∀ m, ∃ m', twoVectors.reconstructN 0 2 m = .ok m' ∧ twoVectors.Reconstructed (idsFrom 0 2) m m') ↔
      2 ≤ 1 ∨ twoVectors.codeSize = 0) ∧
    ((∀ m, ∃ rows m', twoVectors.searchAndReconstruct (none : Option (IVFSearchParameters Unit)) true 0 1
        (fun _ ↦ 7) 1 (fun _ ↦ 0) (fun _ ↦ (0, 0)) (fun _ ↦ 0) m = some (rows, m') ∧ rows.length = 1 * 1 ∧
        twoVectors.Reconstructed (idsOf rows) m m') ↔
      twoVectors.perInvlistSearch = false ∧ (twoVectors.codeSize = 0 ∨ 1 = 0 ∨ 1 * 1 = 1 ∧
        ∃ l ∈ IndexBinaryIVF.probedLists (IndexBinaryIVF.keysOf
          (twoVectors.nprobeOf (none : Option (IVFSearchParameters Unit))) (fun _ ↦ 0) 0), twoVectors.list l ≠ [])) :=
  twoVectors_arrayMapped.bulk_iff twoVectors_stores (fun _ ↦ 7) le_rfl (fun _ ↦ (0, 0)) (fun _ ↦ 0) (by decide)
    fun _ _ ↦ by decide

/-- The second of two vectors is written to byte 8 of an output of two bytes. -/
theorem not_reconstructed_twoVectors : twoVectors.ArrayMapped ∧ (∀ j < 2, twoVectors.Stores (0 + (j : ℕ))) ∧
    ¬ ∃ m', twoVectors.reconstructN 0 2 (fun _ ↦ 0) = .ok m' ∧
      twoVectors.Reconstructed (idsFrom 0 2) (fun _ ↦ 0) m' := by
  refine ⟨twoVectors_arrayMapped, twoVectors_stores, ?_⟩
  rintro ⟨m', hrun, hrec⟩
  have hbyte : (twoVectors.reconstructN 0 2 fun _ ↦ 0).map (· 8) = .ok 9 := rfl
  rw [hrun] at hbyte
  have hout := hrec.outside 8 (by decide)
  rw [show m' 8 = 9 from Except.ok.inj hbyte] at hout
  exact absurd hout (by decide)

end MappedBinaryIVF

end FaissNavix
