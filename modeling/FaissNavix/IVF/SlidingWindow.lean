import FaissNavix.Invlists.InvertedLists
import FaissNavix.Lib.Loop
import FaissNavix.Lib.Segments
import FaissNavix.MetricType

/-!
# Sliding windows

`SlidingIndexWindow` of `faiss/IVFlib.cpp`.  The lists of an inverted file hold those of some slices,
one slice after the other, and a step adds a slice at the end or removes the oldest one.  The ids and
the codes of a list are two arrays, which are moved each by itself.
-/

namespace FaissNavix

open Function
open Lib (moveDown regrow blit blit_regrow blit_regrow_moveDown cumulative cumulative_concat
  map_sub_cumulative shiftDown shiftDown_eq)

namespace IVFlib

/-! ## What is merged -/

/-- What `check_compatible_for_merge` compares of two inverted files.  The class is a number. -/
structure MergeHeader where
  kind : ℕ
  d : ℕ
  metricType : MetricType
  nlist : ℕ
  codeSize : ℕ
  /-- `direct_map.no()` -/
  noDirectMap : Bool
  /-- `quantizer->ntotal` and what `quantizer->reconstruct` gives. -/
  quantizerNtotal : ℕ
  centroid : ℕ → List F32

/-- `v == v2`, for vectors of numbers. -/
def sameVector (v v2 : List F32) : Bool :=
  decide (v.length = v2.length) && (v.zip v2).all fun x ↦ x.1.feq x.2

/-- `check_compatible_for_merge`, for two inverted files. -/
def checkCompatibleForMerge (a b : MergeHeader) : Except Fault Unit := do
  Fault.throwIfNot (decide (a.d = b.d) && decide (a.metricType = b.metricType))
    "index0->d == index1->d && index0->metric_type == index1->metric_type"
  Fault.throwIfNot (decide (b.nlist = a.nlist)) "other->nlist == nlist"
  Fault.throwIfNot (decide (a.quantizerNtotal = b.quantizerNtotal))
    "quantizer->ntotal == other->quantizer->ntotal"
  Fault.throwIfNot (decide (b.codeSize = a.codeSize)) "other->code_size == code_size"
  Fault.throwIfNotMsg (decide (a.kind = b.kind)) "typeid(*this) == typeid(*other)"
    "can only merge indexes of the same type"
  Fault.throwIfNotMsg (a.noDirectMap && b.noDirectMap)
    "this->direct_map.no() && other->direct_map.no()" "merge direct_map not implemented"
  Fault.throwIfNotMsg
    ((List.range a.nlist).all fun i ↦ sameVector (a.centroid i) (b.centroid i))
    "v == v2" "coarse quantizers should be the same"

/-- The ids and the codes of `ArrayInvertedLists`, with as many bytes as the ids need. -/
structure Arrays (codeSize : ℕ) where
  ids : ℕ → List Idx
  codes : ℕ → List UInt8
  length_codes : ∀ i, (codes i).length = (ids i).length * codeSize

/-- A sub-index, which is another object than that of the window.  Its lists may be of another kind
than `ArrayInvertedLists`. -/
structure SubIndex where
  header : MergeHeader
  invlists : Option (Arrays header.codeSize)

/-! ## The window -/

/-- A list of the index with the sizes that the window keeps for it. -/
structure WindowList where
  ids : List Idx
  codes : List UInt8
  sizes : List ℕ

/-- `SlidingIndexWindow`, with the index that it refers to. -/
structure SlidingIndexWindow where
  header : MergeHeader
  /-- `index_ivf->ntotal` and `index->ntotal` -/
  ivfNtotal : ℤ
  ntotal : ℤ
  nSlice : ℕ
  lists : ℕ → WindowList

/-- `shift_and_add` -/
def shiftAndAdd {α : Type} (fill : α) (dst : List α) (remove : ℕ) (src : List α) : List α :=
  let dst := if 0 < remove then moveDown dst remove else dst
  let insertPoint := dst.length - remove
  blit (regrow fill dst (insertPoint + src.length)) insertPoint src

/-- `remove_from_begin` -/
def removeFromBegin {α : Type} (v : List α) (remove : ℕ) : List α :=
  if 0 < remove then v.drop remove else v

namespace SlidingIndexWindow

section
variable (change : ℕ → WindowList → WindowList × ℤ) (w : SlidingIndexWindow)

/-- The constructor, on an empty index. -/
def new (header : MergeHeader) : SlidingIndexWindow where
  header := header
  ivfNtotal := 0
  ntotal := 0
  nSlice := 0
  lists := fun _ ↦ ⟨[], [], []⟩

/-- A turn of a loop over the lists, which changes list `i` and the number of vectors. -/
def changeList (i : ℕ) :
    SlidingIndexWindow :=
  let (list, more) := change i (w.lists i)
  { w with lists := update w.lists i list, ivfNtotal := w.ivfNtotal + more }

def changeLists :
    SlidingIndexWindow :=
  (List.range w.header.nlist).foldl (changeList change) w

/-- A slice is added and the oldest one is removed. -/
def swapList {codeSize2 : ℕ} (nSlice codeSize : ℕ) (ils2 : Arrays codeSize2) (i : ℕ)
    (list : WindowList) : WindowList × ℤ :=
  let amountToRemove := list.sizes.getD 0 0
  let ids := shiftAndAdd 0 list.ids amountToRemove (ils2.ids i)
  let codes := shiftAndAdd 0 list.codes (amountToRemove * codeSize) (ils2.codes i)
  let sizes := (shiftDown amountToRemove (nSlice - 1) list.sizes).set (nSlice - 1) ids.length
  (⟨ids, codes, sizes⟩, (ils2.ids i).length - amountToRemove)

/-- A slice is added. -/
def addList {codeSize : ℕ} (ils2 : Arrays codeSize) (i : ℕ) (list : WindowList) : WindowList × ℤ :=
  let ids := shiftAndAdd 0 list.ids 0 (ils2.ids i)
  let codes := shiftAndAdd 0 list.codes 0 (ils2.codes i)
  (⟨ids, codes, list.sizes ++ [ids.length]⟩, (ils2.ids i).length)

/-- The oldest slice is removed. -/
def removeList (nSlice codeSize : ℕ) (_i : ℕ) (list : WindowList) : WindowList × ℤ :=
  let amountToRemove := list.sizes.getD 0 0
  let ids := removeFromBegin list.ids amountToRemove
  let codes := removeFromBegin list.codes (amountToRemove * codeSize)
  let sizes := (shiftDown amountToRemove (nSlice - 1) list.sizes).dropLast
  (⟨ids, codes, sizes⟩, -amountToRemove)

/-- The lists of a sub-index that is given, once they are known to be compatible. -/
def listsOf (subIndex : SubIndex) :
    Except Fault (Arrays subIndex.header.codeSize) := do
  checkCompatibleForMerge w.header subIndex.header
  match subIndex.invlists with
  | some ils2 => .ok ils2
  | none => .error (.exception "Error: '!(ils2)' failed: supports only ArrayInvertedLists")

/-- The branches of `step`.  Their loops subtract sizes that are never larger than what they are
subtracted from. -/
def moveSlices (subIndex : Option SubIndex) (removeOldest : Bool) :
    Except Fault SlidingIndexWindow :=
  match subIndex, removeOldest with
  | some subIndex, true => do
      let ils2 ← w.listsOf subIndex
      return w.changeLists (swapList w.nSlice w.header.codeSize ils2)
  | some subIndex, false => do
      let ils2 ← w.listsOf subIndex
      return { w.changeLists (addList ils2) with nSlice := w.nSlice + 1 }
  | none, true =>
      .ok { w.changeLists (removeList w.nSlice w.header.codeSize) with nSlice := w.nSlice - 1 }
  | none, false => .error (.exception "nothing to do???")

/-- `step` -/
def step (subIndex : Option SubIndex) (removeOldest : Bool) :
    Except Fault SlidingIndexWindow := do
  Fault.throwIfNotMsg (!removeOldest || decide (0 < w.nSlice)) "!remove_oldest || n_slice > 0"
    "cannot remove slice: there is none"
  let w ← w.moveSlices subIndex removeOldest
  return { w with ntotal := w.ivfNtotal }

end

def steps (w : SlidingIndexWindow) (calls : List (Option SubIndex × Bool)) :
    Except Fault SlidingIndexWindow :=
  calls.foldlM (fun w call ↦ w.step call.1 call.2) w

end SlidingIndexWindow

/-! ## The queue of slices -/

namespace SubIndex

/-- The ids of list `i`. -/
def ids (s : SubIndex) (i : ℕ) : List Idx :=
  match s.invlists with
  | some ils => ils.ids i
  | none => []

/-- The codes of list `i`. -/
def codes (s : SubIndex) (i : ℕ) : List UInt8 :=
  match s.invlists with
  | some ils => ils.codes i
  | none => []

theorem length_codes (s : SubIndex) (i : ℕ) :
    (s.codes i).length = (s.ids i).length * s.header.codeSize := by
  unfold codes ids
  cases s.invlists with
  | none => exact (Nat.zero_mul _).symm
  | some ils => exact ils.length_codes i

end SubIndex

/-- A step of a queue: the oldest one may leave, a new one may arrive. -/
def queueStep (slices : List SubIndex) (call : Option SubIndex × Bool) : List SubIndex :=
  (if call.2 then slices.tail else slices) ++ call.1.toList

/-- The slices in the window after some steps, in order of arrival. -/
def queue (calls : List (Option SubIndex × Bool)) : List SubIndex :=
  calls.foldl queueStep []

/-- List `i` has those of the slices, one after the other, and the sums of their sizes. -/
structure WindowList.Holds (list : WindowList) (slices : List SubIndex) (i : ℕ) : Prop where
  ids : list.ids = slices.flatMap (·.ids i)
  codes : list.codes = slices.flatMap (·.codes i)
  sizes : list.sizes = cumulative (slices.map fun s ↦ (s.ids i).length)

/-- The window has the slices of a queue. -/
structure SlidingIndexWindow.Holds (w : SlidingIndexWindow) (slices : List SubIndex) : Prop where
  codeSize : ∀ s ∈ slices, s.header.codeSize = w.header.codeSize
  nSlice : w.nSlice = slices.length
  lists : ∀ i < w.header.nlist, (w.lists i).Holds slices i
  ivfNtotal : w.ivfNtotal = ∑ i ∈ Finset.range w.header.nlist, ((w.lists i).ids.length : ℤ)
  ntotal : w.ntotal = w.ivfNtotal

/-! ## What a step does to a list -/

theorem shiftAndAdd_eq {α : Type} (fill : α) {dst : List α} {remove : ℕ} (h : remove ≤ dst.length)
    (src : List α) : shiftAndAdd fill dst remove src = dst.drop remove ++ src := by
  unfold shiftAndAdd
  by_cases hpos : 0 < remove
  · rw [if_pos hpos]
    dsimp only
    rw [Lib.length_moveDown h]
    exact blit_regrow_moveDown fill h src
  · obtain rfl : remove = 0 := Nat.eq_zero_of_not_pos hpos
    rw [if_neg hpos]
    dsimp only
    rw [Nat.sub_zero, blit_regrow fill le_rfl, List.take_length, List.drop_zero]

theorem removeFromBegin_eq {α : Type} (v : List α) (remove : ℕ) :
    removeFromBegin v remove = v.drop remove := by
  unfold removeFromBegin
  split
  · rfl
  · next h =>
      rw [Nat.eq_zero_of_not_pos h, List.drop_zero]

namespace WindowList

variable {list : WindowList} {slices : List SubIndex} {i : ℕ}

section
variable {s : SubIndex} {codeSize : ℕ} (h : list.Holds (s :: slices) i)
include h

theorem Holds.sizes_zero :
    list.sizes.getD 0 0 = (s.ids i).length := by
  rw [h.sizes, List.map_cons, Lib.cumulative_cons]
  rfl

theorem Holds.drop (hsize : s.header.codeSize = codeSize) :
    list.ids.drop (s.ids i).length = slices.flatMap (·.ids i) ∧
      list.codes.drop ((s.ids i).length * codeSize) = slices.flatMap (·.codes i) := by
  constructor
  · rw [h.ids, List.flatMap_cons, List.drop_left]
  · rw [h.codes, List.flatMap_cons, ← hsize, List.drop_left' (s.length_codes i)]

theorem Holds.le_length
    (hsize : s.header.codeSize = codeSize) : (s.ids i).length ≤ list.ids.length ∧
      (s.ids i).length * codeSize ≤ list.codes.length := by
  rw [h.ids, h.codes, List.flatMap_cons, List.flatMap_cons, List.length_append, List.length_append,
    s.length_codes, hsize]
  exact ⟨Nat.le_add_right _ _, Nat.le_add_right _ _⟩

end

theorem Holds.shiftDown {s : SubIndex} (h : list.Holds (s :: slices) i) :
    ∃ n, Lib.shiftDown (s.ids i).length slices.length list.sizes =
      cumulative (slices.map fun s ↦ (s.ids i).length) ++ [n] := by
  have hlen : list.sizes.length = slices.length + 1 := by
    rw [h.sizes, Lib.length_cumulative, List.length_map, List.length_cons]
  have hall : (list.sizes.drop 1).take slices.length = list.sizes.drop 1 :=
    List.take_of_length_le (by rw [List.length_drop]; omega)
  have hone : (list.sizes.drop slices.length).length = 1 := by
    rw [List.length_drop, hlen, Nat.add_sub_cancel_left]
  obtain ⟨n, hn⟩ := List.length_eq_one_iff.mp hone
  refine ⟨n, ?_⟩
  rw [shiftDown_eq _ (by omega), hall, hn, h.sizes, List.map_cons, map_sub_cumulative]

theorem Holds.concat {ids : List Idx} {codes : List UInt8} (s : SubIndex)
    (hids : ids = slices.flatMap (·.ids i)) (hcodes : codes = slices.flatMap (·.codes i)) :
    (⟨ids ++ s.ids i, codes ++ s.codes i,
      cumulative (slices.map fun s ↦ (s.ids i).length) ++ [(ids ++ s.ids i).length]⟩ :
        WindowList).Holds (slices ++ [s]) i := by
  refine ⟨?_, ?_, ?_⟩
  · rw [List.flatMap_append, List.flatMap_singleton, hids]
  · rw [List.flatMap_append, List.flatMap_singleton, hcodes]
  · rw [List.map_append, List.map_singleton, cumulative_concat, hids, List.length_append,
      List.length_flatMap]

variable {codeSize nSlice : ℕ}

theorem Holds.addList (h : list.Holds slices i) (s : SubIndex) {ils2 : Arrays s.header.codeSize}
    (hs : s.invlists = some ils2) :
    (SlidingIndexWindow.addList ils2 i list).1.Holds (slices ++ [s]) i ∧
      (SlidingIndexWindow.addList ils2 i list).2 =
        (SlidingIndexWindow.addList ils2 i list).1.ids.length - list.ids.length := by
  have hids : s.ids i = ils2.ids i := by rw [SubIndex.ids, hs]
  have hcodes : s.codes i = ils2.codes i := by rw [SubIndex.codes, hs]
  unfold SlidingIndexWindow.addList
  dsimp only
  rw [shiftAndAdd_eq _ (Nat.zero_le _), shiftAndAdd_eq _ (Nat.zero_le _), List.drop_zero,
    List.drop_zero, ← hids, ← hcodes]
  refine ⟨?_, ?_⟩
  · rw [h.sizes]
    exact Holds.concat s h.ids h.codes
  · rw [List.length_append]
    omega

theorem Holds.swapList {s : SubIndex} (h : list.Holds (s :: slices) i)
    (hsize : s.header.codeSize = codeSize) (hn : nSlice = slices.length + 1) (s' : SubIndex)
    {ils2 : Arrays s'.header.codeSize} (hs' : s'.invlists = some ils2) :
    (SlidingIndexWindow.swapList nSlice codeSize ils2 i list).1.Holds (slices ++ [s']) i ∧
      (SlidingIndexWindow.swapList nSlice codeSize ils2 i list).2 =
        (SlidingIndexWindow.swapList nSlice codeSize ils2 i list).1.ids.length -
          list.ids.length := by
  have hids : s'.ids i = ils2.ids i := by rw [SubIndex.ids, hs']
  have hcodes : s'.codes i = ils2.codes i := by rw [SubIndex.codes, hs']
  obtain ⟨hle, hle'⟩ := h.le_length hsize
  obtain ⟨hdrop, hdrop'⟩ := h.drop hsize
  obtain ⟨n, hsizes⟩ := h.shiftDown
  have hlen : (cumulative (slices.map fun s ↦ (s.ids i).length)).length = slices.length := by
    rw [Lib.length_cumulative, List.length_map]
  unfold SlidingIndexWindow.swapList
  dsimp only
  rw [h.sizes_zero, shiftAndAdd_eq _ hle, shiftAndAdd_eq _ hle', hn, Nat.add_sub_cancel, hsizes,
    ← hids, ← hcodes, List.set_append_right _ _ hlen.le, hlen, Nat.sub_self, List.set_cons_zero]
  refine ⟨Holds.concat s' hdrop hdrop', ?_⟩
  rw [List.length_append, List.length_drop]
  omega

theorem Holds.removeList {s : SubIndex} (h : list.Holds (s :: slices) i)
    (hsize : s.header.codeSize = codeSize) (hn : nSlice = slices.length + 1) :
    (SlidingIndexWindow.removeList nSlice codeSize i list).1.Holds slices i ∧
      (SlidingIndexWindow.removeList nSlice codeSize i list).2 =
        (SlidingIndexWindow.removeList nSlice codeSize i list).1.ids.length - list.ids.length := by
  obtain ⟨hle, hle'⟩ := h.le_length hsize
  obtain ⟨hdrop, hdrop'⟩ := h.drop hsize
  obtain ⟨n, hsizes⟩ := h.shiftDown
  unfold SlidingIndexWindow.removeList
  dsimp only
  rw [h.sizes_zero, removeFromBegin_eq, removeFromBegin_eq, hn, Nat.add_sub_cancel, hsizes,
    List.dropLast_concat]
  refine ⟨⟨hdrop, hdrop', rfl⟩, ?_⟩
  rw [List.length_drop]
  omega

end WindowList

/-! ## What a step does to the window -/

namespace SlidingIndexWindow

variable {w w' : SlidingIndexWindow} {slices slices' : List SubIndex}

theorem changeLists_eq (change : ℕ → WindowList → WindowList × ℤ) (w : SlidingIndexWindow) :
    w.changeLists change = { w with
      lists := fun i ↦ if i < w.header.nlist then (change i (w.lists i)).1 else w.lists i
      ivfNtotal := w.ivfNtotal + ∑ i ∈ Finset.range w.header.nlist, (change i (w.lists i)).2 } := by
  have hupto : ∀ m, (List.range m).foldl (changeList change) w = { w with
      lists := fun i ↦ if i < m then (change i (w.lists i)).1 else w.lists i
      ivfNtotal := w.ivfNtotal + ∑ i ∈ Finset.range m, (change i (w.lists i)).2 } := by
    intro m
    induction m with
    | zero =>
        rw [Finset.range_zero, Finset.sum_empty, add_zero]
        rfl
    | succ m ih =>
        rw [List.range_succ, List.foldl_append, ih, Finset.sum_range_succ, ← add_assoc]
        unfold changeList
        simp only [List.foldl_cons, List.foldl_nil, lt_irrefl, if_false]
        refine congrArg (SlidingIndexWindow.mk _ _ _ _) (funext fun i ↦ ?_)
        rw [update_apply]
        by_cases him : i = m
        · rw [if_pos him, if_pos (by omega), him]
        · rw [if_neg him]
          exact if_congr (by omega) rfl rfl
  exact hupto _

theorem Holds.changeLists (h : w.Holds slices) {change : ℕ → WindowList → WindowList × ℤ}
    {nSlice : ℕ} (hsize : ∀ s ∈ slices', s.header.codeSize = w.header.codeSize)
    (hn : nSlice = slices'.length)
    (hchange : ∀ i < w.header.nlist, (change i (w.lists i)).1.Holds slices' i ∧
      (change i (w.lists i)).2 = (change i (w.lists i)).1.ids.length - (w.lists i).ids.length) :
    ({ w.changeLists change with
      nSlice := nSlice, ntotal := (w.changeLists change).ivfNtotal } : SlidingIndexWindow).Holds
        slices' := by
  rw [changeLists_eq]
  refine ⟨hsize, hn, fun i hi ↦ ?_, ?_, rfl⟩
  · dsimp only
    rw [if_pos hi]
    exact (hchange i hi).1
  · dsimp only
    rw [h.ivfNtotal, ← Finset.sum_add_distrib]
    refine Finset.sum_congr rfl fun i hi ↦ ?_
    have hi := Finset.mem_range.mp hi
    rw [if_pos hi, (hchange i hi).2]
    omega

theorem codeSize_of_check {a b : MergeHeader} {u : Unit}
    (h : checkCompatibleForMerge a b = .ok u) : b.codeSize = a.codeSize := by
  obtain ⟨_, -, h⟩ := Fault.bind_eq_ok.mp h
  obtain ⟨_, -, h⟩ := Fault.bind_eq_ok.mp h
  obtain ⟨_, -, h⟩ := Fault.bind_eq_ok.mp h
  obtain ⟨_, hsize, -⟩ := Fault.bind_eq_ok.mp h
  exact of_decide_eq_true (Fault.throwIfNot_eq_ok.mp hsize)

theorem of_listsOf {s : SubIndex} {ils2 : Arrays s.header.codeSize} (h : w.listsOf s = .ok ils2) :
    s.header.codeSize = w.header.codeSize ∧ s.invlists = some ils2 := by
  obtain ⟨_, hcheck, h⟩ := Fault.bind_eq_ok.mp h
  refine ⟨codeSize_of_check hcheck, ?_⟩
  cases hs : s.invlists with
  | none =>
      rw [hs] at h
      cases h
  | some ils =>
      rw [hs] at h
      cases h
      rfl

theorem Holds.exists_cons (h : w.Holds slices) (hpos : 0 < w.nSlice) :
    ∃ s rest, slices = s :: rest := by
  rw [h.nSlice] at hpos
  exact ⟨_, _, (List.cons_head_tail (List.length_pos_iff.mp hpos)).symm⟩

/-- A step that returns is one of the queue. -/
theorem Holds.step (h : w.Holds slices) {call : Option SubIndex × Bool}
    (hstep : w.step call.1 call.2 = .ok w') : w'.Holds (queueStep slices call) := by
  obtain ⟨sub, remove⟩ := call
  obtain ⟨_, hsome, hstep⟩ := Fault.bind_eq_ok.mp hstep
  replace hsome := Fault.throwIfNotMsg_eq_ok.mp hsome
  obtain ⟨after, hafter, ⟨⟩⟩ := Fault.bind_eq_ok.mp hstep
  cases remove with
  | true =>
      obtain ⟨s, rest, rfl⟩ := h.exists_cons (of_decide_eq_true hsome)
      have hsize := h.codeSize s List.mem_cons_self
      have hrest := fun t ht ↦ h.codeSize t (List.mem_cons_of_mem s ht)
      cases sub with
      | some s' =>
          obtain ⟨ils2, hils, ⟨⟩⟩ := Fault.bind_eq_ok.mp hafter
          obtain ⟨hsize', hs'⟩ := of_listsOf hils
          have hqueue : queueStep (s :: rest) (some s', true) = rest ++ [s'] := rfl
          rw [hqueue]
          refine h.changeLists (fun t ht ↦ ?_) ?_ fun i hi ↦
            (h.lists i hi).swapList hsize h.nSlice s' hs'
          · rcases List.mem_append.mp ht with ht | ht
            · exact hrest t ht
            · rw [List.mem_singleton.mp ht]
              exact hsize'
          · rw [changeLists_eq, List.length_append]
            exact h.nSlice
      | none =>
          cases hafter
          have hqueue : queueStep (s :: rest) (none, true) = rest := List.append_nil rest
          rw [hqueue]
          refine h.changeLists hrest ?_ fun i hi ↦ (h.lists i hi).removeList hsize h.nSlice
          rw [h.nSlice, List.length_cons, Nat.add_sub_cancel]
  | false =>
      cases sub with
      | some s' =>
          obtain ⟨ils2, hils, ⟨⟩⟩ := Fault.bind_eq_ok.mp hafter
          obtain ⟨hsize', hs'⟩ := of_listsOf hils
          have hqueue : queueStep slices (some s', false) = slices ++ [s'] := rfl
          rw [hqueue]
          refine h.changeLists (fun t ht ↦ ?_) ?_ fun i hi ↦
            (h.lists i hi).addList s' hs'
          · rcases List.mem_append.mp ht with ht | ht
            · exact h.codeSize t ht
            · rw [List.mem_singleton.mp ht]
              exact hsize'
          · rw [h.nSlice, List.length_append, List.length_singleton]
      | none => cases hafter

theorem new_holds (header : MergeHeader) : (new header).Holds [] where
  codeSize := fun s hs ↦ absurd hs List.not_mem_nil
  nSlice := rfl
  lists := fun _ _ ↦ ⟨rfl, rfl, rfl⟩
  ivfNtotal := by
    refine (Finset.sum_eq_zero fun i _ ↦ ?_).symm
    rfl
  ntotal := rfl

theorem Holds.steps {calls : List (Option SubIndex × Bool)} (h : w.Holds slices)
    (hrun : w.steps calls = .ok w') : w'.Holds (calls.foldl queueStep slices) := by
  induction calls generalizing w slices with
  | nil =>
      cases hrun
      exact h
  | cons call calls ih =>
      rw [SlidingIndexWindow.steps, List.foldlM_cons] at hrun
      obtain ⟨mid, hstep, hrun⟩ := Fault.bind_eq_ok.mp hrun
      exact ih (h.step hstep) hrun

/-- After each step of a sequence that returns, the window of an empty index has the slices that a
queue has: the lists are theirs one after the other, with the sums of their sizes, and the numbers of
slices and of vectors are right. -/
theorem steps_queue {header : MergeHeader} {calls : List (Option SubIndex × Bool)}
    (hrun : (new header).steps calls = .ok w) :
    ∀ before after, calls = before ++ after →
      ∃ mid, (new header).steps before = .ok mid ∧ mid.steps after = .ok w ∧
        mid.Holds (queue before) := by
  rintro before after rfl
  rw [SlidingIndexWindow.steps, List.foldlM_append] at hrun
  obtain ⟨mid, hbefore, hafter⟩ := Fault.bind_eq_ok.mp hrun
  exact ⟨mid, hbefore, hafter, (new_holds header).steps hbefore⟩

/-- An inverted file with two lists and codes of two bytes. -/
def twoByteHeader : MergeHeader where
  kind := 0
  d := 1
  metricType := .l2
  nlist := 2
  codeSize := 2
  noDirectMap := true
  quantizerNtotal := 2
  centroid := fun _ ↦ [⟨0#32⟩]

/-- A slice with a vector in list 0, and one in each list. -/
def slice (id : Idx) (both : Bool) : SubIndex where
  header := twoByteHeader
  invlists := some {
    ids := fun i ↦ if i = 0 ∨ both then [id] else []
    codes := fun i ↦ if i = 0 ∨ both then [1, 2] else []
    length_codes := fun i ↦ by
      change (if i = 0 ∨ both = true then [1, 2] else []).length =
        (if i = 0 ∨ both = true then [id] else []).length * 2
      split <;> rfl }

/-- Two slices arrive, a third one takes the place of the first, and the oldest one leaves. -/
theorem steps_queue_four :
    ∃ mid, (new twoByteHeader).steps [(some (slice 7 true), false), (some (slice 8 false), false),
        (some (slice 9 true), true)] = .ok mid ∧
      mid.Holds (queue [(some (slice 7 true), false), (some (slice 8 false), false),
        (some (slice 9 true), true)]) := by
  have hrun : ∃ w, (new twoByteHeader).steps [(some (slice 7 true), false),
      (some (slice 8 false), false), (some (slice 9 true), true), (none, true)] = .ok w := ⟨_, rfl⟩
  obtain ⟨w, hrun⟩ := hrun
  obtain ⟨mid, hmid, -, hholds⟩ := steps_queue hrun [(some (slice 7 true), false),
    (some (slice 8 false), false), (some (slice 9 true), true)] [(none, true)] rfl
  exact ⟨mid, hmid, hholds⟩

end SlidingIndexWindow

end IVFlib

end FaissNavix
