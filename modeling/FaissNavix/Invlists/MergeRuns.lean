import FaissNavix.Invlists.OnDisk

/-!
# Merging inverted lists into a file

`merge_from_multiple` lays out all lists one after the other, each with room for its entries in all
sources, and copies the sources in order.  With `shift_ids` the ids of each source are moved by an
offset, which is meant to be the number of entries of the sources before it.  The running sum takes
the size of the source itself in place of that of the source before it.
-/

namespace FaissNavix

/-! ## The sources -/

/-- `new_ids[k] = scope_ids[k] + shift_id_offsets[i]` -/
def shiftEntry (offset : ℕ) (e : Entry) : Entry :=
  { e with id := e.id + Int64.ofNat offset }

/-- `shift_id_offsets`, from the source after one with offset `prev`. -/
def shiftIdOffsets (shiftIds : Bool) : Option ℕ → List InvertedLists → List ℕ
  | _, [] => []
  | prev, il :: ils =>
      let offset := match prev with
        | some p => if shiftIds then p + il.computeNtotal else 0
        | none => 0
      offset :: shiftIdOffsets shiftIds (some offset) ils

namespace OnDiskInvertedLists

variable (s : OnDiskInvertedLists)

variable (ils : List InvertedLists) (shiftIds : Bool)

/-- `sizes[j]` -/
def mergedSize (j : ℕ) : ℕ :=
  (ils.map fun il ↦ il.listSize j).sum

/-- One turn of the loop that lays out the lists: the lists, and `cums`. -/
def layOutList (r : OnDiskInvertedLists × ℕ) (j : ℕ) :
    OnDiskInvertedLists × ℕ :=
  (r.1.setList j ⟨0, mergedSize ils j, some r.2⟩, r.2 + r.1.extentSize (mergedSize ils j))

/-- One turn of the loop over the sources, for list `j`. -/
def mergeSource (j : ℕ) (s : OnDiskInvertedLists) (source : InvertedLists × ℕ) :
    Except Fault OnDiskInvertedLists :=
  let l := s.lists j
  let nEntry := source.1.listSize j
  let s := s.setList j { l with size := l.size + nEntry }
  s.updateEntries j (l.size + nEntry - nEntry)
    (if shiftIds then (source.1.list j).map (shiftEntry source.2) else source.1.list j)

/-- One turn of the parallel loop over the lists. -/
def mergeList (sources : List (InvertedLists × ℕ)) (s : OnDiskInvertedLists)
    (j : ℕ) : Except Fault OnDiskInvertedLists := do
  let s ← sources.foldlM (mergeSource shiftIds j) s
  Fault.assert ((s.lists j).size = (s.lists j).capacity) "l.size == l.capacity"
  return s

/-- `merge_from_multiple`, with the lists taken in the order `order`: the lists, and the number of
entries. -/
def mergeFromMultiple (order : List ℕ) :
    Except Fault (OnDiskInvertedLists × ℕ) := do
  Fault.throwIfNotMsg (s.totsize == 0) "totsize == 0" "works only on an empty InvertedLists"
  Fault.throwIfNot (ils.all fun il ↦ il.nlist == s.nlist && il.codeSize == s.codeSize)
    "il->nlist == nlist && il->code_size == code_size"
  let sources := ils.zip (shiftIdOffsets shiftIds none ils)
  let ntotal := ((List.range s.nlist).map (mergedSize ils)).sum
  let (s, cums) := (List.range s.nlist).foldl (layOutList ils) (s, 0)
  let s ← s.updateTotsize cums
  let s ← order.foldlM (mergeList shiftIds sources) s
  return (s, ntotal)

end OnDiskInvertedLists

end FaissNavix

/-!
# What a merge stores

Each turn of the loop over the lists fills the extent of its list and leaves the rest of the file
as it is.  The lists have extents of their own, so in the end each has what its turn has stored, in
whatever order the turns are.
-/

namespace FaissNavix

namespace OnDiskInvertedLists

/-! ## One list -/

/-- From `s` to `s'`, the entries `es` are added to list `j`, within its extent at `o`. -/
structure Appended (s s' : OnDiskInvertedLists) (j o capacity : ℕ) (es : List Entry) : Prop where
  codeSize_eq : s'.codeSize = s.codeSize
  readOnly_eq : s'.readOnly = s.readOnly
  lists_self : s'.lists j = ⟨s.listSize j + es.length, capacity, some o⟩
  lists_of_ne : ∀ i ≠ j, s'.lists i = s.lists i
  frame : ∀ a, a < o ∨ o + s.extentSize capacity ≤ a → s'.ptr a = s.ptr a
  entries : s'.entries j = s.entries j ++ es

theorem Appended.trans {s s' s'' : OnDiskInvertedLists} {j o capacity : ℕ} {es es' : List Entry}
    (h : Appended s s' j o capacity es) (h' : Appended s' s'' j o capacity es') :
    Appended s s'' j o capacity (es ++ es') where
  codeSize_eq := h'.codeSize_eq.trans h.codeSize_eq
  readOnly_eq := h'.readOnly_eq.trans h.readOnly_eq
  lists_self := by
    rw [h'.lists_self, listSize, h.lists_self, List.length_append, Nat.add_assoc]
  lists_of_ne i hi := (h'.lists_of_ne i hi).trans (h.lists_of_ne i hi)
  frame a ha := by
    rw [h'.frame a (by rwa [extentSize, h.codeSize_eq]), h.frame a ha]
  entries := by rw [h'.entries, h.entries, List.append_assoc]

/-- Entries are written after the entries of a list, in the room that the list has. -/
theorem appended_of_write {s s' : OnDiskInvertedLists} {j o k capacity : ℕ} {es : List Entry}
    (hl : s.lists j = ⟨k, capacity, some o⟩) (hcodes : ∀ e ∈ es, e.code.length = s.codeSize)
    (hk : k + es.length ≤ capacity) (hcs : s'.codeSize = s.codeSize)
    (hro : s'.readOnly = s.readOnly) (hself : s'.lists j = ⟨k + es.length, capacity, some o⟩)
    (hne : ∀ i ≠ j, s'.lists i = s.lists i)
    (hptr : s'.ptr = writeEntries s.codeSize s.ptr o capacity k es) :
    Appended s s' j o capacity es where
  codeSize_eq := hcs
  readOnly_eq := hro
  lists_self := by rw [hself, listSize, hl]
  lists_of_ne := hne
  frame a ha := by
    rw [hptr]
    exact writeEntries_of_outside hcodes hk ha
  entries := by
    have hsize : s.listSize j = k := congrArg OnDiskOneList.size hl
    have hsize' : s'.listSize j = k + es.length := congrArg OnDiskOneList.size hself
    rw [OnDiskInvertedLists.entries, hsize', List.range_add, List.map_append,
      OnDiskInvertedLists.entries, hsize, List.map_map]
    refine congrArg₂ (· ++ ·) ?_ ?_
    · refine List.map_congr_left fun i hi ↦ ?_
      have hik : i < k := List.mem_range.1 hi
      rw [entry_eq hself rfl, entry_eq hl rfl, hcs, hptr,
        extentEntry_writeEntries_of_not hcodes hk (by omega) (.inl hik)]
    · refine List.ext_getElem (by rw [List.length_map, List.length_range]) fun i hi hi' ↦ ?_
      rw [List.getElem_map, List.getElem_range, Function.comp_apply, entry_eq hself rfl, hcs, hptr,
        extentEntry_writeEntries hcodes hk hi']
      rfl

theorem mergeEntries_eq {s : OnDiskInvertedLists} {j o k capacity : ℕ} (hro : s.readOnly = false)
    (hl : s.lists j = ⟨k, capacity, some o⟩) {es : List Entry}
    (hcodes : ∀ e ∈ es, e.code.length = s.codeSize) (hk : k + es.length ≤ capacity) :
    ∃ s', (s.setList j ⟨k + es.length, capacity, some o⟩).updateEntries j k es = .ok s' ∧
      Appended s s' j o capacity es := by
  refine ⟨(s.setList j ⟨k + es.length, capacity, some o⟩).setPtr
    (writeEntries s.codeSize s.ptr o capacity k es), ?_, ?_⟩
  · by_cases hes : es = []
    · rw [hes, writeEntries_nil]
      exact updateEntries_nil (s := s.setList j _) hro j k
    · have ho : ((s.setList j ⟨k + es.length, capacity, some o⟩).lists j).offset = some o := by
        rw [setList_lists_self]
      have hle : es.length + k ≤ (s.setList j ⟨k + es.length, capacity, some o⟩).listSize j := by
        rw [listSize, setList_lists_self, Nat.add_comm]
      rw [updateEntries_eq (s := s.setList j _) hro ho hle hes, setList_lists_self, setList_codeSize, setList_ptr]
  · exact appended_of_write hl hcodes hk rfl rfl (setList_lists_self s j _)
      (fun i hi ↦ setList_lists_of_ne s hi _) rfl

/-- What a source gives to list `j`. -/
def sourceEntries (shiftIds : Bool) (j : ℕ) (source : InvertedLists × ℕ) : List Entry :=
  if shiftIds then (source.1.list j).map (shiftEntry source.2) else source.1.list j

theorem length_sourceEntries (shiftIds : Bool) (j : ℕ) (source : InvertedLists × ℕ) :
    (sourceEntries shiftIds j source).length = source.1.listSize j := by
  rw [sourceEntries]
  split
  · rw [List.length_map]
    rfl
  · rfl

theorem code_length_sourceEntries {shiftIds : Bool} {j : ℕ} {source : InvertedLists × ℕ} {e : Entry}
    (he : e ∈ sourceEntries shiftIds j source) : e.code.length = source.1.codeSize := by
  rw [sourceEntries] at he
  split at he
  · obtain ⟨e', he', rfl⟩ := List.mem_map.1 he
    exact source.1.code_length j e' he'
  · exact source.1.code_length j e he

section
variable {sources : List (InvertedLists × ℕ)} {s : OnDiskInvertedLists} {j o k capacity : ℕ}
  (hro : s.readOnly = false)
include hro

theorem mergeSource_eq
    (hl : s.lists j = ⟨k, capacity, some o⟩) (shiftIds : Bool) {source : InvertedLists × ℕ}
    (hcs : source.1.codeSize = s.codeSize) (hk : k + source.1.listSize j ≤ capacity) :
    ∃ s', mergeSource shiftIds j s source = .ok s' ∧
      Appended s s' j o capacity (sourceEntries shiftIds j source) := by
  have hlen := length_sourceEntries shiftIds j source
  rw [mergeSource, Nat.add_sub_cancel, hl, ← hlen]
  refine mergeEntries_eq hro hl (fun e he ↦ (code_length_sourceEntries he).trans hcs) ?_
  rwa [hlen]

theorem mergeSources_eq (hl : s.lists j = ⟨k, capacity, some o⟩)
    (shiftIds : Bool) (hcs : ∀ x ∈ sources, x.1.codeSize = s.codeSize)
    (hk : k + (sources.flatMap (sourceEntries shiftIds j)).length ≤ capacity) :
    ∃ s', sources.foldlM (mergeSource shiftIds j) s = .ok s' ∧
      Appended s s' j o capacity (sources.flatMap (sourceEntries shiftIds j)) := by
  induction sources generalizing s k with
  | nil =>
      refine ⟨s, rfl, rfl, rfl, ?_, fun i _ ↦ rfl, fun a _ ↦ rfl, (List.append_nil _).symm⟩
      rw [listSize, hl]
      rfl
  | cons x sources ih =>
      rw [List.flatMap_cons, List.length_append, length_sourceEntries] at hk
      obtain ⟨s₁, h₁, happ₁⟩ := mergeSource_eq hro hl shiftIds (hcs x List.mem_cons_self)
        (by omega)
      have hl₁ : s₁.lists j = ⟨k + x.1.listSize j, capacity, some o⟩ := by
        rw [happ₁.lists_self, listSize, hl, length_sourceEntries]
      obtain ⟨s₂, h₂, happ₂⟩ := ih (happ₁.readOnly_eq.trans hro) hl₁
        (fun y hy ↦ (hcs y (List.mem_cons_of_mem _ hy)).trans happ₁.codeSize_eq.symm) (by omega)
      refine ⟨s₂, ?_, happ₁.trans happ₂⟩
      rw [List.foldlM_cons, h₁]
      exact h₂

theorem mergeList_eq (shiftIds : Bool) (hcs : ∀ x ∈ sources, x.1.codeSize = s.codeSize)
    (hl : s.lists j = ⟨0, (sources.flatMap (sourceEntries shiftIds j)).length, some o⟩) :
    ∃ s', mergeList shiftIds sources s j = .ok s' ∧
      Appended s s' j o (sources.flatMap (sourceEntries shiftIds j)).length
        (sources.flatMap (sourceEntries shiftIds j)) := by
  obtain ⟨s', hs', happ⟩ := mergeSources_eq hro hl shiftIds hcs (Nat.zero_add _).le
  refine ⟨s', ?_, happ⟩
  rw [mergeList, hs', Fault.bind_eq_ok]
  refine ⟨s', rfl, ?_⟩
  rw [happ.lists_self, listSize, hl, Nat.zero_add, decide_eq_true rfl]
  rfl

end

/-! ## The layout -/

section
variable (s : OnDiskInvertedLists) (ils : List InvertedLists) (m : ℕ)

/-- The value of `cums` before list `j`. -/
def cumsBefore (j : ℕ) : ℕ :=
  ∑ i ∈ Finset.range j, s.extentSize (mergedSize ils i)

theorem cumsBefore_succ (j : ℕ) :
    s.cumsBefore ils (j + 1) = s.cumsBefore ils j + s.extentSize (mergedSize ils j) :=
  Finset.sum_range_succ _ _

theorem cumsBefore_add_le {i j : ℕ}
    (h : i < j) : s.cumsBefore ils i + s.extentSize (mergedSize ils i) ≤ s.cumsBefore ils j := by
  rw [← cumsBefore_succ]
  exact Finset.sum_le_sum_of_subset (Finset.range_subset_range.2 h)

/-- The lists after the layout of the first `m`. -/
def laidOut : OnDiskInvertedLists :=
  { s with lists := fun j ↦
      if j < m then ⟨0, mergedSize ils j, some (s.cumsBefore ils j)⟩ else s.lists j }

theorem foldl_layOutList :
    (List.range m).foldl (layOutList ils) (s, 0) = (s.laidOut ils m, s.cumsBefore ils m) := by
  induction m with
  | zero => rfl
  | succ m ih =>
      rw [List.range_succ, List.foldl_append, ih, List.foldl_cons, List.foldl_nil, layOutList,
        cumsBefore_succ]
      refine Prod.ext ?_ rfl
      rw [setList, laidOut, laidOut]
      refine congrArg (fun f ↦ { s with lists := f }) ?_
      funext j
      rw [Function.update_apply]
      by_cases hj : j = m
      · rw [if_pos hj, hj, if_pos (Nat.lt_succ_self m)]
      · rw [if_neg hj]
        refine if_congr ?_ rfl rfl
        omega

end

/-! ## All lists -/

/-- What the lists at work get, and what stays. -/
structure Merged (s s' : OnDiskInvertedLists) (order : List ℕ) (start : ℕ → ℕ)
    (es : ℕ → List Entry) : Prop where
  codeSize_eq : s'.codeSize = s.codeSize
  entries : ∀ j ∈ order, s'.entries j = es j
  lists : ∀ j, j ∉ order → s'.lists j = s.lists j
  frame : ∀ a, (∀ j ∈ order, a < start j ∨ start j + s.extentSize (es j).length ≤ a) →
    s'.ptr a = s.ptr a

/-- The loop over the lists in `order`, from a layout with disjoint extents. -/
theorem foldlM_mergeList (sources : List (InvertedLists × ℕ)) (shiftIds : Bool)
    (start : ℕ → ℕ) {order : List ℕ} (hnodup : order.Nodup) {s : OnDiskInvertedLists}
    (hro : s.readOnly = false) (hcs : ∀ x ∈ sources, x.1.codeSize = s.codeSize)
    (hl : ∀ j ∈ order, s.lists j =
      ⟨0, (sources.flatMap (sourceEntries shiftIds j)).length, some (start j)⟩)
    (hdisj : ∀ i j, i ≠ j →
      start i + s.extentSize (sources.flatMap (sourceEntries shiftIds i)).length ≤ start j ∨
      start j + s.extentSize (sources.flatMap (sourceEntries shiftIds j)).length ≤ start i) :
    ∃ s', order.foldlM (mergeList shiftIds sources) s = .ok s' ∧
      Merged s s' order start fun j ↦ sources.flatMap (sourceEntries shiftIds j) := by
  induction order generalizing s with
  | nil =>
      exact ⟨s, rfl, rfl, fun j hj ↦ absurd hj List.not_mem_nil, fun j _ ↦ rfl, fun a _ ↦ rfl⟩
  | cons j order ih =>
      obtain ⟨hj, hnodup⟩ := List.nodup_cons.1 hnodup
      obtain ⟨s₁, h₁, happ⟩ := mergeList_eq hro shiftIds hcs (hl j List.mem_cons_self)
      have hext : ∀ n, s₁.extentSize n = s.extentSize n := fun n ↦ by
        rw [extentSize, happ.codeSize_eq, extentSize]
      obtain ⟨s₂, h₂, hm⟩ := ih hnodup (happ.readOnly_eq.trans hro)
        (fun x hx ↦ (hcs x hx).trans happ.codeSize_eq.symm)
        (fun i hi ↦ (happ.lists_of_ne i fun hij ↦ hj (hij ▸ hi)).trans
          (hl i (List.mem_cons_of_mem _ hi)))
        (fun i k hik ↦ by rw [hext, hext]; exact hdisj i k hik)
      refine ⟨s₂, ?_, hm.codeSize_eq.trans happ.codeSize_eq, fun i hi ↦ ?_, fun i hi ↦ ?_,
        fun a ha ↦ ?_⟩
      · rw [List.foldlM_cons, h₁]
        exact h₂
      · obtain rfl | hi := List.mem_cons.1 hi
        · -- the later turns leave the extent of this list alone
          have hkeep : s₂.entries i = s₁.entries i := by
            refine entries_congr hm.codeSize_eq happ.lists_self
              ((hm.lists i hj).trans happ.lists_self) rfl ?_ fun a ha ha' ↦ hm.frame a fun k hk ↦ ?_
            · rw [listSize, hl i List.mem_cons_self]
              exact (Nat.zero_add _).le
            · have hne : i ≠ k := fun h ↦ hj (h ▸ hk)
              have := hdisj i k hne
              rw [hext] at ha' ⊢
              simp only at ha'
              omega
          have hnil : s.entries i = [] := by
            rw [OnDiskInvertedLists.entries, listSize, hl i List.mem_cons_self]
            rfl
          rw [hkeep, happ.entries, hnil, List.nil_append]
        · exact hm.entries i hi
      · rw [hm.lists i fun h ↦ hi (List.mem_cons_of_mem _ h),
          happ.lists_of_ne i fun h ↦ hi (h ▸ List.mem_cons_self)]
      · rw [hm.frame a fun k hk ↦ ?_, happ.frame a (ha j List.mem_cons_self)]
        rw [hext]
        exact ha k (List.mem_cons_of_mem _ hk)

theorem length_flatMap_sourceEntries (ils : List InvertedLists) (shifts : List ℕ)
    (hlen : ils.length = shifts.length) (shiftIds : Bool) (j : ℕ) :
    ((ils.zip shifts).flatMap (sourceEntries shiftIds j)).length = mergedSize ils j := by
  induction ils generalizing shifts with
  | nil => rfl
  | cons il ils ih =>
      cases shifts with
      | nil => cases hlen
      | cons d shifts =>
          rw [List.zip_cons_cons, List.flatMap_cons, List.length_append, length_sourceEntries,
            ih shifts (Nat.succ.inj hlen)]
          rfl

theorem length_shiftIdOffsets (shiftIds : Bool) (prev : Option ℕ) (ils : List InvertedLists) :
    (shiftIdOffsets shiftIds prev ils).length = ils.length := by
  induction ils generalizing prev with
  | nil => rfl
  | cons il ils ih => exact congrArg Nat.succ (ih _)

def Fits (ils : List InvertedLists) (nlist codeSize : ℕ) : Prop :=
  ∀ il ∈ ils, il.nlist = nlist ∧ il.codeSize = codeSize

/-- A merge into an empty object, up to the loop that copies. -/
theorem mergeFromMultiple_empty {ils : List InvertedLists} {nlist codeSize : ℕ}
    (hfits : Fits ils nlist codeSize) (shiftIds : Bool) (order : List ℕ) :
    (empty nlist codeSize).mergeFromMultiple ils shiftIds order = do
      let s ← ((empty nlist codeSize).laidOut ils nlist).updateTotsize
        ((empty nlist codeSize).cumsBefore ils nlist)
      let s ← order.foldlM
        (mergeList shiftIds (ils.zip (shiftIdOffsets shiftIds none ils))) s
      return (s, ((List.range nlist).map (mergedSize ils)).sum) := by
  have hall : (ils.all fun il ↦ il.nlist == nlist && il.codeSize == codeSize) = true := by
    rw [List.all_eq_true]
    intro il hil
    rw [(hfits il hil).1, (hfits il hil).2, BEq.rfl, BEq.rfl]
    rfl
  have hlayout : (List.range (empty nlist codeSize).nlist).foldl (layOutList ils)
      (empty nlist codeSize, 0) = _ := foldl_layOutList (empty nlist codeSize) ils nlist
  have htotsize : ((empty nlist codeSize).totsize == 0) = true := rfl
  have hall' : (ils.all fun il ↦ il.nlist == (empty nlist codeSize).nlist &&
      il.codeSize == (empty nlist codeSize).codeSize) = true := hall
  rw [mergeFromMultiple, htotsize, hall', hlayout]
  rfl

theorem cumsBefore_pos (s : OnDiskInvertedLists) (ils : List InvertedLists) (m : ℕ) :
    0 < s.cumsBefore ils m ↔ ∃ j < m, ∃ il ∈ ils, 0 < il.listSize j := by
  have hpos : ∀ n, 0 < s.extentSize n ↔ 0 < n := fun n ↦
    ⟨fun h ↦ Nat.pos_of_mul_pos_right h, fun h ↦ Nat.mul_pos h (Nat.add_pos_left (by decide) _)⟩
  have hsize : ∀ j, 0 < mergedSize ils j ↔ ∃ il ∈ ils, 0 < il.listSize j := by
    intro j
    rw [mergedSize, Nat.pos_iff_ne_zero, Ne, List.sum_eq_zero_iff]
    simp [Nat.pos_iff_ne_zero]
  rw [cumsBefore, Finset.sum_pos_iff]
  simp only [hpos, hsize, Finset.mem_range]

variable {ils : List InvertedLists} {nlist codeSize : ℕ} (hfits : Fits ils nlist codeSize)
  (shiftIds : Bool)
include hfits

theorem mergeFromMultiple_of_not (order : List ℕ)
    (hnone : ¬ ∃ j < nlist, ∃ il ∈ ils, 0 < il.listSize j) :
    (empty nlist codeSize).mergeFromMultiple ils shiftIds order =
      .error (.assertion "!\"not implemented\"") := by
  rw [← cumsBefore_pos (empty nlist codeSize)] at hnone
  have htotsize : ((empty nlist codeSize).laidOut ils nlist).totsize = 0 := rfl
  rw [mergeFromMultiple_empty hfits, updateTotsize, htotsize, if_neg hnone]
  rfl

/-- A merge into an empty object gives each list the entries of the sources in order. -/
theorem mergeFromMultiple_of_exists {order : List ℕ}
    (horder : order.Perm (List.range nlist))
    (hsome : ∃ j < nlist, ∃ il ∈ ils, 0 < il.listSize j) :
    ∃ s', (empty nlist codeSize).mergeFromMultiple ils shiftIds order =
        .ok (s', ((List.range nlist).map (mergedSize ils)).sum) ∧
      ∀ j < nlist, s'.entries j =
        (ils.zip (shiftIdOffsets shiftIds none ils)).flatMap (sourceEntries shiftIds j) := by
  rw [← cumsBefore_pos (empty nlist codeSize)] at hsome
  have hmem : ∀ j, j ∈ order ↔ j < nlist := fun j ↦ horder.mem_iff.trans List.mem_range
  have hlen : ∀ j, ((ils.zip (shiftIdOffsets shiftIds none ils)).flatMap
      (sourceEntries shiftIds j)).length = mergedSize ils j :=
    length_flatMap_sourceEntries ils _ (length_shiftIdOffsets shiftIds none ils).symm shiftIds
  let s₁ : OnDiskInvertedLists :=
    { (empty nlist codeSize).laidOut ils nlist with
      slots := Lib.extend [] 0 ((empty nlist codeSize).cumsBefore ils nlist)
      totsize := (empty nlist codeSize).cumsBefore ils nlist }
  obtain ⟨s', hs', hm⟩ := foldlM_mergeList
    (ils.zip (shiftIdOffsets shiftIds none ils)) shiftIds
    ((empty nlist codeSize).cumsBefore ils) (horder.nodup_iff.2 List.nodup_range)
    (s := s₁) rfl (fun x hx ↦ (hfits x.1 (List.of_mem_zip hx).1).2)
    (fun j hj ↦ by
      rw [hlen]
      exact if_pos ((hmem j).1 hj))
    (fun i j hij ↦ by
      rw [hlen, hlen]
      obtain h | h := Nat.lt_or_gt_of_ne hij
      · exact .inl (cumsBefore_add_le _ ils h)
      · exact .inr (cumsBefore_add_le _ ils h))
  refine ⟨s', ?_, fun j hj ↦ hm.entries j ((hmem j).2 hj)⟩
  have htotsize : ((empty nlist codeSize).laidOut ils nlist).totsize = 0 := rfl
  rw [mergeFromMultiple_empty hfits, updateTotsize, htotsize, if_pos hsome, Fault.bind_eq_ok]
  refine ⟨s₁, rfl, ?_⟩
  rw [hs']
  rfl

end OnDiskInvertedLists

end FaissNavix
