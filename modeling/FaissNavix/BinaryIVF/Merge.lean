import FaissNavix.Invlists.DirectMap
import FaissNavix.Lib.Loop

/-!
# Merging binary inverted files

`IndexBinaryIVF::merge_from` moves the entries of all lists, once `check_compatible_for_merge` has returned.
The last check compares the class of an object to the type of a pointer.
-/

namespace FaissNavix

/-! ## Moving the lists -/

/-- `new_ids[j] = ids[j] + add_id` -/
def Entry.addId (addId : Idx) (e : Entry) : Entry :=
  { e with id := e.id + addId }

namespace ArrayInvertedLists

/-- A turn of the loop of `merge_from`, on the target and the source. -/
def mergeList (addId : Idx) (s : ArrayInvertedLists × ArrayInvertedLists) (i : ℕ) :
    ArrayInvertedLists × ArrayInvertedLists :=
  let entries := s.2.lists i
  let target :=
    if addId = 0 then (s.1.addEntries i entries).1
    else (s.1.addEntries i (entries.map (Entry.addId addId))).1
  (target, s.2.resize i 0)

/-- `merge_from`, with the lists taken in the order `order`: the target and the source. -/
def mergeFrom (a oivf : ArrayInvertedLists) (addId : Idx) (order : List ℕ) :
    ArrayInvertedLists × ArrayInvertedLists :=
  order.foldl (mergeList addId) (a, oivf)

end ArrayInvertedLists

/-! ## The check -/

/-- What `typeid` gives: for an object its class, which is a number, and for a pointer the type it is
declared with. -/
inductive TypeInfo where
  | object (kind : ℕ)
  | pointer (kind : ℕ)
deriving DecidableEq, Repr

/-- What a merge reads and writes of an `IndexBinaryIVF`, or of an object of a class derived from it. -/
structure MergedBinaryIVF where
  kind : ℕ
  d : ℕ
  nlist : ℕ
  codeSize : ℕ
  ntotal : ℤ
  directMap : DirectMap
  invlists : ArrayInvertedLists

namespace MergedBinaryIVF

/-- The class `IndexBinaryIVF` itself. -/
def binaryIVF : ℕ := 0

/-- `typeid(*this)` -/
def typeidOfThis (ivf : MergedBinaryIVF) : TypeInfo :=
  .object ivf.kind

/-- `typeid(other)`, where `other` is declared as a `const IndexBinaryIVF*`. -/
def typeidOfOther (_other : MergedBinaryIVF) : TypeInfo :=
  .pointer binaryIVF

/-- `direct_map.no()` -/
def noDirectMap (ivf : MergedBinaryIVF) : Bool :=
  decide (ivf.directMap.type = .noMap)

/-- `check_compatible_for_merge`, where the other index is `none` if it is not an `IndexBinaryIVF`. -/
def checkCompatibleForMerge (ivf : MergedBinaryIVF) (other : Option MergedBinaryIVF) :
    Except Fault MergedBinaryIVF :=
  match other with
  | none => .error (.exception "Error: 'other' failed")
  | some other => do
      Fault.throwIfNot (decide (other.d = ivf.d)) "other->d == d"
      Fault.throwIfNot (decide (other.nlist = ivf.nlist)) "other->nlist == nlist"
      Fault.throwIfNot (decide (other.codeSize = ivf.codeSize)) "other->code_size == code_size"
      Fault.throwIfNotMsg (ivf.noDirectMap && other.noDirectMap) "direct_map.no() && other->direct_map.no()"
        "direct map copy not implemented"
      Fault.throwIfNotMsg (decide (ivf.typeidOfThis = other.typeidOfOther)) "typeid(*this) == typeid(other)"
        "can only merge indexes of the same type"
      return other

/-- What `merge_from` does after the check: the target and the source. -/
def moveFrom (ivf other : MergedBinaryIVF) (addId : Idx) (order : List ℕ) : MergedBinaryIVF × MergedBinaryIVF :=
  let (target, source) := ivf.invlists.mergeFrom other.invlists addId order
  ({ ivf with invlists := target, ntotal := ivf.ntotal + other.ntotal },
    { other with invlists := source, ntotal := 0 })

/-- `merge_from` -/
def mergeFrom (ivf : MergedBinaryIVF) (other : Option MergedBinaryIVF) (addId : Idx) (order : List ℕ) :
    Except Fault (MergedBinaryIVF × MergedBinaryIVF) := do
  let other ← ivf.checkCompatibleForMerge other
  return ivf.moveFrom other addId order

/-- Everything has been moved from one index to the other. -/
structure Moved (ivf other : MergedBinaryIVF) (addId : Idx) (ivf' other' : MergedBinaryIVF) : Prop where
  lists : ∀ i < ivf.nlist, ivf'.invlists.lists i =
    ivf.invlists.lists i ++ (other.invlists.lists i).map (Entry.addId addId)
  source : ∀ i < ivf.nlist, other'.invlists.lists i = []
  ntotal_eq : ivf'.ntotal = ivf.ntotal + other.ntotal
  source_ntotal : other'.ntotal = 0

/-- What is to be the same in two indexes that are merged. -/
structure Compatible (ivf other : MergedBinaryIVF) : Prop where
  kind_eq : other.kind = ivf.kind
  d_eq : other.d = ivf.d
  nlist_eq : other.nlist = ivf.nlist
  codeSize_eq : other.codeSize = ivf.codeSize
  noMap : ivf.directMap.type = .noMap
  other_noMap : other.directMap.type = .noMap

end MergedBinaryIVF

/-! ## What is moved -/

namespace ArrayInvertedLists

variable {a b : ArrayInvertedLists} {addId : Idx} {order : List ℕ}

theorem lists_addEntries (a : ArrayInvertedLists) (j : ℕ) (es : List Entry) (i : ℕ) :
    (a.addEntries j es).1.lists i = if i = j then a.lists i ++ es else a.lists i := by
  unfold addEntries
  by_cases hes : es.length = 0
  · rw [if_pos hes, List.eq_nil_of_length_eq_zero hes, List.append_nil, ite_self]
  · rw [if_neg hes]
    change (a.setList j _).lists i = _
    rw [setList_lists]
    split
    · rename_i heq
      rw [heq]
    · rfl

theorem mergeList_eq (addId : Idx) (s : ArrayInvertedLists × ArrayInvertedLists) (i : ℕ) :
    mergeList addId s i =
      ((s.1.addEntries i ((s.2.lists i).map (Entry.addId addId))).1, s.2.resize i 0) := by
  unfold mergeList
  dsimp only
  by_cases hzero : addId = 0
  · have hid : Entry.addId 0 = id := by
      funext e
      exact congrArg (fun id ↦ (⟨id, e.code⟩ : Entry)) (Int64.add_zero e.id)
    rw [if_pos hzero, hzero, hid, List.map_id]
  · rw [if_neg hzero]

theorem lists_mergeList (addId : Idx) (s : ArrayInvertedLists × ArrayInvertedLists) (j i : ℕ) :
    (mergeList addId s j).1.lists i =
        (if i = j then s.1.lists i ++ (s.2.lists i).map (Entry.addId addId) else s.1.lists i) ∧
      (mergeList addId s j).2.lists i = if i = j then [] else s.2.lists i := by
  rw [mergeList_eq]
  constructor
  · rw [lists_addEntries]
    split
    · rename_i heq
      rw [heq]
    · rfl
  · change (s.2.setList j _).lists i = _
    rw [setList_lists, List.take_zero, Nat.zero_sub]
    rfl

/-- The lists that the turns are for are moved, in any order, and the others are not. -/
theorem lists_mergeFrom (a b : ArrayInvertedLists) (addId : Idx) (horder : order.Nodup) (i : ℕ) :
    (a.mergeFrom b addId order).1.lists i =
        (if i ∈ order then a.lists i ++ (b.lists i).map (Entry.addId addId) else a.lists i) ∧
      (a.mergeFrom b addId order).2.lists i = if i ∈ order then [] else b.lists i := by
  unfold mergeFrom
  induction order generalizing a b with
  | nil => exact ⟨rfl, rfl⟩
  | cons j order ih =>
      obtain ⟨hj, horder⟩ := List.nodup_cons.mp horder
      obtain ⟨htarget, hsource⟩ := ih (mergeList addId (a, b) j).1 (mergeList addId (a, b) j).2 horder
      obtain ⟨hturn, hturn'⟩ := lists_mergeList addId (a, b) j i
      rw [List.foldl_cons]
      refine ⟨htarget.trans ?_, hsource.trans ?_⟩
      · rw [hturn, hturn']
        by_cases heq : i = j
        · rw [if_neg (heq ▸ hj), if_pos heq, if_pos (heq ▸ List.mem_cons_self)]
        · rw [if_neg heq, if_neg heq]
          exact if_congr (by rw [List.mem_cons, or_iff_right heq]) rfl rfl
      · rw [hturn']
        by_cases heq : i = j
        · rw [if_neg (heq ▸ hj), if_pos heq, if_pos (heq ▸ List.mem_cons_self)]
        · rw [if_neg heq]
          exact if_congr (by rw [List.mem_cons, or_iff_right heq]) rfl rfl

end ArrayInvertedLists

namespace MergedBinaryIVF

variable {ivf other : MergedBinaryIVF} {addId : Idx} {order : List ℕ}

theorem checkCompatibleForMerge_ne_ok (ivf : MergedBinaryIVF) (other : Option MergedBinaryIVF)
    (r : MergedBinaryIVF) : ivf.checkCompatibleForMerge other ≠ .ok r := by
  intro h
  cases other with
  | none =>
      rw [checkCompatibleForMerge] at h
      cases h
  | some other =>
      rw [checkCompatibleForMerge] at h
      simp only [Fault.bind_eq_ok, Fault.throwIfNotMsg_eq_ok, decide_eq_true_iff] at h
      obtain ⟨-, -, -, -, -, -, -, -, -, htypeid, -⟩ := h
      -- an object is not a pointer
      cases htypeid

theorem Compatible.mergeFrom_eq (h : Compatible ivf other) (addId : Idx) (order : List ℕ) :
    ivf.mergeFrom (some other) addId order = .error (.exception
      "Error: '!(typeid(*this) == typeid(other))' failed: can only merge indexes of the same type") := by
  have hmaps : (ivf.noDirectMap && other.noDirectMap) = true := by
    rw [noDirectMap, noDirectMap, decide_eq_true h.noMap, decide_eq_true h.other_noMap]
    rfl
  rw [mergeFrom, checkCompatibleForMerge, decide_eq_true h.d_eq, decide_eq_true h.nlist_eq,
    decide_eq_true h.codeSize_eq, hmaps]
  rfl

/-- No merge moves anything. -/
theorem not_moved_mergeFrom (ivf other : MergedBinaryIVF) (addId : Idx) (order : List ℕ) :
    ¬ ∃ ivf' other', ivf.mergeFrom (some other) addId order = .ok (ivf', other') ∧
      Moved ivf other addId ivf' other' := by
  rintro ⟨ivf', other', hmerge, -⟩
  rw [mergeFrom, Fault.bind_eq_ok] at hmerge
  obtain ⟨r, hcheck, -⟩ := hmerge
  exact ivf.checkCompatibleForMerge_ne_ok (some other) r hcheck

/-- An empty index with one list. -/
def emptyIVF : MergedBinaryIVF where
  kind := binaryIVF
  d := 8
  nlist := 1
  codeSize := 1
  ntotal := 0
  directMap := .new
  invlists := .empty 1 1

/-- Two empty indexes are compatible, and their merge throws. -/
theorem not_moved_emptyIVF : Compatible emptyIVF emptyIVF ∧
    ¬ ∃ ivf' other', emptyIVF.mergeFrom (some emptyIVF) 0 [0] = .ok (ivf', other') ∧
      Moved emptyIVF emptyIVF 0 ivf' other' := by
  refine ⟨⟨rfl, rfl, rfl, rfl, rfl, rfl⟩, ?_⟩
  rintro ⟨ivf', other', hmerge, -⟩
  have hthrows : emptyIVF.mergeFrom (some emptyIVF) 0 [0] = .error (.exception
      "Error: '!(typeid(*this) == typeid(other))' failed: can only merge indexes of the same type") := rfl
  rw [hthrows] at hmerge
  cases hmerge

end MergedBinaryIVF

end FaissNavix
