import Mathlib.Algebra.Order.BigOperators.Group.Finset

/-!
# Inverted lists

An inverted file keeps, for each list number, the ids and the codes of the entries of that list.
`InvertedLists` is what any implementation shows to its readers, and `ArrayInvertedLists` is the
implementation in memory.
-/

namespace FaissNavix

/-- `idx_t` -/
abbrev Idx := Int64

/-- One entry of a list: the id and the bytes of the code beside it. -/
structure Entry where
  id : Idx
  code : List UInt8
deriving DecidableEq, Repr

/-- Why a call on inverted lists does not return. -/
inductive Fault where
  /-- An exception, with its message. -/
  | exception (msg : String)
  /-- A failed `assert`, with its expression. -/
  | assertion (expr : String)
  /-- An integer is divided by zero. -/
  | divisionByZero
  /-- The offset of a list that has no extent in the file is used. -/
  | invalidOffset
  /-- A null pointer is read through. -/
  | nullPointer
deriving DecidableEq, Repr

namespace Fault

/-- `FAISS_THROW_IF_NOT` -/
def throwIfNot (x : Bool) (expr : String) : Except Fault Unit :=
  if x then .ok () else .error (.exception ("Error: '" ++ expr ++ "' failed"))

/-- `FAISS_THROW_IF_NOT_MSG` -/
def throwIfNotMsg (x : Bool) (expr msg : String) : Except Fault Unit :=
  if x then .ok () else .error (.exception ("Error: '!(" ++ expr ++ ")' failed: " ++ msg))

/-- `assert` -/
def assert (x : Bool) (expr : String) : Except Fault Unit :=
  if x then .ok () else .error (.assertion expr)

theorem bind_eq_ok {ε β γ : Type} {x : Except ε β} {f : β → Except ε γ} {c : γ} :
    x >>= f = .ok c ↔ ∃ b, x = .ok b ∧ f b = .ok c := by
  cases x with
  | error e =>
      constructor
      · rintro ⟨⟩
      · rintro ⟨b, ⟨⟩, -⟩
  | ok b =>
      constructor
      · exact fun h ↦ ⟨b, rfl, h⟩
      · rintro ⟨b', ⟨⟩, hf⟩
        exact hf

@[simp] theorem throwIfNot_true (expr : String) : throwIfNot true expr = .ok () := rfl

@[simp] theorem throwIfNotMsg_true (expr msg : String) : throwIfNotMsg true expr msg = .ok () :=
  rfl

@[simp] theorem assert_true (expr : String) : assert true expr = .ok () := rfl

theorem throwIfNot_eq_ok {x : Bool} {expr : String} {u : Unit} :
    throwIfNot x expr = .ok u ↔ x = true := by
  cases x with
  | false => exact ⟨(nomatch ·), (nomatch ·)⟩
  | true => exact ⟨fun _ ↦ rfl, fun _ ↦ rfl⟩

theorem throwIfNotMsg_eq_ok {x : Bool} {expr msg : String} {u : Unit} :
    throwIfNotMsg x expr msg = .ok u ↔ x = true := by
  cases x with
  | false => exact ⟨(nomatch ·), (nomatch ·)⟩
  | true => exact ⟨fun _ ↦ rfl, fun _ ↦ rfl⟩

end Fault

/-! ## What a reader sees -/

/-- Inverted lists as they are read: `list j` has the entries that `get_ids(j)` and `get_codes(j)`
point to.  A code has `code_size` bytes, and a `size_t` can count the entries. -/
structure InvertedLists where
  nlist : ℕ
  codeSize : ℕ
  list : ℕ → List Entry
  code_length : ∀ j, ∀ e ∈ list j, e.code.length = codeSize
  total_lt : ∑ j ∈ Finset.range nlist, (list j).length < 2 ^ 64

namespace InvertedLists

variable (il : InvertedLists)

/-- `list_size` -/
def listSize (j : ℕ) : ℕ :=
  (il.list j).length

/-- The number of entries of the first `m` lists. -/
def sizeBefore (m : ℕ) : ℕ :=
  ∑ j ∈ Finset.range m, il.listSize j

/-- `compute_ntotal` -/
def computeNtotal : ℕ :=
  il.sizeBefore il.nlist

/-- `get_single_id` and `get_single_code` -/
def getSingle (j i : ℕ) : Except Fault Entry :=
  match (il.list j)[i]? with
  | some e => .ok e
  | none => .error (.assertion "offset < list_size(list_no)")

theorem sizeBefore_succ (m : ℕ) : il.sizeBefore (m + 1) = il.sizeBefore m + il.listSize m :=
  Finset.sum_range_succ _ _

theorem computeNtotal_lt : il.computeNtotal < 2 ^ 64 :=
  il.total_lt

theorem sizeBefore_le {m : ℕ} (h : m ≤ il.nlist) : il.sizeBefore m ≤ il.computeNtotal :=
  Finset.sum_le_sum_of_subset (Finset.range_subset_range.2 h)

theorem listSize_le {j : ℕ} (h : j < il.nlist) : il.listSize j ≤ il.computeNtotal := by
  have := il.sizeBefore_le h
  rw [sizeBefore_succ] at this
  omega

end InvertedLists

/-! ## Lists in memory -/

/-- `ArrayInvertedLists`, with the ids and the codes of a list side by side. -/
structure ArrayInvertedLists where
  nlist : ℕ
  codeSize : ℕ
  lists : ℕ → List Entry

namespace ArrayInvertedLists

/-- The constructor. -/
def empty (nlist codeSize : ℕ) : ArrayInvertedLists where
  nlist := nlist
  codeSize := codeSize
  lists := fun _ ↦ []

variable (a : ArrayInvertedLists)

/-- The entries of list `j` are replaced. -/
def setList (j : ℕ) (es : List Entry) : ArrayInvertedLists :=
  { a with lists := Function.update a.lists j es }

/-- `list_size` -/
def listSize (j : ℕ) : ℕ :=
  (a.lists j).length

/-- `add_entries`: the entries, and the offset at which they are put. -/
def addEntries (j : ℕ) (es : List Entry) : ArrayInvertedLists × ℕ :=
  if es.length = 0 then (a, 0) else (a.setList j (a.lists j ++ es), a.listSize j)

/-- `add_entry` -/
def addEntry (j : ℕ) (e : Entry) : ArrayInvertedLists :=
  (a.addEntries j [e]).1

/-- What `resize` puts where an entry was not written. -/
def blank (codeSize : ℕ) : Entry :=
  ⟨0, List.replicate codeSize 0⟩

/-- `resize` -/
def resize (j newSize : ℕ) : ArrayInvertedLists :=
  a.setList j ((a.lists j).take newSize ++
    List.replicate (newSize - a.listSize j) (blank a.codeSize))

/-- `update_entries` -/
def updateEntries (j offset : ℕ) (es : List Entry) : Except Fault ArrayInvertedLists := do
  Fault.assert (es.length + offset ≤ a.listSize j) "n_entry + offset <= ids[list_no].size()"
  return a.setList j ((a.lists j).take offset ++ es ++ (a.lists j).drop (offset + es.length))

variable (j : ℕ) (es : List Entry)

@[simp] theorem setList_lists (i : ℕ) :
    (a.setList j es).lists i = if i = j then es else a.lists i :=
  Function.update_apply _ _ _ _

@[simp] theorem setList_nlist : (a.setList j es).nlist = a.nlist := rfl

@[simp] theorem setList_codeSize :
    (a.setList j es).codeSize = a.codeSize := rfl

@[simp] theorem setList_setList (es' : List Entry) :
    (a.setList j es).setList j es' = a.setList j es' := by
  rw [setList, setList, setList, Function.update_idem]

@[simp] theorem setList_self : a.setList j (a.lists j) = a := by
  rw [setList, Function.update_eq_self]

theorem addEntries_fst :
    (a.addEntries j es).1 = a.setList j (a.lists j ++ es) := by
  rw [addEntries]
  split
  · next h =>
      rw [List.eq_nil_of_length_eq_zero h, List.append_nil, setList_self]
  · rfl

theorem addEntry_eq (e : Entry) : a.addEntry j e = a.setList j (a.lists j ++ [e]) :=
  a.addEntries_fst j [e]

end ArrayInvertedLists

end FaissNavix

/-!
# A list and an offset in one number

`lo_build`, `lo_listno` and `lo_offset` of `faiss/invlists/DirectMap.h`: the list number in the
upper 32 bits of a word and the offset in the lower ones.
-/

namespace FaissNavix

/-- `lo_build` -/
def loBuild (listId offset : UInt64) : UInt64 :=
  listId <<< 32 ||| offset

/-- `lo_listno` -/
def loListno (lo : UInt64) : UInt64 :=
  lo >>> 32

/-- `lo_offset` -/
def loOffset (lo : UInt64) : UInt64 :=
  lo &&& 0xffffffff

/-- `lo_build` of an `idx_t` and a `size_t`, kept as an `idx_t`. -/
def loOf (listNo : ℤ) (offset : ℕ) : Idx :=
  (loBuild (.ofInt listNo) (.ofNat offset)).toInt64

section Lemmas

variable {l l' o o' : ℕ}

theorem toNat_loBuild (hl : l < 2 ^ 32) (ho : o < 2 ^ 32) :
    (loBuild (.ofNat l) (.ofNat o)).toNat = 2 ^ 32 * l + o := by
  have hl' : (UInt64.ofNat l).toNat = l := Nat.mod_eq_of_lt (b := 2 ^ 64) (by omega)
  have ho' : (UInt64.ofNat o).toNat = o := Nat.mod_eq_of_lt (b := 2 ^ 64) (by omega)
  rw [loBuild, UInt64.toNat_or, UInt64.toNat_shiftLeft, hl', ho']
  change l <<< 32 % 2 ^ 64 ||| o = _
  rw [Nat.mod_eq_of_lt (by rw [Nat.shiftLeft_eq]; omega), Nat.shiftLeft_eq, Nat.mul_comm l,
    Nat.two_pow_add_eq_or_of_lt ho]

theorem loOf_toUInt64 (hl : l < 2 ^ 64) (o : ℕ) :
    (loOf l o).toUInt64 = loBuild (.ofNat l) (.ofNat o) := by
  have hof : UInt64.ofInt l = UInt64.ofNat l := by
    rw [UInt64.ofInt, Int.emod_eq_of_lt (by omega) (by omega), Int.toNat_natCast]
  exact congrArg (loBuild · _) hof

theorem toNat_loOf (hl : l < 2 ^ 32) (ho : o < 2 ^ 32) :
    (loOf l o).toUInt64.toNat = 2 ^ 32 * l + o := by
  rw [loOf_toUInt64 (by omega), toNat_loBuild hl ho]

theorem loListno_loOf (hl : l < 2 ^ 32) (ho : o < 2 ^ 32) :
    (loListno (loOf l o).toUInt64).toNat = l := by
  rw [loListno, UInt64.toNat_shiftRight, toNat_loOf hl ho]
  change (2 ^ 32 * l + o) >>> 32 = l
  rw [Nat.shiftRight_eq_div_pow]
  omega

theorem loOffset_loOf (hl : l < 2 ^ 32) (ho : o < 2 ^ 32) :
    (loOffset (loOf l o).toUInt64).toNat = o := by
  rw [loOffset, UInt64.toNat_and, toNat_loOf hl ho]
  change (2 ^ 32 * l + o) &&& (2 ^ 32 - 1) = o
  rw [Nat.and_two_pow_sub_one_eq_mod]
  omega

theorem toInt_loOf (hl : l < 2 ^ 31) (ho : o < 2 ^ 32) : (loOf l o).toInt = 2 ^ 32 * l + o := by
  have hn := toNat_loOf (l := l) (o := o) (by omega) ho
  rw [← Int64.toInt_toBitVec, BitVec.toInt_eq_toNat_of_lt, Int64.toNat_toBitVec, hn]
  · norm_cast
  · rw [Int64.toNat_toBitVec, hn]
    omega

theorem loOf_nonneg (hl : l < 2 ^ 31) (ho : o < 2 ^ 32) : 0 ≤ (loOf l o).toInt := by
  rw [toInt_loOf hl ho]
  omega

theorem loOf_inj (hl : l < 2 ^ 32) (ho : o < 2 ^ 32) (hl' : l' < 2 ^ 32) (ho' : o' < 2 ^ 32)
    (h : loOf l o = loOf l' o') : l = l' ∧ o = o' := by
  constructor
  · rw [← loListno_loOf hl ho, h, loListno_loOf hl' ho']
  · rw [← loOffset_loOf hl ho, h, loOffset_loOf hl' ho']

end Lemmas

end FaissNavix
