import FaissNavix.Invlists.InvertedLists
import FaissNavix.Lib.Blocks
import FaissNavix.Lib.Region
import Mathlib.Data.List.ModifyLast

/-!
# Inverted lists in a file

`OnDiskInvertedLists` keeps all lists in one memory-mapped file.  A list has an extent of the file,
with room for the codes of `capacity` entries and then for their ids.  The rest of the file is a
list of free slots, in the order of their offsets.  The file is read as memory with a cell for each
byte, and `totsize` says how far it goes.
-/

namespace FaissNavix

/-- `OnDiskOneList`, where no offset stands for `INVALID_OFFSET`. -/
structure OnDiskOneList where
  size : ℕ
  capacity : ℕ
  offset : Option ℕ
deriving DecidableEq, Repr

/-- `OnDiskInvertedLists::Slot` -/
abbrev Slot := Lib.Block

/-- `OnDiskInvertedLists` -/
structure OnDiskInvertedLists where
  nlist : ℕ
  codeSize : ℕ
  lists : ℕ → OnDiskOneList
  slots : List Slot
  totsize : ℕ
  ptr : ℕ → UInt8
  readOnly : Bool

/-- `sizeof(idx_t)` -/
def sizeofIdx : ℕ :=
  8

def idBytes (id : Idx) : List UInt8 :=
  Lib.toBytes sizeofIdx id.toUInt64.toNat

def idOfBytes (bs : List UInt8) : Idx :=
  (UInt64.ofNat (Lib.ofBytes bs)).toInt64

@[simp] theorem length_idBytes (id : Idx) : (idBytes id).length = sizeofIdx :=
  Lib.length_toBytes _ _

@[simp] theorem idOfBytes_idBytes (id : Idx) : idOfBytes (idBytes id) = id := by
  have hmod : id.toUInt64.toNat % 256 ^ sizeofIdx = id.toUInt64.toNat :=
    Nat.mod_eq_of_lt id.toUInt64.toNat_lt
  rw [idOfBytes, idBytes, Lib.ofBytes_toBytes, hmod, UInt64.ofNat_toNat, Int64.toInt64_toUInt64]

/-- The loop `while (x < target) x *= 2`, for at most `fuel` turns. -/
def doubleTo (target : ℕ) : ℕ → ℕ → ℕ
  | 0, x => x
  | fuel + 1, x => if x < target then doubleTo target fuel (x * 2) else x

theorem le_doubleTo {target fuel x : ℕ} (h : target ≤ x * 2 ^ fuel) :
    target ≤ doubleTo target fuel x := by
  induction fuel generalizing x with
  | zero => simpa [doubleTo] using h
  | succ fuel ih =>
      rw [doubleTo]
      split
      · refine ih ?_
        rwa [Nat.mul_assoc, ← Nat.pow_succ']
      · next hge => exact Nat.le_of_not_lt hge

theorem le_doubleTo_self {target x : ℕ} (hx : 0 < x) : target ≤ doubleTo target target x :=
  le_doubleTo (Nat.lt_two_pow_self.le.trans (Nat.le_mul_of_pos_left _ hx))

namespace OnDiskInvertedLists

/-- The constructor. -/
def empty (nlist codeSize : ℕ) : OnDiskInvertedLists where
  nlist := nlist
  codeSize := codeSize
  lists _ := ⟨0, 0, none⟩
  slots := []
  totsize := 0
  ptr _ := 0
  readOnly := false

variable (s : OnDiskInvertedLists)

/-- `list_size` -/
def listSize (j : ℕ) : ℕ :=
  (s.lists j).size

/-- The number of bytes of an extent with room for `capacity` entries. -/
def extentSize (capacity : ℕ) : ℕ :=
  capacity * (sizeofIdx + s.codeSize)

/-- `get_ids` relative to the start of the extent. -/
def idsOffset (capacity : ℕ) : ℕ :=
  s.codeSize * capacity

/-- Entry `i` of list `j`, by `get_ids` and `get_codes`. -/
def entry (j i : ℕ) : Entry :=
  let o := (s.lists j).offset.getD 0
  { id := idOfBytes (Lib.record s.ptr (o + s.idsOffset (s.lists j).capacity) sizeofIdx i)
    code := Lib.record s.ptr o s.codeSize i }

/-- The entries of list `j`. -/
def entries (j : ℕ) : List Entry :=
  (List.range (s.listSize j)).map (s.entry j)

/-- List `j` is replaced. -/
def setList (j : ℕ) (l : OnDiskOneList) : OnDiskInvertedLists :=
  { s with lists := Function.update s.lists j l }

def setPtr (ptr : ℕ → UInt8) : OnDiskInvertedLists :=
  { s with ptr := ptr }

/-! ## Slots -/

/-- The last lines of `free_slot`: the slot is put between `before` and `after`, as a part of the
neighbours that it touches. -/
def putSlot (before : List Slot) (offset capacity : ℕ) (after : List Slot) : List Slot :=
  let endPrev := before.getLast?.map Lib.Block.stop
  let beginNext := after.head?.map Lib.Block.offset
  if endPrev = some offset then
    if beginNext = some (offset + capacity) then
      before.modifyLast
          (fun p ↦ ⟨p.offset, p.capacity + (capacity + (after.headD ⟨0, 0⟩).capacity)⟩) ++
        after.tail
    else before.modifyLast (fun p ↦ ⟨p.offset, p.capacity + capacity⟩) ++ after
  else
    if beginNext = some (offset + capacity) then
      before ++ after.modifyHead fun n ↦ ⟨n.offset - capacity, n.capacity + capacity⟩
    else before ++ ⟨offset, capacity⟩ :: after

/-- `free_slot`, on the free slots.  The sentinel `inf` of the source stands for a neighbour that
is not there. -/
def freeSlot (slots : List Slot) (offset : Option ℕ) (capacity : ℕ) :
    Except Fault (List Slot) :=
  if capacity = 0 then .ok slots
  else match offset with
  | none => .error .invalidOffset
  | some offset => do
      let before := slots.takeWhile fun t ↦ t.offset ≤ offset
      let after := slots.dropWhile fun t ↦ t.offset ≤ offset
      Fault.assert (before.getLast?.all fun p ↦ p.stop ≤ offset)
        "end_prev == inf || offset >= end_prev"
      Fault.assert (after.head?.all fun n ↦ offset + capacity ≤ n.offset)
        "offset + capacity <= begin_next"
      return putSlot before offset capacity after

/-- `update_totsize`: the file grows, and its new bytes are free. -/
def updateTotsize (newSize : ℕ) : Except Fault OnDiskInvertedLists :=
  if s.totsize < newSize then
    .ok { s with slots := Lib.extend s.slots s.totsize newSize, totsize := newSize }
  else .error (.assertion "!\"not implemented\"")

/-- The size of the file that has room for `capacity` bytes more. -/
def grownSize (capacity : ℕ) : ℕ :=
  doubleTo (s.totsize + capacity) (s.totsize + capacity)
    (if s.totsize = 0 then 32 else s.totsize * 2)

/-- `allocate_slot`: the slot, and its offset. -/
def allocateSlot (capacity : ℕ) : Except Fault (OnDiskInvertedLists × ℕ) :=
  match Lib.firstFit capacity s.slots with
  | some (o, slots) => .ok ({ s with slots := slots }, o)
  | none => do
      let s ← s.updateTotsize (s.grownSize capacity)
      match Lib.firstFit capacity s.slots with
      | some (o, slots) => .ok ({ s with slots := slots }, o)
      | none => .error (.assertion "it != slots.end()")

/-! ## Lists -/

/-- `update_entries` -/
def updateEntries (j offset : ℕ) (es : List Entry) : Except Fault OnDiskInvertedLists := do
  Fault.throwIfNot (!s.readOnly) "!read_only"
  if es.length = 0 then return s
  Fault.assert (es.length + offset ≤ s.listSize j) "n_entry + offset <= l.size"
  match (s.lists j).offset with
  | none => .error .invalidOffset
  | some o =>
      let ids := o + s.idsOffset (s.lists j).capacity
      let ptr := Lib.write s.ptr (ids + sizeofIdx * offset) (es.map fun e ↦ idBytes e.id).flatten
      let ptr := Lib.write ptr (o + s.codeSize * offset) (es.map Entry.code).flatten
      return s.setPtr ptr

section
variable (j : ℕ) (l : OnDiskOneList) (newSize : ℕ)

/-- The part of `resize_locked` that copies `n` entries of the list `l` to its new place. -/
def copyEntries (newL : OnDiskOneList) (n : ℕ) : Except Fault OnDiskInvertedLists :=
  if l.offset ≠ newL.offset ∧ 0 < n then
    match l.offset, newL.offset with
    | some o, some o' =>
        let ptr := Lib.write s.ptr o' (Lib.read s.ptr o (s.codeSize * n))
        let ptr := Lib.write ptr (o' + s.idsOffset newL.capacity)
          (Lib.read ptr (o + s.idsOffset l.capacity) (sizeofIdx * n))
        .ok (s.setPtr ptr)
    | _, _ => .error .invalidOffset
  else .ok s

/-- The part of `resize_locked` that finds a place for `newSize` entries. -/
def newList : Except Fault (OnDiskInvertedLists × OnDiskOneList) :=
  if newSize = 0 then .ok (s, ⟨0, 0, none⟩)
  else do
    let capacity := doubleTo newSize newSize 1
    let (s, o) ← s.allocateSlot (s.extentSize capacity)
    return (s, ⟨newSize, capacity, some o⟩)

/-- The new size is good for the capacity, and the list keeps its extent. -/
def Stays : Prop :=
  newSize ≤ l.capacity ∧ l.capacity / 2 < newSize

instance (l : OnDiskOneList) (newSize : ℕ) : Decidable (Stays l newSize) :=
  inferInstanceAs (Decidable (_ ∧ _))

/-- `resize_locked` -/
def resizeLocked : Except Fault OnDiskInvertedLists :=
  let l := s.lists j
  if Stays l newSize then .ok (s.setList j { l with size := newSize })
  else do
    let slots ← freeSlot s.slots l.offset l.capacity
    let (s, newL) ← { s with slots := slots }.newList newSize
    let s ← s.copyEntries l newL (min newSize l.size)
    return s.setList j newL

/-- `resize` -/
def resize : Except Fault OnDiskInvertedLists := do
  Fault.throwIfNot (!s.readOnly) "!read_only"
  s.resizeLocked j newSize

/-- `add_entries`: the lists, and the offset at which the entries are put. -/
def addEntries (es : List Entry) : Except Fault (OnDiskInvertedLists × ℕ) := do
  Fault.throwIfNot (!s.readOnly) "!read_only"
  let o := s.listSize j
  let s ← s.resizeLocked j (es.length + o)
  let s ← s.updateEntries j o es
  return (s, o)

/-! ## Fields after a change -/

@[simp] theorem setList_codeSize :
    (s.setList j l).codeSize = s.codeSize := rfl

@[simp] theorem setList_ptr : (s.setList j l).ptr = s.ptr := rfl

@[simp] theorem setList_lists_self : (s.setList j l).lists j = l :=
  Function.update_self _ _ _

end

theorem setList_lists_of_ne {i j : ℕ} (h : i ≠ j) (l : OnDiskOneList) :
    (s.setList j l).lists i = s.lists i :=
  Function.update_of_ne h _ _

end OnDiskInvertedLists

end FaissNavix

/-!
# Entries in an extent

The entries of a list are two runs of records in its extent, the codes and then the ids.  What is
read of an entry depends on the bytes of the extent only, and entries that are written are read
back, whatever is in the rest of the extent.
-/

namespace FaissNavix

/-- Entry `i` of the extent at `o` with room for `capacity` entries. -/
def extentEntry (codeSize : ℕ) (m : ℕ → UInt8) (o capacity i : ℕ) : Entry where
  id := idOfBytes (Lib.record m (o + codeSize * capacity) sizeofIdx i)
  code := Lib.record m o codeSize i

/-- The entries `es` are put into the extent, from position `k` on. -/
def writeEntries (codeSize : ℕ) (m : ℕ → UInt8) (o capacity k : ℕ) (es : List Entry) :
    ℕ → UInt8 :=
  Lib.write
    (Lib.write m (o + codeSize * capacity + sizeofIdx * k) (es.map fun e ↦ idBytes e.id).flatten)
    (o + codeSize * k) (es.map Entry.code).flatten

variable {codeSize o capacity : ℕ} {m m' : ℕ → UInt8}

theorem extent_eq (codeSize capacity : ℕ) :
    capacity * (sizeofIdx + codeSize) = codeSize * capacity + sizeofIdx * capacity := by
  rw [Nat.mul_add, Nat.add_comm, Nat.mul_comm capacity codeSize, Nat.mul_comm capacity sizeofIdx]

theorem extentEntry_congr {i : ℕ} (hi : i < capacity)
    (h : ∀ a, o ≤ a → a < o + capacity * (sizeofIdx + codeSize) → m a = m' a) :
    extentEntry codeSize m o capacity i = extentEntry codeSize m' o capacity i := by
  rw [extent_eq] at h
  have hend := Lib.record_end_le (o := o) (w := codeSize) hi
  have hend' := Lib.record_end_le (o := o + codeSize * capacity) (w := sizeofIdx) hi
  have hid : Lib.record m (o + codeSize * capacity) sizeofIdx i =
      Lib.record m' (o + codeSize * capacity) sizeofIdx i := by
    refine Lib.record_congr fun a ha ha' ↦ h a ?_ ?_
    · exact (Nat.le_add_right _ _).trans ((Nat.le_add_right _ _).trans ha)
    · rw [Nat.mul_succ] at ha'
      omega
  have hcode : Lib.record m o codeSize i = Lib.record m' o codeSize i := by
    refine Lib.record_congr fun a ha ha' ↦ h a ((Nat.le_add_right _ _).trans ha) ?_
    rw [Nat.mul_succ] at ha'
    omega
  rw [extentEntry, hid, hcode, extentEntry]

section Write

@[simp] theorem writeEntries_nil (codeSize : ℕ) (m : ℕ → UInt8) (o capacity k : ℕ) :
    writeEntries codeSize m o capacity k [] = m := by
  funext a
  rw [writeEntries, Lib.write_of_outside (Nat.lt_or_ge a _), Lib.write_of_outside (Nat.lt_or_ge a _)]

variable {k : ℕ} {es : List Entry}

theorem length_of_mem_ids (es : List Entry) :
    ∀ x ∈ es.map fun e ↦ idBytes e.id, x.length = sizeofIdx := by
  intro x hx
  obtain ⟨e, -, rfl⟩ := List.mem_map.1 hx
  exact length_idBytes e.id

theorem length_of_mem_codes (hcodes : ∀ e ∈ es, e.code.length = codeSize) :
    ∀ x ∈ es.map Entry.code, x.length = codeSize := by
  intro x hx
  obtain ⟨e, he, rfl⟩ := List.mem_map.1 hx
  exact hcodes e he

theorem mul_add_length_le {w : ℕ} (hk : k + es.length ≤ capacity) :
    w * k + w * es.length ≤ w * capacity := by
  rw [← Nat.mul_add]
  exact Nat.mul_le_mul_left w hk

variable (hcodes : ∀ e ∈ es, e.code.length = codeSize) (hk : k + es.length ≤ capacity) {i : ℕ}
include hcodes hk

theorem writeEntries_of_outside {a : ℕ}
    (ha : a < o ∨ o + capacity * (sizeofIdx + codeSize) ≤ a) :
    writeEntries codeSize m o capacity k es a = m a := by
  have hlc := Lib.length_flatten_records (length_of_mem_codes hcodes)
  have hli := Lib.length_flatten_records (length_of_mem_ids es)
  have hc := mul_add_length_le (w := codeSize) hk
  have hi := mul_add_length_le (w := sizeofIdx) hk
  rw [List.length_map] at hlc hli
  rw [extent_eq] at ha
  rw [writeEntries, Lib.write_of_outside (by omega), Lib.write_of_outside (by omega)]

theorem extentEntry_writeEntries (hi : i < es.length) :
    extentEntry codeSize (writeEntries codeSize m o capacity k es) o capacity (k + i) =
      es.get ⟨i, hi⟩ := by
  have hlc := Lib.length_flatten_records (length_of_mem_codes hcodes)
  have hc := mul_add_length_le (w := codeSize) hk
  rw [List.length_map] at hlc
  -- the ids come after all codes
  have hids : Lib.record (writeEntries codeSize m o capacity k es) (o + codeSize * capacity)
      sizeofIdx (k + i) = idBytes (es.get ⟨i, hi⟩).id := by
    rw [writeEntries, Lib.record_write_of_disjoint (Nat.lt_succ_self (k + i)) (.inr (by omega)),
      Lib.record_write_of_mem (length_of_mem_ids es) (by rwa [List.length_map]), List.get_eq_getElem,
      List.getElem_map]
    rfl
  have hcode : Lib.record (writeEntries codeSize m o capacity k es) o codeSize (k + i) =
      (es.get ⟨i, hi⟩).code := by
    rw [writeEntries, Lib.record_write_of_mem (length_of_mem_codes hcodes)
      (by rwa [List.length_map]), List.get_eq_getElem, List.getElem_map]
    rfl
  rw [extentEntry, hids, idOfBytes_idBytes, hcode]

theorem extentEntry_writeEntries_of_not (hi : i < capacity)
    (hne : i < k ∨ k + es.length ≤ i) :
    extentEntry codeSize (writeEntries codeSize m o capacity k es) o capacity i =
      extentEntry codeSize m o capacity i := by
  have hlc := Lib.length_flatten_records (length_of_mem_codes hcodes)
  have hc := mul_add_length_le (w := codeSize) hk
  rw [List.length_map] at hlc
  have hid : Lib.record (writeEntries codeSize m o capacity k es) (o + codeSize * capacity)
      sizeofIdx i = Lib.record m (o + codeSize * capacity) sizeofIdx i := by
    rw [writeEntries, Lib.record_write_of_disjoint hi (.inr (by omega)),
      Lib.record_write_of_not_mem (length_of_mem_ids es) (by rwa [List.length_map])]
  have hcode : Lib.record (writeEntries codeSize m o capacity k es) o codeSize i =
      Lib.record m o codeSize i := by
    rw [writeEntries, Lib.record_write_of_not_mem (length_of_mem_codes hcodes)
      (by rwa [List.length_map]), Lib.record_write_of_disjoint hi (.inl (by omega))]
  rw [extentEntry, hid, hcode, extentEntry]

end Write

namespace OnDiskInvertedLists

variable {s : OnDiskInvertedLists}

theorem entry_eq {j : ℕ} {l : OnDiskOneList} {o : ℕ} (hl : s.lists j = l) (ho : l.offset = some o)
    (i : ℕ) : s.entry j i = extentEntry s.codeSize s.ptr o l.capacity i := by
  rw [entry, hl, ho]
  rfl

theorem entries_congr {s' : OnDiskInvertedLists} {j o : ℕ} {l : OnDiskOneList}
    (hcs : s'.codeSize = s.codeSize) (hl : s.lists j = l) (hl' : s'.lists j = l)
    (ho : l.offset = some o) (hsize : l.size ≤ l.capacity)
    (hptr : ∀ a, o ≤ a → a < o + s.extentSize l.capacity → s'.ptr a = s.ptr a) :
    s'.entries j = s.entries j := by
  rw [entries, entries, listSize, listSize, hl, hl']
  refine List.map_congr_left fun i hi ↦ ?_
  have hi' : i < l.size := List.mem_range.1 hi
  rw [entry_eq hl' ho, entry_eq hl ho, hcs]
  exact extentEntry_congr (hi'.trans_le hsize) hptr

theorem updateEntries_eq {j offset o : ℕ} {es : List Entry} (hro : s.readOnly = false)
    (ho : (s.lists j).offset = some o) (hle : es.length + offset ≤ s.listSize j)
    (hne : es ≠ []) :
    s.updateEntries j offset es =
      .ok (s.setPtr (writeEntries s.codeSize s.ptr o (s.lists j).capacity offset es)) := by
  have hlen : es.length ≠ 0 := fun h ↦ hne (List.eq_nil_of_length_eq_zero h)
  rw [updateEntries, hro]
  simp only [Bool.not_false, Fault.throwIfNot_true, if_neg hlen, hle, decide_true,
    Fault.assert_true, ho]
  rfl

theorem updateEntries_nil (hro : s.readOnly = false) (j offset : ℕ) :
    s.updateEntries j offset [] = .ok s := by
  rw [updateEntries, hro]
  rfl

end OnDiskInvertedLists

end FaissNavix

/-!
# Free slots

What the three functions on the free slots do, as long as the slots are in order with a gap between
any two and a slot that is freed is not free yet: the bytes that are free become more or fewer by
exactly the bytes of the call, and the slots stay in order.
-/

namespace FaissNavix

open Lib (Holds Separated total)

namespace OnDiskInvertedLists

/-! ## Freeing -/

theorem consJoin_of_head_ne {offset capacity : ℕ} {after : List Slot}
    (hn : after.head?.map Lib.Block.offset ≠ some (offset + capacity)) :
    Lib.consJoin ⟨offset, capacity⟩ after = ⟨offset, capacity⟩ :: after := by
  cases after with
  | nil => rfl
  | cons n after =>
      have hne : Lib.Block.stop ⟨offset, capacity⟩ ≠ n.offset := fun h ↦ hn (congrArg some h.symm)
      exact Lib.consJoin_of_not_touch hne after

theorem putSlot_nil (offset capacity : ℕ) (after : List Slot) :
    putSlot [] offset capacity after = Lib.consJoin ⟨offset, capacity⟩ after := by
  by_cases hn : after.head?.map Lib.Block.offset = some (offset + capacity)
  · cases after with
    | nil => cases hn
    | cons n after =>
        have htouch : Lib.Block.stop ⟨offset, capacity⟩ = n.offset := (Option.some.inj hn).symm
        have hoffset : n.offset = offset + capacity := Option.some.inj hn
        rw [putSlot, if_neg (by simp), if_pos hn, Lib.consJoin_of_touch htouch,
          List.modifyHead_cons, hoffset, Nat.add_sub_cancel, Nat.add_comm n.capacity]
        rfl
  · rw [putSlot, if_neg (by simp), if_neg hn, consJoin_of_head_ne hn]
    rfl

/-- A slot after `p` joins `p` and the first slot after it. -/
theorem putSlot_concat (before : List Slot) (p : Slot) (offset capacity : ℕ) (after : List Slot) :
    putSlot (before ++ [p]) offset capacity after =
      before ++ Lib.consJoin p (Lib.consJoin ⟨offset, capacity⟩ after) := by
  by_cases hp : p.stop = offset
  · by_cases hn : after.head?.map Lib.Block.offset = some (offset + capacity)
    · cases after with
      | nil => cases hn
      | cons n after =>
          have htouch : Lib.Block.stop ⟨offset, capacity⟩ = n.offset := (Option.some.inj hn).symm
          rw [putSlot, if_pos (by simp [hp]), if_pos hn, List.modifyLast_concat,
            Lib.consJoin_of_touch htouch, Lib.consJoin_of_touch hp, List.append_assoc]
          rfl
    · rw [putSlot, if_pos (by simp [hp]), if_neg hn, List.modifyLast_concat,
        consJoin_of_head_ne hn, Lib.consJoin_of_touch hp, List.append_assoc]
      rfl
  · by_cases hn : after.head?.map Lib.Block.offset = some (offset + capacity)
    · cases after with
      | nil => cases hn
      | cons n after =>
          have htouch : Lib.Block.stop ⟨offset, capacity⟩ = n.offset := (Option.some.inj hn).symm
          have hoffset : n.offset = offset + capacity := Option.some.inj hn
          rw [putSlot, if_neg (by simpa using hp), if_pos hn, List.modifyHead_cons,
            Lib.consJoin_of_touch htouch, Lib.consJoin_of_not_touch hp, List.append_assoc, hoffset,
            Nat.add_sub_cancel, Nat.add_comm n.capacity]
          rfl
    · rw [putSlot, if_neg (by simpa using hp), if_neg hn, consJoin_of_head_ne hn,
        Lib.consJoin_of_not_touch hp, List.append_assoc]
      rfl

/-- From `slots` to `slots'`, the bytes of a slot are freed. -/
structure Freed (slots slots' : List Slot) (offset capacity : ℕ) : Prop where
  separated : Separated slots'
  total_eq : total slots' = total slots + capacity
  holds_iff : ∀ a, Holds slots' a ↔ Holds slots a ∨ (offset ≤ a ∧ a < offset + capacity)

/-- The asserts of `free_slot` hold if the slot fits between the slots before and after it. -/
theorem freeSlot_eq {slots : List Slot} {offset capacity : ℕ} (hc : 0 < capacity)
    (hbefore : ∀ p ∈ slots.takeWhile fun t ↦ t.offset ≤ offset, p.stop ≤ offset)
    (hafter : ∀ n ∈ slots.dropWhile fun t ↦ t.offset ≤ offset, offset + capacity ≤ n.offset) :
    freeSlot slots (some offset) capacity =
      .ok (putSlot (slots.takeWhile fun t ↦ t.offset ≤ offset) offset capacity
        (slots.dropWhile fun t ↦ t.offset ≤ offset)) := by
  have hprev : ((slots.takeWhile fun t ↦ t.offset ≤ offset).getLast?.all
      fun p ↦ p.stop ≤ offset) = true := by
    rw [Option.all_eq_true]
    exact fun p hp ↦ decide_eq_true (hbefore p (List.mem_of_getLast? hp))
  have hnext : ((slots.dropWhile fun t ↦ t.offset ≤ offset).head?.all
      fun n ↦ offset + capacity ≤ n.offset) = true := by
    rw [Option.all_eq_true]
    exact fun n hn ↦ decide_eq_true (hafter n (List.mem_of_head? hn))
  rw [freeSlot, if_neg hc.ne']
  simp only [hprev, hnext, Fault.assert_true]
  rfl

theorem freeSlot_zero (slots : List Slot) (offset : Option ℕ) :
    freeSlot slots offset 0 = .ok slots :=
  if_pos rfl

theorem freed_putSlot {before after : List Slot} {offset capacity : ℕ}
    (hsep : Separated (before ++ after)) (hc : 0 < capacity)
    (hbefore : ∀ p ∈ before, p.stop ≤ offset) (hafter : ∀ n ∈ after, offset + capacity ≤ n.offset) :
    Freed (before ++ after) (putSlot before offset capacity after) offset capacity := by
  have hstop : ∀ n ∈ after, Lib.Block.stop ⟨offset, capacity⟩ ≤ n.offset := hafter
  obtain rfl | ⟨before, p, rfl⟩ := List.eq_nil_or_concat' before
  · rw [putSlot_nil, List.nil_append]
    refine ⟨Separated.consJoin hc hsep hstop, ?_, fun a ↦ ?_⟩
    · rw [Lib.total_consJoin, Nat.add_comm]
    · rw [Lib.holds_consJoin, or_comm]
      rfl
  · rw [putSlot_concat]
    have hp : p.stop ≤ offset := hbefore p (List.mem_append_right _ List.mem_cons_self)
    refine ⟨hsep.insert hc hp hstop, ?_, fun a ↦ ?_⟩
    · simp only [Lib.total_append, Lib.total_consJoin, Lib.total_cons, Lib.total_nil]
      omega
    · simp only [Lib.holds_append, Lib.holds_consJoin, Lib.holds_cons, Lib.not_holds_nil, or_false]
      rw [or_assoc, or_assoc, or_comm (a := offset ≤ a ∧ _)]
      rfl

/-- A slot that is not free is freed, and both asserts hold. -/
theorem freeSlot_spec {slots : List Slot} {offset capacity : ℕ} (hsep : Separated slots)
    (hc : 0 < capacity) (hnot : ∀ a, offset ≤ a → a < offset + capacity → ¬ Holds slots a) :
    ∃ slots', freeSlot slots (some offset) capacity = .ok slots' ∧
      Freed slots slots' offset capacity := by
  have hslots := List.takeWhile_append_dropWhile (p := fun t : Slot ↦ t.offset ≤ offset)
    (l := slots)
  have hmem : ∀ t, t ∈ slots.takeWhile (fun t ↦ t.offset ≤ offset) ++
      slots.dropWhile (fun t ↦ t.offset ≤ offset) → t ∈ slots := fun t ht ↦ hslots ▸ ht
  -- the slots before end where the freed one begins, or earlier, for they do not hold its first byte
  have hbefore : ∀ p ∈ slots.takeWhile fun t ↦ t.offset ≤ offset, p.stop ≤ offset := by
    intro p hp
    have hle : p.offset ≤ offset :=
      of_decide_eq_true (List.all_eq_true.1 List.all_takeWhile p hp)
    exact not_lt.1 fun hlt ↦ hnot offset le_rfl (Nat.lt_add_of_pos_right hc)
      ⟨p, hmem p (List.mem_append_left _ hp), hle, hlt⟩
  have hafter : ∀ n ∈ slots.dropWhile fun t ↦ t.offset ≤ offset, offset + capacity ≤ n.offset := by
    intro n hn
    have hlt := hsep.lt_offset_of_mem_dropWhile hn
    have hn' := hmem n (List.mem_append_right _ hn)
    exact not_lt.1 fun hlt' ↦ hnot n.offset hlt.le hlt'
      ⟨n, hn', le_rfl, Nat.lt_add_of_pos_right (hsep.pos n hn')⟩
  refine ⟨_, freeSlot_eq hc hbefore hafter, ?_⟩
  have hsep' : Separated (slots.takeWhile (fun t ↦ t.offset ≤ offset) ++
      slots.dropWhile (fun t ↦ t.offset ≤ offset)) := by rwa [hslots]
  have hput := freed_putSlot hsep' hc hbefore hafter
  rwa [hslots] at hput

/-! ## Allocating -/

/-- The slots are in order with gaps, and within the file. -/
structure SlotsOk (slots : List Slot) (totsize : ℕ) : Prop where
  separated : Separated slots
  inside : ∀ a, Holds slots a → a < totsize

theorem SlotsOk.stop_le {slots : List Slot} {totsize : ℕ} (h : SlotsOk slots totsize) {t : Slot}
    (ht : t ∈ slots) : t.stop ≤ totsize := by
  have hpos := h.separated.pos t ht
  have hstop : t.stop = t.offset + t.capacity := rfl
  have := h.inside (t.stop - 1) ⟨t, ht, by omega, by omega⟩
  omega

/-- A slot of `n` bytes at `o` is allocated: the file may grow, and the slot is the first that is
large enough. -/
structure Allocated (s s' : OnDiskInvertedLists) (o n : ℕ) : Prop where
  eq : s' = { s with slots := s'.slots, totsize := s'.totsize }
  ok : SlotsOk s'.slots s'.totsize
  totsize_le : s.totsize ≤ s'.totsize
  total_eq : total s.slots + (s'.totsize - s.totsize) = n + total s'.slots
  holds_iff : ∀ a, (Holds s.slots a ∨ (s.totsize ≤ a ∧ a < s'.totsize)) ↔
    (o ≤ a ∧ a < o + n) ∨ Holds s'.slots a
  not_holds : ∀ a, o ≤ a → a < o + n → ¬ Holds s'.slots a
  first : o < s.totsize → ∀ t ∈ s.slots, t.stop < o → t.capacity < n
  start : ∀ a, a + 1 = o → ¬ Holds s.slots a

variable {s : OnDiskInvertedLists}

theorem le_grownSize (n : ℕ) (hn : 0 < n) :
    s.totsize < s.grownSize n ∧ n ≤ s.grownSize n - s.totsize := by
  have hinit : 0 < if s.totsize = 0 then 32 else s.totsize * 2 := by
    split
    · decide
    · next h => omega
  have hle : s.totsize + n ≤ s.grownSize n := le_doubleTo_self hinit
  omega

/-- A first fit among slots that hold what the slots of `s` hold and the bytes up to `totsize`. -/
theorem allocated_of_firstFit {slots slots' : List Slot} {totsize o n : ℕ}
    (hok : SlotsOk s.slots s.totsize) (hle : s.totsize ≤ totsize) (hslots : Separated slots)
    (htotal : total slots = total s.slots + (totsize - s.totsize))
    (hholds : ∀ a, Holds slots a ↔ Holds s.slots a ∨ (s.totsize ≤ a ∧ a < totsize))
    (h : Lib.firstFit n slots = some (o, slots')) :
    Allocated s { s with slots := slots', totsize := totsize } o n where
  eq := rfl
  ok := by
    have htaken := hslots.firstFit h
    refine ⟨htaken.separated, fun a ha ↦ ?_⟩
    obtain h | h := (hholds a).1 ((htaken.holds_iff a).2 (.inr ha))
    · exact (hok.inside a h).trans_le hle
    · exact h.2
  totsize_le := hle
  total_eq := htotal.symm.trans (hslots.firstFit h).total_eq
  holds_iff a := (hholds a).symm.trans ((hslots.firstFit h).holds_iff a)
  not_holds := (hslots.firstFit h).not_holds
  first ho t ht hto := by
    have hmem : t ∈ slots := hok.separated.mem_of_holds_iff hslots ht fun a ha ↦ by
      rw [hholds, or_iff_left fun h ↦ absurd (ha.trans_lt (hto.trans ho)) h.1.not_gt]
    exact hslots.lt_of_firstFit h hmem ((Nat.le_add_right _ _).trans_lt hto)
  start a ha ha' := by
    obtain ⟨b, hb, rfl⟩ := Lib.exists_offset_of_firstFit h
    exact hslots.not_holds_of_succ_eq hb ha ((hholds a).2 (.inl ha'))

theorem allocateSlot_spec (hok : SlotsOk s.slots s.totsize) {n : ℕ} (hn : 0 < n) :
    ∃ s' o, s.allocateSlot n = .ok (s', o) ∧ Allocated s s' o n := by
  cases hfit : Lib.firstFit n s.slots with
  | some r =>
      obtain ⟨o, slots'⟩ := r
      refine ⟨{ s with slots := slots' }, o, ?_, ?_⟩
      · rw [allocateSlot, hfit]
      · refine allocated_of_firstFit hok le_rfl hok.separated (by omega) (fun a ↦ ?_) hfit
        rw [or_iff_left fun h ↦ absurd h.2 h.1.not_gt]
  | none =>
      obtain ⟨hlt, hle⟩ := le_grownSize (s := s) n hn
      have hext := hok.separated.extend (fun t ht ↦ hok.stop_le ht) hlt
      obtain ⟨t, ht, htn⟩ := hext.large
      obtain ⟨⟨o, slots'⟩, hfit'⟩ := Option.isSome_iff_exists.1
        (Lib.firstFit_isSome ⟨t, ht, hle.trans htn⟩)
      refine ⟨{ s with slots := slots', totsize := s.grownSize n }, o, ?_, ?_⟩
      · rw [allocateSlot, hfit]
        simp only [updateTotsize, if_pos hlt, Fault.bind_eq_ok]
        refine ⟨_, rfl, ?_⟩
        simp only [hfit']
      · exact allocated_of_firstFit hok hlt.le hext.separated hext.total_eq hext.holds_iff hfit'

end OnDiskInvertedLists

end FaissNavix
