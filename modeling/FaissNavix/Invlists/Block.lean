import FaissNavix.IDSelector
import FaissNavix.Lib.Segments
import FaissNavix.Lib.SwapRemove

/-!
# Block inverted lists

`faiss/invlists/BlockInvertedLists.cpp`, with the code packers of `faiss/impl/CodePacker.h` and
`faiss/utils/AlignedTable.h`.  The codes of a list are in blocks, in which a code packer may
interleave them; a table of codes has whole blocks for the ids of its list.
-/

namespace FaissNavix

open Function
open Lib

/-- `AlignedTable<uint8_t>`: the bytes behind the first `numel` ones are not part of it. -/
structure AlignedTable where
  mem : ℕ → UInt8
  numel : ℕ

/-- `resize`, where `junk` is what the new bytes happen to hold. -/
def AlignedTable.resize (t : AlignedTable) (n : ℕ) (junk : ℕ → UInt8) : AlignedTable where
  mem := fun a ↦ if a < t.numel then t.mem a else junk a
  numel := n

/-- `CodePacker`: `pack_1` and `unpack_1` are given a block to start from and an offset in this
block or in one behind it. -/
structure CodePacker where
  codeSize : ℕ
  nvec : ℕ
  blockSize : ℕ
  pack1 : List UInt8 → ℕ → (ℕ → UInt8) → ℕ → UInt8
  unpack1 : (ℕ → UInt8) → ℕ → List UInt8

namespace CodePacker

/-- The number of blocks for `n` codes. -/
def nBlock (P : CodePacker) (n : ℕ) : ℕ :=
  (n + P.nvec - 1) / P.nvec

/-- The bytes up to the end of the block with code `i`. -/
def blockEnd (P : CodePacker) (i : ℕ) : ℕ :=
  (i / P.nvec + 1) * P.blockSize

/-- Packing a code gives it back and leaves the others as they are, and neither function looks
beyond the block of the code. -/
structure Lawful (P : CodePacker) : Prop where
  nvec_pos : 0 < P.nvec
  length_unpack : ∀ m i, (P.unpack1 m i).length = P.codeSize
  unpack_pack_self : ∀ {code m i}, code.length = P.codeSize →
    P.unpack1 (P.pack1 code i m) i = code
  unpack_pack_of_ne : ∀ {code m i j}, j ≠ i → P.unpack1 (P.pack1 code i m) j = P.unpack1 m j
  unpack_congr : ∀ {m m' i}, (∀ a < P.blockEnd i, m a = m' a) → P.unpack1 m i = P.unpack1 m' i
  pack_of_le : ∀ {code m i a}, P.blockEnd i ≤ a → P.pack1 code i m a = m a

variable {P : CodePacker}

theorem Lawful.blockEnd_le (hP : P.Lawful) {i n : ℕ} (hi : i < n) :
    P.blockEnd i ≤ P.nBlock n * P.blockSize := by
  refine Nat.mul_le_mul_right _ ?_
  refine (Nat.le_div_iff_mul_le hP.nvec_pos).mpr ?_
  have := Nat.div_mul_le_self i P.nvec
  have hpos := hP.nvec_pos
  rw [Nat.add_mul, Nat.one_mul]
  omega

theorem nBlock_mono (P : CodePacker) {m n : ℕ} (h : m ≤ n) : P.nBlock m ≤ P.nBlock n :=
  Nat.div_le_div_right (by omega)

end CodePacker

/-- `BlockInvertedLists`, with a code packer. -/
structure BlockInvertedLists where
  nlist : ℕ
  packer : CodePacker
  ids : ℕ → List Idx
  codes : ℕ → AlignedTable
  numel_eq : ∀ l, (codes l).numel = packer.nBlock (ids l).length * packer.blockSize

namespace BlockInvertedLists

variable (b : BlockInvertedLists)

/-- The entry at an offset of a list, its code being unpacked. -/
def entryAt (l o : ℕ) : Entry where
  id := (b.ids l).getD o 0
  code := b.packer.unpack1 (b.codes l).mem o

def entries (l : ℕ) : List Entry :=
  (List.range (b.ids l).length).map (b.entryAt l)

/-- The ids and the codes of a list are replaced. -/
def setList (l : ℕ) (ids : List Idx) (codes : AlignedTable)
    (h : codes.numel = b.packer.nBlock ids.length * b.packer.blockSize) : BlockInvertedLists where
  nlist := b.nlist
  packer := b.packer
  ids := update b.ids l ids
  codes := update b.codes l codes
  numel_eq := by
    intro k
    rcases eq_or_ne k l with rfl | hne
    · rw [update_self, update_self, h]
    · rw [update_of_ne hne, update_of_ne hne, b.numel_eq]

/-- The first `newSize` ids, with zeros behind them if there are not as many. -/
def resizeIds (ids : List Idx) (newSize : ℕ) : List Idx :=
  ids.take newSize ++ List.replicate (newSize - ids.length) 0

theorem length_resizeIds (ids : List Idx) (newSize : ℕ) :
    (resizeIds ids newSize).length = newSize := by
  rw [resizeIds, List.length_append, List.length_take, List.length_replicate]
  omega

/-- `resize`: new bytes are set to 0. -/
def resize (l newSize : ℕ) : BlockInvertedLists :=
  b.setList l (resizeIds (b.ids l) newSize)
    ((b.codes l).resize (b.packer.nBlock newSize * b.packer.blockSize) fun _ ↦ 0)
    (by rw [length_resizeIds]; rfl)

/-- The slots of a list, as the loop of `remove_ids` uses them: `ids[i]` and `codes[i].data()`. -/
def slots (P : CodePacker) : Slots (List Idx × (ℕ → UInt8)) Entry where
  get s j := ⟨s.1.getD j 0, P.unpack1 s.2 j⟩
  move s l j := (s.1.set j (s.1.getD l 0), P.pack1 (P.unpack1 s.2 l) j s.2)

theorem length_swapRemove (P : CodePacker) (p : Entry → Bool) (s : List Idx × (ℕ → UInt8))
    (j l : ℕ) : (swapRemove (slots P) p s j l).1.1.length = s.1.length := by
  fun_induction swapRemove (slots P) p s j l with
  | case1 s j l hlt hp ih => rw [ih]; exact List.length_set
  | case2 s j l hlt hp ih => exact ih
  | case3 s j l hlt => rfl

/-- The inner loop of `remove_ids`, on list `i`: the lists and the size `l` that is left. -/
def removeLoop (sel : IDSelector) (i : ℕ) : BlockInvertedLists × ℕ :=
  let r := swapRemove (slots b.packer) (fun e ↦ sel.isMember e.id) (b.ids i, (b.codes i).mem) 0
    (b.ids i).length
  (b.setList i r.1.1 { b.codes i with mem := r.1.2 }
    (by rw [length_swapRemove]; exact b.numel_eq i), r.2)

/-- One turn of the loop over the lists of `remove_ids`, on the lists and `nremove`. -/
def removeStep (sel : IDSelector) (s : BlockInvertedLists × ℕ) (i : ℕ) :
    BlockInvertedLists × ℕ :=
  let (b, l) := s.1.removeLoop sel i
  let b := b.resize i l
  (b, s.2 + ((b.ids i).length - l))

/-- `remove_ids` -/
def removeIds (sel : IDSelector) : BlockInvertedLists × ℕ :=
  (List.range b.nlist).foldl (removeStep sel) (b, 0)

/-! ## What `remove_ids` leaves -/

variable {b} {sel : IDSelector}

theorem slots_lawful {P : CodePacker} (hP : P.Lawful) (n : ℕ) :
    (slots P).Lawful (fun s ↦ s.1.length = n) n where
  ok_move hs _ _ := List.length_set.trans hs
  get_move {s l j k} hs _ hj _ := by
    change (⟨(s.1.set j (s.1.getD l 0)).getD k 0, P.unpack1 (P.pack1 _ j s.2) k⟩ : Entry) = _
    rw [getD_set]
    by_cases hk : k = j
    · rw [if_pos hk, if_pos ⟨hk.symm, hs ▸ hj⟩, hk, hP.unpack_pack_self (hP.length_unpack _ _)]
      rfl
    · rw [if_neg hk, if_neg fun h ↦ hk h.1.symm, hP.unpack_pack_of_ne hk]
      rfl

@[simp] theorem setList_packer (l : ℕ) (ids : List Idx) (codes : AlignedTable) (h) :
    (b.setList l ids codes h).packer = b.packer := rfl

@[simp] theorem setList_ids_self (l : ℕ) (ids : List Idx) (codes : AlignedTable) (h) :
    (b.setList l ids codes h).ids l = ids :=
  update_self _ _ _

theorem length_ids_resize (l n : ℕ) : ((b.resize l n).ids l).length = n := by
  rw [resize, setList_ids_self, length_resizeIds]

theorem entries_setList_of_ne {l k : ℕ} (hk : k ≠ l) (ids : List Idx) (codes : AlignedTable) (h) :
    (b.setList l ids codes h).entries k = b.entries k := by
  have hids : (b.setList l ids codes h).ids k = b.ids k := update_of_ne hk _ _
  have hcodes : (b.setList l ids codes h).codes k = b.codes k := update_of_ne hk _ _
  rw [entries, entries, hids]
  refine List.map_congr_left fun o _ ↦ ?_
  rw [entryAt, entryAt, hids, hcodes, setList_packer]

theorem entries_resize_of_ne {l k : ℕ} (hk : k ≠ l) (n : ℕ) :
    (b.resize l n).entries k = b.entries k :=
  entries_setList_of_ne hk _ _ _

theorem entries_setList_self (l : ℕ) (ids : List Idx) (codes : AlignedTable) (h) :
    (b.setList l ids codes h).entries l =
      (slots b.packer).contents (ids, codes.mem) ids.length := by
  have hids : (b.setList l ids codes h).ids l = ids := update_self _ _ _
  have hcodes : (b.setList l ids codes h).codes l = codes := update_self _ _ _
  rw [entries, hids]
  refine List.map_congr_left fun o _ ↦ ?_
  rw [entryAt, hids, hcodes, setList_packer]
  rfl

variable (sel : IDSelector) (hP : b.packer.Lawful)
include hP

/-- Shrinking a list keeps its first entries. -/
theorem entries_resize {l n : ℕ} (hn : n ≤ (b.ids l).length) :
    (b.resize l n).entries l = (b.entries l).take n := by
  rw [resize, entries_setList_self, length_resizeIds, entries, ← List.map_take, List.take_range,
    min_eq_left hn]
  refine List.map_congr_left fun o ho ↦ ?_
  have ho' := List.mem_range.mp ho
  have hid : (resizeIds (b.ids l) n).getD o 0 = (b.ids l).getD o 0 := by
    rw [resizeIds, Nat.sub_eq_zero_of_le hn, List.replicate_zero, List.append_nil,
      List.getD_eq_getElem?_getD, List.getElem?_take_of_lt ho', List.getD_eq_getElem?_getD]
  have hcode : b.packer.unpack1 ((b.codes l).resize (b.packer.nBlock n * b.packer.blockSize)
      fun _ ↦ 0).mem o = b.packer.unpack1 (b.codes l).mem o := by
    refine hP.unpack_congr fun a ha ↦ if_pos ?_
    rw [b.numel_eq l]
    refine (ha.trans_le (hP.blockEnd_le ho')).trans_le ?_
    exact Nat.mul_le_mul_right _ (b.packer.nBlock_mono hn)
  change (⟨(resizeIds (b.ids l) n).getD o 0, b.packer.unpack1 _ o⟩ : Entry) =
    ⟨(b.ids l).getD o 0, b.packer.unpack1 _ o⟩
  rw [hid, hcode]

theorem removeLoop_spec (i : ℕ) :
    ((b.removeLoop sel i).2 ≤ ((b.removeLoop sel i).1.ids i).length) ∧
      (((b.removeLoop sel i).1.entries i).take (b.removeLoop sel i).2).Perm
        ((b.entries i).filter fun e ↦ !sel.isMember e.id) ∧
      ∀ k, k ≠ i → (b.removeLoop sel i).1.entries k = b.entries k := by
  obtain ⟨hlen, hle, hperm⟩ := (slots_lawful hP (b.ids i).length).swapRemove
    (p := fun e ↦ sel.isMember e.id) (s := (b.ids i, (b.codes i).mem)) rfl (Nat.zero_le _) le_rfl
    fun k hk ↦ absurd hk (Nat.not_lt_zero k)
  refine ⟨?_, ?_, fun k hk ↦ ?_⟩
  · rw [removeLoop, setList_ids_self, hlen]
    exact hle
  · rw [removeLoop, entries_setList_self, hlen, Slots.contents, ← List.map_take,
      List.take_range, min_eq_left hle]
    exact hperm
  · exact entries_setList_of_ne hk _ _ (by rw [length_swapRemove]; exact b.numel_eq i)

theorem removeStep_spec (c i : ℕ) :
    ((removeStep sel (b, c) i).1.entries i).Perm
        ((b.entries i).filter fun e ↦ !sel.isMember e.id) ∧
      (∀ k, k ≠ i → (removeStep sel (b, c) i).1.entries k = b.entries k) ∧
      (removeStep sel (b, c) i).1.packer = b.packer ∧ (removeStep sel (b, c) i).2 = c := by
  obtain ⟨hle, hperm, hother⟩ := removeLoop_spec sel hP i
  refine ⟨?_, fun k hk ↦ ?_, rfl, ?_⟩
  · change (((b.removeLoop sel i).1.resize i (b.removeLoop sel i).2).entries i).Perm _
    rw [entries_resize (b := (b.removeLoop sel i).1) hP hle]
    exact hperm
  · exact (entries_resize_of_ne hk _).trans (hother k hk)
  · change c + ((((b.removeLoop sel i).1.resize i (b.removeLoop sel i).2).ids i).length -
      (b.removeLoop sel i).2) = c
    rw [length_ids_resize, Nat.sub_self, Nat.add_zero]

/-- `remove_ids` keeps the entries that are not selected, and counts nothing. -/
theorem removeIds_spec :
    (∀ i < b.nlist, ((b.removeIds sel).1.entries i).Perm
        ((b.entries i).filter fun e ↦ !sel.isMember e.id)) ∧ (b.removeIds sel).2 = 0 := by
  have hrun : ∀ n, (∀ i, (((List.range n).foldl (removeStep sel) (b, 0)).1.entries i).Perm
        (if i < n then (b.entries i).filter fun e ↦ !sel.isMember e.id else b.entries i)) ∧
      ((List.range n).foldl (removeStep sel) (b, 0)).1.packer = b.packer ∧
      ((List.range n).foldl (removeStep sel) (b, 0)).2 = 0 := by
    intro n
    induction n with
    | zero => exact ⟨fun i ↦ .refl _, rfl, rfl⟩
    | succ n ih =>
        obtain ⟨hentries, hpacker, hcount⟩ := ih
        rw [List.range_succ, List.foldl_append, List.foldl_cons, List.foldl_nil]
        generalize (List.range n).foldl (removeStep sel) (b, 0) = s at hentries hpacker hcount
        obtain ⟨b', c⟩ := s
        have hP' : b'.packer.Lawful := by rwa [hpacker]
        obtain ⟨hself, hother, hpacker', hcount'⟩ := removeStep_spec sel hP' c n
        refine ⟨fun i ↦ ?_, hpacker'.trans hpacker, hcount'.trans hcount⟩
        rcases lt_trichotomy i n with hi | rfl | hi
        · have := hentries i
          rw [if_pos hi] at this
          rwa [if_pos (Nat.lt_succ_of_lt hi), hother i hi.ne]
        · have := hentries i
          rw [if_neg (lt_irrefl i)] at this
          rw [if_pos (Nat.lt_succ_self i)]
          exact hself.trans (this.filter _)
        · have := hentries i
          rw [if_neg hi.not_gt] at this
          rwa [if_neg (by omega), hother i hi.ne']
  obtain ⟨hentries, -, hcount⟩ := hrun b.nlist
  refine ⟨fun i hi ↦ ?_, hcount⟩
  have := hentries i
  rwa [if_pos hi] at this

end BlockInvertedLists

end FaissNavix
