import FaissNavix.Invlists.Block
import FaissNavix.Lib.Nibbles
import FaissNavix.Lib.Rows

/-!
# Blocks of 4-bit codes

`CodePackerPQ4` of `faiss/impl/pq4_fast_scan.cpp`.  A block has `bbs` codes of `nsq` elements, which
are half a byte each.  The elements of the same number of all codes are side by side.
-/

namespace FaissNavix

open Lib

/-! ## Addresses -/

/-- `get_vector_specific_address`: the byte in the block, and `shift`. -/
def vectorSpecificAddress (bbs vectorId sq : ℕ) : ℕ × Bool :=
  -- get the vector_id inside the block
  let vectorId := vectorId % bbs
  let shift := decide (15 < vectorId)
  let vectorId := vectorId % 16
  let address := if vectorId < 8 then 2 * vectorId else 2 * (vectorId - 8) + 1
  let address := if sq % 2 = 1 then address + 16 else address
  (sq / 2 * bbs + address, shift)

/-- The address of an element, where `data` is the address of the first block. -/
def packedAddress (data bbs nsq vectorId sq : ℕ) : ℕ × Bool :=
  -- move to correct bbs-sized block
  let data := data + vectorId / bbs * ((nsq + 1) / 2 * bbs)
  let a := vectorSpecificAddress bbs vectorId sq
  (data + a.1, a.2)

/-- `pq4_get_packed_element` -/
def pq4GetPackedElement (mem : ℕ → UInt8) (data bbs nsq vectorId sq : ℕ) : UInt8 :=
  getNib mem (packedAddress data bbs nsq vectorId sq)

/-- `pq4_set_packed_element` -/
def pq4SetPackedElement (mem : ℕ → UInt8) (data : ℕ) (code : UInt8) (bbs nsq vectorId sq : ℕ) :
    ℕ → UInt8 :=
  setNib mem (packedAddress data bbs nsq vectorId sq) code

namespace CodePackerPQ4

/-- `code_size` -/
def codeSize (nsq : ℕ) : ℕ :=
  (nsq * 4 + 7) / 8

/-- `block_size` -/
def blockSize (nsq bbs : ℕ) : ℕ :=
  (nsq + 1) / 2 * bbs

/-- The address of the block of a code, and the offset in it. -/
def blockOf (nsq bbs offset : ℕ) : ℕ × ℕ :=
  if bbs ≤ offset then (offset / bbs * blockSize nsq bbs, offset % bbs) else (0, offset)

/-- `pack_1` -/
def pack1 (nsq bbs : ℕ) (flatCode : List UInt8) (offset : ℕ) (mem : ℕ → UInt8) : ℕ → UInt8 :=
  let (block, offset) := blockOf nsq bbs offset
  (List.range (codeSize nsq)).foldl (fun mem i ↦
    let code := flatCode.getD i 0
    let mem := pq4SetPackedElement mem block (nibble code false) bbs nsq offset (2 * i)
    pq4SetPackedElement mem block (nibble code true) bbs nsq offset (2 * i + 1)) mem

/-- `unpack_1` -/
def unpack1 (nsq bbs : ℕ) (mem : ℕ → UInt8) (offset : ℕ) : List UInt8 :=
  let (block, offset) := blockOf nsq bbs offset
  (List.range (codeSize nsq)).map fun i ↦
    let code0 := pq4GetPackedElement mem block bbs nsq offset (2 * i)
    let code1 := pq4GetPackedElement mem block bbs nsq offset (2 * i + 1)
    code0 ||| code1 <<< 4

/-- `CodePackerPQ4(nsq, bbs)` -/
def packer (nsq bbs : ℕ) : CodePacker where
  codeSize := codeSize nsq
  nvec := bbs
  blockSize := blockSize nsq bbs
  pack1 := pack1 nsq bbs
  unpack1 := unpack1 nsq bbs

/-! ## Elements of different codes -/

variable {nsq bbs v v' sq sq' : ℕ}

theorem codeSize_eq (nsq : ℕ) : codeSize nsq = (nsq + 1) / 2 := by
  unfold codeSize
  omega

/-- The address in a block that a code has to itself, as the rows of the elements have. -/
theorem vectorSpecificAddress_eq (bbs v sq : ℕ) :
    ∃ r < 32, vectorSpecificAddress bbs v sq = (sq / 2 * bbs + r, decide (15 < v % bbs)) ∧
      r % 16 = (if v % bbs % 16 < 8 then 2 * (v % bbs % 16) else 2 * (v % bbs % 16 - 8) + 1) ∧
      r / 16 = sq % 2 := by
  unfold vectorSpecificAddress
  dsimp only
  split
  · split
    · exact ⟨_, by omega, rfl, by omega, by omega⟩
    · exact ⟨_, by omega, rfl, by omega, by omega⟩
  · split
    · exact ⟨_, by omega, rfl, by omega, by omega⟩
    · exact ⟨_, by omega, rfl, by omega, by omega⟩

theorem vectorSpecificAddress_lt (hbbs : 32 ≤ bbs) (hsq : sq < 2 * codeSize nsq) :
    (vectorSpecificAddress bbs v sq).1 < blockSize nsq bbs := by
  obtain ⟨r, hr, heq, -⟩ := vectorSpecificAddress_eq bbs v sq
  rw [codeSize_eq] at hsq
  rw [heq, blockSize]
  have hle : (sq / 2 + 1) * bbs ≤ (nsq + 1) / 2 * bbs := Nat.mul_le_mul_right _ (by omega)
  rw [Nat.add_mul, Nat.one_mul] at hle
  exact (Nat.add_lt_add_left (hr.trans_le hbbs) _).trans_le hle

/-- Different elements have different addresses, among codes with offsets below 32 in their
blocks. -/
theorem packedAddress_inj (hbbs : 32 ≤ bbs) (hv : v % bbs < 32) (hv' : v' % bbs < 32)
    (hsq : sq < 2 * codeSize nsq) (hsq' : sq' < 2 * codeSize nsq)
    (h : packedAddress 0 bbs nsq v sq = packedAddress 0 bbs nsq v' sq') : v = v' ∧ sq = sq' := by
  have hlt := vectorSpecificAddress_lt (v := v) hbbs hsq
  have hlt' := vectorSpecificAddress_lt (v := v') hbbs hsq'
  obtain ⟨r, hr, heq, hmod, hdiv⟩ := vectorSpecificAddress_eq bbs v sq
  obtain ⟨r', hr', heq', hmod', hdiv'⟩ := vectorSpecificAddress_eq bbs v' sq'
  unfold packedAddress at h
  rw [heq] at h hlt
  rw [heq'] at h hlt'
  obtain ⟨hbyte, hshift⟩ := Prod.mk.injEq .. ▸ h
  rw [Nat.zero_add, Nat.zero_add] at hbyte
  obtain ⟨hblock, hin⟩ := cell_inj hlt hlt' hbyte
  obtain ⟨hpair, hrr⟩ := cell_inj (hr.trans_le hbbs) (hr'.trans_le hbbs) hin
  have hupper : 15 < v % bbs ↔ 15 < v' % bbs := by
    rw [← decide_eq_decide]
    exact hshift
  have hoff : v % bbs = v' % bbs := by
    split at hmod <;> split at hmod' <;> omega
  refine ⟨?_, by omega⟩
  rw [← Nat.div_add_mod v bbs, ← Nat.div_add_mod v' bbs, hblock, hoff]

theorem packedAddress_inj_right (hbbs : 32 ≤ bbs)
    (h : packedAddress 0 bbs nsq v sq = packedAddress 0 bbs nsq v sq') : sq = sq' := by
  obtain ⟨r, hr, heq, -, hdiv⟩ := vectorSpecificAddress_eq bbs v sq
  obtain ⟨r', hr', heq', -, hdiv'⟩ := vectorSpecificAddress_eq bbs v sq'
  unfold packedAddress at h
  rw [heq, heq'] at h
  obtain ⟨hpair, hrr⟩ := cell_inj (hr.trans_le hbbs) (hr'.trans_le hbbs)
    (Nat.add_left_cancel (congrArg Prod.fst h))
  omega

theorem packedAddress_blockOf (hbbs : 0 < bbs) (nsq v sq : ℕ) :
    packedAddress (blockOf nsq bbs v).1 bbs nsq (blockOf nsq bbs v).2 sq =
      packedAddress 0 bbs nsq v sq := by
  unfold blockOf
  split
  · have hmod : v % bbs / bbs = 0 := Nat.div_eq_of_lt (Nat.mod_lt v hbbs)
    unfold packedAddress vectorSpecificAddress
    dsimp only
    rw [hmod, Nat.mod_mod, Nat.zero_mul, Nat.add_zero, Nat.zero_add]
    rfl
  · rfl

/-! ## `pack_1` and `unpack_1` -/

/-- What `pack_1` writes: the elements of a code, by their numbers. -/
def writes (nsq bbs : ℕ) (flatCode : List UInt8) (v : ℕ) : List ((ℕ × Bool) × UInt8) :=
  (List.range (codeSize nsq)).flatMap fun i ↦
    [(packedAddress 0 bbs nsq v (2 * i), nibble (flatCode.getD i 0) false),
      (packedAddress 0 bbs nsq v (2 * i + 1), nibble (flatCode.getD i 0) true)]

variable {code : List UInt8} {m m' : ℕ → UInt8}

theorem pack1_eq (hbbs : 0 < bbs) (code : List UInt8) (v : ℕ) (m : ℕ → UInt8) :
    pack1 nsq bbs code v m = setNibs m (writes nsq bbs code v) := by
  unfold pack1 setNibs writes
  rw [List.foldl_flatMap]
  dsimp only [pq4SetPackedElement]
  simp only [packedAddress_blockOf hbbs]
  rfl

theorem unpack1_eq (hbbs : 0 < bbs) (m : ℕ → UInt8) (v : ℕ) :
    unpack1 nsq bbs m v = (List.range (codeSize nsq)).map fun i ↦
      getNib m (packedAddress 0 bbs nsq v (2 * i)) |||
        getNib m (packedAddress 0 bbs nsq v (2 * i + 1)) <<< 4 := by
  unfold unpack1
  dsimp only [pq4GetPackedElement]
  simp only [packedAddress_blockOf hbbs]

theorem mem_writes {w : (ℕ × Bool) × UInt8} (hw : w ∈ writes nsq bbs code v) :
    ∃ sq < 2 * codeSize nsq, w = (packedAddress 0 bbs nsq v sq,
      nibble (code.getD (sq / 2) 0) (decide (sq % 2 = 1))) := by
  obtain ⟨i, hi, hw⟩ := List.mem_flatMap.mp hw
  have hlt := List.mem_range.mp hi
  rcases List.mem_cons.mp hw with rfl | hw
  · refine ⟨2 * i, by omega, ?_⟩
    rw [Nat.mul_div_cancel_left i (by omega), Nat.mul_mod_right]
    rfl
  · rw [List.mem_singleton] at hw
    subst hw
    refine ⟨2 * i + 1, by omega, ?_⟩
    rw [show (2 * i + 1) / 2 = i by omega, show (2 * i + 1) % 2 = 1 by omega]
    rfl

theorem writes_lt {w : (ℕ × Bool) × UInt8} (hw : w ∈ writes nsq bbs code v) : w.2 < 16 := by
  obtain ⟨sq, -, rfl⟩ := mem_writes hw
  exact nibble_lt _ _

theorem writes_nodup (hbbs : 32 ≤ bbs) :
    ((writes nsq bbs code v).map Prod.fst).Nodup := by
  have hmap : (writes nsq bbs code v).map Prod.fst =
      (List.range (codeSize nsq)).flatMap fun i ↦
        [packedAddress 0 bbs nsq v (2 * i), packedAddress 0 bbs nsq v (2 * i + 1)] := by
    rw [writes, List.map_flatMap]
    rfl
  rw [hmap]
  refine List.nodup_flatMap.mpr ⟨fun i _ ↦ ?_, List.nodup_range.imp fun {i j} hij ↦ ?_⟩
  · refine List.nodup_cons.mpr ⟨fun hmem ↦ ?_, List.nodup_singleton _⟩
    have := packedAddress_inj_right hbbs (List.mem_singleton.mp hmem)
    omega
  · have hsep : ∀ a < 2, ∀ b < 2, packedAddress 0 bbs nsq v (2 * i + a) ≠
        packedAddress 0 bbs nsq v (2 * j + b) := fun a ha b hb h ↦ by
      have := packedAddress_inj_right hbbs h
      omega
    intro p hp hp'
    rw [List.mem_cons, List.mem_singleton] at hp hp'
    rcases hp with rfl | rfl <;> rcases hp' with h | h
    · exact hsep 0 (by omega) 0 (by omega) h
    · exact hsep 0 (by omega) 1 (by omega) h
    · exact hsep 1 (by omega) 0 (by omega) h
    · exact hsep 1 (by omega) 1 (by omega) h

/-- What was packed is unpacked. -/
theorem unpack_pack_self (hbbs : 32 ≤ bbs) (hcode : code.length = codeSize nsq)
    (m : ℕ → UInt8) : unpack1 nsq bbs (pack1 nsq bbs code v m) v = code := by
  have hpos : 0 < bbs := by omega
  rw [unpack1_eq hpos, pack1_eq hpos]
  refine List.ext_getElem (by rw [List.length_map, List.length_range, hcode]) fun i hi hi' ↦ ?_
  rw [List.length_map, List.length_range] at hi
  have hmem : ∀ w ∈ [(packedAddress 0 bbs nsq v (2 * i), nibble (code.getD i 0) false),
      (packedAddress 0 bbs nsq v (2 * i + 1), nibble (code.getD i 0) true)],
      getNib (setNibs m (writes nsq bbs code v)) w.1 = w.2 := fun w hw ↦
    getNib_setNibs_of_mem (fun _ ↦ writes_lt) (writes_nodup hbbs)
      (List.mem_flatMap.mpr ⟨i, List.mem_range.mpr hi, hw⟩) m
  obtain ⟨h0, h1⟩ := List.forall_mem_cons.mp hmem
  rw [List.getElem_map, List.getElem_range, h0, h1 _ (List.mem_singleton.mpr rfl),
    List.getD_eq_getElem _ _ hi']
  exact nibbles_eq _

/-- Other codes are left as they are. -/
theorem unpack_pack_of_ne (hbbs : 32 ≤ bbs) (hv : v % bbs < 32) (hv' : v' % bbs < 32) (hne : v' ≠ v)
    (code : List UInt8) (m : ℕ → UInt8) :
    unpack1 nsq bbs (pack1 nsq bbs code v m) v' = unpack1 nsq bbs m v' := by
  have hpos : 0 < bbs := by omega
  rw [unpack1_eq hpos, unpack1_eq hpos, pack1_eq hpos]
  have hkeep : ∀ sq < 2 * codeSize nsq, getNib (setNibs m (writes nsq bbs code v))
      (packedAddress 0 bbs nsq v' sq) = getNib m (packedAddress 0 bbs nsq v' sq) := by
    intro sq hsq
    refine getNib_setNibs_of_notMem (fun _ ↦ writes_lt) (fun hmem ↦ ?_) m
    obtain ⟨w, hw, heq⟩ := List.mem_map.mp hmem
    obtain ⟨sq', hsq', rfl⟩ := mem_writes hw
    exact hne (packedAddress_inj hbbs hv' hv hsq hsq' heq.symm).1
  refine List.map_congr_left fun i hi ↦ ?_
  have hlt := List.mem_range.mp hi
  rw [hkeep _ (by omega), hkeep _ (by omega)]

theorem packedAddress_lt (hbbs : 32 ≤ bbs) (hsq : sq < 2 * codeSize nsq) :
    (packedAddress 0 bbs nsq v sq).1 < (packer nsq bbs).blockEnd v := by
  have hlt := vectorSpecificAddress_lt (v := v) hbbs hsq
  unfold packedAddress CodePacker.blockEnd packer
  dsimp only
  rw [Nat.zero_add, Nat.add_mul, Nat.one_mul]
  exact Nat.add_lt_add_left hlt _

/-- With blocks of 32 codes, the packer is lawful. -/
theorem packer_lawful (nsq : ℕ) : (packer nsq 32).Lawful where
  nvec_pos := Nat.succ_pos 31
  length_unpack := fun m i ↦ by
    change (unpack1 nsq 32 m i).length = codeSize nsq
    rw [unpack1_eq (by decide), List.length_map, List.length_range]
  unpack_pack_self := fun {code m i} hcode ↦
    unpack_pack_self le_rfl hcode m
  unpack_pack_of_ne := fun {code m i j} hne ↦
    unpack_pack_of_ne le_rfl (Nat.mod_lt i (by decide)) (Nat.mod_lt j (by decide)) hne code m
  unpack_congr := by
    intro m m' i h
    change unpack1 nsq 32 m i = unpack1 nsq 32 m' i
    rw [unpack1_eq (by decide), unpack1_eq (by decide)]
    have hnib : ∀ sq < 2 * codeSize nsq,
        getNib m (packedAddress 0 32 nsq i sq) = getNib m' (packedAddress 0 32 nsq i sq) :=
      fun sq hsq ↦ congrArg (nibble · _) (h _ (packedAddress_lt le_rfl hsq))
    refine List.map_congr_left fun k hk ↦ ?_
    have hlt := List.mem_range.mp hk
    rw [hnib _ (by omega), hnib _ (by omega)]
  pack_of_le := by
    intro code m i a ha
    change pack1 nsq 32 code i m a = m a
    rw [pack1_eq (by decide)]
    refine setNibs_of_forall_ne (fun w hw ↦ ?_) m
    obtain ⟨sq, hsq, rfl⟩ := mem_writes hw
    exact ((packedAddress_lt le_rfl hsq).trans_le ha).ne

end CodePackerPQ4

end FaissNavix
