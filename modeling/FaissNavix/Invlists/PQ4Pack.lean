import FaissNavix.Invlists.PQ4

/-!
# Packing 4-bit codes in bulk

`pq4_pack_codes` and `pq4_pack_codes_range` of `faiss/impl/pq4_fast_scan.cpp`.  A block has a row for each pair of
sub-quantizers, and a row has 32 bytes for every 32 vectors: 16 for the first sub-quantizer of the pair and 16 for
the second one, with two vectors in a byte.  The functions for single elements put a vector among the first 32 of
its block.
-/

namespace FaissNavix

open Fault (throwIfNot)
open Lib (nibble getNib write)

/-! ## The model -/

/-- `perm0` -/
def perm0 : List ℕ :=
  [0, 8, 1, 9, 2, 10, 3, 11, 4, 12, 5, 13, 6, 14, 7, 15]

/-- `get_matrix_column`: the column that starts at `(i, j)` of a matrix of size `(m, n)`. -/
def getMatrixColumn (src : ℕ → UInt8) (m n : ℕ) (i : ℤ) (j : ℕ) : ℕ → UInt8 := fun k ↦
  if 0 ≤ k + i ∧ k + i < m then src ((k + i).toNat * n + j) else 0

/-- `d0` for each `j`, and then `d1`: the bytes for two sub-quantizers of 32 vectors, whose bytes are `c`. -/
def packColumn (c : ℕ → UInt8) : List UInt8 :=
  let d0 := fun j ↦ nibble (c (perm0.getD j 0)) false ||| nibble (c (perm0.getD j 0 + 16)) false <<< 4
  let d1 := fun j ↦ nibble (c (perm0.getD j 0)) true ||| nibble (c (perm0.getD j 0 + 16)) true <<< 4
  (List.range 16).map d0 ++ (List.range 16).map d1

/-- The bytes of a block, as `codes2` goes through them: `c` has the bytes of 32 vectors for a pair of
sub-quantizers. -/
def packBlock (bbs nsq : ℕ) (c : ℕ → ℕ → ℕ → UInt8) : List UInt8 :=
  (List.range ((nsq + 1) / 2)).flatMap fun pair ↦
    (List.range (bbs / 32)).flatMap fun group ↦ packColumn (c pair group)

def packedBytes (codes : ℕ → UInt8) (ntotal M nb bbs nsq : ℕ) : List UInt8 :=
  (List.range (nb / bbs)).flatMap fun b ↦ packBlock bbs nsq fun pair group ↦
    getMatrixColumn codes ntotal ((M + 1) / 2) ↑(b * bbs + group * 32) pair

/-- `pq4_pack_codes`, which sets all of the bytes. -/
def pq4PackCodes (codes : ℕ → UInt8) (ntotal M nb bbs nsq : ℕ) (blocks : ℕ → UInt8) : Except Fault (ℕ → UInt8) := do
  throwIfNot (bbs % 32 = 0) "bbs % 32 == 0"
  if bbs = 0 then throw .divisionByZero
  throwIfNot (nb % bbs = 0) "nb % bbs == 0"
  throwIfNot (nsq % 2 = 0) "nsq % 2 == 0"
  return write blocks 0 (packedBytes codes ntotal M nb bbs nsq)

/-- `codes2[j] |= d` for the bytes from an address on, in a memory of a size. -/
def orBytes (size : ℕ) (mem : ℕ → UInt8) (o : ℕ) (bytes : List UInt8) : Option (ℕ → UInt8) :=
  if o + bytes.length ≤ size then
    some fun p ↦ if o ≤ p then mem p ||| bytes.getD (p - o) 0 else mem p
  else none

/-- `pq4_pack_codes_range`, where `i1 - 1` wraps around, in a memory of a size.  It has no result where it leaves the
memory. -/
def pq4PackCodesRange (codes : ℕ → UInt8) (M i0 i1 bbs nsq size : ℕ) (blocks : ℕ → UInt8) : Option (ℕ → UInt8) :=
  let block0 := i0 / bbs
  let block1 := (i1 + (2 ^ 64 - 1)) % 2 ^ 64 / bbs + 1
  (List.range' block0 (block1 - block0)).foldlM (fun mem b ↦
    let iBase : ℤ := ↑(b * bbs) - i0
    orBytes size mem (b * bbs * nsq / 2) (packBlock bbs nsq fun pair group ↦
      getMatrixColumn codes (i1 - i0) ((M + 1) / 2) (iBase + ↑(group * 32)) pair)) blocks

/-- Ranges of codes, one after the other: their lengths, and where the first one starts. -/
def packRanges (codes : ℕ → UInt8) (M bbs nsq size : ℕ) : List ℕ → ℕ → (ℕ → UInt8) → Option (ℕ → UInt8)
  | [], _, blocks => some blocks
  | n :: ns, i0, blocks =>
    (pq4PackCodesRange (fun k ↦ codes (i0 * ((M + 1) / 2) + k)) M i0 (i0 + n) bbs nsq size blocks).bind
      (packRanges codes M bbs nsq size ns (i0 + n))

/-! ## Where an element is -/

/-- The number of the byte of a vector, among 16 of a sub-quantizer. -/
def slotOf (t : ℕ) : ℕ :=
  if t % 16 < 8 then 2 * (t % 16) else 2 * (t % 16 - 8) + 1

/-- Where the element of a vector is among packed codes: the byte, and whether it is the upper half. -/
def layoutAddress (bbs nsq v sq : ℕ) : ℕ × Bool :=
  (v / bbs * ((nsq + 1) / 2 * bbs) + (sq / 2 * bbs + (v % bbs / 32 * 32 + (16 * (sq % 2) + slotOf v))),
    decide (15 < v % 32))

/-- The element of a vector, in codes of `M` elements. -/
def component (codes : ℕ → UInt8) (M v sq : ℕ) : UInt8 :=
  nibble (codes (v * ((M + 1) / 2) + sq / 2)) (decide (sq % 2 = 1))

/-- The vector whose elements are taken for those of `v`: among the first 32 of the block, in the upper halves. -/
def twinOf (bbs v : ℕ) : ℕ :=
  v / bbs * bbs + 16 + v % 16

variable {codes : ℕ → UInt8} {bbs nsq M n v v' sq sq' t : ℕ}

theorem slotOf_lt (t : ℕ) : slotOf t < 16 := by
  unfold slotOf
  split <;> omega

theorem slotOf_mod (hw : 16 ∣ n) (t : ℕ) : slotOf (t % n) = slotOf t := by
  unfold slotOf
  rw [Nat.mod_mod_of_dvd t hw]

theorem perm0_slotOf (t : ℕ) : perm0.getD (slotOf t) 0 = t % 16 := by
  have hall : ∀ t < 16, perm0.getD (slotOf t) 0 = t := by decide
  rw [← slotOf_mod (Nat.dvd_refl 16)]
  exact hall _ (Nat.mod_lt t (by decide))

theorem slotOf_inj (h : slotOf t = slotOf v) : t % 16 = v % 16 := by
  rw [← perm0_slotOf t, h, perm0_slotOf]

/-- Different elements have different places. -/
theorem layoutAddress_inj (hbbs : 32 ∣ bbs) (hpos : 0 < bbs) (hsq : sq / 2 < (nsq + 1) / 2)
    (hsq' : sq' / 2 < (nsq + 1) / 2) (h : layoutAddress bbs nsq v sq = layoutAddress bbs nsq v' sq') :
    v = v' ∧ sq = sq' := by
  have hin (v sq : ℕ) : v % bbs / 32 * 32 + (16 * (sq % 2) + slotOf v) < bbs := by
    have hv := Nat.mod_lt v hpos
    have hs := slotOf_lt v
    omega
  obtain ⟨hbyte, hshift⟩ := Prod.mk.injEq .. ▸ h
  obtain ⟨hblock, hrow⟩ := Lib.cell_inj (Lib.cell_lt hsq (hin v sq)) (Lib.cell_lt hsq' (hin v' sq')) hbyte
  obtain ⟨hpair, hcell⟩ := Lib.cell_inj (hin v sq) (hin v' sq') hrow
  have hs := slotOf_lt v
  have hs' := slotOf_lt v'
  have hslot := slotOf_inj (show slotOf v = slotOf v' by omega)
  have hupper := decide_eq_decide.mp hshift
  have hmod := Nat.mod_mod_of_dvd v hbbs
  have hmod' := Nat.mod_mod_of_dvd v' hbbs
  refine ⟨?_, by omega⟩
  rw [← Nat.div_add_mod v bbs, ← Nat.div_add_mod v' bbs, hblock]
  omega

/-- The functions for single elements are right about the first 32 vectors of a block. -/
theorem packedAddress_of_lt (hbbs : 32 ∣ bbs) (hv : v % bbs < 32) :
    packedAddress 0 bbs nsq v sq = layoutAddress bbs nsq v sq := by
  have hmod := Nat.mod_mod_of_dvd v hbbs
  have hslot := slotOf_mod (by decide : 16 ∣ 32) v
  rw [← hmod, Nat.mod_eq_of_lt hv] at hslot
  unfold packedAddress vectorSpecificAddress layoutAddress
  rw [Nat.div_eq_of_lt hv, ← hslot, ← hmod, Nat.mod_eq_of_lt hv]
  dsimp only [slotOf]
  refine Prod.ext ?_ rfl
  dsimp only
  split
  · rw [Nat.zero_add, ‹sq % 2 = 1›, Nat.zero_mul, Nat.zero_add, Nat.mul_one, Nat.add_comm 16]
  · rw [Nat.zero_add, show sq % 2 = 0 by omega, Nat.zero_mul, Nat.zero_add, Nat.zero_add]

/-- They take the elements of another vector for those of a later one. -/
theorem packedAddress_of_le (hbbs : 32 ∣ bbs) (hpos : 0 < bbs) (hv : 32 ≤ v % bbs) :
    packedAddress 0 bbs nsq v sq = layoutAddress bbs nsq (twinOf bbs v) sq := by
  have hlt : 16 + v % 16 < bbs := by
    have := Nat.mod_lt v hpos
    have := Nat.le_of_dvd hpos hbbs
    omega
  have hdiv : twinOf bbs v / bbs = v / bbs := by
    rw [twinOf, Nat.add_assoc, Lib.cell_div _ hlt]
  have hmod : twinOf bbs v % bbs = 16 + v % 16 := by
    rw [twinOf, Nat.add_assoc, Lib.cell_mod _ hlt]
  have hsixteen := Nat.mod_mod_of_dvd v (Nat.dvd_trans (by decide : 16 ∣ 32) hbbs)
  rw [← packedAddress_of_lt hbbs (by omega)]
  unfold packedAddress vectorSpecificAddress
  dsimp only
  rw [hdiv, hmod, show (16 + v % 16) % 16 = v % bbs % 16 by omega,
    decide_eq_true (by omega : 15 < v % bbs), decide_eq_true (by omega : 15 < 16 + v % 16)]

theorem twinOf_lt (hv : 32 ≤ v % bbs) : twinOf bbs v < v := by
  have := Nat.div_add_mod' v bbs
  unfold twinOf
  omega

/-! ## What is in the blocks -/

theorem length_packColumn (c : ℕ → UInt8) : (packColumn c).length = 32 := by
  unfold packColumn
  rw [List.length_append, List.length_map, List.length_map, List.length_range]

theorem getD_packColumn (c : ℕ → UInt8) (odd : Bool) {j : ℕ} (hj : j < 16) :
    (packColumn c).getD (16 * odd.toNat + j) 0 =
      nibble (c (perm0.getD j 0)) odd ||| nibble (c (perm0.getD j 0 + 16)) odd <<< 4 := by
  unfold packColumn
  dsimp only
  cases odd with
  | false =>
      rw [Bool.toNat_false, Nat.mul_zero, Nat.zero_add, List.getD_append, List.getD_eq_getElem, List.getElem_map,
        List.getElem_range]
      · rwa [List.length_map, List.length_range]
      · rwa [List.length_map, List.length_range]
  | true =>
      rw [Bool.toNat_true, Nat.mul_one, List.getD_append_right, List.length_map, List.length_range,
        Nat.add_sub_cancel_left, List.getD_eq_getElem, List.getElem_map, List.getElem_range]
      · rwa [List.length_map, List.length_range]
      · rw [List.length_map, List.length_range]
        exact Nat.le_add_right _ _

theorem nibble_packColumn (c : ℕ → UInt8) (ht : t < 32) (odd : Bool) :
    nibble ((packColumn c).getD (16 * odd.toNat + slotOf t) 0) (decide (15 < t)) = nibble (c t) odd := by
  rw [getD_packColumn c odd (slotOf_lt t), perm0_slotOf, Lib.nibble_pair (Lib.nibble_lt _ _) (Lib.nibble_lt _ _)]
  by_cases hupper : 15 < t
  · rw [decide_eq_true hupper, if_pos rfl, show t % 16 + 16 = t by omega]
  · rw [decide_eq_false hupper, if_neg Bool.false_ne_true, show t % 16 = t by omega]

theorem packColumn_congr {c c' : ℕ → UInt8} (h : ∀ k < 32, c k = c' k) : packColumn c = packColumn c' := by
  have hperm : ∀ j < 16, perm0.getD j 0 < 16 := by decide
  have hbyte (odd : Bool) : ∀ j ∈ List.range 16,
      nibble (c (perm0.getD j 0)) odd ||| nibble (c (perm0.getD j 0 + 16)) odd <<< 4 =
        nibble (c' (perm0.getD j 0)) odd ||| nibble (c' (perm0.getD j 0 + 16)) odd <<< 4 := by
    intro j hj
    have hlt := hperm j (List.mem_range.mp hj)
    rw [h _ (by omega), h _ (by omega)]
  unfold packColumn
  dsimp only
  rw [List.map_congr_left (hbyte false), List.map_congr_left (hbyte true)]

theorem length_packRow (hbbs : 32 ∣ bbs) (c : ℕ → ℕ → UInt8) :
    ((List.range (bbs / 32)).flatMap fun group ↦ packColumn (c group)).length = bbs := by
  rw [Lib.length_flatMap_range fun _ _ ↦ length_packColumn _, Nat.div_mul_cancel hbbs]

theorem length_packBlock (hbbs : 32 ∣ bbs) (nsq : ℕ) (c : ℕ → ℕ → ℕ → UInt8) :
    (packBlock bbs nsq c).length = (nsq + 1) / 2 * bbs :=
  Lib.length_flatMap_range fun _ _ ↦ length_packRow hbbs _

theorem getD_packBlock (hbbs : 32 ∣ bbs) (c : ℕ → ℕ → ℕ → UInt8) {p : ℕ} (hp : p < (nsq + 1) / 2 * bbs) :
    (packBlock bbs nsq c).getD p 0 = (packColumn (c (p / bbs) (p % bbs / 32))).getD (p % bbs % 32) 0 := by
  have hpos : 0 < bbs := Nat.pos_of_ne_zero fun h ↦ by
    rw [h, Nat.mul_zero] at hp
    exact Nat.not_lt_zero p hp
  have hrow : p % bbs < bbs / 32 * 32 := by
    rw [Nat.div_mul_cancel hbbs]
    exact Nat.mod_lt p hpos
  rw [packBlock, Lib.getD_flatMap_range_of_lt (fun _ _ ↦ length_packRow hbbs _) hp,
    Lib.getD_flatMap_range_of_lt (fun _ _ ↦ length_packColumn _) hrow]

/-- The columns of block `b`. -/
def columnsOf (codes : ℕ → UInt8) (ntotal M bbs b pair group : ℕ) : ℕ → UInt8 :=
  getMatrixColumn codes ntotal ((M + 1) / 2) ↑(b * bbs + group * 32) pair

theorem length_packedBytes (hbbs : 32 ∣ bbs) (codes : ℕ → UInt8) (ntotal M nb nsq : ℕ) :
    (packedBytes codes ntotal M nb bbs nsq).length = nb / bbs * ((nsq + 1) / 2 * bbs) :=
  Lib.length_flatMap_range fun _ _ ↦ length_packBlock hbbs nsq _

theorem getD_packedBytes (hbbs : 32 ∣ bbs) {ntotal nb p : ℕ} (hp : p < nb / bbs * ((nsq + 1) / 2 * bbs)) :
    (packedBytes codes ntotal M nb bbs nsq).getD p 0 =
      (packBlock bbs nsq (columnsOf codes ntotal M bbs (p / ((nsq + 1) / 2 * bbs)))).getD
        (p % ((nsq + 1) / 2 * bbs)) 0 :=
  Lib.getD_flatMap_range_of_lt (fun _ _ ↦ length_packBlock hbbs nsq _) hp 0

/-- The element of a vector is where the layout has it. -/
theorem nibble_packedBytes (hbbs : 32 ∣ bbs) {ntotal nb : ℕ} (hnb : bbs ∣ nb) (hv : v < nb) (hsq : sq < nsq) :
    nibble ((packedBytes codes ntotal M nb bbs nsq).getD (layoutAddress bbs nsq v sq).1 0)
        (layoutAddress bbs nsq v sq).2 =
      if v < ntotal then component codes M v sq else 0 := by
  have hpos : 0 < bbs := Nat.pos_of_ne_zero fun h ↦ by
    rw [h] at hnb
    have := Nat.eq_zero_of_zero_dvd hnb
    omega
  have hblock : v / bbs < nb / bbs := by
    rw [Nat.div_lt_iff_lt_mul hpos, Nat.div_mul_cancel hnb]
    exact hv
  have hslot := slotOf_lt v
  have hin := Nat.mod_lt v hpos
  have hrow : v % bbs / 32 * 32 + (16 * (sq % 2) + slotOf v) < bbs := by omega
  have hbyte : sq / 2 * bbs + (v % bbs / 32 * 32 + (16 * (sq % 2) + slotOf v)) < (nsq + 1) / 2 * bbs :=
    Lib.cell_lt (by omega) hrow
  have hcell : 16 * (sq % 2) + slotOf v < 32 := by omega
  unfold layoutAddress
  dsimp only
  rw [getD_packedBytes hbbs (Lib.cell_lt hblock hbyte), Lib.cell_div _ hbyte, Lib.cell_mod _ hbyte,
    getD_packBlock hbbs _ hbyte, Lib.cell_div _ hrow, Lib.cell_mod _ hrow, Lib.cell_div _ hcell,
    Lib.cell_mod _ hcell]
  have hodd : sq % 2 = (decide (sq % 2 = 1)).toNat := by
    rcases Nat.mod_two_eq_zero_or_one sq with h | h <;> rw [h] <;> rfl
  rw [← slotOf_mod (by decide : 16 ∣ 32) v, hodd, nibble_packColumn _ (Nat.mod_lt v (by decide))]
  have hmod := Nat.mod_mod_of_dvd v hbbs
  have hdiv := Nat.div_add_mod' v bbs
  have hvec : ((v % 32 : ℕ) : ℤ) + ↑(v / bbs * bbs + v % bbs / 32 * 32) = v := by omega
  unfold columnsOf getMatrixColumn component
  rw [hvec, Int.toNat_natCast]
  by_cases hvn : v < ntotal
  · rw [if_pos ⟨Int.natCast_nonneg v, Int.ofNat_lt.mpr hvn⟩, if_pos hvn]
  · rw [if_neg fun h ↦ hvn (Int.ofNat_lt.mp h.2), if_neg hvn]
    cases decide (sq % 2 = 1) <;> rfl

/-! ## Packing range after range -/

theorem packColumn_or (c c' : ℕ → UInt8) (j : ℕ) :
    (packColumn c).getD j 0 ||| (packColumn c').getD j 0 = (packColumn fun k ↦ c k ||| c' k).getD j 0 := by
  by_cases hj : j < 32
  · have hcell : j = 16 * (decide (16 ≤ j)).toNat + j % 16 := by
      rcases Nat.lt_or_ge j 16 with hlow | hhigh
      · rw [decide_eq_false (not_le.mpr hlow), Bool.toNat_false]
        omega
      · rw [decide_eq_true hhigh, Bool.toNat_true]
        omega
    have hlt : j % 16 < 16 := Nat.mod_lt j (by decide)
    rw [hcell, getD_packColumn c _ hlt, getD_packColumn c' _ hlt, getD_packColumn _ _ hlt, Lib.nibble_or,
      Lib.nibble_or, UInt8.shiftLeft_or]
    ac_rfl
  · have hlen (c : ℕ → UInt8) : (packColumn c).length ≤ j := by
      rw [length_packColumn]
      exact not_lt.mp hj
    rw [List.getD_eq_default _ _ (hlen _), List.getD_eq_default _ _ (hlen _), List.getD_eq_default _ _ (hlen _)]
    rfl

theorem packBlock_or (hbbs : 32 ∣ bbs) {c c' c'' : ℕ → ℕ → ℕ → UInt8}
    (h : ∀ pair group k, c pair group k ||| c' pair group k = c'' pair group k) (p : ℕ) :
    (packBlock bbs nsq c).getD p 0 ||| (packBlock bbs nsq c').getD p 0 = (packBlock bbs nsq c'').getD p 0 := by
  by_cases hp : p < (nsq + 1) / 2 * bbs
  · rw [getD_packBlock hbbs _ hp, getD_packBlock hbbs _ hp, getD_packBlock hbbs _ hp, packColumn_or]
    exact congrArg (fun c ↦ (packColumn c).getD _ 0) (funext fun k ↦ h _ _ k)
  · have hlen (c : ℕ → ℕ → ℕ → UInt8) : (packBlock bbs nsq c).length ≤ p := by
      rw [length_packBlock hbbs]
      exact not_lt.mp hp
    rw [List.getD_eq_default _ _ (hlen _), List.getD_eq_default _ _ (hlen _), List.getD_eq_default _ _ (hlen _)]
    rfl

/-- The vectors before `i1` are those before `i0` and those of the range from `i0` on. -/
theorem getMatrixColumn_or {i0 i1 : ℕ} (hle : i0 ≤ i1) (codes : ℕ → UInt8) (m r j k : ℕ) {i : ℤ} (hi : i = r - i0) :
    getMatrixColumn codes i0 m ↑r j k ||| getMatrixColumn (fun a ↦ codes (i0 * m + a)) (i1 - i0) m i j k =
      getMatrixColumn codes i1 m ↑r j k := by
  unfold getMatrixColumn
  rcases Nat.lt_or_ge (k + r) i0 with hbefore | hafter
  · rw [if_pos (by omega), if_neg (by omega), if_pos (by omega), UInt8.or_zero]
  · rw [if_neg (by omega), UInt8.zero_or]
    by_cases hin : k + r < i1
    · rw [if_pos (by omega), if_pos (by omega)]
      have hrow : ((k : ℤ) + i).toNat = k + r - i0 := by omega
      dsimp only
      rw [hrow, ← Nat.add_assoc, ← Nat.add_mul, Nat.add_sub_cancel' hafter]
      rfl
    · rw [if_neg (by omega), if_neg (by omega)]

theorem columnsOf_eq {i0 i1 b group k : ℕ} (hle : i0 ≤ i1) (hk : group * 32 + k < bbs)
    (hb : (b + 1) * bbs ≤ i0 ∨ i1 ≤ b * bbs) (pair : ℕ) :
    columnsOf codes i0 M bbs b pair group k = columnsOf codes i1 M bbs b pair group k := by
  have hblock : (b + 1) * bbs = b * bbs + bbs := Nat.succ_mul b bbs
  unfold columnsOf getMatrixColumn
  rcases hb with hb | hb
  · rw [if_pos (by omega), if_pos (by omega)]
  · rw [if_neg (by omega), if_neg (by omega)]

/-- Blocks of one length are joined with those that are there. -/
theorem foldlM_orBytes {size L : ℕ} {blk : ℕ → List UInt8} (hlen : ∀ b, (blk b).length = L) (hL : 0 < L) (b0 n : ℕ)
    (hroom : (b0 + n) * L ≤ size) (mem : ℕ → UInt8) :
    (List.range' b0 n).foldlM (fun mem b ↦ orBytes size mem (b * L) (blk b)) mem =
      some fun p ↦ if b0 ≤ p / L ∧ p / L < b0 + n then mem p ||| (blk (p / L)).getD (p % L) 0 else mem p := by
  induction n generalizing b0 mem with
  | zero =>
      refine congrArg some (funext fun p ↦ ?_)
      rw [if_neg (by omega)]
  | succ n ih =>
      have hnext : (b0 + 1) * L ≤ (b0 + (n + 1)) * L := Nat.mul_le_mul_right L (by omega)
      rw [Nat.succ_mul] at hnext
      have hfirst : orBytes size mem (b0 * L) (blk b0) =
          some fun p ↦ if b0 * L ≤ p then mem p ||| (blk b0).getD (p - b0 * L) 0 else mem p :=
        if_pos (by rw [hlen]; omega)
      rw [List.range'_succ, List.foldlM_cons, hfirst, Option.bind_eq_bind, Option.bind_some,
        ih (b0 + 1) (by rwa [Nat.add_right_comm, Nat.add_assoc])]
      refine congrArg some (funext fun p ↦ ?_)
      have hcell := Nat.div_add_mod' p L
      have hcol := Nat.mod_lt p hL
      rcases Nat.lt_trichotomy (p / L) b0 with hbefore | heq | hafter
      · have hp : p < b0 * L := by
          rw [← Nat.div_lt_iff_lt_mul hL]
          exact hbefore
        rw [if_neg (by omega), if_neg (by omega), if_neg (by omega)]
      · rw [if_neg (by omega), if_pos (by rw [← heq]; omega), if_pos (by omega), heq,
          show p - b0 * L = p % L by rw [← heq]; omega]
      · have hp : b0 * L + L ≤ p := by
          rw [← Nat.succ_mul, ← Nat.le_div_iff_mul_le hL]
          exact hafter
        have hrest : (blk b0).getD (p - b0 * L) 0 = 0 := List.getD_eq_default _ _ (by rw [hlen]; omega)
        rw [if_pos (by omega : b0 * L ≤ p), hrest, UInt8.or_zero]
        exact if_congr (by omega) rfl rfl

theorem le_of_foldlM_orBytes {size L : ℕ} {blk : ℕ → List UInt8} (hlen : ∀ b, (blk b).length = L) {b0 n : ℕ}
    {mem mem' : ℕ → UInt8}
    (h : (List.range' b0 (n + 1)).foldlM (fun mem b ↦ orBytes size mem (b * L) (blk b)) mem = some mem') :
    (b0 + n + 1) * L ≤ size := by
  rw [List.range'_concat, List.foldlM_append] at h
  obtain ⟨mem₁, -, h⟩ := Option.bind_eq_some_iff.mp h
  obtain ⟨mem₂, hlast, -⟩ := Option.bind_eq_some_iff.mp h
  dsimp only [orBytes] at hlast
  split at hlast
  · next hle =>
      rwa [hlen, Nat.one_mul, ← Nat.succ_mul] at hle
  · cases hlast

section Ranges

variable {i0 i1 nb size : ℕ} {mem : ℕ → UInt8}

theorem pq4PackCodesRange_eq (hnsq : nsq % 2 = 0) (codes : ℕ → UInt8) (M i0 i1 bbs size : ℕ) (mem : ℕ → UInt8) :
    pq4PackCodesRange codes M i0 i1 bbs nsq size mem =
      (List.range' (i0 / bbs) ((i1 + (2 ^ 64 - 1)) % 2 ^ 64 / bbs + 1 - i0 / bbs)).foldlM
        (fun mem b ↦ orBytes size mem (b * ((nsq + 1) / 2 * bbs)) (packBlock bbs nsq fun pair group ↦
          getMatrixColumn codes (i1 - i0) ((M + 1) / 2) (↑(b * bbs) - ↑i0 + ↑(group * 32)) pair)) mem := by
  have hplace (b : ℕ) : b * bbs * nsq / 2 = b * ((nsq + 1) / 2 * bbs) := by
    rw [Nat.mul_div_assoc _ (Nat.dvd_of_mod_eq_zero hnsq), show (nsq + 1) / 2 = nsq / 2 by omega, Nat.mul_assoc,
      Nat.mul_comm bbs]
  unfold pq4PackCodesRange
  simp only [hplace]

/-- A range adds its vectors to those before it. -/
theorem pq4PackCodesRange_step (hbbs : 32 ∣ bbs) (hnb : bbs ∣ nb) (hnb' : nb < 2 ^ 64) (hnsq : nsq % 2 = 0)
    (hpairs : 0 < nsq) (hle : i0 ≤ i1) (hi1 : 0 < i1) (hroom : i1 ≤ nb)
    (hmem : ∀ p < nb / bbs * ((nsq + 1) / 2 * bbs), mem p = (packedBytes codes i0 M nb bbs nsq).getD p 0) :
    ∃ mem', pq4PackCodesRange (fun k ↦ codes (i0 * ((M + 1) / 2) + k)) M i0 i1 bbs nsq
        (nb / bbs * ((nsq + 1) / 2 * bbs)) mem = some mem' ∧
      ∀ p < nb / bbs * ((nsq + 1) / 2 * bbs), mem' p = (packedBytes codes i1 M nb bbs nsq).getD p 0 := by
  have hpos : 0 < bbs := Nat.pos_of_ne_zero fun h ↦ by
    rw [h] at hnb
    have := Nat.eq_zero_of_zero_dvd hnb
    omega
  have hL : 0 < (nsq + 1) / 2 * bbs := Nat.mul_pos (by omega) hpos
  have hwrap : (i1 + (2 ^ 64 - 1)) % 2 ^ 64 = i1 - 1 := by omega
  have hlast : (i1 - 1) / bbs < nb / bbs := by
    rw [Nat.div_lt_iff_lt_mul hpos, Nat.div_mul_cancel hnb]
    omega
  have hfirst : i0 / bbs ≤ (i1 - 1) / bbs + 1 := by
    rw [← Nat.add_div_right _ hpos]
    exact Nat.div_le_div_right (by omega)
  have hblocks : i0 / bbs + ((i1 - 1) / bbs + 1 - i0 / bbs) = (i1 - 1) / bbs + 1 := Nat.add_sub_of_le hfirst
  rw [pq4PackCodesRange_eq hnsq, hwrap, foldlM_orBytes (fun b ↦ length_packBlock hbbs nsq _) hL _ _ (by
    rw [hblocks]
    exact Nat.mul_le_mul_right _ hlast)]
  refine ⟨_, rfl, fun p hp ↦ ?_⟩
  have hcol := Nat.mod_lt p hL
  rw [hblocks, hmem p hp, getD_packedBytes hbbs hp, getD_packedBytes hbbs hp]
  split
  · exact packBlock_or hbbs (fun pair group k ↦ getMatrixColumn_or hle codes _ _ _ _ (by omega)) _
  · next hout =>
      rw [getD_packBlock hbbs _ hcol, getD_packBlock hbbs _ hcol]
      -- the block is before the first one of the range, or after its last one
      have hside : (p / ((nsq + 1) / 2 * bbs) + 1) * bbs ≤ i0 ∨ i1 ≤ p / ((nsq + 1) / 2 * bbs) * bbs := by
        rcases Nat.lt_or_ge (p / ((nsq + 1) / 2 * bbs)) (i0 / bbs) with hbefore | hafter
        · exact .inl (by rwa [← Nat.le_div_iff_mul_le hpos])
        · have hlt : (i1 - 1) / bbs < p / ((nsq + 1) / 2 * bbs) := by omega
          rw [Nat.div_lt_iff_lt_mul hpos] at hlt
          exact .inr (by omega)
      have hcolumn := Nat.mod_lt (p % ((nsq + 1) / 2 * bbs)) hpos
      exact congrArg (List.getD · _ 0) (packColumn_congr fun k hk ↦ columnsOf_eq hle (by omega) hside _)

theorem packedBytes_zero (hbbs : 32 ∣ bbs) {p : ℕ} (hp : p < nb / bbs * ((nsq + 1) / 2 * bbs)) :
    (packedBytes codes 0 M nb bbs nsq).getD p 0 = 0 := by
  have hL : 0 < (nsq + 1) / 2 * bbs := Nat.pos_of_ne_zero fun h ↦ by
    rw [h, Nat.mul_zero] at hp
    exact Nat.not_lt_zero p hp
  have hzero (b pair group : ℕ) : packColumn (columnsOf codes 0 M bbs b pair group) = List.replicate 32 0 := by
    have hcolumn : columnsOf codes 0 M bbs b pair group = fun _ ↦ 0 := by
      funext k
      unfold columnsOf getMatrixColumn
      rw [if_neg (by omega)]
    rw [hcolumn]
    rfl
  rw [getD_packedBytes hbbs hp, getD_packBlock hbbs _ (Nat.mod_lt p hL), hzero, List.getD_eq_getElem?_getD,
    List.getElem?_replicate]
  split <;> rfl

/-- Ranges one after the other, of which none ends before the first vector. -/
theorem packRanges_run (hbbs : 32 ∣ bbs) (hnb : bbs ∣ nb) (hnb' : nb < 2 ^ 64) (hnsq : nsq % 2 = 0)
    (hpairs : 0 < nsq) {lengths : List ℕ} (hstart : 0 < i0 ∨ lengths.head? ≠ some 0) (hroom : i0 + lengths.sum ≤ nb)
    (hmem : ∀ p < nb / bbs * ((nsq + 1) / 2 * bbs), mem p = (packedBytes codes i0 M nb bbs nsq).getD p 0) :
    ∃ mem', packRanges codes M bbs nsq (nb / bbs * ((nsq + 1) / 2 * bbs)) lengths i0 mem = some mem' ∧
      ∀ p < nb / bbs * ((nsq + 1) / 2 * bbs),
        mem' p = (packedBytes codes (i0 + lengths.sum) M nb bbs nsq).getD p 0 := by
  induction lengths generalizing i0 mem with
  | nil => exact ⟨mem, rfl, hmem⟩
  | cons n ns ih =>
      rw [List.sum_cons] at hroom ⊢
      have hend : 0 < i0 + n := by
        rcases hstart with hi0 | hn
        · omega
        · have hne : n ≠ 0 := fun h ↦ hn (congrArg some h)
          omega
      obtain ⟨mem₁, hrange, hmem₁⟩ := pq4PackCodesRange_step hbbs hnb hnb' hnsq hpairs (Nat.le_add_right i0 n) hend
        (by omega) hmem
      rw [packRanges, hrange, Option.bind_some, ← Nat.add_assoc]
      exact ih (.inl hend) (by omega) hmem₁

theorem packRanges_none (hbbs : 32 ∣ bbs) (hpos : 0 < bbs) (hnb' : nb < 2 ^ 64) (hnsq : nsq % 2 = 0)
    (hpairs : 0 < nsq) (lengths : List ℕ) (mem : ℕ → UInt8) :
    packRanges codes M bbs nsq (nb / bbs * ((nsq + 1) / 2 * bbs)) (0 :: lengths) 0 mem = none := by
  rw [packRanges, pq4PackCodesRange_eq hnsq, Nat.zero_div, Nat.zero_add, Nat.zero_add, Nat.sub_zero]
  refine Option.bind_eq_none_iff.mpr fun mem' hmem' ↦ ?_
  have hlast := le_of_foldlM_orBytes (fun b ↦ length_packBlock hbbs nsq _) hmem'
  have hblocks := Nat.le_of_mul_le_mul_right hlast (Nat.mul_pos (by omega) hpos)
  have hdiv : nb / bbs ≤ (2 ^ 64 - 1) % 2 ^ 64 / bbs := Nat.div_le_div_right (by omega)
  omega

end Ranges

/-! ## One layout -/

section Layouts

variable {ntotal nb : ℕ} {blocks mem : ℕ → UInt8} {code : List UInt8}

theorem layoutAddress_lt (hbbs : 32 ∣ bbs) (hnb : bbs ∣ nb) (hv : v < nb) (hsq : sq / 2 < (nsq + 1) / 2) :
    (layoutAddress bbs nsq v sq).1 < nb / bbs * ((nsq + 1) / 2 * bbs) := by
  have hpos : 0 < bbs := Nat.pos_of_ne_zero fun h ↦ by
    rw [h] at hnb
    have := Nat.eq_zero_of_zero_dvd hnb
    omega
  have hblock : v / bbs < nb / bbs := by
    rw [Nat.div_lt_iff_lt_mul hpos, Nat.div_mul_cancel hnb]
    exact hv
  have hslot := slotOf_lt v
  have hin := Nat.mod_lt v hpos
  exact Lib.cell_lt hblock (Lib.cell_lt hsq (by omega))

theorem pq4PackCodes_eq (hbbs : 32 ∣ bbs) (hpos : 0 < bbs) (hnb : bbs ∣ nb) (hnsq : nsq % 2 = 0) :
    pq4PackCodes codes ntotal M nb bbs nsq blocks = .ok (write blocks 0 (packedBytes codes ntotal M nb bbs nsq)) := by
  unfold pq4PackCodes
  rw [decide_eq_true (Nat.mod_eq_zero_of_dvd hbbs), decide_eq_true (Nat.mod_eq_zero_of_dvd hnb),
    decide_eq_true hnsq, if_neg hpos.ne']
  rfl

theorem write_packedBytes (hbbs : 32 ∣ bbs) {p : ℕ} (hp : p < nb / bbs * ((nsq + 1) / 2 * bbs)) :
    write blocks 0 (packedBytes codes ntotal M nb bbs nsq) p = (packedBytes codes ntotal M nb bbs nsq).getD p 0 := by
  rw [← length_packedBytes hbbs codes ntotal M nb nsq] at hp
  rw [write, if_pos (Nat.zero_le p), Nat.sub_zero, List.getD_eq_getElem _ _ hp, List.getD_eq_getElem _ _ hp]

theorem getNib_packed (hbbs : 32 ∣ bbs) (hnb : bbs ∣ nb) (hle : ntotal ≤ nb) (hv : v < ntotal) (hsq : sq < nsq) :
    getNib (write blocks 0 (packedBytes codes ntotal M nb bbs nsq)) (layoutAddress bbs nsq v sq) =
      component codes M v sq := by
  have hvn : v < nb := hv.trans_le hle
  unfold getNib
  rw [write_packedBytes hbbs (layoutAddress_lt hbbs hnb hvn (by omega)), nibble_packedBytes hbbs hnb hvn hsq,
    if_pos hv]

/-- `pq4_get_packed_element` finds the elements of the codes. -/
def ElementsFound (codes : ℕ → UInt8) (ntotal M bbs nsq : ℕ) (mem : ℕ → UInt8) : Prop :=
  ∀ v < ntotal, ∀ sq < M, pq4GetPackedElement mem 0 bbs nsq v sq = component codes M v sq

/-- A vector that is not among the first 32 of its block has the elements of the one that is taken for it. -/
def TwinsAgree (codes : ℕ → UInt8) (ntotal M bbs : ℕ) : Prop :=
  ∀ v < ntotal, 32 ≤ v % bbs → ∀ sq < M, component codes M (twinOf bbs v) sq = component codes M v sq

theorem elementsFound_iff (hbbs : 32 ∣ bbs) (hpos : 0 < bbs) (hnb : bbs ∣ nb) (hle : ntotal ≤ nb) (hM : M ≤ nsq) :
    ElementsFound codes ntotal M bbs nsq (write blocks 0 (packedBytes codes ntotal M nb bbs nsq)) ↔
      TwinsAgree codes ntotal M bbs := by
  constructor
  · intro h v hv hlate sq hsq
    have hfound := h v hv sq hsq
    rwa [pq4GetPackedElement, packedAddress_of_le hbbs hpos hlate,
      getNib_packed hbbs hnb hle ((twinOf_lt hlate).trans hv) (hsq.trans_le hM)] at hfound
  · intro h v hv sq hsq
    rw [pq4GetPackedElement]
    rcases Nat.lt_or_ge (v % bbs) 32 with hearly | hlate
    · rw [packedAddress_of_lt hbbs hearly, getNib_packed hbbs hnb hle hv (hsq.trans_le hM)]
    · rw [packedAddress_of_le hbbs hpos hlate,
        getNib_packed hbbs hnb hle ((twinOf_lt hlate).trans hv) (hsq.trans_le hM)]
      exact h v hv hlate sq hsq

def ChangesOnly (bbs nsq v : ℕ) (mem mem' : ℕ → UInt8) : Prop :=
  ∀ a, (∀ sq < nsq, a ≠ layoutAddress bbs nsq v sq) → getNib mem' a = getNib mem a

/-- The elements that `pack_1` writes for a vector that is not among the first 32 are there already. -/
def TwinHolds (bbs nsq v : ℕ) (code : List UInt8) (mem : ℕ → UInt8) : Prop :=
  ∀ sq < nsq, getNib mem (layoutAddress bbs nsq (twinOf bbs v) sq) =
    nibble (code.getD (sq / 2) 0) (decide (sq % 2 = 1))

theorem mem_writes_of_lt (hsq : sq < 2 * CodePackerPQ4.codeSize nsq) :
    (packedAddress 0 bbs nsq v sq, nibble (code.getD (sq / 2) 0) (decide (sq % 2 = 1))) ∈
      CodePackerPQ4.writes nsq bbs code v := by
  refine List.mem_flatMap.mpr ⟨sq / 2, List.mem_range.mpr (by omega), ?_⟩
  rcases Nat.mod_two_eq_zero_or_one sq with h | h
  · rw [show 2 * (sq / 2) = sq by omega, h]
    exact List.mem_cons_self
  · rw [show 2 * (sq / 2) + 1 = sq by omega, h]
    exact List.mem_cons_of_mem _ (List.mem_singleton.mpr rfl)

theorem changesOnly_iff (hbbs : 32 ∣ bbs) (hpos : 0 < bbs) (hnsq : nsq % 2 = 0) :
    ChangesOnly bbs nsq v mem (CodePackerPQ4.pack1 nsq bbs code v mem) ↔
      v % bbs < 32 ∨ TwinHolds bbs nsq v code mem := by
  have hle : 32 ≤ bbs := Nat.le_of_dvd hpos hbbs
  have hsize : 2 * CodePackerPQ4.codeSize nsq = nsq := by
    rw [CodePackerPQ4.codeSize_eq]
    omega
  have hwritten : ∀ sq < nsq, getNib (CodePackerPQ4.pack1 nsq bbs code v mem) (packedAddress 0 bbs nsq v sq) =
      nibble (code.getD (sq / 2) 0) (decide (sq % 2 = 1)) := fun sq hsq ↦ by
    rw [CodePackerPQ4.pack1_eq hpos]
    exact Lib.getNib_setNibs_of_mem (fun _ ↦ CodePackerPQ4.writes_lt) (CodePackerPQ4.writes_nodup hle)
      (mem_writes_of_lt (hsize.symm ▸ hsq)) mem
  have hkept : ∀ a, (∀ sq < nsq, a ≠ packedAddress 0 bbs nsq v sq) →
      getNib (CodePackerPQ4.pack1 nsq bbs code v mem) a = getNib mem a := fun a ha ↦ by
    rw [CodePackerPQ4.pack1_eq hpos]
    refine Lib.getNib_setNibs_of_notMem (fun _ ↦ CodePackerPQ4.writes_lt) (fun hmem ↦ ?_) mem
    obtain ⟨w, hw, heq⟩ := List.mem_map.mp hmem
    obtain ⟨sq, hsq, rfl⟩ := CodePackerPQ4.mem_writes hw
    exact ha sq (hsize ▸ hsq) heq.symm
  constructor
  · intro h
    refine or_iff_not_imp_left.mpr fun hlate sq hsq ↦ ?_
    have hlate := not_lt.mp hlate
    rw [← hwritten sq hsq, packedAddress_of_le hbbs hpos hlate]
    refine (h _ fun sq' hsq' heq ↦ ?_).symm
    exact (twinOf_lt hlate).ne (layoutAddress_inj hbbs hpos (by omega) (by omega) heq).1
  · rintro (hearly | htwin) a ha
    · exact hkept a fun sq hsq ↦ packedAddress_of_lt hbbs hearly ▸ ha sq hsq
    · rcases Nat.lt_or_ge (v % bbs) 32 with hearly | hlate
      · exact hkept a fun sq hsq ↦ packedAddress_of_lt hbbs hearly ▸ ha sq hsq
      · by_cases hw : ∃ sq < nsq, a = packedAddress 0 bbs nsq v sq
        · obtain ⟨sq, hsq, rfl⟩ := hw
          rw [hwritten sq hsq, packedAddress_of_le hbbs hpos hlate, htwin sq hsq]
        · exact hkept a fun sq hsq heq ↦ hw ⟨sq, hsq, heq⟩

theorem codeSize_even (hnsq : nsq = 2 * ((M + 1) / 2)) : CodePackerPQ4.codeSize M = CodePackerPQ4.codeSize nsq := by
  rw [CodePackerPQ4.codeSize_eq, CodePackerPQ4.codeSize_eq]
  omega

theorem packedAddress_even (hnsq : nsq = 2 * ((M + 1) / 2)) (bbs v sq : ℕ) :
    packedAddress 0 bbs M v sq = packedAddress 0 bbs nsq v sq := by
  unfold packedAddress
  rw [show (nsq + 1) / 2 = (M + 1) / 2 by omega]

theorem pack1_even (hnsq : nsq = 2 * ((M + 1) / 2)) (hpos : 0 < bbs) :
    CodePackerPQ4.pack1 M bbs code v mem = CodePackerPQ4.pack1 nsq bbs code v mem := by
  rw [CodePackerPQ4.pack1_eq hpos, CodePackerPQ4.pack1_eq hpos]
  unfold CodePackerPQ4.writes
  simp only [codeSize_even hnsq, packedAddress_even hnsq]

/-- After `pq4_pack_codes`, `pq4_get_packed_element` finds the elements if and only if every vector that is not among
the first 32 of its block has those of the vector that is taken for it; ranges give the same bytes if and only if
none of them is an empty one at the start; and `pack_1`, of which `unpack_1` always returns the code, changes other
elements if and only if the vector is not among the first 32 of its block and they are not yet those of the code. -/
theorem pq4Layouts_iff (hbbs : 32 ∣ bbs) (hpos : 0 < bbs) (hM : 1 ≤ M) (hnsq : nsq = 2 * ((M + 1) / 2)) :
    (∀ (codes : ℕ → UInt8) (ntotal nb : ℕ) (blocks : ℕ → UInt8), ntotal ≤ nb → bbs ∣ nb → nb < 2 ^ 64 →
      ∃ mem, pq4PackCodes codes ntotal M nb bbs nsq blocks = .ok mem ∧
        (ElementsFound codes ntotal M bbs nsq mem ↔ TwinsAgree codes ntotal M bbs) ∧
        ∀ (lengths : List ℕ) (zeroed : ℕ → UInt8), lengths.sum = ntotal → (∀ p < nb * nsq / 2, zeroed p = 0) →
          ((∃ mem', packRanges codes M bbs nsq (nb * nsq / 2) lengths 0 zeroed = some mem' ∧
            ∀ p < nb * nsq / 2, mem' p = mem p) ↔ lengths.head? ≠ some 0)) ∧
    ∀ (v : ℕ) (code : List UInt8) (mem : ℕ → UInt8), code.length = CodePackerPQ4.codeSize M →
      CodePackerPQ4.unpack1 M bbs (CodePackerPQ4.pack1 M bbs code v mem) v = code ∧
        (ChangesOnly bbs nsq v mem (CodePackerPQ4.pack1 M bbs code v mem) ↔
          v % bbs < 32 ∨ TwinHolds bbs nsq v code mem) := by
  have heven : nsq % 2 = 0 := by omega
  constructor
  · intro codes ntotal nb blocks hle hnb hnb'
    have hsize : nb * nsq / 2 = nb / bbs * ((nsq + 1) / 2 * bbs) := by
      rw [Nat.mul_div_assoc _ (Nat.dvd_of_mod_eq_zero heven), show (nsq + 1) / 2 = nsq / 2 by omega,
        Nat.mul_left_comm, Nat.div_mul_cancel hnb, Nat.mul_comm]
    rw [hsize]
    refine ⟨_, pq4PackCodes_eq hbbs hpos hnb heven, elementsFound_iff hbbs hpos hnb hle (by omega), ?_⟩
    intro lengths zeroed hsum hzero
    constructor
    · rintro ⟨mem', hrun, -⟩ hhead
      obtain ⟨rest, rfl⟩ := List.head?_eq_some_iff.mp hhead
      rw [packRanges_none hbbs hpos hnb' heven (by omega)] at hrun
      cases hrun
    · intro hhead
      have hstart : ∀ p < nb / bbs * ((nsq + 1) / 2 * bbs),
          zeroed p = (packedBytes codes 0 M nb bbs nsq).getD p 0 := fun p hp ↦ by
        rw [hzero p hp, packedBytes_zero hbbs hp]
      obtain ⟨mem', hrun, hmem'⟩ :=
        packRanges_run hbbs hnb hnb' heven (by omega) (.inr hhead) (by omega) hstart
      refine ⟨mem', hrun, fun p hp ↦ ?_⟩
      rw [hmem' p hp, write_packedBytes hbbs hp, Nat.zero_add, hsum]
  · intro v code mem hcode
    refine ⟨CodePackerPQ4.unpack_pack_self (Nat.le_of_dvd hpos hbbs) hcode mem, ?_⟩
    rw [pack1_even hnsq hpos]
    exact changesOnly_iff hbbs hpos heven

/-- Two vectors of three elements in a block of 32, also one by one. -/
theorem pq4Layouts_iff_two :
    ∃ mem, pq4PackCodes (fun i ↦ UInt8.ofNat (i + 3)) 2 3 32 32 4 (fun _ ↦ 7) = .ok mem ∧
      ElementsFound (fun i ↦ UInt8.ofNat (i + 3)) 2 3 32 4 mem ∧
      ∃ mem', packRanges (fun i ↦ UInt8.ofNat (i + 3)) 3 32 4 (32 * 4 / 2) [1, 1] 0 (fun _ ↦ 0) = some mem' ∧
        ∀ p < 32 * 4 / 2, mem' p = mem p := by
  obtain ⟨mem, hpack, hfound, hranges⟩ := (pq4Layouts_iff (by decide : 32 ∣ 32) (by decide) (by decide : 1 ≤ 3)
    (by decide : 4 = 2 * ((3 + 1) / 2))).1 (fun i ↦ UInt8.ofNat (i + 3)) 2 32 (fun _ ↦ 7) (by decide) (by decide) (by decide)
  refine ⟨mem, hpack, hfound.mpr fun v hv hlate ↦ by omega, ?_⟩
  exact (hranges [1, 1] (fun _ ↦ 0) rfl fun _ _ ↦ rfl).mpr (by decide)

/-- Vector 32 of a block of 64 is taken for vector 16. -/
theorem not_elementsFound_of_64 :
    ¬ ∃ mem, pq4PackCodes (fun i ↦ if i = 32 then 1 else 0) 33 1 64 64 2 (fun _ ↦ 0) = .ok mem ∧
      ElementsFound (fun i ↦ if i = 32 then 1 else 0) 33 1 64 2 mem := by
  rintro ⟨mem, hpack, hfound⟩
  have hmem := Except.ok.inj hpack
  have helement := hfound 32 (by decide) 0 (by decide)
  rw [← hmem] at helement
  revert helement
  decide +kernel

end Layouts

end FaissNavix
