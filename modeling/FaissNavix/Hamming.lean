import FaissNavix.Lib.BitWeight
import FaissNavix.Lib.Bits
import FaissNavix.Lib.Region

/-!
# Hamming distances

The Hamming computers of `faiss/utils/hamming_distance/generic-inl.h`, which `dispatch_HammingComputer`
chooses by the size of the codes.  They differ in the words they take from a code, and all return the
number of bits in which two codes differ.
-/

namespace FaissNavix

open Lib (bitAt weight)

def memBit (x : ℕ → UInt8) (p : ℕ) : Bool :=
  (x (p / 8)).toNat.testBit (p % 8)

/-- `*(uint8_t*)`, `*(uint32_t*)` or `*(uint64_t*)`, from an address on. -/
def loadWord (size : ℕ) (x : ℕ → UInt8) (address : ℕ) : ℕ :=
  Lib.ofBytes (Lib.read x address size)

/-- `popcount64`, and `hamdis_tab_ham_bytes` for a byte. -/
def popcount64 (x : ℕ) : ℕ :=
  weight 64 x

/-- The sizes of the words of a code that the Hamming computer for its size takes. -/
def hammingWords : ℕ → List ℕ
  | 4 => [4]
  | 8 => [8]
  | 16 => [8, 8]
  | 20 => [8, 8, 4]
  | 32 => [8, 8, 8, 8]
  | 64 => [8, 8, 8, 8, 8, 8, 8, 8]
  | codeSize => List.replicate (codeSize / 8) 8 ++ List.replicate (codeSize % 8) 1

/-- The sum over words, from an address on. -/
def hammingFrom (a b : ℕ → UInt8) : List ℕ → ℕ → ℕ
  | [], _ => 0
  | size :: sizes, address =>
    popcount64 (loadWord size b address ^^^ loadWord size a address) + hammingFrom a b sizes (address + size)

/-- `hamming`, of the Hamming computer for `a`. -/
def hamming (codeSize : ℕ) (a b : ℕ → UInt8) : ℕ :=
  hammingFrom a b (hammingWords codeSize) 0

/-- The number of places below `n` at which bits differ. -/
def differing (n : ℕ) (a b : ℕ → Bool) : ℕ :=
  (List.range n).countP fun i ↦ a i != b i

/-! ## Bits -/

variable {n m : ℕ} {a b a' b' : ℕ → Bool}

theorem differing_congr (ha : ∀ i < n, a i = a' i) (hb : ∀ i < n, b i = b' i) :
    differing n a b = differing n a' b' := by
  refine List.countP_congr fun i hi ↦ ?_
  rw [ha i (List.mem_range.mp hi), hb i (List.mem_range.mp hi)]

theorem differing_le (n : ℕ) (a b : ℕ → Bool) : differing n a b ≤ n :=
  List.countP_le_length.trans List.length_range.le

theorem differing_add (n m : ℕ) (a b : ℕ → Bool) :
    differing (n + m) a b = differing n a b + differing m (fun i ↦ a (n + i)) fun i ↦ b (n + i) := by
  unfold differing
  rw [List.range_add, List.countP_append, List.countP_map]
  rfl

theorem weight_xor (w x y : ℕ) : weight w (x ^^^ y) = differing w x.testBit y.testBit := by
  refine List.countP_congr fun i _ ↦ ?_
  rw [Nat.testBit_xor]

theorem testBit_ofBytes (bytes : List UInt8) (j : ℕ) :
    (Lib.ofBytes bytes).testBit j = bitAt bytes j := by
  induction bytes generalizing j with
  | nil =>
      rw [Lib.bitAt_of_le (Nat.zero_le j)]
      exact Nat.zero_testBit j
  | cons byte bytes ih =>
      have hbyte : byte.toNat < 2 ^ 8 := byte.toNat_lt
      rw [Lib.ofBytes, Nat.add_comm, show 256 = 2 ^ 8 from rfl, Nat.testBit_two_pow_mul_add _ hbyte]
      split
      · rename_i hj
        unfold bitAt
        rw [Nat.div_eq_of_lt hj, Nat.mod_eq_of_lt hj]
        rfl
      · rename_i hj
        obtain ⟨i, rfl⟩ := Nat.exists_eq_add_of_le (Nat.not_lt.mp hj)
        unfold bitAt at ih ⊢
        rw [Nat.add_sub_cancel_left, ih, Nat.add_div_left i (by decide), Nat.add_mod_left]
        rfl

theorem bitAt_read (x : ℕ → UInt8) (address : ℕ) {size j : ℕ} (hj : j < 8 * size) :
    bitAt (Lib.read x address size) j = memBit x (8 * address + j) := by
  unfold bitAt memBit Lib.read
  rw [List.getD_eq_getElem?_getD, List.getElem?_map, List.getElem?_range (by omega), Option.map_some,
    Option.getD_some, Nat.mul_add_div (by decide), Nat.mul_add_mod]

theorem testBit_loadWord (size : ℕ) (x : ℕ → UInt8) (address j : ℕ) :
    (loadWord size x address).testBit j = (decide (j < 8 * size) && memBit x (8 * address + j)) := by
  rw [loadWord, testBit_ofBytes]
  by_cases hj : j < 8 * size
  · rw [bitAt_read x address hj, decide_eq_true hj, Bool.true_and]
  · rw [Lib.bitAt_of_le (by rw [Lib.length_read]; omega), decide_eq_false hj, Bool.false_and]

/-! ## The computers -/

variable {x y : ℕ → UInt8}

theorem popcount64_loadWord {size : ℕ} (hsize : size ≤ 8) (x y : ℕ → UInt8) (address : ℕ) :
    popcount64 (loadWord size y address ^^^ loadWord size x address) =
      differing (8 * size) (fun i ↦ memBit x (8 * address + i)) fun i ↦ memBit y (8 * address + i) := by
  obtain ⟨rest, hrest⟩ := Nat.exists_eq_add_of_le (show 8 * size ≤ 64 by omega)
  rw [popcount64, weight_xor, hrest, differing_add]
  have hhigh : differing rest (fun i ↦ (loadWord size y address).testBit (8 * size + i))
      (fun i ↦ (loadWord size x address).testBit (8 * size + i)) = 0 := by
    refine List.countP_eq_zero.mpr fun i _ ↦ ?_
    dsimp only
    rw [testBit_loadWord, testBit_loadWord, decide_eq_false (show ¬ 8 * size + i < 8 * size by omega)]
    exact Bool.false_ne_true
  rw [hhigh, Nat.add_zero]
  refine List.countP_congr fun i hi ↦ ?_
  rw [testBit_loadWord, testBit_loadWord, decide_eq_true (List.mem_range.mp hi), Bool.true_and,
    Bool.true_and, bne_comm]

theorem hammingFrom_eq {sizes : List ℕ} (hsizes : ∀ size ∈ sizes, size ≤ 8) (x y : ℕ → UInt8)
    (address : ℕ) : hammingFrom x y sizes address =
      differing (8 * sizes.sum) (fun i ↦ memBit x (8 * address + i)) fun i ↦ memBit y (8 * address + i) := by
  induction sizes generalizing address with
  | nil => rfl
  | cons size sizes ih =>
      rw [hammingFrom, popcount64_loadWord (hsizes size List.mem_cons_self),
        ih (fun s hs ↦ hsizes s (List.mem_cons_of_mem _ hs)), List.sum_cons, Nat.mul_add, Nat.mul_add, differing_add]
      simp only [Nat.add_assoc]

theorem hammingWords_spec (codeSize : ℕ) :
    (∀ size ∈ hammingWords codeSize, size ≤ 8) ∧ (hammingWords codeSize).sum = codeSize := by
  unfold hammingWords
  split
  case h_7 =>
    refine ⟨fun size hsize ↦ ?_, ?_⟩
    · rcases List.mem_append.mp hsize with hsize | hsize
      · exact (List.eq_of_mem_replicate hsize).le
      · exact (List.eq_of_mem_replicate hsize).trans_le (by decide)
    · rw [List.sum_append, List.sum_replicate, List.sum_replicate, smul_eq_mul, smul_eq_mul,
        Nat.mul_one, Nat.mul_comm]
      exact Nat.div_add_mod codeSize 8
  all_goals exact ⟨by decide, rfl⟩

theorem hamming_eq (codeSize : ℕ) (x y : ℕ → UInt8) :
    hamming codeSize x y = differing (8 * codeSize) (memBit x) (memBit y) := by
  obtain ⟨hsizes, hsum⟩ := hammingWords_spec codeSize
  rw [hamming, hammingFrom_eq hsizes, hsum]
  simp only [Nat.mul_zero, Nat.zero_add]

end FaissNavix
