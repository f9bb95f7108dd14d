import FaissNavix.Lib.Loop
import Mathlib.Data.UInt

/-!
# Registers of 256 bits

What is used of `faiss/utils/simdlib.h`, with the meaning that `simdlib_emulated.h` has.  A register is
given by its lanes: 32 bytes, or 16 words.
-/

namespace FaissNavix

open Lib

/-- `simd32uint8` -/
abbrev Simd32UInt8 := ℕ → UInt8

/-- `simd16uint16` -/
abbrev Simd16UInt16 := ℕ → UInt16

namespace Simd

def set1 (x : UInt16) : Simd16UInt16 := fun _ ↦ x

/-- `==`: all bits of a word are set where the words are equal. -/
def eqMask (a b : Simd16UInt16) : Simd16UInt16 := fun j ↦ if a j = b j then 0xffff else 0

/-- `min` -/
def minimum (a b : Simd16UInt16) : Simd16UInt16 := fun j ↦ min (a j) (b j)

/-- `max` -/
def maximum (a b : Simd16UInt16) : Simd16UInt16 := fun j ↦ max (a j) (b j)

def toU8 (w : Simd16UInt16) : Simd32UInt8 := fun j ↦
  if j % 2 = 0 then (w (j / 2)).toUInt8 else (w (j / 2) >>> 8).toUInt8

/-- The words of two registers as bytes, in four groups of eight. -/
def uint16ToUint8Saturate (a b : Simd16UInt16) : Simd32UInt8 := fun i ↦
  let saturate := fun x : UInt16 ↦ if 256 ≤ x then 0xff else x.toUInt8
  if i < 8 then saturate (a i)
  else if i < 16 then saturate (b (i - 8))
  else if i < 24 then saturate (a (i - 8))
  else saturate (b (i - 16))

def getMSBs (a : Simd32UInt8) : BitVec 32 :=
  (List.range 32).foldl (fun res i ↦ if a i &&& 0x80 ≠ 0 then res ||| (1#32 <<< i) else res) 0#32

/-- The bytes of `b` where the most significant bit of the mask is set, those of `a` elsewhere. -/
def blendv (a b mask : Simd32UInt8) : Simd32UInt8 := fun i ↦
  if mask i &&& 0x80 ≠ 0 then b i else a i

/-! ## Masks and their bits -/

theorem getLsbD_getMSBs (a : Simd32UInt8) {i : ℕ} (hi : i < 32) :
    (getMSBs a).getLsbD i = decide (a i &&& 0x80 ≠ 0) := by
  have hloop := foldl_range_invariant (n := 32) (s := 0#32)
    (f := fun res i ↦ if a i &&& 0x80 ≠ 0 then res ||| (1#32 <<< i) else res)
    (fun k res ↦ ∀ i < 32, res.getLsbD i = (decide (i < k) && decide (a i &&& 0x80 ≠ 0)))
    (fun i _ ↦ by simp) (fun k hk res hres i hi ↦ ?_)
  · change (getMSBs a).getLsbD i = _
    rw [getMSBs, hloop i hi, decide_eq_true hi, Bool.true_and]
  · have hone : (1#32 <<< k).getLsbD i = decide (i = k) := by
      simp only [BitVec.getLsbD_shiftLeft, hi, decide_true, Bool.true_and, BitVec.getLsbD_one]
      by_cases hik : i = k
      · simp [hik]
      · by_cases hlt : i < k
        · simp [hlt, hik]
        · simp [hlt, hik, show i - k ≠ 0 by omega]
    by_cases hset : a k &&& 0x80 ≠ 0
    · rw [if_pos hset, BitVec.getLsbD_or, hres i hi, hone]
      rcases lt_trichotomy i k with hlt | rfl | hgt
      · simp [hlt, hlt.ne, show i < k + 1 by omega]
      · simp [hset]
      · simp [hgt.ne', show ¬ i < k by omega, show ¬ i < k + 1 by omega]
    · rw [if_neg hset, hres i hi]
      rcases lt_trichotomy i k with hlt | rfl | hgt
      · simp [hlt, show i < k + 1 by omega]
      · simp [hset]
      · simp [show ¬ i < k by omega, show ¬ i < k + 1 by omega]

theorem toNat_cpop_eq_countP (x : BitVec 32) :
    x.cpop.toNat = (List.range 32).countP fun i ↦ x.getLsbD i := by
  have hrec : ∀ k, x.cpopNatRec k 0 = (List.range k).countP fun i ↦ x.getLsbD i := by
    intro k
    induction k with
    | zero => rfl
    | succ k ih =>
        rw [BitVec.cpopNatRec_succ, BitVec.cpopNatRec_add, ih, List.range_succ, List.countP_append,
          List.countP_singleton]
        cases x.getLsbD k <;> rfl
  rw [BitVec.toNat_cpop, hrec]

theorem toU8_eqMask (a b : Simd16UInt16) (i : ℕ) :
    decide (toU8 (eqMask a b) i &&& 0x80 ≠ 0) = decide (a (i / 2) = b (i / 2)) := by
  unfold toU8 eqMask
  by_cases h : a (i / 2) = b (i / 2)
  · simp only [h, if_true]
    split <;> decide
  · simp only [h, if_false]
    split <;> decide

/-- The groups of a saturated pair of masks. -/
theorem saturate_eqMask (a b c d : Simd16UInt16) (i : ℕ) :
    decide (uint16ToUint8Saturate (eqMask a b) (eqMask c d) i &&& 0x80 ≠ 0) =
      if i < 8 then decide (a i = b i)
      else if i < 16 then decide (c (i - 8) = d (i - 8))
      else if i < 24 then decide (a (i - 8) = b (i - 8))
      else decide (c (i - 16) = d (i - 16)) := by
  have hmask : ∀ p : Prop, [Decidable p] →
      decide ((if (256 : UInt16) ≤ (if p then 0xffff else 0) then (0xff : UInt8)
        else (if p then 0xffff else 0 : UInt16).toUInt8) &&& 0x80 ≠ 0) = decide p := by
    intro p _
    by_cases hp : p
    · simp only [hp, if_true]
      decide
    · simp only [hp, if_false]
      decide
  unfold uint16ToUint8Saturate eqMask
  split
  · exact hmask _
  · split
    · exact hmask _
    · split <;> exact hmask _

end Simd

end FaissNavix
