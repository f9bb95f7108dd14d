import FaissNavix.Partitioning.Compress
import FaissNavix.Simdlib

/-!
# Partitioning words with registers: counting

`find_minimax` and `count_lt_and_eq` of the SIMD routines in `faiss/utils/partitioning.cpp`, for values
that are words.  Blocks of 16 values are compared at once and the bits of the masks are counted; the
values after the last block are looked at one by one.
-/

namespace FaissNavix

open Lib (foldl_range_invariant)

abbrev WordArrays := ℕ → UInt16 × ℤ

namespace SimdPartitioning

open Simd

section
variable (isMax : Bool) (vals : WordArrays) (n : ℕ)

/-- `C::cmp` of `CMax<uint16_t, TI>` and `CMin<uint16_t, TI>`, told apart by `C::is_max` -/
def cmp (a b : UInt16) : Bool := if isMax then decide (b < a) else decide (a < b)

/-- The 16 values from position `i` on. -/
def load (i : ℕ) : Simd16UInt16 := fun j ↦ (vals (i + j)).1

/-- `find_minimax` -/
def findMinimax : UInt16 × UInt16 :=
  let v := (List.range (n / 16)).foldl
    (fun (v : Simd16UInt16 × Simd16UInt16) b ↦
      (minimum v.1 (load vals (16 * b)), maximum v.2 (load vals (16 * b)))) (set1 0xffff, set1 0)
  let s := (List.range 15).foldl
    (fun (s : UInt16 × UInt16) i ↦ (min s.1 (v.1 (i + 1)), max s.2 (v.2 (i + 1)))) (v.1 0, v.2 0)
  (List.range (n - n / 16 * 16)).foldl
    (fun (s : UInt16 × UInt16) i ↦
      (min s.1 (vals (n / 16 * 16 + i)).1, max s.2 (vals (n / 16 * 16 + i)).1)) s

/-- `max_func` -/
def maxFunc (v thr16 : Simd16UInt16) : Simd16UInt16 :=
  if isMax then maximum v thr16 else minimum v thr16

/-- `n_lt` and `n_eq` after one more block of `count_lt_and_eq`. -/
def countBlock (thresh : UInt16) (s : ℕ × ℕ) (i : ℕ) : ℕ × ℕ :=
  let thr16 := set1 thresh
  let v := load vals (16 * i)
  let eqmask := eqMask v thr16
  let max2 := maxFunc isMax v thr16
  let gemask := eqMask v max2
  let bits := getMSBs (uint16ToUint8Saturate eqmask gemask)
  let iEq := (bits &&& 0x00ff00ff#32).cpop.toNat
  let iGe := bits.cpop.toNat - iEq
  (s.1 + (16 - iGe), s.2 + iEq)

/-- `n_lt` and `n_eq` after one more value. -/
def countOne (thresh : UInt16) (s : ℕ × ℕ) (i : ℕ) : ℕ × ℕ :=
  let v := (vals i).1
  if cmp isMax thresh v then (s.1 + 1, s.2)
  else if v = thresh then (s.1, s.2 + 1)
  else s

/-- `count_lt_and_eq` -/
def countLtAndEq (thresh : UInt16) : ℕ × ℕ :=
  let n1 := n / 16
  let s := (List.range n1).foldl (countBlock isMax vals thresh) (0, 0)
  (List.range (n - n1 * 16)).foldl (fun s i ↦ countOne isMax vals thresh s (n1 * 16 + i)) s

end

variable {isMax : Bool} {vals : WordArrays} {n i : ℕ} {thresh : UInt16}

/-! ## Counting -/

variable (isMax : Bool) (vals : WordArrays) (n : ℕ)

/-- The values among the first `n` that are better than a threshold. -/
def ltCount (thresh : UInt16) : ℕ :=
  (List.range n).countP fun i ↦ cmp isMax thresh (vals i).1

/-- The values among the first `n` that are equal to it. -/
def eqCount (thresh : UInt16) : ℕ :=
  (List.range n).countP fun i ↦ (vals i).1 = thresh

theorem countP_range_add (p : ℕ → Bool) (a b : ℕ) :
    (List.range (a + b)).countP p =
      (List.range a).countP p + (List.range b).countP fun i ↦ p (a + i) := by
  rw [List.range_add, List.countP_append, List.countP_map]
  rfl

/-- Bits of which the first and third groups of eight are one mask, and the others another one. -/
theorem countP_groups {bits : ℕ → Bool} {p q : ℕ → Bool}
    (hbits : ∀ i < 32, bits i = if i < 8 then p i else if i < 16 then q (i - 8)
      else if i < 24 then p (i - 8) else q (i - 16)) :
    (List.range 32).countP bits = (List.range 16).countP p + (List.range 16).countP q := by
  have hgroup : ∀ (a : ℕ) (r : ℕ → Bool), (∀ i < 8, bits (a + i) = r i) →
      (List.range 8).countP (fun i ↦ bits (a + i)) = (List.range 8).countP r := fun a r hr ↦
    List.countP_congr fun i hi ↦ by rw [hr i (List.mem_range.mp hi)]
  rw [show 32 = 8 + 8 + 8 + 8 from rfl, show 16 = 8 + 8 from rfl]
  simp only [countP_range_add]
  have h0 := hgroup 0 p fun i hi ↦ by
    rw [Nat.zero_add, hbits i (by omega), if_pos hi]
  have h1 := hgroup 8 q fun i hi ↦ by
    rw [hbits (8 + i) (by omega), if_neg (by omega), if_pos (by omega), Nat.add_sub_cancel_left]
  have h2 := hgroup 16 (fun i ↦ p (8 + i)) fun i hi ↦ by
    rw [hbits (16 + i) (by omega), if_neg (by omega), if_neg (by omega), if_pos (by omega),
      show 16 + i - 8 = 8 + i by omega]
  have h3 := hgroup 24 (fun i ↦ q (8 + i)) fun i hi ↦ by
    rw [hbits (24 + i) (by omega), if_neg (by omega), if_neg (by omega), if_neg (by omega),
      show 24 + i - 16 = 8 + i by omega]
  simp only [Nat.zero_add] at h0
  rw [h0, h1, h2, h3]
  omega

/-- A value is at least as bad as the threshold if it is the worse one of the two. -/
theorem eq_maxFunc_iff (v : Simd16UInt16) (thresh : UInt16) (j : ℕ) :
    v j = maxFunc isMax v (set1 thresh) j ↔ cmp isMax thresh (v j) = false := by
  cases isMax with
  | true =>
      change v j = (if v j ≤ thresh then thresh else v j) ↔ decide (v j < thresh) = false
      rw [decide_eq_false_iff_not, UInt16.lt_iff_toNat_lt]
      split
      · rename_i hle
        rw [UInt16.le_iff_toNat_le] at hle
        rw [← UInt16.toNat_inj]
        omega
      · rename_i hle
        rw [UInt16.le_iff_toNat_le] at hle
        exact ⟨fun _ ↦ by omega, fun _ ↦ rfl⟩
  | false =>
      change v j = (if v j ≤ thresh then v j else thresh) ↔ decide (thresh < v j) = false
      rw [decide_eq_false_iff_not, UInt16.lt_iff_toNat_lt]
      split
      · rename_i hle
        rw [UInt16.le_iff_toNat_le] at hle
        exact ⟨fun _ ↦ by omega, fun _ ↦ rfl⟩
      · rename_i hle
        rw [UInt16.le_iff_toNat_le] at hle
        rw [← UInt16.toNat_inj]
        omega

theorem countBlock_eq (thresh : UInt16) (s : ℕ × ℕ) (i : ℕ) :
    countBlock isMax vals thresh s i =
      (s.1 + (List.range 16).countP (fun j ↦ cmp isMax thresh (vals (16 * i + j)).1),
        s.2 + (List.range 16).countP fun j ↦ (vals (16 * i + j)).1 = thresh) := by
  let v := load vals (16 * i)
  let bits := getMSBs (uint16ToUint8Saturate (eqMask v (set1 thresh))
    (eqMask v (maxFunc isMax v (set1 thresh))))
  have hbits : ∀ j < 32, bits.getLsbD j =
      if j < 8 then decide (v j = thresh) else if j < 16 then !cmp isMax thresh (v (j - 8))
      else if j < 24 then decide (v (j - 8) = thresh) else !cmp isMax thresh (v (j - 16)) := by
    intro j hj
    have hge : ∀ u, decide (v u = maxFunc isMax v (set1 thresh) u) = !cmp isMax thresh (v u) := by
      intro u
      have hiff := eq_maxFunc_iff isMax v thresh u
      cases hc : cmp isMax thresh (v u) with
      | true => exact decide_eq_false fun heq ↦ Bool.false_ne_true ((hiff.mp heq).symm.trans hc)
      | false => exact decide_eq_true (hiff.mpr hc)
    rw [getLsbD_getMSBs _ hj, saturate_eqMask]
    simp only [hge, set1]
    rfl
  have heq : (bits &&& 0x00ff00ff#32).cpop.toNat =
      (List.range 16).countP fun j ↦ decide (v j = thresh) := by
    have hmask : ∀ j < 32, (0x00ff00ff#32).getLsbD j = decide (j < 8 ∨ 16 ≤ j ∧ j < 24) := by decide
    rw [toNat_cpop_eq_countP, countP_groups (p := fun j ↦ decide (v j = thresh)) (q := fun _ ↦ false)
      fun j hj ↦ ?_]
    · simp
    · rw [BitVec.getLsbD_and, hbits j hj, hmask j hj]
      split
      · simp [*]
      · split
        · simp [*, show ¬ 16 ≤ j by omega]
        · split
          · simp [*, show 16 ≤ j by omega]
          · simp [*]
  have hall : bits.cpop.toNat = (List.range 16).countP (fun j ↦ decide (v j = thresh)) +
      (List.range 16).countP fun j ↦ !cmp isMax thresh (v j) := by
    rw [toNat_cpop_eq_countP]
    exact countP_groups hbits
  have hcompl := List.length_eq_countP_add_countP (fun j ↦ cmp isMax thresh (v j)) (l := List.range 16)
  rw [List.length_range] at hcompl
  have hnot : (List.range 16).countP (fun j ↦ decide ¬ cmp isMax thresh (v j) = true) =
      (List.range 16).countP fun j ↦ !cmp isMax thresh (v j) :=
    List.countP_congr fun j _ ↦ by simp
  change (s.1 + (16 - (bits.cpop.toNat - (bits &&& 0x00ff00ff#32).cpop.toNat)),
    s.2 + (bits &&& 0x00ff00ff#32).cpop.toNat) = _
  rw [heq, hall]
  refine Prod.ext ?_ rfl
  change _ = s.1 + (List.range 16).countP fun j ↦ cmp isMax thresh (v j)
  dsimp only
  omega

theorem ltCount_succ (thresh : UInt16) :
    ltCount isMax vals (n + 1) thresh =
      ltCount isMax vals n thresh + if cmp isMax thresh (vals n).1 then 1 else 0 := by
  rw [ltCount, List.range_succ, List.countP_append, List.countP_singleton]
  rfl

theorem eqCount_succ (thresh : UInt16) :
    eqCount vals (n + 1) thresh = eqCount vals n thresh + if (vals n).1 = thresh then 1 else 0 := by
  rw [eqCount, List.range_succ, List.countP_append, List.countP_singleton]
  simp only [decide_eq_true_eq]
  rfl

theorem cmp_self (a : UInt16) : cmp isMax a a = false := by
  cases isMax <;> simp [cmp]

/-- `count_lt_and_eq` counts the values that are better than the threshold and those equal to it. -/
theorem countLtAndEq_eq (thresh : UInt16) :
    countLtAndEq isMax vals n thresh = (ltCount isMax vals n thresh, eqCount vals n thresh) := by
  have hblocks := foldl_range_invariant (n := n / 16) (s := (0, 0))
    (f := countBlock isMax vals thresh)
    (fun b s ↦ s = (ltCount isMax vals (16 * b) thresh, eqCount vals (16 * b) thresh)) rfl
    (fun b _ s hs ↦ by
      rw [countBlock_eq, hs, ltCount, ltCount, eqCount, eqCount, Nat.mul_succ, countP_range_add,
        countP_range_add])
  have hrest := foldl_range_invariant (n := n - n / 16 * 16)
    (f := fun s i ↦ countOne isMax vals thresh s (n / 16 * 16 + i))
    (s := (List.range (n / 16)).foldl (countBlock isMax vals thresh) (0, 0))
    (fun i s ↦ s = (ltCount isMax vals (n / 16 * 16 + i) thresh,
      eqCount vals (n / 16 * 16 + i) thresh)) (by rw [hblocks, Nat.mul_comm]; rfl)
    (fun i _ s hs ↦ by
      rw [← Nat.add_assoc, ltCount_succ, eqCount_succ, hs, countOne]
      by_cases hlt : cmp isMax thresh (vals (n / 16 * 16 + i)).1 = true
      · have hne : (vals (n / 16 * 16 + i)).1 ≠ thresh := fun h ↦ by
          rw [h, cmp_self] at hlt
          exact Bool.false_ne_true hlt
        simp only [hlt, if_true, if_neg hne, Nat.add_zero]
      · by_cases heq : (vals (n / 16 * 16 + i)).1 = thresh
        · simp only [heq, cmp_self, if_true, Bool.false_eq_true, if_false, Nat.add_zero]
        · simp only [hlt, heq, Bool.false_eq_true, if_false, Nat.add_zero])
  have hn : n / 16 * 16 + (n - n / 16 * 16) = n := by omega
  rw [hn] at hrest
  exact hrest

end SimdPartitioning

end FaissNavix

/-!
# Partitioning words with registers: compressing

`simd_compress_array` of `faiss/utils/partitioning.cpp`: blocks of 16 values as long as equal values are
missing, then blocks of which only the better values are kept, and the values after the last block one
by one.  Which values of a block are kept is read off the bits of the masks, two bits for each value.
-/

namespace FaissNavix

open Lib (foldl_range_invariant)

namespace SimdPartitioning

open Simd

/-- The loops over the bits of a block, in pairs: `pick` tells where the next pair starts, and the pair
is cleared. -/
def whileBits {σ : Type} (pick : BitVec 32 → ℕ) (body : ℕ → Bool → Bool → σ → σ) :
    ℕ → BitVec 32 → σ → σ
  | 0, _, s => s
  | turns + 1, bits, s =>
      if bits = 0#32 then s
      else
        let j := pick bits
        let isEq := (bits >>> j).getLsbD 0
        let isLt := (bits >>> j).getLsbD 1
        whileBits pick body turns (bits &&& ~~~(3#32 <<< j)) (body (j / 2) isEq isLt s)

/-- A block while there are equal values to collect.  Bit `2 * j` of `bits` is set for an equal value,
bit `2 * j + 1` for a better one. -/
def compressEqBlock (isMax : Bool) (thresh : UInt16) (s : Compress UInt16) (i0 : ℕ) :
    Compress UInt16 :=
  let thr16 := set1 thresh
  let mixmask := set1 0xff00
  let v := load s.arrays i0
  let max2 := maxFunc isMax v thr16
  let gemask := eqMask v max2
  let eqmask := eqMask v thr16
  let bits := getMSBs (blendv (toU8 eqmask) (toU8 gemask) (toU8 mixmask)) ^^^ 0xAAAAAAAA#32
  whileBits (fun bits ↦ bits.ctz.toNat / 2 * 2) (fun j isEq isLt s ↦ s.step isLt isEq (i0 + j)) 16
    bits s

/-- A block of which only the better values are kept. -/
def compressLtBlock (isMax : Bool) (thresh : UInt16) (s : Compress UInt16) (i0 : ℕ) :
    Compress UInt16 :=
  let v := load s.arrays i0
  let max2 := maxFunc isMax v (set1 thresh)
  let gemask := eqMask v max2
  let bits := ~~~getMSBs (toU8 gemask)
  whileBits (fun bits ↦ bits.ctz.toNat) (fun j _ _ s ↦ s.keep (i0 + j)) 16 bits s

/-- The first loop, with the position where it ends. -/
def eqBlocks (isMax : Bool) (thresh : UInt16) (n : ℕ) : ℕ → ℕ → Compress UInt16 → ℕ × Compress UInt16
  | 0, i0, s => (i0, s)
  | turns + 1, i0, s =>
      if i0 + 15 < n ∧ 0 < s.nEq then
        eqBlocks isMax thresh n turns (i0 + 16) (compressEqBlock isMax thresh s i0)
      else (i0, s)

/-- The second loop. -/
def ltBlocks (isMax : Bool) (thresh : UInt16) (n : ℕ) : ℕ → ℕ → Compress UInt16 → Compress UInt16
  | 0, _, s => s
  | turns + 1, i0, s =>
      if i0 + 15 < n then
        ltBlocks isMax thresh n turns (i0 + 16) (compressLtBlock isMax thresh s i0)
      else s

def compressOne (isMax : Bool) (thresh : UInt16) (s : Compress UInt16) (i : ℕ) : Compress UInt16 :=
  s.step (cmp isMax thresh (s.arrays i).1) (decide ((s.arrays i).1 = thresh)) i

/-- `simd_compress_array`, with `none` where its assertion fails -/
def simdCompressArray (isMax : Bool) (vals : WordArrays) (n : ℕ) (thresh : UInt16) (nEq : ℕ) :
    Option (Compress UInt16) :=
  let r := eqBlocks isMax thresh n n 0 ⟨vals, 0, nEq⟩
  let s := ltBlocks isMax thresh n n r.1 r.2
  let s := (List.range (n - n / 16 * 16)).foldl
    (fun s i ↦ compressOne isMax thresh s (n / 16 * 16 + i)) s
  if s.nEq = 0 then some s else none

/-! ## The bits of a block -/

theorem getLsbD_clearPair (bits : BitVec 32) (m : ℕ) {i : ℕ} (hi : i < 32) :
    (bits &&& ~~~(3#32 <<< (2 * m))).getLsbD i = (bits.getLsbD i && decide (i / 2 ≠ m)) := by
  have hthree : ∀ k, (3#32).getLsbD k = decide (k < 2) := by
    intro k
    by_cases hk : k < 32
    · have hall : ∀ k < 32, (3#32).getLsbD k = decide (k < 2) := by decide
      exact hall k hk
    · rw [BitVec.getLsbD_of_ge _ _ (not_lt.mp hk), decide_eq_false (by omega)]
  rw [BitVec.getLsbD_and, BitVec.getLsbD_not, BitVec.getLsbD_shiftLeft, hthree, decide_eq_true hi,
    Bool.true_and, Bool.true_and]
  congr 1
  by_cases hlt : i < 2 * m
  · simp [hlt, show i / 2 ≠ m by omega]
  · by_cases hin : i - 2 * m < 2
    · simp [hlt, hin, show i / 2 = m by omega]
    · simp [hlt, hin, show i / 2 ≠ m by omega]

/-- The loop over the bits is one over the 16 values of the block, provided that it always picks the
first pair that has a bit set. -/
theorem whileBits_eq_foldl {σ : Type} {pick : BitVec 32 → ℕ} {body : ℕ → Bool → Bool → σ → σ}
    (good : BitVec 32 → Prop)
    (hgood : ∀ bits m, good bits → good (bits &&& ~~~(3#32 <<< (2 * m))))
    (hpick : ∀ bits, good bits → bits ≠ 0#32 → pick bits = bits.ctz.toNat / 2 * 2)
    {bits : BitVec 32} (hbits : good bits) (s : σ) :
    whileBits pick body 16 bits s =
      (List.range 16).foldl (fun s j ↦
        if bits.getLsbD (2 * j) || bits.getLsbD (2 * j + 1) then
          body j (bits.getLsbD (2 * j)) (bits.getLsbD (2 * j + 1)) s
        else s) s := by
  -- the pairs before `m` are cleared, the others are as they were
  have hloop : ∀ d m turns cur s, m + d = 16 → d ≤ turns → good cur →
      (∀ i < 32, cur.getLsbD i = (bits.getLsbD i && decide (m ≤ i / 2))) →
      whileBits pick body turns cur s = (List.range' m d).foldl (fun s j ↦
        if bits.getLsbD (2 * j) || bits.getLsbD (2 * j + 1) then
          body j (bits.getLsbD (2 * j)) (bits.getLsbD (2 * j + 1)) s
        else s) s := by
    intro d
    induction d with
    | zero =>
        intro m turns cur s hm _ _ hcur
        have hzero : cur = 0#32 := BitVec.eq_of_getLsbD_eq fun i hi ↦ by
          rw [hcur i hi, decide_eq_false (by omega), Bool.and_false, BitVec.getLsbD_zero]
        cases turns with
        | zero => rfl
        | succ turns =>
            rw [whileBits, if_pos hzero]
            rfl
    | succ d ih =>
        intro m turns cur s hm hturns hg hcur
        obtain ⟨turns, rfl⟩ : ∃ t, turns = t + 1 := ⟨turns - 1, by omega⟩
        have hlow : cur.getLsbD (2 * m) = bits.getLsbD (2 * m) := by
          rw [hcur (2 * m) (by omega), decide_eq_true (by omega), Bool.and_true]
        have hhigh : cur.getLsbD (2 * m + 1) = bits.getLsbD (2 * m + 1) := by
          rw [hcur (2 * m + 1) (by omega), decide_eq_true (by omega), Bool.and_true]
        rw [List.range'_succ, List.foldl_cons]
        by_cases hpair : (bits.getLsbD (2 * m) || bits.getLsbD (2 * m + 1)) = true
        · -- the next pair to be picked is this one
          have hne : cur ≠ 0#32 := fun h0 ↦ by
            rw [h0, BitVec.getLsbD_zero] at hlow hhigh
            rw [← hlow, ← hhigh] at hpair
            exact Bool.false_ne_true hpair
          have hfirst : cur.ctz.toNat / 2 = m := by
            have htrue := BitVec.getLsbD_true_ctz_of_ne_zero hne
            have hle : cur.ctz.toNat ≤ 2 * m + 1 := by
              by_contra hgt
              have h0 : cur.getLsbD (2 * m) = false := BitVec.getLsbD_false_of_lt_ctz (by omega)
              have h1 : cur.getLsbD (2 * m + 1) = false :=
                BitVec.getLsbD_false_of_lt_ctz (by omega)
              rw [← hlow, ← hhigh, h0, h1] at hpair
              exact Bool.false_ne_true hpair
            rw [hcur _ (by omega), Bool.and_eq_true, decide_eq_true_eq] at htrue
            omega
          have hj : pick cur = 2 * m := by
            rw [hpick cur hg hne, hfirst]
            omega
          rw [if_pos hpair, whileBits, if_neg hne]
          simp only [hj, BitVec.getLsbD_ushiftRight, Nat.add_zero, hlow, hhigh]
          rw [Nat.mul_div_cancel_left m (by omega)]
          refine ih (m + 1) turns _ _ (by omega) (by omega) (hgood cur m hg) fun i hi ↦ ?_
          rw [getLsbD_clearPair _ _ hi, hcur i hi, Bool.and_assoc]
          congr 1
          rw [← Bool.decide_and, decide_eq_decide]
          omega
        · rw [if_neg hpair]
          refine ih (m + 1) (turns + 1) cur s (by omega) (by omega) hg fun i hi ↦ ?_
          rw [hcur i hi]
          simp only [Bool.not_eq_true, Bool.or_eq_false_iff] at hpair
          by_cases him : i / 2 = m
          · have hzero : bits.getLsbD i = false := by
              rcases (show i = 2 * m ∨ i = 2 * m + 1 by omega) with rfl | rfl
              · exact hpair.1
              · exact hpair.2
            rw [hzero, Bool.false_and, Bool.false_and]
          · rw [decide_eq_decide.mpr (show m ≤ i / 2 ↔ m + 1 ≤ i / 2 by omega)]
  rw [hloop 16 0 16 bits s rfl le_rfl hbits fun i _ ↦ by simp, ← List.range_eq_range']

/-! ## The loops -/

section Loops

variable {isMax : Bool} {thresh : UInt16} {budget : ℕ} {vals : WordArrays} {n i0 : ℕ}
  {s : Compress UInt16}

/-- What compressing the first `i` pairs around a threshold has done. -/
abbrev Done (isMax : Bool) (thresh : UInt16) (budget : ℕ) (vals : WordArrays) (i : ℕ)
    (s : Compress UInt16) : Prop :=
  Compress.Done (cmp isMax thresh) (fun v ↦ decide (v = thresh)) budget vals i s

/-- The bits of the first loop: equal values and better ones. -/
theorem getLsbD_eqBits (isMax : Bool) (v : Simd16UInt16) (thresh : UInt16) {j : ℕ} (hj : j < 16) :
    (getMSBs (blendv (toU8 (eqMask v (set1 thresh)))
        (toU8 (eqMask v (maxFunc isMax v (set1 thresh)))) (toU8 (set1 0xff00))) ^^^
          0xAAAAAAAA#32).getLsbD (2 * j) = decide (v j = thresh) ∧
      (getMSBs (blendv (toU8 (eqMask v (set1 thresh)))
        (toU8 (eqMask v (maxFunc isMax v (set1 thresh)))) (toU8 (set1 0xff00))) ^^^
          0xAAAAAAAA#32).getLsbD (2 * j + 1) = cmp isMax thresh (v j) := by
  have hodd : ∀ i < 32, (0xAAAAAAAA#32).getLsbD i = decide (i % 2 = 1) := by decide
  have hmix : ∀ i, toU8 (set1 0xff00) i &&& 0x80 ≠ 0 ↔ i % 2 = 1 := by
    intro i
    unfold toU8 set1
    by_cases hi : i % 2 = 0
    · simp only [hi, if_true]
      decide
    · simp only [show i % 2 = 1 by omega]
      decide
  constructor
  · have hnot : ¬ toU8 (set1 0xff00) (2 * j) &&& 0x80 ≠ 0 := by
      rw [hmix]
      omega
    rw [BitVec.getLsbD_xor, getLsbD_getMSBs _ (by omega), hodd _ (by omega), blendv, if_neg hnot,
      toU8_eqMask, decide_eq_false (p := 2 * j % 2 = 1) (by omega), Bool.xor_false,
      Nat.mul_div_cancel_left j (by omega)]
    rfl
  · have hset : toU8 (set1 0xff00) (2 * j + 1) &&& 0x80 ≠ 0 := by
      rw [hmix]
      omega
    rw [BitVec.getLsbD_xor, getLsbD_getMSBs _ (by omega), hodd _ (by omega), blendv, if_pos hset,
      toU8_eqMask, decide_eq_true (p := (2 * j + 1) % 2 = 1) (by omega), Bool.xor_true,
      show (2 * j + 1) / 2 = j by omega]
    have hiff := eq_maxFunc_iff isMax v thresh j
    cases hc : cmp isMax thresh (v j) with
    | true =>
        rw [decide_eq_false fun heq ↦ Bool.false_ne_true ((hiff.mp heq).symm.trans hc)]
        rfl
    | false =>
        rw [decide_eq_true (hiff.mpr hc)]
        rfl

theorem getLsbD_ltBits (isMax : Bool) (v : Simd16UInt16) (thresh : UInt16) {i : ℕ} (hi : i < 32) :
    (~~~getMSBs (toU8 (eqMask v (maxFunc isMax v (set1 thresh))))).getLsbD i =
      cmp isMax thresh (v (i / 2)) := by
  rw [BitVec.getLsbD_not, decide_eq_true hi, Bool.true_and, getLsbD_getMSBs _ hi, toU8_eqMask]
  have hiff := eq_maxFunc_iff isMax v thresh (i / 2)
  cases hc : cmp isMax thresh (v (i / 2)) with
  | true =>
      rw [decide_eq_false fun heq ↦ Bool.false_ne_true ((hiff.mp heq).symm.trans hc)]
      rfl
  | false =>
      rw [decide_eq_true (hiff.mpr hc)]
      rfl

theorem Done.compressEqBlock (h : Done isMax thresh budget vals i0 s) :
    Done isMax thresh budget vals (i0 + 16) (compressEqBlock isMax thresh s i0) := by
  unfold SimdPartitioning.compressEqBlock
  dsimp only
  rw [whileBits_eq_foldl (fun _ ↦ True) (fun _ _ _ ↦ trivial) (fun _ _ _ ↦ rfl) trivial]
  refine foldl_range_invariant (fun j s ↦ Done isMax thresh budget vals (i0 + j) s) h
    fun j hj s' hs' ↦ ?_
  obtain ⟨heq, hlt⟩ := getLsbD_eqBits isMax (load s.arrays i0) thresh hj
  rw [heq, hlt]
  have hval : load s.arrays i0 j = (vals (i0 + j)).1 := by
    rw [load, h.rest (i0 + j) (by omega)]
  have hstep := hs'.step
  rw [hval]
  split
  · exact hstep
  · rename_i hnone
    rw [Bool.not_eq_true, Bool.or_eq_false_iff] at hnone
    rwa [hnone.1, hnone.2, Compress.step_false_false] at hstep

theorem Done.compressLtBlock (h : Done isMax thresh budget vals i0 s) (h0 : s.nEq = 0) :
    Done isMax thresh budget vals (i0 + 16) (compressLtBlock isMax thresh s i0) ∧
      (compressLtBlock isMax thresh s i0).nEq = 0 := by
  unfold SimdPartitioning.compressLtBlock
  dsimp only
  have hgood : ∀ bits : BitVec 32, (∀ j < 16, bits.getLsbD (2 * j) = bits.getLsbD (2 * j + 1)) →
      bits ≠ 0#32 → bits.ctz.toNat = bits.ctz.toNat / 2 * 2 := by
    intro bits hpairs hne
    have htrue := BitVec.getLsbD_true_ctz_of_ne_zero hne
    by_contra hodd
    have hlow : bits.getLsbD (2 * (bits.ctz.toNat / 2)) = false :=
      BitVec.getLsbD_false_of_lt_ctz (by omega)
    have hlt := BitVec.ctz_lt_iff_ne_zero.mpr hne
    have hlt32 : bits.ctz.toNat < 32 := by simpa [BitVec.lt_def] using hlt
    rw [hpairs _ (by omega), show 2 * (bits.ctz.toNat / 2) + 1 = bits.ctz.toNat by omega, htrue] at hlow
    exact Bool.false_ne_true hlow.symm
  rw [whileBits_eq_foldl (fun bits ↦ ∀ j < 16, bits.getLsbD (2 * j) = bits.getLsbD (2 * j + 1))
    (fun bits m hbits j hj ↦ ?_) hgood fun j hj ↦ ?_]
  · refine foldl_range_invariant
      (fun j s ↦ Done isMax thresh budget vals (i0 + j) s ∧ s.nEq = 0) ⟨h, h0⟩ ?_
    rintro j hj s' ⟨hs', h0'⟩
    rw [getLsbD_ltBits _ _ _ (by omega), getLsbD_ltBits _ _ _ (by omega),
      Nat.mul_div_cancel_left j (by omega), show (2 * j + 1) / 2 = j by omega, Bool.or_self]
    have hval : load s.arrays i0 j = (vals (i0 + j)).1 := by
      rw [load, h.rest (i0 + j) (by omega)]
    have hstep := hs'.step
    rw [hval]
    unfold Compress.step at hstep
    by_cases hlt : cmp isMax thresh (vals (i0 + j)).1 = true
    · rw [if_pos hlt] at hstep ⊢
      exact ⟨hstep, h0'⟩
    · rw [if_neg hlt, if_neg (by simp [h0'])] at hstep
      rw [if_neg hlt]
      exact ⟨hstep, h0'⟩
  · rw [getLsbD_clearPair _ _ (by omega), getLsbD_clearPair _ _ (by omega), hbits j hj,
      show (2 * j + 1) / 2 = 2 * j / 2 by omega]
  · rw [getLsbD_ltBits _ _ _ (by omega), getLsbD_ltBits _ _ _ (by omega),
      show (2 * j + 1) / 2 = 2 * j / 2 by omega]

/-- The first loop ends when no equal values are missing, or after the last block. -/
theorem Done.eqBlocks (h : Done isMax thresh budget vals i0 s) (turns : ℕ) (hmod : i0 % 16 = 0)
    (hi0 : i0 ≤ n) (hturns : n ≤ i0 + turns) :
    let r := eqBlocks isMax thresh n turns i0 s
    Done isMax thresh budget vals r.1 r.2 ∧ r.1 % 16 = 0 ∧ r.1 ≤ n ∧
      (n ≤ r.1 + 15 ∨ r.2.nEq = 0) := by
  induction turns generalizing i0 s with
  | zero => exact ⟨h, hmod, hi0, Or.inl (by simp only [SimdPartitioning.eqBlocks]; omega)⟩
  | succ turns ih =>
      rw [SimdPartitioning.eqBlocks]
      by_cases hcond : i0 + 15 < n ∧ 0 < s.nEq
      · rw [if_pos hcond]
        exact ih h.compressEqBlock (by omega) (by omega) (by omega)
      · rw [if_neg hcond]
        exact ⟨h, hmod, hi0, by dsimp only; omega⟩

theorem Done.ltBlocks (h : Done isMax thresh budget vals i0 s) (turns : ℕ) (hmod : i0 % 16 = 0)
    (hi0 : i0 ≤ n) (hturns : n ≤ i0 + turns) (hend : n ≤ i0 + 15 ∨ s.nEq = 0) :
    Done isMax thresh budget vals (n / 16 * 16) (ltBlocks isMax thresh n turns i0 s) := by
  induction turns generalizing i0 s with
  | zero =>
      rw [show n / 16 * 16 = i0 by omega]
      exact h
  | succ turns ih =>
      rw [SimdPartitioning.ltBlocks]
      by_cases hcond : i0 + 15 < n
      · rw [if_pos hcond]
        obtain ⟨hdone, h0⟩ := h.compressLtBlock (by omega)
        exact ih hdone (by omega) (by omega) (by omega) (Or.inr h0)
      · rw [if_neg hcond, show n / 16 * 16 = i0 by omega]
        exact h

theorem Done.compressOne {i : ℕ} (h : Done isMax thresh budget vals i s) :
    Done isMax thresh budget vals (i + 1) (compressOne isMax thresh s i) := by
  unfold SimdPartitioning.compressOne
  rw [h.rest i le_rfl]
  exact h.step

theorem taken_eq (isMax : Bool) (thresh : UInt16) (vals : WordArrays) (n : ℕ) :
    Compress.taken (cmp isMax thresh) (fun v ↦ decide (v = thresh)) vals n = eqCount vals n thresh := by
  rw [Compress.taken, Lib.spent, Compress.front, List.countP_map, eqCount]
  refine List.countP_congr fun i _ ↦ ?_
  simp only [Function.comp_apply, Bool.and_eq_true, Bool.not_eq_true', decide_eq_true_eq]
  refine ⟨fun h ↦ h.2, fun h ↦ ⟨?_, h⟩⟩
  rw [h, cmp_self]

/-- `simd_compress_array` keeps the better values and as many equal ones as are asked for, if there are
that many. -/
theorem simdCompressArray_spec (isMax : Bool) (vals : WordArrays) (n : ℕ) (thresh : UInt16) {nEq : ℕ}
    (hnEq : nEq ≤ eqCount vals n thresh) :
    ∃ s, simdCompressArray isMax vals n thresh nEq = some s ∧
      s.wp = ltCount isMax vals n thresh + nEq ∧ Done isMax thresh nEq vals n s := by
  have hstart : Done isMax thresh nEq vals 0 ⟨vals, 0, nEq⟩ := Compress.done_zero _ _ _ _
  obtain ⟨hdone, hmod, hle, hend⟩ := hstart.eqBlocks n rfl (Nat.zero_le n) (by omega)
  have hblocks := Done.ltBlocks hdone n hmod hle (by omega) hend
  have hall := foldl_range_invariant (n := n - n / 16 * 16)
    (f := fun s i ↦ compressOne isMax thresh s (n / 16 * 16 + i))
    (fun i s ↦ Done isMax thresh nEq vals (n / 16 * 16 + i) s) hblocks fun i _ s hs ↦ hs.compressOne
  rw [show n / 16 * 16 + (n - n / 16 * 16) = n by omega] at hall
  refine ⟨_, ?_, ?_, hall⟩
  · unfold simdCompressArray
    dsimp only
    rw [if_pos]
    rw [hall.nEq_eq, taken_eq]
    omega
  · rw [hall.wp_eq_add, taken_eq, min_eq_left hnEq, Compress.front, List.countP_map]
    rfl

end Loops

end SimdPartitioning

end FaissNavix
