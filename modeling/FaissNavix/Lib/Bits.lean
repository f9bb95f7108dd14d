import Mathlib.Data.Nat.Bitwise

/-!
# Strings of bits in bytes

The bits of a string of bytes are counted from the lowest one of the first byte on.
-/

namespace Lib

def bitAt (code : List UInt8) (p : ℕ) : Bool :=
  (code.getD (p / 8) 0).toNat.testBit (p % 8)

/-- The lowest bits of a number, the lowest one first. -/
def toBits (width x : ℕ) : List Bool :=
  (List.range width).map x.testBit

/-- `code[j] |= x`, of which a byte keeps the lowest bits. -/
def orByte (code : List UInt8) (j x : ℕ) : Option (List UInt8) :=
  if j < code.length then some (code.set j (code.getD j 0 ||| UInt8.ofNat x)) else none

variable {code code' : List UInt8} {j x width : ℕ}

@[simp] theorem length_toBits (width x : ℕ) : (toBits width x).length = width := by
  rw [toBits, List.length_map, List.length_range]

theorem length_flatMap_toBits (width : ℕ) (xs : List ℕ) : (xs.flatMap (toBits width)).length = xs.length * width := by
  rw [List.length_flatMap]
  simp only [length_toBits, List.map_const', List.sum_replicate_nat]

theorem getElem_toBits {q : ℕ} (h : q < (toBits width x).length) :
    (toBits width x)[q] = x.testBit q := by
  simp only [toBits, List.getElem_map, List.getElem_range]

theorem bitAt_of_le {p : ℕ} (h : 8 * code.length ≤ p) : bitAt code p = false := by
  rw [bitAt, List.getD_eq_default _ _ (by omega)]
  exact Nat.zero_testBit _

theorem bitAt_replicate_zero (n p : ℕ) : bitAt (List.replicate n 0) p = false := by
  have hzero : (List.replicate n (0 : UInt8)).getD (p / 8) 0 = 0 := by
    rw [List.getD_eq_getElem?_getD, List.getElem?_replicate]
    split <;> rfl
  rw [bitAt, hzero]
  exact Nat.zero_testBit _

theorem length_of_orByte (h : orByte code j x = some code') : code'.length = code.length := by
  unfold orByte at h
  split at h
  · cases h
    exact List.length_set
  · cases h

theorem lt_of_orByte (h : orByte code j x = some code') : j < code.length := by
  unfold orByte at h
  split at h
  · assumption
  · cases h

theorem exists_orByte (h : j < code.length) (x : ℕ) : ∃ code', orByte code j x = some code' :=
  ⟨_, if_pos h⟩

/-- The bits of the byte are joined with those of the number, and others stay. -/
theorem bitAt_of_orByte (h : orByte code j x = some code') (p : ℕ) :
    bitAt code' p = (bitAt code p || decide (p / 8 = j) && x.testBit (p % 8)) := by
  have hj := lt_of_orByte h
  unfold orByte at h
  rw [if_pos hj] at h
  obtain rfl := Option.some.inj h
  unfold bitAt
  by_cases hp : p / 8 = j
  · have hlow : p % 8 < 8 := Nat.mod_lt _ (by decide)
    rw [hp, List.getD_eq_getElem _ _ (by rwa [List.length_set]), List.getElem_set_self,
      UInt8.toNat_or, Nat.testBit_or, UInt8.toNat_ofNat']
    have hkeep : (x % 2 ^ 8).testBit (p % 8) = x.testBit (p % 8) := by
      rw [Nat.testBit_mod_two_pow, decide_eq_true hlow, Bool.true_and]
    rw [hkeep, decide_eq_true rfl, Bool.true_and]
  · rw [decide_eq_false hp, Bool.false_and, Bool.or_false, List.getD_eq_getElem?_getD,
      List.getElem?_set_ne (Ne.symm hp), ← List.getD_eq_getElem?_getD]

theorem testBit_of_lt {q : ℕ} (h : x < 2 ^ width) (hq : width ≤ q) : x.testBit q = false :=
  Nat.testBit_lt_two_pow (h.trans_le (Nat.pow_le_pow_right (by decide) hq))

/-! ## Strings behind each other -/

theorem bitAt_append (code code' : List UInt8) (p : ℕ) :
    bitAt (code ++ code') p = if p < 8 * code.length then bitAt code p else bitAt code' (p - 8 * code.length) := by
  unfold bitAt
  split
  · next hp => rw [List.getD_append _ _ _ _ (by omega)]
  · next hp =>
      rw [List.getD_append_right _ _ _ _ (by omega), show (p - 8 * code.length) / 8 = p / 8 - code.length by omega,
        show (p - 8 * code.length) % 8 = p % 8 by omega]

theorem bitAt_singleton (b : UInt8) (p : ℕ) : bitAt [b] p = b.toNat.testBit p := by
  rcases Nat.lt_or_ge p 8 with hp | hp
  · unfold bitAt
    rw [Nat.div_eq_of_lt hp, Nat.mod_eq_of_lt hp]
    rfl
  · rw [bitAt_of_le (by rwa [List.length_singleton]), testBit_of_lt b.toNat_lt hp]

theorem bitAt_bytes (n x p : ℕ) :
    bitAt ((List.range n).map fun i ↦ UInt8.ofNat (x >>> (8 * i))) p = (decide (p < 8 * n) && x.testBit p) := by
  rcases Nat.lt_or_ge p (8 * n) with hp | hp
  · unfold bitAt
    rw [List.getD_eq_getElem _ _ (by rw [List.length_map, List.length_range]; omega), List.getElem_map,
      List.getElem_range, UInt8.toNat_ofNat', Nat.testBit_mod_two_pow, Nat.testBit_shiftRight,
      Nat.div_add_mod, decide_eq_true (Nat.mod_lt p (by decide)), decide_eq_true hp]
  · rw [bitAt_of_le (by rwa [List.length_map, List.length_range]), decide_eq_false (not_lt.mpr hp), Bool.false_and]

theorem eq_of_bitAt {code code' : List UInt8} (hlen : code.length = code'.length)
    (h : ∀ p < 8 * code.length, bitAt code p = bitAt code' p) : code = code' := by
  refine List.ext_getElem hlen fun j hj hj' ↦ UInt8.toNat_inj.mp (Nat.eq_of_testBit_eq fun q ↦ ?_)
  by_cases hq : q < 8
  · have hbit := h (8 * j + q) (by omega)
    unfold bitAt at hbit
    rwa [show (8 * j + q) / 8 = j by omega, show (8 * j + q) % 8 = q by omega, List.getD_eq_getElem _ _ hj,
      List.getD_eq_getElem _ _ hj'] at hbit
  · rw [testBit_of_lt (code[j]).toNat_lt (not_lt.mp hq), testBit_of_lt (code'[j]).toNat_lt (not_lt.mp hq)]

theorem getD_append_toBits {bits : List Bool} (hx : x < 2 ^ width) (p : ℕ) :
    (bits ++ toBits width x).getD p false =
      if p < bits.length then bits.getD p false else x.testBit (p - bits.length) := by
  split
  · next hp => exact List.getD_append _ _ _ _ hp
  · next hp =>
      rw [List.getD_append_right _ _ _ _ (not_lt.mp hp)]
      by_cases hin : p - bits.length < width
      · rw [List.getD_eq_getElem _ _ (by rwa [length_toBits]), getElem_toBits]
      · rw [List.getD_eq_default _ _ (by rw [length_toBits]; exact not_lt.mp hin),
          testBit_of_lt hx (not_lt.mp hin)]

end Lib

/-!
# Going through the bits of a word

A loop that takes one bit of a word after the other, in some order of the positions, until it is left.  It does what
a loop over the positions does that have their bit set.
-/

namespace Lib

universe u

variable {σ : Type u}

/-- A loop over some positions, which is left where a turn says so, and whether it was left. -/
def scanList (step : σ → ℕ → Option (σ × Bool)) : List ℕ → σ → Option (σ × Bool)
  | [], s => some (s, false)
  | i :: is, s => (step s i).bind fun r ↦ if r.2 then some r else scanList step is r.1

/-- A loop `for (;;)` that takes and clears a bit of a word in each turn: the first one that is set, in the order of
some positions.  It has no result if no bit is left, or if it is not left in `turns` turns. -/
def scanBits {w : ℕ} (order : List ℕ) (step : σ → ℕ → Option (σ × Bool)) : ℕ → BitVec w → σ → Option σ
  | 0, _, _ => none
  | turns + 1, tosee, s =>
    (order.find? fun i ↦ tosee.getLsbD i).bind fun i ↦
      (step s i).bind fun r ↦
        if r.2 then some r.1 else scanBits order step turns (tosee &&& ~~~ (1#w <<< i)) r.1

variable {w : ℕ} {order : List ℕ} {step step' : σ → ℕ → Option (σ × Bool)} {is : List ℕ} {s s' : σ}

/-- A bit that is cleared. -/
theorem getLsbD_clear (x : BitVec w) (i j : ℕ) :
    (x &&& ~~~ (1#w <<< i)).getLsbD j = (x.getLsbD j && decide (j ≠ i)) := by
  by_cases hj : j < w
  · rw [BitVec.getLsbD_and, BitVec.getLsbD_not, BitVec.getLsbD_shiftLeft, BitVec.getLsbD_one, decide_eq_true hj,
      Bool.true_and, Bool.true_and]
    refine congrArg (x.getLsbD j && ·) ?_
    by_cases hij : j = i
    · subst hij
      rw [Nat.sub_self, decide_eq_false (Nat.lt_irrefl j), decide_eq_false (not_not_intro rfl),
        decide_eq_true (Nat.zero_lt_of_lt hj)]
      rfl
    · rcases Nat.lt_or_ge j i with hlt | hge
      · rw [decide_eq_true hlt, decide_eq_true hij]
        rfl
      · rw [decide_eq_false (by omega : ¬ j < i), decide_eq_true hij, decide_eq_false (by omega : ¬ j - i = 0),
          Bool.and_false, Bool.and_false]
        rfl
  · rw [BitVec.getLsbD_of_ge _ _ (Nat.not_lt.mp hj), BitVec.getLsbD_of_ge _ _ (Nat.not_lt.mp hj), Bool.false_and]

/-- A bit that is set. -/
theorem getLsbD_insert (x : BitVec w) {i : ℕ} (hi : i < w) (j : ℕ) :
    (x ||| 1#w <<< i).getLsbD j = (x.getLsbD j || decide (j = i)) := by
  by_cases hj : j < w
  · rw [BitVec.getLsbD_or, BitVec.getLsbD_shiftLeft, BitVec.getLsbD_one, decide_eq_true hj, Bool.true_and]
    refine congrArg (x.getLsbD j || ·) ?_
    by_cases hij : j = i
    · subst hij
      rw [Nat.sub_self, decide_eq_false (Nat.lt_irrefl j), decide_eq_true (Nat.zero_lt_of_lt hj)]
      exact (decide_eq_true rfl).symm
    · rcases Nat.lt_or_ge j i with hlt | hge
      · rw [decide_eq_true hlt, decide_eq_false hij]
        rfl
      · rw [decide_eq_false (by omega : ¬ j < i), decide_eq_false hij, decide_eq_false (by omega : ¬ j - i = 0),
          Bool.and_false, Bool.and_false]
  · rw [BitVec.getLsbD_of_ge _ _ (Nat.not_lt.mp hj), BitVec.getLsbD_of_ge _ _ (Nat.not_lt.mp hj), Bool.false_or,
      decide_eq_false (by omega : ¬ j = i)]

theorem getLsbD_low {n : ℕ} (hn : n < w) (i : ℕ) : ((1#w <<< n) - 1#w).getLsbD i = decide (i < n) := by
  have hpow : 2 ^ n < 2 ^ w := Nat.pow_lt_pow_right Nat.one_lt_two hn
  have hone : 1 < 2 ^ w := Nat.one_lt_two_pow (Nat.ne_zero_of_lt hn)
  have hnat : ((1#w <<< n) - 1#w).toNat = 2 ^ n - 1 := by
    have hle : 1#w ≤ 1#w <<< n := by
      rw [BitVec.le_def, BitVec.toNat_shiftLeft, BitVec.toNat_ofNat, Nat.mod_eq_of_lt hone,
        Nat.one_shiftLeft, Nat.mod_eq_of_lt hpow]
      exact Nat.one_le_two_pow
    rw [BitVec.toNat_sub_of_le hle, BitVec.toNat_shiftLeft, BitVec.toNat_ofNat,
      Nat.mod_eq_of_lt hone, Nat.one_shiftLeft, Nat.mod_eq_of_lt hpow]
  rw [BitVec.getLsbD, hnat, Nat.testBit_two_pow_sub_one]

/-- Where a loop over the positions with their bit set is left, the loop over the bits is left too. -/
theorem scanBits_eq (horder : order.Nodup) {turns : ℕ} {tosee : BitVec w}
    (h : scanList step (order.filter fun i ↦ tosee.getLsbD i) s = some (s', true))
    (hturns : (order.filter fun i ↦ tosee.getLsbD i).length ≤ turns) :
    scanBits order step turns tosee s = some s' := by
  induction turns generalizing tosee s with
  | zero =>
      rw [List.eq_nil_of_length_eq_zero (Nat.le_zero.mp hturns), scanList] at h
      cases h
  | succ turns ih =>
      rw [scanBits, ← List.head?_filter]
      have hnodup := horder.filter fun i ↦ tosee.getLsbD i
      cases hset : order.filter fun i ↦ tosee.getLsbD i with
      | nil =>
          rw [hset, scanList] at h
          cases h
      | cons i is =>
          rw [hset] at h hturns hnodup
          obtain ⟨r, hstep, hrest⟩ := Option.bind_eq_some_iff.mp h
          rw [List.head?_cons, Option.bind_some, hstep, Option.bind_some]
          split at hrest
          · next hleft =>
              rw [if_pos hleft, (Prod.mk.inj (Option.some.inj hrest)).1]
          · next hstays =>
              rw [if_neg hstays]
              have hclear : (order.filter fun j ↦ (tosee &&& ~~~ (1#w <<< i)).getLsbD j) = is := by
                have hcomm : (fun j ↦ (tosee &&& ~~~ (1#w <<< i)).getLsbD j) =
                    fun j ↦ decide (j ≠ i) && tosee.getLsbD j := by
                  funext j
                  rw [getLsbD_clear, Bool.and_comm]
                rw [hcomm, ← List.filter_filter, hset, List.filter_cons_of_neg (by simp)]
                refine List.filter_eq_self.mpr fun j hj ↦ decide_eq_true fun hji ↦ ?_
                exact (List.nodup_cons.mp hnodup).1 (hji ▸ hj)
              refine ih (hclear.symm ▸ hrest) ?_
              rw [hclear]
              exact Nat.le_of_succ_le_succ hturns

theorem scanList_append (h : scanList step is s = some (s', true)) (js : List ℕ) :
    scanList step (is ++ js) s = some (s', true) := by
  induction is generalizing s with
  | nil => cases h
  | cons i is ih =>
      obtain ⟨r, hstep, hrest⟩ := Option.bind_eq_some_iff.mp h
      rw [List.cons_append, scanList, hstep, Option.bind_some]
      split at hrest
      · next hleft => rw [if_pos hleft, hrest]
      · next hstays => rw [if_neg hstays, ih hrest]

/-- A loop that skips some positions goes through the others. -/
theorem scanList_skip (skip : σ → ℕ → Bool) (seen : ℕ → Bool) (his : is.Nodup)
    (hskip : ∀ s i, step s i = if skip s i then some (s, false) else step' s i)
    (hkeep : ∀ s i r, step' s i = some r → ∀ j, j ≠ i → skip r.1 j = skip s j)
    (hseen : ∀ i ∈ is, skip s i = seen i) :
    scanList step is s = scanList step' (is.filter fun i ↦ !seen i) s := by
  induction is generalizing s with
  | nil => rfl
  | cons i is ih =>
      obtain ⟨hnot, his⟩ := List.nodup_cons.mp his
      rw [scanList, hskip s i, hseen i List.mem_cons_self]
      cases hi : seen i with
      | true =>
          rw [if_pos rfl, Option.bind_some, if_neg Bool.false_ne_true, List.filter_cons_of_neg (by rw [hi]; decide)]
          exact ih his fun j hj ↦ hseen j (List.mem_cons_of_mem i hj)
      | false =>
          rw [if_neg Bool.false_ne_true, List.filter_cons_of_pos (by rw [hi]; decide), scanList]
          cases hstep : step' s i with
          | none => rfl
          | some r =>
              rw [Option.bind_some, Option.bind_some]
              split
              · rfl
              · refine ih his fun j hj ↦ ?_
                rw [hkeep s i r hstep j fun hji ↦ hnot (hji ▸ hj), hseen j (List.mem_cons_of_mem i hj)]

end Lib
