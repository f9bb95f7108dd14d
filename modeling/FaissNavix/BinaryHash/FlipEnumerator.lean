import FaissNavix.Lib.BitWeight
import FaissNavix.Lib.Enumerate

/-!
# The enumerator of flipped bits

`FlipEnumerator` of `faiss/IndexBinaryHash.cpp` goes through the masks of `nbit` bits with at most
`maxflip` ones: by their number of ones, and of those with the same number downwards, each mask being
the one before the last one.  Words have 64 bits; up to 63 bits nothing is shifted out.
-/

namespace FaissNavix

open Lib (weight gapped moved)

/-- `__builtin_ctzll` -/
def ctzll (x : ℕ) : ℕ :=
  ((List.range 64).find? x.testBit).getD 64

/-- `FlipEnumerator` -/
structure FlipEnumerator where
  nbit : ℕ
  nflip : ℕ
  maxflip : ℕ
  mask : ℕ
  x : ℕ
deriving DecidableEq, Repr

namespace FlipEnumerator

/-- The constructor. -/
def new (nbit maxflip : ℕ) : FlipEnumerator where
  nbit := nbit
  nflip := 0
  maxflip := maxflip
  mask := 0
  x := 0

/-- `next` -/
def next (fe : FlipEnumerator) : Option FlipEnumerator :=
  if fe.x = fe.mask then
    if fe.nflip = fe.maxflip then none
    else
      let nflip := fe.nflip + 1
      let mask := 2 ^ nflip - 1
      some { fe with nflip := nflip, mask := mask, x := mask <<< (fe.nbit - nflip) }
  else
    let i := ctzll fe.x
    if 0 < i then some { fe with x := fe.x ^^^ 3 <<< (i - 1) }
    else
      let n1 := ctzll (fe.x ^^^ (2 ^ 64 - 1))
      let x := fe.x &&& (2 ^ 64 - 1) <<< n1 % 2 ^ 64
      let n2 := ctzll x
      some { fe with x := x ^^^ (2 ^ (n1 + 2) - 1) <<< (n2 - n1 - 1) }

end FlipEnumerator

/-- The masks that a loop over a `FlipEnumerator` visits: no more than there are. -/
def flips (nbit maxflip : ℕ) : Option (List ℕ) :=
  Lib.visits FlipEnumerator.next (·.x) (2 ^ nbit) (.new nbit maxflip)

/-! ## A step -/

variable {i n k h x : ℕ}

theorem ctzll_eq (hi : i < 64) (hset : x.testBit i = true) (hlow : ∀ j < i, x.testBit j = false) :
    ctzll x = i := by
  have hfind : (List.range 64).find? x.testBit = some i := by
    rw [List.find?_range_eq_some]
    refine ⟨hset, List.mem_range.mpr hi, fun j hj ↦ ?_⟩
    rw [hlow j hj]
    rfl
  rw [ctzll, hfind, Option.getD_some]

theorem testBit_gapped (n k i : ℕ) :
    (gapped n k).testBit i = (decide (i = n + k + 1) || decide (i < n)) := by
  have hlt : 2 ^ n - 1 < 2 ^ (n + k + 1) :=
    (Nat.sub_lt (Nat.two_pow_pos n) Nat.one_pos).trans_le (Nat.pow_le_pow_right (by decide) (by omega))
  have hbit := Nat.testBit_two_pow_mul_add 1 hlt i
  rw [Nat.mul_one] at hbit
  rw [gapped, hbit]
  split
  · rename_i hi
    rw [Nat.testBit_two_pow_sub_one, decide_eq_false (show ¬ i = n + k + 1 by omega), Bool.false_or]
  · rename_i hi
    have hone : Nat.testBit (2 ^ 0) (i - (n + k + 1)) = decide (0 = i - (n + k + 1)) :=
      Nat.testBit_two_pow
    rw [Nat.pow_zero] at hone
    rw [hone, decide_eq_false (show ¬ i < n by omega), Bool.or_false]
    exact decide_eq_decide.mpr (by omega)

theorem testBit_above (n k h i : ℕ) : (2 ^ (n + k + 2) * h + gapped n k).testBit i =
    if i < n + k + 2 then decide (i = n + k + 1) || decide (i < n) else h.testBit (i - (n + k + 2)) := by
  rw [Nat.testBit_two_pow_mul_add _ (Lib.gapped_lt n k), testBit_gapped]

theorem two_pow_le (hx : x = 2 ^ (n + k + 2) * h + gapped n k) : 2 ^ (n + k + 1) ≤ x := by
  rw [hx]
  exact (Nat.le_add_right _ _).trans (Nat.le_add_left _ _)

/-- Moving is what the exclusive or does, once the ones at the bottom are gone. -/
theorem xor_moves (n k h : ℕ) :
    (2 ^ (n + k + 2) * h + 2 ^ (n + k + 1)) ^^^ (2 ^ (n + 2) - 1) <<< k =
      2 ^ (n + k + 2) * h + moved n k := by
  have hone : 2 ^ (n + k + 1) < 2 ^ (n + k + 2) := Nat.pow_lt_pow_right (by decide) (Nat.lt_succ_self _)
  have hmoved : moved n k < 2 ^ (n + k + 2) := (Lib.moved_lt_two_pow n k).trans hone
  refine Nat.eq_of_testBit_eq fun i ↦ ?_
  rw [Nat.testBit_xor, Nat.testBit_two_pow_mul_add _ hone, Nat.testBit_two_pow_mul_add _ hmoved,
    Nat.testBit_shiftLeft, Nat.testBit_two_pow_sub_one, moved, Nat.testBit_two_pow_mul,
    Nat.testBit_two_pow_sub_one, Nat.testBit_two_pow]
  split
  · rename_i hi
    by_cases hk : k ≤ i
    · by_cases htop : n + k + 1 = i
      · rw [decide_eq_true htop, decide_eq_true hk, decide_eq_true (show i - k < n + 2 by omega),
          decide_eq_false (show ¬ i - k < n + 1 by omega)]
        rfl
      · rw [decide_eq_false htop, decide_eq_true (show i - k < n + 2 by omega),
          decide_eq_true (show i - k < n + 1 by omega), Bool.false_xor]
    · rw [decide_eq_false (show ¬ n + k + 1 = i by omega), decide_eq_false hk]
      rfl
  · rename_i hi
    rw [decide_eq_false (show ¬ i - k < n + 2 by omega), Bool.and_false, Bool.xor_false]

/-- A step that moves a one. -/
theorem next_of_gapped {fe : FlipEnumerator} (hx : fe.x = 2 ^ (n + k + 2) * h + gapped n k)
    (hmask : fe.x ≠ fe.mask) (hlt : fe.x < 2 ^ 64) :
    fe.next = some { fe with x := 2 ^ (n + k + 2) * h + moved n k } := by
  have hbits := testBit_above n k h
  have hn : n + k + 1 < 64 := by
    have hle : 2 ^ (n + k + 1) ≤ fe.x := two_pow_le hx
    exact (Nat.pow_lt_pow_iff_right (by decide)).mp (hle.trans_lt hlt)
  rw [FlipEnumerator.next, if_neg hmask]
  dsimp only
  cases n with
  | zero =>
      have hctz : ctzll fe.x = k + 1 := by
        rw [hx]
        refine ctzll_eq (by omega) ?_ fun j hj ↦ ?_
        · rw [hbits, if_pos (by omega), decide_eq_true (show k + 1 = 0 + k + 1 by omega), Bool.true_or]
        · rw [hbits, if_pos (by omega), decide_eq_false (show ¬ j = 0 + k + 1 by omega)]
          rfl
      have hmoves := xor_moves 0 k h
      rw [hctz, if_pos (Nat.succ_pos k), Nat.add_sub_cancel, hx]
      rw [gapped, Nat.pow_zero, Nat.sub_self, Nat.add_zero]
      exact congrArg (fun x ↦ some { fe with x := x }) hmoves
  | succ n =>
      have hctz : ctzll fe.x = 0 := by
        rw [hx]
        refine ctzll_eq (by decide) ?_ fun j hj ↦ absurd hj (Nat.not_lt_zero j)
        rw [hbits, if_pos (by omega), decide_eq_true (Nat.succ_pos n), Bool.or_true]
      have hones : ctzll (fe.x ^^^ (2 ^ 64 - 1)) = n + 1 := by
        rw [hx]
        refine ctzll_eq (by omega) ?_ fun j hj ↦ ?_
        · rw [Nat.testBit_xor, hbits, Nat.testBit_two_pow_sub_one, if_pos (by omega),
            decide_eq_false (show ¬ n + 1 = n + 1 + k + 1 by omega),
            decide_eq_false (Nat.lt_irrefl (n + 1)), decide_eq_true (show n + 1 < 64 by omega)]
          rfl
        · rw [Nat.testBit_xor, hbits, Nat.testBit_two_pow_sub_one, if_pos (by omega),
            decide_eq_true hj, decide_eq_true (show j < 64 by omega), Bool.or_true]
          rfl
      have hcleared : fe.x &&& (2 ^ 64 - 1) <<< (n + 1) % 2 ^ 64 =
          2 ^ (n + 1 + k + 2) * h + 2 ^ (n + 1 + k + 1) := by
        have hone : 2 ^ (n + 1 + k + 1) < 2 ^ (n + 1 + k + 2) :=
          Nat.pow_lt_pow_right (by decide) (Nat.lt_succ_self _)
        refine Nat.eq_of_testBit_eq fun i ↦ ?_
        have hhigh : 64 ≤ i → fe.x.testBit i = false := fun hi ↦
          Nat.testBit_lt_two_pow (hlt.trans_le (Nat.pow_le_pow_right (by decide) hi))
        rw [hx] at hhigh ⊢
        rw [hbits] at hhigh
        rw [Nat.testBit_and, Nat.testBit_mod_two_pow, Nat.testBit_shiftLeft,
          Nat.testBit_two_pow_sub_one, hbits, Nat.testBit_two_pow_mul_add _ hone, Nat.testBit_two_pow]
        by_cases hi : i < 64
        · rw [decide_eq_true hi, Bool.true_and]
          split
          · rw [show decide (n + 1 + k + 1 = i) = decide (i = n + 1 + k + 1) from
              decide_eq_decide.mpr eq_comm]
            by_cases hbottom : i < n + 1
            · rw [decide_eq_false (show ¬ n + 1 ≤ i by omega),
                decide_eq_false (show ¬ i = n + 1 + k + 1 by omega), Bool.false_and, Bool.and_false]
            · rw [decide_eq_true (show n + 1 ≤ i by omega), decide_eq_false hbottom,
                decide_eq_true (show i - (n + 1) < 64 by omega), Bool.or_false, Bool.and_true,
                Bool.and_true]
          · rw [decide_eq_true (show n + 1 ≤ i by omega),
              decide_eq_true (show i - (n + 1) < 64 by omega), Bool.and_true, Bool.and_true]
        · have hnot := hhigh (by omega)
          rw [if_neg (show ¬ i < n + 1 + k + 2 by omega)] at hnot ⊢
          rw [if_neg (show ¬ i < n + 1 + k + 2 by omega), hnot, Bool.false_and]
      have hzeros : ctzll (2 ^ (n + 1 + k + 2) * h + 2 ^ (n + 1 + k + 1)) = n + 1 + k + 1 := by
        have hone : 2 ^ (n + 1 + k + 1) < 2 ^ (n + 1 + k + 2) :=
          Nat.pow_lt_pow_right (by decide) (Nat.lt_succ_self _)
        refine ctzll_eq hn ?_ fun j hj ↦ ?_
        · rw [Nat.testBit_two_pow_mul_add _ hone, if_pos (Nat.lt_succ_self _), Nat.testBit_two_pow]
          exact decide_eq_true rfl
        · rw [Nat.testBit_two_pow_mul_add _ hone, if_pos (by omega), Nat.testBit_two_pow]
          exact decide_eq_false hj.ne'
      rw [hctz, if_neg (Nat.lt_irrefl 0), hones, hcleared, hzeros,
        show n + 1 + k + 1 - (n + 1) - 1 = k by omega, xor_moves]

/-! ## All steps -/

namespace FlipEnumerator

/-- The mask at hand has `nflip` ones. -/
structure Enumerating (fe : FlipEnumerator) : Prop where
  nbit_le : fe.nbit ≤ 63
  maxflip_le : fe.maxflip ≤ fe.nbit
  nflip_le : fe.nflip ≤ fe.maxflip
  mask_eq : fe.mask = 2 ^ fe.nflip - 1
  x_lt : fe.x < 2 ^ fe.nbit
  weight_eq : weight fe.nbit fe.x = fe.nflip

def rest (fe : FlipEnumerator) : Finset ℕ :=
  (Finset.range (2 ^ fe.nbit)).filter fun y ↦
    weight fe.nbit y = fe.nflip ∧ y ≤ fe.x ∨ fe.nflip < weight fe.nbit y ∧ weight fe.nbit y ≤ fe.maxflip

theorem mem_rest {fe : FlipEnumerator} {y : ℕ} : y ∈ fe.rest ↔ y < 2 ^ fe.nbit ∧
    (weight fe.nbit y = fe.nflip ∧ y ≤ fe.x ∨
      fe.nflip < weight fe.nbit y ∧ weight fe.nbit y ≤ fe.maxflip) := by
  rw [rest, Finset.mem_filter, Finset.mem_range]

variable {fe fe' : FlipEnumerator}

theorem Enumerating.new {nbit maxflip : ℕ} (hnbit : nbit ≤ 63) (hmaxflip : maxflip ≤ nbit) :
    (new nbit maxflip).Enumerating where
  nbit_le := hnbit
  maxflip_le := hmaxflip
  nflip_le := Nat.zero_le _
  mask_eq := rfl
  x_lt := Nat.two_pow_pos nbit
  weight_eq := Lib.weight_zero_right nbit

theorem Enumerating.eq_of_le (h : fe.Enumerating) (hlast : fe.x = fe.mask) {y : ℕ}
    (hy : weight fe.nbit y = fe.nflip) (hle : y ≤ fe.x) : y = fe.x := by
  refine le_antisymm hle ?_
  rw [hlast, h.mask_eq, ← hy]
  exact Lib.ones_le fe.nbit y

/-- The first mask with one more. -/
theorem Enumerating.more (h : fe.Enumerating) (hlast : fe.x = fe.mask) (hmore : fe.nflip ≠ fe.maxflip) :
    let fe' : FlipEnumerator := { fe with
      nflip := fe.nflip + 1
      mask := 2 ^ (fe.nflip + 1) - 1
      x := (2 ^ (fe.nflip + 1) - 1) <<< (fe.nbit - (fe.nflip + 1)) }
    fe'.Enumerating ∧ fe.x ∉ fe'.rest ∧ fe.rest = insert fe.x fe'.rest := by
  intro fe'
  have hflip : fe.nflip + 1 ≤ fe.maxflip := Nat.lt_of_le_of_ne h.nflip_le hmore
  have hsum : fe.nflip + 1 + (fe.nbit - (fe.nflip + 1)) = fe.nbit :=
    Nat.add_sub_cancel' (hflip.trans h.maxflip_le)
  have hx : fe'.x = 2 ^ (fe.nbit - (fe.nflip + 1)) * (2 ^ (fe.nflip + 1) - 1) + 0 := by
    rw [Nat.add_zero, Nat.mul_comm]
    exact Nat.shiftLeft_eq _ _
  have hweight : weight fe.nbit fe'.x = fe.nflip + 1 := by
    have hsplit := Lib.weight_mul_add (Nat.two_pow_pos (fe.nbit - (fe.nflip + 1))) (fe.nflip + 1)
      (2 ^ (fe.nflip + 1) - 1)
    rw [Lib.weight_zero_right, Nat.zero_add, Lib.weight_ones, Nat.add_comm _ (fe.nflip + 1), hsum] at hsplit
    rw [hx]
    exact hsplit
  have henum : fe'.Enumerating :=
    { nbit_le := h.nbit_le
      maxflip_le := h.maxflip_le
      nflip_le := hflip
      mask_eq := rfl
      x_lt := by
        have hpow : 2 ^ fe.nbit = 2 ^ (fe.nbit - (fe.nflip + 1)) * 2 ^ (fe.nflip + 1) := by
          rw [← Nat.pow_add, Nat.add_comm, hsum]
        change fe'.x < 2 ^ fe.nbit
        rw [hx, Nat.add_zero, hpow]
        exact Nat.mul_lt_mul_of_pos_left (Nat.sub_lt (Nat.two_pow_pos _) Nat.one_pos)
          (Nat.two_pow_pos _)
      weight_eq := hweight }
  refine ⟨henum, fun hin ↦ ?_, Finset.ext fun y ↦ ?_⟩
  · have hfe : weight fe'.nbit fe.x = fe.nflip := h.weight_eq
    have hnflip : fe'.nflip = fe.nflip + 1 := rfl
    rcases (mem_rest.mp hin).2 with ⟨hw, -⟩ | ⟨hw, -⟩
    · omega
    · omega
  · rw [Finset.mem_insert, mem_rest, mem_rest]
    constructor
    · rintro ⟨hy, ⟨hw, hle⟩ | ⟨hw, hmax⟩⟩
      · exact .inl (h.eq_of_le hlast hw hle)
      · refine .inr ⟨hy, ?_⟩
        rcases Nat.lt_or_eq_of_le (Nat.succ_le_of_lt hw) with hw | hw
        · exact .inr ⟨hw, hmax⟩
        · -- all masks with so many ones come after the largest of them
          refine .inl ⟨hw.symm, ?_⟩
          have hle := Lib.le_ones_shifted hy
          rw [← hw] at hle
          rw [hx, Nat.add_zero, Nat.mul_comm]
          exact hle
    · rintro (rfl | ⟨hy, ⟨hw, -⟩ | ⟨hw, hmax⟩⟩)
      · exact ⟨h.x_lt, .inl ⟨h.weight_eq, le_rfl⟩⟩
      · exact ⟨hy, .inr ⟨hw.symm ▸ Nat.lt_succ_self _, hw.symm ▸ hflip⟩⟩
      · exact ⟨hy, .inr ⟨(Nat.lt_succ_self _).trans hw, hmax⟩⟩

/-- The mask before, with as many ones. -/
theorem Enumerating.move (hfe : fe.Enumerating) (hx : fe.x = 2 ^ (n + k + 2) * h + gapped n k) :
    let fe' : FlipEnumerator := { fe with x := 2 ^ (n + k + 2) * h + moved n k }
    fe'.Enumerating ∧ fe.x ∉ fe'.rest ∧ fe.rest = insert fe.x fe'.rest := by
  intro fe'
  have hbit : n + k + 2 ≤ fe.nbit := by
    have hle : 2 ^ (n + k + 1) ≤ fe.x := two_pow_le hx
    exact (Nat.pow_lt_pow_iff_right (by decide)).mp (hle.trans_lt hfe.x_lt)
  have hlt : fe'.x < fe.x := by
    rw [hx]
    exact Nat.add_lt_add_left (Lib.moved_lt_gapped n k) _
  have hweight : weight fe.nbit fe'.x = fe.nflip := by
    rw [← hfe.weight_eq, hx]
    exact Lib.weight_moved_above hbit h
  have hmove : fe'.Enumerating :=
    { nbit_le := hfe.nbit_le
      maxflip_le := hfe.maxflip_le
      nflip_le := hfe.nflip_le
      mask_eq := hfe.mask_eq
      x_lt := hlt.trans hfe.x_lt
      weight_eq := hweight }
  refine ⟨hmove, fun hin ↦ ?_, Finset.ext fun y ↦ ?_⟩
  · rcases (mem_rest.mp hin).2 with ⟨-, hle⟩ | ⟨hw, -⟩
    · exact absurd hlt (Nat.not_lt.mpr hle)
    · exact absurd hw (hfe.weight_eq.le.not_gt)
  · rw [Finset.mem_insert, mem_rest, mem_rest]
    constructor
    · rintro ⟨hy, ⟨hw, hle⟩ | hmore⟩
      · rcases Nat.lt_or_eq_of_le hle with hle | rfl
        · refine .inr ⟨hy, .inl ⟨hw, ?_⟩⟩
          have hsame := hw.trans hfe.weight_eq.symm
          rw [hx] at hsame hle
          exact Lib.le_moved_above hsame hbit hle
        · exact .inl rfl
      · exact .inr ⟨hy, .inr hmore⟩
    · rintro (rfl | ⟨hy, ⟨hw, hle⟩ | hmore⟩)
      · exact ⟨hfe.x_lt, .inl ⟨hfe.weight_eq, le_rfl⟩⟩
      · exact ⟨hy, .inl ⟨hw, hle.trans hlt.le⟩⟩
      · exact ⟨hy, .inr hmore⟩

theorem nbit_of_next (hnext : fe.next = some fe') : fe'.nbit = fe.nbit := by
  rw [next] at hnext
  dsimp only at hnext
  split_ifs at hnext <;> obtain rfl := Option.some.inj hnext <;> rfl

theorem enumerates : Lib.Enumerates next (·.x) Enumerating rest where
  last fe h hnext := by
    rw [next] at hnext
    split at hnext
    · rename_i hlast
      split at hnext
      · rename_i hmax
        refine Finset.ext fun y ↦ ?_
        rw [mem_rest, Finset.mem_singleton]
        constructor
        · rintro ⟨-, ⟨hw, hle⟩ | ⟨hw, hle⟩⟩
          · exact h.eq_of_le hlast hw hle
          · omega
        · rintro rfl
          exact ⟨h.x_lt, .inl ⟨h.weight_eq, le_rfl⟩⟩
      · cases hnext
    · dsimp only at hnext
      split at hnext
      · cases hnext
      · cases hnext
  step fe fe' h hnext := by
    by_cases hlast : fe.x = fe.mask
    · rw [next, if_pos hlast] at hnext
      split at hnext
      · cases hnext
      · rename_i hmore
        obtain rfl := Option.some.inj hnext
        exact h.more hlast hmore
    · rcases Lib.eq_ones_or_gapped fe.x with ⟨n, hn⟩ | ⟨n, k, high, hx⟩
      · -- with all ones at the bottom it is the last one
        have hle : n ≤ fe.nbit := by
          have hlt := h.x_lt
          rw [hn] at hlt
          exact (Nat.pow_le_pow_iff_right Nat.one_lt_two).mp (show 2 ^ n ≤ 2 ^ fe.nbit by omega)
        obtain ⟨c, hc⟩ := Nat.exists_eq_add_of_le hle
        have hw := h.weight_eq
        rw [hc, hn, Lib.weight_of_lt (Nat.sub_lt (Nat.two_pow_pos n) Nat.one_pos), Lib.weight_ones] at hw
        exact absurd (by rw [hn, h.mask_eq, hw]) hlast
      · rw [next_of_gapped hx hlast (h.x_lt.trans_le (Nat.pow_le_pow_right (by decide)
          (h.nbit_le.trans (by decide))))] at hnext
        obtain rfl := Option.some.inj hnext
        exact h.move hx

end FlipEnumerator

/-- All masks with at most `maxflip` ones are visited, once each. -/
theorem flips_spec {nbit maxflip : ℕ} (hnbit : nbit ≤ 63) (hmaxflip : maxflip ≤ nbit) :
    ∃ masks, flips nbit maxflip = some masks ∧ masks.Nodup ∧
      ∀ y, y ∈ masks ↔ y < 2 ^ nbit ∧ weight nbit y ≤ maxflip := by
  have hcard : (FlipEnumerator.new nbit maxflip).rest.card ≤ 2 ^ nbit := by
    have hle := Finset.card_filter_le (Finset.range (2 ^ nbit)) fun y ↦
      weight nbit y = 0 ∧ y ≤ 0 ∨ 0 < weight nbit y ∧ weight nbit y ≤ maxflip
    rwa [Finset.card_range] at hle
  obtain ⟨masks, hmasks, hnodup, hmem⟩ :=
    FlipEnumerator.enumerates.visits (.new hnbit hmaxflip) hcard
  refine ⟨masks, hmasks, hnodup, fun y ↦ ?_⟩
  rw [hmem, FlipEnumerator.mem_rest]
  refine and_congr_right fun hy ↦ ⟨?_, fun hle ↦ ?_⟩
  · rintro (⟨hw, -⟩ | ⟨-, hle⟩)
    · exact hw.trans_le (Nat.zero_le _)
    · exact hle
  · rcases Nat.eq_zero_or_pos (weight nbit y) with hw | hw
    · -- without ones there is only zero
      have hmax : y ≤ (2 ^ weight nbit y - 1) * 2 ^ (nbit - weight nbit y) := Lib.le_ones_shifted hy
      rw [hw, Nat.pow_zero, Nat.sub_self, Nat.zero_mul] at hmax
      exact .inl ⟨hw, hmax⟩
    · exact .inr ⟨hw, hle⟩

/-- The enumerator goes through the masks with at most `maxflip` ones, each once and by their numbers of ones, and
then `next` returns false. -/
theorem flips_enumerates (nbit maxflip : ℕ) (hnbit : nbit ≤ 63) (hmaxflip : maxflip ≤ nbit) :
    ∃ masks, flips nbit maxflip = some masks ∧ masks.Nodup ∧
      (∀ y, y ∈ masks ↔ y < 2 ^ nbit ∧ weight nbit y ≤ maxflip) ∧
      masks.Pairwise fun y y' ↦ weight nbit y ≤ weight nbit y' := by
  obtain ⟨masks, hmasks, hnodup, hmem⟩ := flips_spec hnbit hmaxflip
  refine ⟨masks, hmasks, hnodup, hmem, ?_⟩
  have hle : ∀ fe : FlipEnumerator, fe.Enumerating ∧ fe.nbit = nbit → ∀ y ∈ fe.rest,
      weight nbit fe.x ≤ weight nbit y := by
    rintro fe ⟨hfe, rfl⟩ y hy
    rw [hfe.weight_eq]
    rcases (FlipEnumerator.mem_rest.mp hy).2 with ⟨hw, -⟩ | ⟨hw, -⟩
    · exact hw.ge
    · exact hw.le
  have henum : Lib.Enumerates FlipEnumerator.next (·.x)
      (fun fe ↦ fe.Enumerating ∧ fe.nbit = nbit) FlipEnumerator.rest :=
    ⟨fun fe hfe ↦ FlipEnumerator.enumerates.last fe hfe.1, fun fe fe' hfe hnext ↦ by
      obtain ⟨hfe', hrest⟩ := FlipEnumerator.enumerates.step fe fe' hfe.1 hnext
      exact ⟨⟨hfe', (FlipEnumerator.nbit_of_next hnext).trans hfe.2⟩, hrest⟩⟩
  exact (henum.visits_pairwise hle ⟨.new hnbit hmaxflip, rfl⟩ hmasks).1

/-- The five masks of four bits with at most one of them set. -/
theorem flips_enumerates_four : ∃ masks, flips 4 1 = some masks ∧ masks.Nodup ∧
    (∀ y, y ∈ masks ↔ y < 2 ^ 4 ∧ weight 4 y ≤ 1) ∧ masks.Pairwise fun y y' ↦ weight 4 y ≤ weight 4 y' :=
  flips_enumerates 4 1 (by decide) (by decide)

example : flips 4 2 = some [0, 8, 4, 2, 1, 12, 10, 9, 6, 5, 3] := by
  decide

end FaissNavix
