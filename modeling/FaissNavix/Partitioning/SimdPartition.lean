import FaissNavix.Partitioning.SimdCompress

/-!
# Partitioning words with registers: the bisection

`simd_partition_fuzzy_with_bounds` and `simd_partition_fuzzy` of `faiss/utils/partitioning.cpp`.  The
bounds enclose a threshold with a suitable number of better values: fewer than `q_min` values are on the
good side of one bound, and more than `q_max` on the good side of the other.  Every turn halves the
distance of the bounds, and once they are next to each other the threshold between them is accepted.
-/

namespace FaissNavix

open Lib

namespace SimdPartitioning

/-- The local variables of the bisection. -/
structure Bisection where
  s0 : ℕ
  s1 : ℕ
  thresh : ℕ
  nLt : ℕ
  nEq : ℕ
  q : ℕ

/-- The loop of the bisection. -/
def bisect (isMax : Bool) (vals : WordArrays) (n qMin qMax : ℕ) : ℕ → Bisection → Bisection
  | 0, b => b
  | turns + 1, b =>
      let thresh := (b.s0 + b.s1) / 2
      let c := countLtAndEq isMax vals n (.ofNat thresh)
      let b := { b with thresh, nLt := c.1, nEq := c.2 }
      if c.1 ≤ qMin then
        if qMin ≤ c.1 + c.2 then { b with q := qMin }
        else bisect isMax vals n qMin qMax turns
          (if isMax then { b with s0 := thresh } else { b with s1 := thresh })
      else if c.1 ≤ qMax then { b with q := c.1 }
      else bisect isMax vals n qMin qMax turns
        (if isMax then { b with s1 := thresh } else { b with s0 := thresh })

section
variable (isMax : Bool) (vals : WordArrays) (n qMin qMax : ℕ)

/-- The last lines of the partitions: the arrays are compressed. -/
def compressTo (thresh : UInt16) (nEq1 q : ℕ) :
    Option (UInt16 × ℕ × WordArrays) :=
  (simdCompressArray isMax vals n thresh nEq1).bind fun s ↦
    if s.wp = q then some (thresh, q, s.arrays) else none

/-- `simd_partition_fuzzy_with_bounds`: the threshold, `q_out` and the arrays, or `none` where an
assertion fails -/
def simdPartitionFuzzyWithBounds (s0i s1i : UInt16) : Option (UInt16 × ℕ × WordArrays) :=
  if qMin = 0 then some (0, 0, vals)
  else if n ≤ qMax then some (0xffff, qMax, vals)
  else if s0i = s1i then some (s0i, qMin, vals)
  else
    let b := bisect isMax vals n qMin qMax 200
      { s0 := s0i.toNat, s1 := s1i.toNat + 1, thresh := 0, nLt := 0, nEq := 0, q := 0 }
    let nEq1 : ℤ := b.q - b.nLt
    if nEq1 < 0 then
      if b.s0 + 1 = b.s1 then
        compressTo isMax vals n (if isMax then .ofNat b.thresh - 1 else .ofNat b.thresh + 1) qMin qMin
      else none
    else if nEq1 ≤ b.nEq then compressTo isMax vals n (.ofNat b.thresh) nEq1.toNat b.q
    else none

/-- `simd_partition_fuzzy` -/
def simdPartitionFuzzy :
    Option (UInt16 × ℕ × WordArrays) :=
  let s := findMinimax vals n
  simdPartitionFuzzyWithBounds isMax vals n qMin qMax s.1 s.2

end

variable {isMax : Bool} {vals : WordArrays} {n qMin qMax s0 s1 t : ℕ}

/-! ## The bounds -/

section
variable (vals : WordArrays) (n : ℕ) (a b : UInt16)

theorem toNat_min : (min a b).toNat = min a.toNat b.toNat := by
  change (if a ≤ b then a else b).toNat = _
  split
  · rename_i h
    rw [UInt16.le_iff_toNat_le] at h
    omega
  · rename_i h
    rw [UInt16.le_iff_toNat_le] at h
    omega

theorem toNat_max : (max a b).toNat = max a.toNat b.toNat := by
  change (if a ≤ b then b else a).toNat = _
  split
  · rename_i h
    rw [UInt16.le_iff_toNat_le] at h
    omega
  · rename_i h
    rw [UInt16.le_iff_toNat_le] at h
    omega

/-- No value is outside of what `find_minimax` finds. -/
theorem findMinimax_spec :
    ∀ i < n, (findMinimax vals n).1.toNat ≤ (vals i).1.toNat ∧
      (vals i).1.toNat ≤ (findMinimax vals n).2.toNat := by
  let blocks := (List.range (n / 16)).foldl
    (fun (v : Simd16UInt16 × Simd16UInt16) b ↦
      (Simd.minimum v.1 (load vals (16 * b)), Simd.maximum v.2 (load vals (16 * b))))
    (Simd.set1 0xffff, Simd.set1 0)
  have hblocks : ∀ b < n / 16, ∀ j < 16, (blocks.1 j).toNat ≤ (vals (16 * b + j)).1.toNat ∧
      (vals (16 * b + j)).1.toNat ≤ (blocks.2 j).toNat := by
    refine foldl_range_invariant
      (fun k (v : Simd16UInt16 × Simd16UInt16) ↦ ∀ b < k, ∀ j < 16,
        (v.1 j).toNat ≤ (vals (16 * b + j)).1.toNat ∧ (vals (16 * b + j)).1.toNat ≤ (v.2 j).toNat)
      (fun b hb ↦ absurd hb (Nat.not_lt_zero b)) fun k _ v hv b hb j hj ↦ ?_
    simp only [Simd.minimum, Simd.maximum, load, toNat_min, toNat_max]
    rcases Nat.lt_succ_iff_lt_or_eq.mp hb with hlt | rfl
    · have := hv b hlt j hj
      omega
    · omega
  let lanes := (List.range 15).foldl
    (fun (s : UInt16 × UInt16) i ↦ (min s.1 (blocks.1 (i + 1)), max s.2 (blocks.2 (i + 1))))
    (blocks.1 0, blocks.2 0)
  have hlanes : ∀ j ≤ 15, lanes.1.toNat ≤ (blocks.1 j).toNat ∧ (blocks.2 j).toNat ≤ lanes.2.toNat := by
    refine foldl_range_invariant
      (fun k (s : UInt16 × UInt16) ↦ ∀ j ≤ k, s.1.toNat ≤ (blocks.1 j).toNat ∧
        (blocks.2 j).toNat ≤ s.2.toNat) (fun j hj ↦ ?_) fun k _ s hs j hj ↦ ?_
    · obtain rfl := Nat.le_zero.mp hj
      exact ⟨le_rfl, le_rfl⟩
    · simp only [toNat_min, toNat_max]
      rcases (show j ≤ k ∨ j = k + 1 by omega) with hle | rfl
      · have := hs j hle
        omega
      · omega
  have hrest := foldl_range_invariant (n := n - n / 16 * 16) (s := lanes)
    (f := fun (s : UInt16 × UInt16) i ↦
      (min s.1 (vals (n / 16 * 16 + i)).1, max s.2 (vals (n / 16 * 16 + i)).1))
    (fun k s ↦ ∀ i < n / 16 * 16 + k, s.1.toNat ≤ (vals i).1.toNat ∧ (vals i).1.toNat ≤ s.2.toNat)
    (fun i hi ↦ ?_) fun k _ s hs i hi ↦ ?_
  · intro i hi
    exact hrest i (by omega)
  · have hblock := hblocks (i / 16) (by omega) (i % 16) (by omega)
    have hlane := hlanes (i % 16) (by omega)
    rw [show 16 * (i / 16) + i % 16 = i by omega] at hblock
    omega
  · simp only [toNat_min, toNat_max]
    rcases (show i < n / 16 * 16 + k ∨ i = n / 16 * 16 + k by omega) with hlt | rfl
    · have := hs i hlt
      omega
    · omega

def below (t : ℕ) : ℕ :=
  (List.range n).countP fun i ↦ decide ((vals i).1.toNat < t)

theorem below_le (t : ℕ) : below vals n t ≤ n := by
  have h := List.countP_le_length (p := fun i ↦ decide ((vals i).1.toNat < t)) (l := List.range n)
  rwa [List.length_range] at h

theorem below_mono {t t' : ℕ} (h : t ≤ t') :
    below vals n t ≤ below vals n t' := by
  refine List.countP_mono_left fun i _ hi ↦ ?_
  rw [decide_eq_true_eq] at hi ⊢
  exact hi.trans_le h

theorem below_succ (ht : t < 65536) :
    below vals n (t + 1) = below vals n t + eqCount vals n (.ofNat t) := by
  unfold below eqCount
  induction n with
  | zero => rfl
  | succ n ih =>
      simp only [List.range_succ, List.countP_append, List.countP_singleton, ih, decide_eq_true_eq,
        ← UInt16.toNat_inj, UInt16.toNat_ofNat_of_lt' ht]
      rcases lt_trichotomy (vals n).1.toNat t with hlt | heq | hgt
      · simp only [hlt, hlt.ne, show (vals n).1.toNat < t + 1 by omega, if_true, if_false]
        omega
      · simp only [heq, lt_irrefl, show t < t + 1 by omega, if_true, if_false]
        omega
      · simp only [hgt.ne', show ¬ (vals n).1.toNat < t by omega,
          show ¬ (vals n).1.toNat < t + 1 by omega, if_false]
        omega

theorem ltCount_true (ht : t < 65536) :
    ltCount true vals n (.ofNat t) = below vals n t := by
  refine List.countP_congr fun i _ ↦ ?_
  simp only [cmp, if_true, decide_eq_true_eq, UInt16.lt_iff_toNat_lt, UInt16.toNat_ofNat_of_lt' ht]

/-- The better values, for `CMin`. -/
theorem ltCount_false (ht : t < 65536) :
    ltCount false vals n (.ofNat t) + below vals n (t + 1) = n := by
  have hsplit := List.length_eq_countP_add_countP (fun i ↦ decide ((vals i).1.toNat < t + 1))
    (l := List.range n)
  have hnot : (List.range n).countP (fun i ↦ decide ¬ decide ((vals i).1.toNat < t + 1) = true) =
      ltCount false vals n (.ofNat t) := by
    refine List.countP_congr fun i _ ↦ ?_
    simp only [cmp, Bool.false_eq_true, if_false, decide_eq_true_eq, UInt16.lt_iff_toNat_lt,
      UInt16.toNat_ofNat_of_lt' ht]
    omega
  rw [List.length_range, hnot] at hsplit
  rw [below]
  omega

end

/-! ## The bisection -/

/-- Fewer than `qMin` values are on the good side of one bound, and more than `qMax` on the good side of
the other. -/
structure Bracket (isMax : Bool) (vals : WordArrays) (n qMin qMax s0 s1 : ℕ) : Prop where
  lt : s0 < s1
  le : s1 ≤ 65536
  max : isMax = true → below vals n s0 < qMin ∧ qMax < below vals n s1
  min : isMax = false → n - below vals n s1 < qMin ∧ qMax < n - below vals n s0

/-- A threshold at which the bisection stops. -/
structure Accepted (isMax : Bool) (vals : WordArrays) (n qMin qMax : ℕ) (b : Bisection) : Prop where
  thresh_lt : b.thresh < 65536
  nLt_eq : b.nLt = ltCount isMax vals n (.ofNat b.thresh)
  nEq_eq : b.nEq = eqCount vals n (.ofNat b.thresh)
  min_le : qMin ≤ b.q
  le_max : b.q ≤ qMax
  nLt_le : b.nLt ≤ b.q
  le_add : b.q ≤ b.nLt + b.nEq

/-- With `turns` turns left, bounds of a distance up to `2 ^ (turns - 1)` lead to a threshold. -/
theorem bisect_accepted (k turns : ℕ) {b : Bisection} (hq : qMin ≤ qMax)
    (hb : Bracket isMax vals n qMin qMax b.s0 b.s1) (hk : b.s1 - b.s0 ≤ 2 ^ k) (hturns : k < turns) :
    Accepted isMax vals n qMin qMax (bisect isMax vals n qMin qMax turns b) := by
  induction k generalizing turns b with
  | zero =>
      obtain ⟨turns, rfl⟩ : ∃ t, turns = t + 1 := ⟨turns - 1, by omega⟩
      have hlt := hb.lt
      have hle := hb.le
      rw [pow_zero] at hk
      -- the bounds are next to each other
      have hthresh : (b.s0 + b.s1) / 2 = b.s0 := by omega
      have hs1 : b.s1 = b.s0 + 1 := by omega
      have hlt16 : b.s0 < 65536 := by omega
      have hsucc := below_succ vals n hlt16
      have haccept : ltCount isMax vals n (.ofNat b.s0) ≤ qMin ∧
          qMin ≤ ltCount isMax vals n (.ofNat b.s0) + eqCount vals n (.ofNat b.s0) := by
        cases isMax with
        | true =>
            have hmax := hb.max rfl
            rw [hs1] at hmax
            rw [ltCount_true vals n hlt16]
            omega
        | false =>
            have hmin := hb.min rfl
            have hfalse := ltCount_false vals n hlt16
            rw [hs1] at hmin
            omega
      rw [bisect]
      simp only [hthresh, countLtAndEq_eq]
      rw [if_pos haccept.1, if_pos haccept.2]
      exact ⟨hlt16, rfl, rfl, le_rfl, hq, haccept.1, haccept.2⟩
  | succ k ih =>
      obtain ⟨turns, rfl⟩ : ∃ t, turns = t + 1 := ⟨turns - 1, by omega⟩
      have hlt := hb.lt
      have hle := hb.le
      rw [pow_succ] at hk
      by_cases hnext : b.s1 - b.s0 ≤ 2 ^ k
      · exact ih turns.succ hb hnext (by omega)
      have hpos : 0 < 2 ^ k := Nat.two_pow_pos k
      have ht16 : (b.s0 + b.s1) / 2 < 65536 := by omega
      have hsucc := below_succ vals n ht16
      have hmono := below_mono vals n (Nat.le_succ ((b.s0 + b.s1) / 2))
      have hfalse := ltCount_false vals n ht16
      have hbelow := below_le vals n ((b.s0 + b.s1) / 2)
      rw [bisect]
      simp only [countLtAndEq_eq]
      split
      · rename_i hfew
        split
        · rename_i henough
          exact ⟨ht16, rfl, rfl, le_rfl, hq, hfew, henough⟩
        · -- too few values, with the equal ones
          rename_i htoofew
          cases isMax with
          | true =>
              rw [ltCount_true vals n ht16] at htoofew
              refine ih turns ⟨?_, hle, fun _ ↦ ⟨?_, (hb.max rfl).2⟩,
                fun h ↦ absurd h.symm Bool.false_ne_true⟩ ?_ (by omega)
              · change (b.s0 + b.s1) / 2 < b.s1
                omega
              · change below vals n ((b.s0 + b.s1) / 2) < qMin
                omega
              · change b.s1 - (b.s0 + b.s1) / 2 ≤ 2 ^ k
                omega
          | false =>
              refine ih turns ⟨?_, ht16.le, fun h ↦ absurd h Bool.false_ne_true,
                fun _ ↦ ⟨?_, (hb.min rfl).2⟩⟩ ?_ (by omega)
              · change b.s0 < (b.s0 + b.s1) / 2
                omega
              · change n - below vals n ((b.s0 + b.s1) / 2) < qMin
                omega
              · change (b.s0 + b.s1) / 2 - b.s0 ≤ 2 ^ k
                omega
      · rename_i hmany
        split
        · rename_i hfits
          exact ⟨ht16, rfl, rfl, (not_le.mp hmany).le, hfits, le_rfl, Nat.le_add_right _ _⟩
        · -- too many better values
          rename_i htoomany
          cases isMax with
          | true =>
              rw [ltCount_true vals n ht16] at htoomany
              refine ih turns ⟨?_, ht16.le, fun _ ↦ ⟨(hb.max rfl).1, ?_⟩,
                fun h ↦ absurd h.symm Bool.false_ne_true⟩ ?_ (by omega)
              · change b.s0 < (b.s0 + b.s1) / 2
                omega
              · change qMax < below vals n ((b.s0 + b.s1) / 2)
                omega
              · change (b.s0 + b.s1) / 2 - b.s0 ≤ 2 ^ k
                omega
          | false =>
              refine ih turns ⟨?_, hle, fun h ↦ absurd h Bool.false_ne_true,
                fun _ ↦ ⟨(hb.min rfl).1, ?_⟩⟩ ?_ (by omega)
              · change (b.s0 + b.s1) / 2 < b.s1
                omega
              · change qMax < n - below vals n ((b.s0 + b.s1) / 2)
                omega
              · change b.s1 - (b.s0 + b.s1) / 2 ≤ 2 ^ k
                omega

/-! ## The partition -/

/-- Compressing at an accepted threshold partitions the arrays. -/
theorem Accepted.compressTo {b : Bisection} (h : Accepted isMax vals n qMin qMax b) :
    ∃ vals', compressTo isMax vals n (.ofNat b.thresh) (b.q - b.nLt) b.q =
        some (.ofNat b.thresh, b.q, vals') ∧
      Partitions (cmp isMax) vals n qMin qMax b.q vals' := by
  have hle := h.nLt_le
  have hadd := h.le_add
  have hnEq : b.q - b.nLt ≤ eqCount vals n (.ofNat b.thresh) := by
    rw [← h.nEq_eq]
    omega
  obtain ⟨s, hs, hwp, hdone⟩ := simdCompressArray_spec isMax vals n (.ofNat b.thresh) hnEq
  rw [← h.nLt_eq] at hwp
  have hwpq : s.wp = b.q := by omega
  refine ⟨s.arrays, ?_, h.min_le, h.le_max, ?_⟩
  · rw [SimdPartitioning.compressTo, hs]
    change (if s.wp = b.q then _ else _) = _
    rw [if_pos hwpq]
  · obtain ⟨dropped, hsplit, hkept, hdropped⟩ := hdone.split
    rw [hwpq] at hsplit hkept
    refine ⟨dropped, hsplit, fun x hx y hy ↦ ?_⟩
    -- what is kept is no worse than the threshold, and what is dropped no better
    have hx := hkept x hx
    have hy := hdropped y hy
    cases isMax with
    | true =>
        simp only [cmp, if_true, decide_eq_true_eq, decide_eq_false_iff_not, UInt16.lt_iff_toNat_lt,
          ← UInt16.toNat_inj] at hx hy ⊢
        omega
    | false =>
        simp only [cmp, Bool.false_eq_true, if_false, decide_eq_true_eq, decide_eq_false_iff_not,
          UInt16.lt_iff_toNat_lt, ← UInt16.toNat_inj] at hx hy ⊢
        omega

theorem partitions_of_const {T : Type} {cmp : T → T → Bool} (hcmp : ∀ a, cmp a a = false)
    {vals : ℕ → T × ℤ} (hq : qMin ≤ qMax) (hn : qMin ≤ n)
    (hvals : ∀ i < n, ∀ j < n, (vals i).1 = (vals j).1) :
    Partitions cmp vals n qMin qMax qMin vals := by
  have hfront : Compress.front vals n = Compress.front vals qMin ++ (Compress.front vals n).drop qMin := by
    have htake : (Compress.front vals n).take qMin = Compress.front vals qMin := by
      rw [Compress.front, ← List.map_take, List.take_range, min_eq_left hn]
      rfl
    rw [← htake, List.take_append_drop]
  refine ⟨le_rfl, hq, ↑((Compress.front vals n).drop qMin), ?_, fun x hx y hy ↦ ?_⟩
  · rw [← Compress.coe_front, ← Compress.coe_front, Multiset.coe_add, ← hfront]
  · obtain ⟨i, hi, rfl⟩ := mem_entries.mp hx
    obtain ⟨j, hj, rfl⟩ := List.mem_map.mp (List.mem_of_mem_drop (Multiset.mem_coe.mp hy))
    rw [hvals i (by omega) j (List.mem_range.mp hj)]
    exact hcmp _

/-- The partition of words keeps between `q_min` and `q_max` pairs of the input, none of the pairs left
out is strictly better than one of them, and no assertion fails. -/
theorem simdPartitionFuzzy_partitions (isMax : Bool) (vals : WordArrays) {n qMin qMax : ℕ}
    (hmin : 0 < qMin) (hq : qMin ≤ qMax) (hmax : qMax < n) :
    ∃ thresh q vals', simdPartitionFuzzy isMax vals n qMin qMax = some (thresh, q, vals') ∧
      Partitions (cmp isMax) vals n qMin qMax q vals' := by
  have hspec := findMinimax_spec vals n
  unfold simdPartitionFuzzy simdPartitionFuzzyWithBounds
  generalize findMinimax vals n = s at hspec
  dsimp only
  rw [if_neg (by omega), if_neg (by omega)]
  by_cases hs : s.1 = s.2
  · rw [if_pos hs]
    refine ⟨_, _, _, rfl, partitions_of_const (cmp_self isMax) hq (by omega) fun i hi j hj ↦ ?_⟩
    have hi := hspec i hi
    have hj := hspec j hj
    rw [hs] at hi hj
    apply UInt16.toNat_inj.mp
    omega
  · rw [if_neg hs]
    have h0 := hspec 0 (by omega)
    have h16 := s.2.toNat_lt
    have hlow : below vals n s.1.toNat = 0 := by
      refine List.countP_eq_zero.mpr fun i hi ↦ ?_
      have := (hspec i (List.mem_range.mp hi)).1
      simp only [decide_eq_true_eq]
      omega
    have hhigh : below vals n (s.2.toNat + 1) = n := by
      have hall : below vals n (s.2.toNat + 1) = (List.range n).length :=
        List.countP_eq_length.mpr fun i hi ↦ by
          have := (hspec i (List.mem_range.mp hi)).2
          simp only [decide_eq_true_eq]
          omega
      rw [hall, List.length_range]
    have hbracket : Bracket isMax vals n qMin qMax s.1.toNat (s.2.toNat + 1) :=
      ⟨by omega, by omega, fun _ ↦ by omega, fun _ ↦ by omega⟩
    have hacc := bisect_accepted 16 200
      (b := { s0 := s.1.toNat, s1 := s.2.toNat + 1, thresh := 0, nLt := 0, nEq := 0, q := 0 }) hq
      hbracket (by change s.2.toNat + 1 - s.1.toNat ≤ 2 ^ 16; omega) (by decide)
    generalize bisect isMax vals n qMin qMax 200 _ = b at hacc
    have hle := hacc.nLt_le
    have hadd := hacc.le_add
    obtain ⟨vals', hvals', hpart⟩ := hacc.compressTo
    rw [if_neg (by omega), if_pos (by omega), show ((b.q : ℤ) - b.nLt).toNat = b.q - b.nLt by omega]
    exact ⟨_, _, vals', hvals', hpart⟩

/-- Four values, of which the two smallest ones are kept. -/
theorem simdPartitionFuzzy_partitions_four :
    ∃ thresh q vals', simdPartitionFuzzy true (fun i ↦ (5 - UInt16.ofNat i, i)) 4 2 2 =
        some (thresh, q, vals') ∧
      Partitions (cmp true) (fun i ↦ (5 - UInt16.ofNat i, i)) 4 2 2 q vals' :=
  simdPartitionFuzzy_partitions true _ (by decide) (by decide) (by decide)

end SimdPartitioning

end FaissNavix
