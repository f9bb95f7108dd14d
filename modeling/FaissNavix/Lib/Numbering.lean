import Mathlib.Algebra.BigOperators.Group.Finset.Basic
import Mathlib.Algebra.Order.BigOperators.Group.Finset
import Mathlib.Data.Set.Card
import Mathlib.Tactic.Linarith

/-!
# Numberings

A *numbering* of a set by the numbers below `n` is a pair of maps that are inverse to each other.  Pairs are
numbered by mixed radix.  A union of disjoint sets is numbered segment by segment, where some segments may be
empty; the segment of a number is found by bisection in the cumulated sizes.
-/

namespace Lib

variable {α β : Type*}

/-! ## Numberings -/

/-- `encode` gives the elements of `S` the numbers below `n`, and `decode` gives them back. -/
structure Numbers (S : Set α) (n : ℕ) (encode : α → ℕ) (decode : ℕ → α) : Prop where
  encode_lt : ∀ x ∈ S, encode x < n
  decode_mem : ∀ k < n, decode k ∈ S
  decode_encode : ∀ x ∈ S, decode (encode x) = x
  encode_decode : ∀ k < n, encode (decode k) = k

namespace Numbers

variable {S : Set α} {T : Set β} {n m : ℕ} {encode : α → ℕ} {decode : ℕ → α} {encode' : β → ℕ}
  {decode' : ℕ → β}

theorem ncard_eq (h : Numbers S n encode decode) : S.ncard = n :=
  Set.ncard_eq_of_bijective (fun k _ ↦ decode k)
    (fun x hx ↦ ⟨encode x, h.encode_lt x hx, h.decode_encode x hx⟩) (fun k hk ↦ h.decode_mem k hk)
    fun k l hk hl heq ↦ by rw [← h.encode_decode k hk, heq, h.encode_decode l hl]

theorem congr {encode₂ : α → ℕ} {decode₂ : ℕ → α} (h : Numbers S n encode decode)
    (hencode : ∀ x ∈ S, encode₂ x = encode x) (hdecode : ∀ k < n, decode₂ k = decode k) :
    Numbers S n encode₂ decode₂ where
  encode_lt := fun x hx ↦ by
    rw [hencode x hx]
    exact h.encode_lt x hx
  decode_mem := fun k hk ↦ by
    rw [hdecode k hk]
    exact h.decode_mem k hk
  decode_encode := fun x hx ↦ by
    rw [hencode x hx, hdecode _ (h.encode_lt x hx), h.decode_encode x hx]
  encode_decode := fun k hk ↦ by
    rw [hdecode k hk, hencode _ (h.decode_mem k hk), h.encode_decode k hk]

/-- Pairs, with the second component as the last digit. -/
theorem prod (hS : Numbers S n encode decode) (hT : Numbers T m encode' decode') :
    Numbers (S ×ˢ T) (n * m) (fun x ↦ encode x.1 * m + encode' x.2)
      fun k ↦ (decode (k / m), decode' (k % m)) where
  encode_lt := fun x hx ↦ by
    have h₁ := hS.encode_lt x.1 hx.1
    have h₂ := hT.encode_lt x.2 hx.2
    calc encode x.1 * m + encode' x.2 < (encode x.1 + 1) * m := by rw [Nat.succ_mul]; omega
      _ ≤ n * m := Nat.mul_le_mul_right m h₁
  decode_mem := fun k hk ↦ by
    have hm : 0 < m := Nat.pos_of_mul_pos_left (Nat.zero_lt_of_lt hk)
    exact ⟨hS.decode_mem _ (Nat.div_lt_of_lt_mul (by rwa [Nat.mul_comm])),
      hT.decode_mem _ (Nat.mod_lt k hm)⟩
  decode_encode := fun x hx ↦ by
    have h₂ := hT.encode_lt x.2 hx.2
    have hm : 0 < m := Nat.zero_lt_of_lt h₂
    have hdiv : (encode x.1 * m + encode' x.2) / m = encode x.1 := by
      rw [Nat.mul_comm, Nat.mul_add_div hm, Nat.div_eq_of_lt h₂, Nat.add_zero]
    have hmod : (encode x.1 * m + encode' x.2) % m = encode' x.2 := by
      rw [Nat.mul_comm, Nat.mul_add_mod, Nat.mod_eq_of_lt h₂]
    rw [hdiv, hmod, hS.decode_encode _ hx.1, hT.decode_encode _ hx.2]
  encode_decode := fun k hk ↦ by
    have hm : 0 < m := Nat.pos_of_mul_pos_left (Nat.zero_lt_of_lt hk)
    have hdiv : k / m < n := Nat.div_lt_of_lt_mul (by rwa [Nat.mul_comm])
    change encode (decode (k / m)) * m + encode' (decode' (k % m)) = k
    rw [hS.encode_decode _ hdiv, hT.encode_decode _ (Nat.mod_lt k hm), Nat.div_add_mod']

theorem transport (h : Numbers S n encode decode) {f : β → α} {g : α → β} (hf : ∀ y ∈ T, f y ∈ S)
    (hg : ∀ x ∈ S, g x ∈ T) (hleft : ∀ y ∈ T, g (f y) = y) (hright : ∀ x ∈ S, f (g x) = x) :
    Numbers T n (encode ∘ f) (g ∘ decode) where
  encode_lt := fun y hy ↦ h.encode_lt _ (hf y hy)
  decode_mem := fun k hk ↦ hg _ (h.decode_mem k hk)
  decode_encode := fun y hy ↦ by
    rw [Function.comp_apply, Function.comp_apply, h.decode_encode _ (hf y hy), hleft y hy]
  encode_decode := fun k hk ↦ by
    rw [Function.comp_apply, Function.comp_apply, hright _ (h.decode_mem k hk), h.encode_decode k hk]

/-- The elements whose numbers are not below `t`. -/
theorem ncard_le_encode (h : Numbers S n encode decode) (t : ℕ) :
    {x ∈ S | t ≤ encode x}.ncard = n - t := by
  have hnumbers : Numbers {x ∈ S | t ≤ encode x} (n - t) (fun x ↦ encode x - t) fun k ↦ decode (k + t) := by
    refine ⟨fun x hx ↦ ?_, fun k hk ↦ ?_, fun x hx ↦ ?_, fun k hk ↦ ?_⟩
    · have := h.encode_lt x hx.1
      have := hx.2
      omega
    · refine ⟨h.decode_mem _ (by omega), ?_⟩
      rw [h.encode_decode _ (by omega)]
      exact Nat.le_add_left t k
    · rw [Nat.sub_add_cancel hx.2, h.decode_encode x hx.1]
    · rw [h.encode_decode _ (by omega), Nat.add_sub_cancel]
  exact hnumbers.ncard_eq

end Numbers

/-! ## Segments of numbers -/

/-- The size of the segments before segment `i`. -/
def cum (count : ℕ → ℕ) (i : ℕ) : ℕ := ∑ j ∈ Finset.range i, count j

/-- The last segment, of those up to `m`, that does not begin after `k`. -/
def segmentOf (count : ℕ → ℕ) (m k : ℕ) : ℕ := Nat.findGreatest (fun i ↦ cum count i ≤ k) m

section Segments

variable {count : ℕ → ℕ} {m i k : ℕ}

@[simp] theorem cum_zero (count : ℕ → ℕ) : cum count 0 = 0 := Finset.sum_range_zero count

theorem cum_succ (count : ℕ → ℕ) (i : ℕ) : cum count (i + 1) = cum count i + count i :=
  Finset.sum_range_succ count i

theorem cum_mono (count : ℕ → ℕ) : Monotone (cum count) := fun _ _ h ↦
  Finset.sum_le_sum_of_subset (Finset.range_mono h)

theorem segmentOf_le : segmentOf count m k ≤ m := Nat.findGreatest_le m

theorem cum_segmentOf_le (count : ℕ → ℕ) (m k : ℕ) : cum count (segmentOf count m k) ≤ k :=
  Nat.findGreatest_spec (P := fun i ↦ cum count i ≤ k) (Nat.zero_le m)
    ((cum_zero count).trans_le (Nat.zero_le k))

theorem segmentOf_eq (hi : i ≤ m) (hle : cum count i ≤ k) (hlt : i < m → k < cum count (i + 1)) :
    segmentOf count m k = i := by
  refine Nat.findGreatest_eq_iff.mpr ⟨hi, fun _ ↦ hle, fun j hij hjm hj ↦ ?_⟩
  have hmono : cum count (i + 1) ≤ cum count j := cum_mono count hij
  have := hlt (hij.trans_le hjm)
  omega

theorem lt_cum_succ_segmentOf (hk : k < cum count (m + 1)) :
    k < cum count (segmentOf count m k + 1) := by
  have hle : segmentOf count m k ≤ m := segmentOf_le
  rcases hle.lt_or_eq with hlt | heq
  · exact Nat.lt_of_not_le (Nat.findGreatest_is_greatest (P := fun i ↦ cum count i ≤ k)
      (Nat.lt_succ_self _) hlt)
  · rw [heq]
    exact hk

theorem sub_lt_count (hk : k < cum count (m + 1)) :
    k - cum count (segmentOf count m k) < count (segmentOf count m k) := by
  have hlt := lt_cum_succ_segmentOf hk
  have hle := cum_segmentOf_le count m k
  rw [cum_succ] at hlt
  omega

theorem segmentOf_of_le (hk : cum count (m + 1) ≤ k) : segmentOf count m k = m :=
  segmentOf_eq le_rfl ((cum_mono count (Nat.le_succ m)).trans hk) fun h ↦ absurd h (lt_irrefl m)

theorem segmentOf_cum_add (hi : i ≤ m) (hk : k < count i) : segmentOf count m (cum count i + k) = i :=
  segmentOf_eq hi (Nat.le_add_right _ k) fun _ ↦ by
    rw [cum_succ]
    omega

/-- Disjoint sets, one after the other. -/
theorem Numbers.segments {S : ℕ → Set α} {encode : ℕ → α → ℕ} {decode : ℕ → ℕ → α} {index : α → ℕ}
    (h : ∀ i ≤ m, Numbers (S i) (count i) (encode i) (decode i)) (hindex : ∀ i ≤ m, ∀ x ∈ S i, index x = i) :
    Numbers {x | ∃ i ≤ m, x ∈ S i} (cum count (m + 1))
      (fun x ↦ cum count (index x) + encode (index x) x)
      fun k ↦ decode (segmentOf count m k) (k - cum count (segmentOf count m k)) where
  encode_lt := by
    rintro x ⟨i, hi, hx⟩
    rw [hindex i hi x hx]
    have hlt := (h i hi).encode_lt x hx
    have hmono : cum count (i + 1) ≤ cum count (m + 1) := cum_mono count (Nat.succ_le_succ hi)
    rw [cum_succ] at hmono
    omega
  decode_mem := fun _ hk ↦ ⟨_, segmentOf_le, (h _ segmentOf_le).decode_mem _ (sub_lt_count hk)⟩
  decode_encode := by
    rintro x ⟨i, hi, hx⟩
    rw [hindex i hi x hx, segmentOf_cum_add hi ((h i hi).encode_lt x hx), Nat.add_sub_cancel_left,
      (h i hi).decode_encode x hx]
  encode_decode := fun k hk ↦ by
    have hlt := sub_lt_count hk
    rw [hindex _ segmentOf_le _ ((h _ segmentOf_le).decode_mem _ hlt), (h _ segmentOf_le).encode_decode _ hlt]
    have := cum_segmentOf_le count m k
    omega

end Segments

/-! ## Bisection -/

/-- The loop `while (i0 + 1 < i1)` that looks for the segment of `k`, where `start` has the first numbers of
the segments. -/
def findSegment (start : ℕ → Option ℕ) (k : ℕ) : ℕ → ℕ → ℕ → Option ℕ
  | 0, _, _ => none
  | fuel + 1, i0, i1 =>
      if i0 + 1 < i1 then do
        let s ← start ((i0 + i1) / 2)
        if s ≤ k then findSegment start k fuel ((i0 + i1) / 2) i1
        else findSegment start k fuel i0 ((i0 + i1) / 2)
      else some i0

/-- The invariant of the loop is that segment `i0` does not begin after `k`, and segment `i1` does unless it is
the end. -/
theorem findSegment_eq {count : ℕ → ℕ} {m k : ℕ} {start : ℕ → Option ℕ}
    (hstart : ∀ i ≤ m, start i = some (cum count i)) {fuel i0 i1 : ℕ} (hfuel : i1 ≤ i0 + fuel)
    (hlt : i0 < i1) (hi1 : i1 ≤ m + 1) (h0 : cum count i0 ≤ k) (h1 : i1 ≤ m → k < cum count i1) :
    findSegment start k fuel i0 i1 = some (segmentOf count m k) := by
  induction fuel generalizing i0 i1 with
  | zero => omega
  | succ fuel ih =>
      rw [findSegment]
      split_ifs with hgap
      · rw [hstart _ (by omega)]
        simp only [Option.bind_eq_bind, Option.bind_some]
        split_ifs with hmed
        · exact ih (by omega) (by omega) hi1 hmed h1
        · exact ih (by omega) (by omega) (by omega) h0 fun _ ↦ Nat.lt_of_not_le hmed
      · obtain rfl : i1 = i0 + 1 := by omega
        exact congrArg some (segmentOf_eq (by omega) h0 fun h ↦ h1 h).symm

end Lib
