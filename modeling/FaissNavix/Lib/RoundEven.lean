import Mathlib.Algebra.Order.Ring.Nat
import Mathlib.Data.Nat.Log

/-!
# Rounding natural numbers to so many bits

`roundTo p n` has the first `p` bits of `n`, rounded to nearest, ties to even.  It is monotone and does
not change what is rounded already.
-/

namespace Lib

variable {e p n m q : ℕ}

/-- Rounded to a multiple of `2 ^ e`. -/
def roundAt (e n : ℕ) : ℕ :=
  let q := n / 2 ^ e
  let r := n % 2 ^ e
  if 2 * r < 2 ^ e ∨ 2 * r = 2 ^ e ∧ q % 2 = 0 then q * 2 ^ e else (q + 1) * 2 ^ e

/-- Rounded to `p` bits. -/
def roundTo (p n : ℕ) : ℕ :=
  roundAt (Nat.log 2 n + 1 - p) n

theorem roundAt_cases (e n : ℕ) :
    roundAt e n = n / 2 ^ e * 2 ^ e ∨ roundAt e n = (n / 2 ^ e + 1) * 2 ^ e := by
  unfold roundAt
  dsimp only
  split
  · exact .inl rfl
  · exact .inr rfl

theorem dvd_roundAt (e n : ℕ) : 2 ^ e ∣ roundAt e n := by
  rcases roundAt_cases e n with h | h
  · rw [h]
    exact Nat.dvd_mul_left _ _
  · rw [h]
    exact Nat.dvd_mul_left _ _

theorem roundAt_of_dvd (h : 2 ^ e ∣ n) : roundAt e n = n := by
  have hr : n % 2 ^ e = 0 := Nat.mod_eq_zero_of_dvd h
  unfold roundAt
  dsimp only
  rw [hr, if_pos (.inl (by rw [Nat.mul_zero]; exact Nat.two_pow_pos e))]
  exact Nat.div_mul_cancel h

theorem roundAt_mono (e : ℕ) (h : n ≤ m) : roundAt e n ≤ roundAt e m := by
  have hpos := Nat.two_pow_pos e
  rcases Nat.lt_or_eq_of_le (Nat.div_le_div_right (c := 2 ^ e) h) with hq | hq
  · -- up to the next multiple, and from it on
    have hle : (n / 2 ^ e + 1) * 2 ^ e ≤ m / 2 ^ e * 2 ^ e := Nat.mul_le_mul_right _ hq
    have hn : roundAt e n ≤ (n / 2 ^ e + 1) * 2 ^ e := by
      rcases roundAt_cases e n with h | h
      · rw [h]
        exact Nat.mul_le_mul_right _ (Nat.le_succ _)
      · exact h.le
    have hm : m / 2 ^ e * 2 ^ e ≤ roundAt e m := by
      rcases roundAt_cases e m with h | h
      · exact h.ge
      · rw [h]
        exact Nat.mul_le_mul_right _ (Nat.le_succ _)
    exact hn.trans (hle.trans hm)
  · have hdivn := Nat.div_add_mod n (2 ^ e)
    have hdivm := Nat.div_add_mod m (2 ^ e)
    have hr : n % 2 ^ e ≤ m % 2 ^ e := by
      rw [hq] at hdivn
      omega
    unfold roundAt
    dsimp only
    rw [hq]
    split
    · split
      · exact le_rfl
      · exact Nat.mul_le_mul_right _ (Nat.le_succ _)
    · rename_i hup
      rw [if_neg]
      intro hdown
      refine hup ?_
      rcases hdown with hlt | ⟨heq, heven⟩
      · exact .inl (by omega)
      · rcases Nat.lt_or_eq_of_le hr with hr | hr
        · exact .inl (by omega)
        · exact .inr ⟨by omega, heven⟩

@[simp] theorem roundTo_zero (p : ℕ) : roundTo p 0 = 0 :=
  roundAt_of_dvd (Nat.dvd_zero _)

theorem roundTo_le (p n : ℕ) : roundTo p n ≤ 2 ^ (Nat.log 2 n + 1) := by
  have hdvd : 2 ^ (Nat.log 2 n + 1 - p) ∣ 2 ^ (Nat.log 2 n + 1) := Nat.pow_dvd_pow 2 (Nat.sub_le _ _)
  rw [← roundAt_of_dvd hdvd]
  exact roundAt_mono _ (Nat.lt_pow_succ_log_self Nat.one_lt_two n).le

theorem roundTo_mono (hp : 1 ≤ p) (h : n ≤ m) : roundTo p n ≤ roundTo p m := by
  rcases Nat.eq_zero_or_pos n with rfl | hn
  · rw [roundTo_zero]
    exact Nat.zero_le _
  rcases Nat.lt_or_eq_of_le (Nat.log_mono_right (b := 2) h) with hlog | hlog
  · -- there is a power of two in between
    have hm : 2 ^ Nat.log 2 m ≤ m := Nat.pow_log_le_self 2 (by omega)
    have hdvd : 2 ^ (Nat.log 2 m + 1 - p) ∣ 2 ^ Nat.log 2 m := Nat.pow_dvd_pow 2 (by omega)
    calc roundTo p n ≤ 2 ^ (Nat.log 2 n + 1) := roundTo_le p n
      _ ≤ 2 ^ Nat.log 2 m := Nat.pow_le_pow_right Nat.two_pos hlog
      _ = roundAt (Nat.log 2 m + 1 - p) (2 ^ Nat.log 2 m) := (roundAt_of_dvd hdvd).symm
      _ ≤ roundTo p m := roundAt_mono _ hm
  · rw [roundTo, roundTo, hlog]
    exact roundAt_mono _ h

theorem roundTo_roundTo (hp : 1 ≤ p) (n : ℕ) : roundTo p (roundTo p n) = roundTo p n := by
  refine roundAt_of_dvd ?_
  rcases Nat.lt_or_eq_of_le (roundTo_le p n) with hlt | heq
  · refine Nat.dvd_trans (Nat.pow_dvd_pow 2 ?_) (dvd_roundAt (Nat.log 2 n + 1 - p) n)
    rcases Nat.eq_zero_or_pos (roundTo p n) with hzero | hpos
    · rw [hzero, Nat.log_zero_right]
      omega
    · have hlog := Nat.log_lt_of_lt_pow hpos.ne' hlt
      omega
  · rw [heq, Nat.log_pow Nat.one_lt_two]
    exact Nat.pow_dvd_pow 2 (by omega)

end Lib
