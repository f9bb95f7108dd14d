import Mathlib.Data.List.Range

/-!
# Bisection

A test *rises* on the positions below `n` when it never goes back to failing.  It then cuts these
positions in those where it fails and those where it holds, and a bisection finds the cut by halving
an interval at whose lower end the test fails.
-/

namespace Lib

variable {p q : ℕ → Bool} {n a b : ℕ}

/-- `p` does not go back to failing. -/
def Rising (p : ℕ → Bool) (n : ℕ) : Prop :=
  ∀ i j, i ≤ j → j < n → p i = true → p j = true

/-- Among the positions below `n`, `p` fails before `r` and holds from `r` on. -/
structure IsCut (p : ℕ → Bool) (n r : ℕ) : Prop where
  le : r ≤ n
  below : ∀ j < r, p j = false
  above : ∀ j, r ≤ j → j < n → p j = true

/-- Whether `p` holds at a position tells on which side of the cut it is. -/
theorem IsCut.iff_le (h : IsCut p n a) {j : ℕ} (hj : j < n) : p j = true ↔ a ≤ j := by
  constructor
  · intro hp
    by_contra hlt
    rw [h.below j (by omega)] at hp
    exact Bool.false_ne_true hp
  · exact fun hle ↦ h.above j hle hj

theorem isCut_zero (hp : Rising p n) (h : p 0 = true) : IsCut p n 0 where
  le := Nat.zero_le n
  below := fun _ hj ↦ absurd hj (Nat.not_lt_zero _)
  above := fun j _ hj ↦ hp 0 j (Nat.zero_le j) hj h

/-- Halving the interval from `j0` to `j1` until there is nothing between its ends, at most `fuel`
times. -/
def bisect (p : ℕ → Bool) : ℕ → ℕ → ℕ → ℕ
  | 0, _, j1 => j1
  | fuel + 1, j0, j1 =>
      if j0 + 1 < j1 then
        if p ((j0 + j1) / 2) then bisect p fuel j0 ((j0 + j1) / 2)
        else bisect p fuel ((j0 + j1) / 2) j1
      else j1

theorem bisect_mem (p : ℕ → Bool) {fuel j0 j1 : ℕ} (h : j0 < j1) :
    j0 < bisect p fuel j0 j1 ∧ bisect p fuel j0 j1 ≤ j1 := by
  fun_induction bisect p fuel j0 j1 with
  | case1 j0 j1 => exact ⟨h, le_rfl⟩
  | case2 fuel j0 j1 hgap hmed ih =>
      obtain ⟨h1, h2⟩ := ih (by omega)
      exact ⟨h1, by omega⟩
  | case3 fuel j0 j1 hgap hmed ih =>
      obtain ⟨h1, h2⟩ := ih (by omega)
      exact ⟨by omega, h2⟩
  | case4 fuel j0 j1 hgap => exact ⟨h, le_rfl⟩

theorem isCut_of_succ (hp : Rising p n) {j : ℕ} (hle : j + 1 ≤ n) (h0 : p j = false)
    (h1 : j + 1 < n → p (j + 1) = true) : IsCut p n (j + 1) where
  le := hle
  below := fun i hi ↦ by
    cases hpi : p i with
    | false => rfl
    | true =>
        rw [hp i j (by omega) (by omega) hpi] at h0
        exact h0
  above := fun i hi hin ↦ hp (j + 1) i hi hin (h1 (by omega))

/-- The invariant of the loop is that the test fails at `j0`, and holds at `j1` unless this is the
end. -/
theorem isCut_bisect (hp : Rising p n) {fuel j0 j1 : ℕ} (hfuel : j1 ≤ j0 + 1 + fuel)
    (hlt : j0 < j1) (hle : j1 ≤ n) (h0 : p j0 = false) (h1 : j1 < n → p j1 = true) :
    IsCut p n (bisect p fuel j0 j1) := by
  fun_induction bisect p fuel j0 j1 with
  | case1 j0 j1 =>
      obtain rfl : j1 = j0 + 1 := by omega
      exact isCut_of_succ hp hle h0 h1
  | case2 fuel j0 j1 hgap hmed ih =>
      exact ih (by omega) (by omega) (by omega) h0 fun _ ↦ hmed
  | case3 fuel j0 j1 hgap hmed ih =>
      exact ih (by omega) (by omega) hle (Bool.not_eq_true _ ▸ hmed) h1
  | case4 fuel j0 j1 hgap =>
      obtain rfl : j1 = j0 + 1 := by omega
      exact isCut_of_succ hp hle h0 h1

/-- The positions between two cuts are those that pass the one test and not the other. -/
theorem filter_range_eq (h : ∀ j < n, q j = true ↔ a ≤ j ∧ j < b) (hab : a ≤ b) (hb : b ≤ n) :
    (List.range n).filter q = (List.range (b - a)).map (a + ·) := by
  obtain ⟨m, rfl⟩ := Nat.exists_eq_add_of_le hab
  obtain ⟨l, rfl⟩ := Nat.exists_eq_add_of_le hb
  have hbefore : (List.range a).filter q = [] :=
    List.filter_eq_nil_iff.mpr fun j hj hq ↦ by
      have := List.mem_range.mp hj
      have := (h j (by omega)).mp hq
      omega
  have hbetween : ((List.range m).map (a + ·)).filter q = (List.range m).map (a + ·) :=
    List.filter_eq_self.mpr fun j hj ↦ by
      obtain ⟨i, hi, rfl⟩ := List.mem_map.mp hj
      have := List.mem_range.mp hi
      exact (h _ (by omega)).mpr ⟨by omega, by omega⟩
  have hafter : ((List.range l).map (a + m + ·)).filter q = [] :=
    List.filter_eq_nil_iff.mpr fun j hj hq ↦ by
      obtain ⟨i, hi, rfl⟩ := List.mem_map.mp hj
      have := List.mem_range.mp hi
      have := (h _ (by omega)).mp hq
      omega
  rw [List.range_add, List.range_add, List.filter_append, List.filter_append, hbefore, hbetween,
    hafter, List.nil_append, List.append_nil, Nat.add_sub_cancel_left]

end Lib
