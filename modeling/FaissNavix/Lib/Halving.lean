import Mathlib.Algebra.BigOperators.Group.Finset.Basic
import Mathlib.Algebra.Order.Field.Basic
import Mathlib.Algebra.Order.Floor.Semiring
import Mathlib.Data.Nat.Log
import Mathlib.Tactic.Abel

/-!
# Halving what is greater than one

How often a number and its parts can be halved as long as there is one greater than 1
(`Lib.halvings`).  Each halving uses up one of them, whichever part is chosen
(`Lib.sum_halvings_split`), so that the number of all halvings does not depend on the choices.
-/

namespace Lib

open Finset Function

variable {R : Type*} [Field R] [LinearOrder R] [IsStrictOrderedRing R] [FloorSemiring R] {x : R}

/-- A number is cut into `2 ^ n` parts of at most 1, with the least such `n`. -/
def halvings (x : R) : ℕ := 2 ^ Nat.clog 2 ⌈x⌉₊ - 1

omit [IsStrictOrderedRing R] in
theorem halvings_of_le_one (h : x ≤ 1) : halvings x = 0 := by
  have hceil : ⌈x⌉₊ ≤ 1 := Nat.ceil_le.mpr (by rwa [Nat.cast_one])
  rw [halvings, Nat.clog_of_right_le_one hceil]
  rfl

theorem clog_ceil_half (h : 1 < x) : Nat.clog 2 ⌈x⌉₊ = Nat.clog 2 ⌈x / 2⌉₊ + 1 := by
  have hle : ∀ m, Nat.clog 2 ⌈x⌉₊ ≤ m + 1 ↔ Nat.clog 2 ⌈x / 2⌉₊ ≤ m := fun m ↦ by
    rw [Nat.clog_le_iff_le_pow Nat.one_lt_two, Nat.clog_le_iff_le_pow Nat.one_lt_two, Nat.ceil_le,
      Nat.ceil_le, div_le_iff₀ two_pos, Nat.cast_pow, Nat.cast_pow, Nat.cast_ofNat, pow_succ]
  have hpos : 0 < Nat.clog 2 ⌈x⌉₊ :=
    Nat.clog_pos Nat.one_lt_two (Nat.lt_ceil.mpr (by rwa [Nat.cast_one]))
  have h1 := (hle _).mpr le_rfl
  have h2 := (hle (Nat.clog 2 ⌈x⌉₊ - 1)).mp (by omega)
  omega

theorem halvings_of_one_lt (h : 1 < x) : halvings x = 2 * halvings (x / 2) + 1 := by
  have hpos : 1 ≤ 2 ^ Nat.clog 2 ⌈x / 2⌉₊ := Nat.one_le_two_pow
  rw [halvings, halvings, clog_ceil_half h, pow_succ]
  omega

/-! ## Parts in different places -/

variable {ι M : Type*} [DecidableEq ι] {s : Finset ι} {g : ι → R} {i j : ι}

omit [Field R] [LinearOrder R] [IsStrictOrderedRing R] [FloorSemiring R] in
theorem sum_update_two [AddCommMonoid M] (f : R → M) (hi : i ∈ s) (hj : j ∈ s) (hij : i ≠ j)
    (a b : R) :
    ∑ t ∈ s, f (update (update g i a) j b t) + (f (g i) + f (g j)) =
      ∑ t ∈ s, f (g t) + (f a + f b) := by
  have hi' : i ∈ s.erase j := mem_erase.mpr ⟨hij, hi⟩
  have hrest : ∑ t ∈ (s.erase j).erase i, f (update (update g i a) j b t) =
      ∑ t ∈ (s.erase j).erase i, f (g t) := sum_congr rfl fun t ht ↦ by
    obtain ⟨hti, ht⟩ := mem_erase.mp ht
    rw [update_of_ne (mem_erase.mp ht).1, update_of_ne hti]
  rw [← add_sum_erase s _ hj, ← add_sum_erase (s.erase j) _ hi', hrest, update_self,
    update_of_ne hij, update_self, ← add_sum_erase s (fun t ↦ f (g t)) hj,
    ← add_sum_erase (s.erase j) (fun t ↦ f (g t)) hi']
  abel

def split (g : ι → R) (i j : ι) (a : R) : ι → R := update (update g i a) j (g j - a)

omit [LinearOrder R] [IsStrictOrderedRing R] [FloorSemiring R] in
theorem sum_split (hi : i ∈ s) (hj : j ∈ s) (hij : i ≠ j) (h0 : g i = 0) (a : R) :
    ∑ t ∈ s, split g i j a t = ∑ t ∈ s, g t := by
  have h := sum_update_two (g := g) id hi hj hij a (g j - a)
  simp only [id_eq, h0, zero_add, add_sub_cancel] at h
  exact add_right_cancel h

theorem sum_halvings_split (hi : i ∈ s) (hj : j ∈ s) (hij : i ≠ j) (h0 : g i = 0) (h1 : 1 < g j) :
    ∑ t ∈ s, halvings (split g i j (g j / 2) t) + 1 = ∑ t ∈ s, halvings (g t) := by
  have h := sum_update_two (g := g) halvings hi hj hij (g j / 2) (g j - g j / 2)
  have hzero : halvings (g i) = 0 := halvings_of_le_one (h0.trans_le zero_le_one)
  rw [hzero, halvings_of_one_lt h1, sub_half] at h
  rw [split, sub_half]
  omega

end Lib
