import Mathlib.Data.List.Perm.Basic

/-!
# Selecting up to a threshold

Of a list, the elements that are below a threshold, and as many of those at the threshold as asked
for, the first ones.  A loop that goes through the list with a budget selects these.
-/

namespace Lib

universe u

variable {α : Type u} (below eq : α → Bool)

/-- The elements below the threshold, and the first `budget` of the ones at it. -/
def cutoff : ℕ → List α → List α
  | _, [] => []
  | budget, x :: xs =>
      if below x then x :: cutoff budget xs
      else if eq x && decide (0 < budget) then x :: cutoff (budget - 1) xs
      else cutoff budget xs

def spent (xs : List α) : ℕ := xs.countP fun x ↦ !below x && eq x

variable {below eq} {budget : ℕ} {xs : List α} {x : α}

theorem countP_add_spent (xs : List α) :
    xs.countP below + spent below eq xs = xs.countP fun x ↦ below x || eq x := by
  induction xs with
  | nil => rfl
  | cons x xs ih =>
      rw [spent] at ih ⊢
      rw [List.countP_cons, List.countP_cons, List.countP_cons, ← ih]
      cases below x with
      | true =>
          simp only [if_true, Bool.not_true, Bool.false_and, Bool.false_eq_true, if_false, Bool.true_or]
          omega
      | false =>
          simp only [Bool.not_false, Bool.true_and, Bool.false_eq_true, if_false, Bool.false_or]
          omega

@[simp] theorem cutoff_nil : cutoff below eq budget [] = [] := rfl

theorem cutoff_append (budget : ℕ) (xs ys : List α) :
    cutoff below eq budget (xs ++ ys) =
      cutoff below eq budget xs ++ cutoff below eq (budget - spent below eq xs) ys := by
  induction xs generalizing budget with
  | nil => rfl
  | cons x xs ih =>
      rw [List.cons_append, cutoff, cutoff, spent, List.countP_cons]
      by_cases hbelow : below x = true
      · rw [if_pos hbelow, if_pos hbelow, ih, List.cons_append, hbelow]
        rfl
      · rw [if_neg hbelow, if_neg hbelow]
        rw [Bool.not_eq_true] at hbelow
        by_cases heq : eq x = true
        · by_cases hbudget : 0 < budget
          · rw [if_pos (by simp [heq, hbudget]), if_pos (by simp [heq, hbudget]), ih,
              List.cons_append, if_pos (by simp [hbelow, heq]), spent, Nat.add_comm, Nat.sub_sub]
          · obtain rfl : budget = 0 := by omega
            rw [if_neg (by simp), if_neg (by simp), ih, Nat.zero_sub, Nat.zero_sub]
        · rw [if_neg (by simp [heq]), if_neg (by simp [heq]), ih, if_neg (by simp [heq]), spent,
            Nat.add_zero]

theorem length_cutoff (budget : ℕ) (xs : List α) :
    (cutoff below eq budget xs).length =
      xs.countP below + min budget (spent below eq xs) := by
  induction xs generalizing budget with
  | nil => simp [spent]
  | cons x xs ih =>
      rw [cutoff, spent, List.countP_cons, List.countP_cons]
      by_cases hbelow : below x = true
      · rw [if_pos hbelow, List.length_cons, ih, hbelow, if_pos rfl, spent]
        simp only [Bool.not_true, Bool.false_and, Bool.false_eq_true, if_false]
        omega
      · rw [if_neg hbelow, if_neg hbelow]
        rw [Bool.not_eq_true] at hbelow
        by_cases heq : eq x = true
        · rw [if_pos (c := (!below x && eq x) = true) (by simp [hbelow, heq])]
          by_cases hbudget : 0 < budget
          · rw [if_pos (by simp [heq, hbudget]), List.length_cons, ih, spent]
            omega
          · rw [if_neg (by simp [hbudget]), ih, spent]
            omega
        · rw [if_neg (by simp [heq]), ih, if_neg (by simp [heq]), spent, Nat.add_zero, Nat.add_zero]

theorem cutoff_sublist (below eq : α → Bool) (budget : ℕ) (xs : List α) : (cutoff below eq budget xs).Sublist xs := by
  induction xs generalizing budget with
  | nil => exact List.Sublist.refl []
  | cons x xs ih =>
      rw [cutoff]
      split
      · exact (ih budget).cons_cons x
      · split
        · exact (ih (budget - 1)).cons_cons x
        · exact (ih budget).cons x

/-- What is selected is below the threshold or at it. -/
theorem below_or_eq_of_mem_cutoff (hx : x ∈ cutoff below eq budget xs) :
    below x = true ∨ eq x = true := by
  induction xs generalizing budget with
  | nil => exact absurd hx List.not_mem_nil
  | cons y xs ih =>
      rw [cutoff] at hx
      split at hx
      · rename_i hbelow
        rcases List.mem_cons.mp hx with rfl | hx
        · exact Or.inl hbelow
        · exact ih hx
      · split at hx
        · rename_i hcond
          rcases List.mem_cons.mp hx with rfl | hx
          · exact Or.inr (Bool.and_eq_true_iff.mp hcond).1
          · exact ih hx
        · exact ih hx

/-- What is left out is not below the threshold. -/
theorem exists_perm_cutoff (below eq : α → Bool) (budget : ℕ) (xs : List α) :
    ∃ rest, xs.Perm (cutoff below eq budget xs ++ rest) ∧ ∀ y ∈ rest, below y = false := by
  induction xs generalizing budget with
  | nil => exact ⟨[], List.Perm.refl [], fun y hy ↦ absurd hy List.not_mem_nil⟩
  | cons x xs ih =>
      rw [cutoff]
      split
      · obtain ⟨rest, hperm, hrest⟩ := ih budget
        exact ⟨rest, hperm.cons x, hrest⟩
      · rename_i hbelow
        split
        · obtain ⟨rest, hperm, hrest⟩ := ih (budget - 1)
          exact ⟨rest, hperm.cons x, hrest⟩
        · obtain ⟨rest, hperm, hrest⟩ := ih budget
          refine ⟨x :: rest, (hperm.cons x).trans List.perm_middle.symm, fun y hy ↦ ?_⟩
          rcases List.mem_cons.mp hy with rfl | hy
          · exact Bool.not_eq_true _ ▸ hbelow
          · exact hrest y hy

end Lib
