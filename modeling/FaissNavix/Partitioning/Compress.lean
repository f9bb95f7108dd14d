import FaissNavix.Heap
import FaissNavix.Lib.Cutoff

/-!
# Partitioning an array around a threshold

What the functions of `faiss/utils/partitioning.cpp` share: once a threshold is found, the arrays of
values and ids are compressed in place.  All values that are better than the threshold are kept, and
as many equal ones as are asked for.
-/

namespace FaissNavix

open Function
open Lib

variable {T : Type}

/-- The first `q` pairs of `vals'` are between `qMin` and `qMax` of the `n` pairs of `vals`, and no
pair that is left out is strictly better than one of them. -/
def Partitions (cmp : T → T → Bool) (vals : ℕ → T × ℤ) (n qMin qMax q : ℕ) (vals' : ℕ → T × ℤ) :
    Prop :=
  qMin ≤ q ∧ q ≤ qMax ∧ ∃ dropped, entries n vals = entries q vals' + dropped ∧
    ∀ x ∈ entries q vals', ∀ y ∈ dropped, cmp x.1 y.1 = false

/-- `vals` and `ids`, `wp` and `n_eq` of the loops that compress. -/
structure Compress (T : Type) where
  arrays : ℕ → T × ℤ
  wp : ℕ
  nEq : ℕ

namespace Compress

/-- The pair at `i` is moved to the front. -/
def keep (s : Compress T) (i : ℕ) : Compress T :=
  { s with arrays := update s.arrays s.wp (s.arrays i), wp := s.wp + 1 }

/-- The pair at `i`, whose value is better than the threshold or equal to it. -/
def step (isLt isEq : Bool) (s : Compress T) (i : ℕ) : Compress T :=
  if isLt then s.keep i
  else if isEq && decide (0 < s.nEq) then { s.keep i with nEq := s.nEq - 1 }
  else s

@[simp] theorem step_false_false (s : Compress T) (i : ℕ) : s.step false false i = s := rfl

section
variable (vals : ℕ → T × ℤ) (i : ℕ)

/-- The first `i` pairs of an array. -/
def front : List (T × ℤ) := (List.range i).map vals

theorem front_succ : front vals (i + 1) = front vals i ++ [vals i] := by
  simp [front, List.range_succ]

@[simp] theorem length_front : (front vals i).length = i := by
  simp [front]

theorem coe_front : (↑(front vals i) : Multiset (T × ℤ)) = entries i vals :=
  (entries_eq_coe_range vals).symm

end

variable {isLt isEq : T → Bool} {budget i : ℕ} {vals : ℕ → T × ℤ} {s : Compress T}

/-- The pairs kept among the first `i`. -/
def kept (isLt isEq : T → Bool) (budget : ℕ) (vals : ℕ → T × ℤ) (i : ℕ) : List (T × ℤ) :=
  cutoff (fun x ↦ isLt x.1) (fun x ↦ isEq x.1) budget (front vals i)

def taken (isLt isEq : T → Bool) (vals : ℕ → T × ℤ) (i : ℕ) : ℕ :=
  spent (fun x ↦ isLt x.1) (fun x ↦ isEq x.1) (front vals i)

/-- What compressing the first `i` pairs has done; the other pairs are as they were. -/
structure Done (isLt isEq : T → Bool) (budget : ℕ) (vals : ℕ → T × ℤ) (i : ℕ) (s : Compress T) :
    Prop where
  front_eq : front s.arrays s.wp = kept isLt isEq budget vals i
  nEq_eq : s.nEq = budget - taken isLt isEq vals i
  rest : ∀ j, i ≤ j → s.arrays j = vals j

theorem done_zero (isLt isEq : T → Bool) (budget : ℕ) (vals : ℕ → T × ℤ) :
    Done isLt isEq budget vals 0 ⟨vals, 0, budget⟩ :=
  ⟨rfl, rfl, fun _ _ ↦ rfl⟩

section
variable (h : Done isLt isEq budget vals i s)
include h

theorem Done.wp_eq :
    s.wp = (kept isLt isEq budget vals i).length := by
  rw [← h.front_eq, length_front]

theorem Done.wp_le : s.wp ≤ i := by
  have hle := (cutoff_sublist (fun x : T × ℤ ↦ isLt x.1) (fun x ↦ isEq x.1) budget
    (front vals i)).length_le
  rw [length_front] at hle
  rw [h.wp_eq]
  exact hle

theorem Done.keep_front :
    front (s.keep i).arrays (s.keep i).wp = kept isLt isEq budget vals i ++ [vals i] := by
  have hsame : front (s.keep i).arrays s.wp = front s.arrays s.wp :=
    List.map_congr_left fun j hj ↦ update_of_ne (List.mem_range.mp hj).ne _ _
  change front (s.keep i).arrays (s.wp + 1) = _
  rw [front_succ, hsame, h.front_eq]
  simp [keep, h.rest i le_rfl]

theorem Done.keep_rest :
    ∀ j, i + 1 ≤ j → (s.keep i).arrays j = vals j := by
  intro j hj
  have hwp := h.wp_le
  rw [← h.rest j (by omega)]
  exact update_of_ne (by omega) _ _

end

theorem kept_succ (isLt isEq : T → Bool) (budget : ℕ) (vals : ℕ → T × ℤ) (i : ℕ) :
    kept isLt isEq budget vals (i + 1) = kept isLt isEq budget vals i ++
      cutoff (fun x ↦ isLt x.1) (fun x ↦ isEq x.1) (budget - taken isLt isEq vals i) [vals i] := by
  rw [kept, front_succ, cutoff_append]
  rfl

theorem taken_succ (isLt isEq : T → Bool) (vals : ℕ → T × ℤ) (i : ℕ) :
    taken isLt isEq vals (i + 1) =
      taken isLt isEq vals i + if !isLt (vals i).1 && isEq (vals i).1 then 1 else 0 := by
  rw [taken, front_succ, spent, List.countP_append, List.countP_singleton]
  rfl

/-- One pair. -/
theorem Done.step (h : Done isLt isEq budget vals i s) :
    Done isLt isEq budget vals (i + 1) (s.step (isLt (vals i).1) (isEq (vals i).1) i) := by
  have hnEq := h.nEq_eq
  unfold Compress.step
  cases hlt : isLt (vals i).1 with
  | true =>
      refine ⟨?_, ?_, h.keep_rest⟩
      · rw [if_pos rfl, h.keep_front, kept_succ, cutoff, if_pos hlt]
        rfl
      · rw [taken_succ, hlt]
        exact hnEq
  | false =>
      rw [if_neg Bool.false_ne_true]
      cases heq : isEq (vals i).1 with
      | true =>
          by_cases hpos : 0 < s.nEq
          · rw [if_pos (by simp [hpos])]
            refine ⟨?_, ?_, h.keep_rest⟩
            · change front (s.keep i).arrays (s.keep i).wp = _
              rw [h.keep_front, kept_succ, cutoff, if_neg (by simp [hlt]),
                if_pos (by simp only [heq, Bool.true_and, decide_eq_true_eq]; omega)]
              rfl
            · rw [taken_succ, hlt, heq]
              change s.nEq - 1 = budget - (_ + 1)
              omega
          · rw [if_neg (by simp [hpos])]
            refine ⟨?_, ?_, fun j hj ↦ h.rest j (by omega)⟩
            · rw [kept_succ, cutoff, if_neg (by simp [hlt]),
                if_neg (by simp only [heq, Bool.true_and, decide_eq_true_eq]; omega), h.front_eq]
              exact (List.append_nil _).symm
            · rw [taken_succ, hlt, heq]
              change s.nEq = budget - (_ + 1)
              omega
      | false =>
          rw [if_neg (by simp)]
          refine ⟨?_, ?_, fun j hj ↦ h.rest j (by omega)⟩
          · rw [kept_succ, cutoff, if_neg (by simp [hlt]), if_neg (by simp [heq]), h.front_eq]
            exact (List.append_nil _).symm
          · rw [taken_succ, hlt, heq]
            exact hnEq

/-- Once all `n` pairs have been seen, the pairs in front are those that were selected. -/
theorem Done.split {n : ℕ} (h : Done isLt isEq budget vals n s) :
    ∃ dropped, entries n vals = entries s.wp s.arrays + dropped ∧
      (∀ x ∈ entries s.wp s.arrays, isLt x.1 = true ∨ isEq x.1 = true) ∧
      ∀ y ∈ dropped, isLt y.1 = false := by
  obtain ⟨rest, hperm, hrest⟩ := exists_perm_cutoff (fun x : T × ℤ ↦ isLt x.1)
    (fun x ↦ isEq x.1) budget (front vals n)
  have hfront : entries s.wp s.arrays = ↑(kept isLt isEq budget vals n) := by
    rw [← coe_front, h.front_eq]
  refine ⟨↑rest, ?_, fun x hx ↦ ?_, fun y hy ↦ hrest y hy⟩
  · rw [hfront, ← coe_front]
    exact (Multiset.coe_eq_coe.mpr hperm).trans (Multiset.coe_add _ _).symm
  · rw [hfront, Multiset.mem_coe] at hx
    have hcases := below_or_eq_of_mem_cutoff hx
    exact hcases

theorem Done.wp_eq_add {n : ℕ} (h : Done isLt isEq budget vals n s) :
    s.wp = (front vals n).countP (fun x ↦ isLt x.1) + min budget (taken isLt isEq vals n) := by
  rw [h.wp_eq, kept, length_cutoff]
  rfl

end Compress

end FaissNavix
