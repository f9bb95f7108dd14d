import Mathlib.Algebra.Ring.Nat
import Mathlib.Data.List.GetD
import Mathlib.Data.Nat.Basic

/-!
# Flat memory

Cells at natural addresses, read and written in runs.  A run of records of one width is read one
record at a time: `record m o w i` is record `i` of the run that starts at `o`.
-/

namespace Lib

universe u

variable {α : Type u}

/-- The `n` cells from address `o`. -/
def read (m : ℕ → α) (o n : ℕ) : List α :=
  (List.range n).map fun i ↦ m (o + i)

/-- The memory with `xs` in the cells from address `o`. -/
def write (m : ℕ → α) (o : ℕ) (xs : List α) : ℕ → α :=
  fun a ↦ if o ≤ a then xs.getD (a - o) (m a) else m a

@[simp] theorem length_read (m : ℕ → α) (o n : ℕ) : (read m o n).length = n := by
  rw [read, List.length_map, List.length_range]

theorem write_of_outside {m : ℕ → α} {o : ℕ} {xs : List α} {a : ℕ}
    (h : a < o ∨ o + xs.length ≤ a) : write m o xs a = m a := by
  rw [write]
  split
  · next hle => rw [List.getD_eq_default _ _ (by omega)]
  · rfl

theorem write_of_inside {m : ℕ → α} {o : ℕ} {xs : List α} {i : ℕ} (h : i < xs.length) :
    write m o xs (o + i) = xs.get ⟨i, h⟩ := by
  rw [write, if_pos (Nat.le_add_right o i), Nat.add_sub_cancel_left, List.getD_eq_getElem _ _ h]
  rfl

theorem write_nil (m : ℕ → α) (o : ℕ) : write m o [] = m := by
  funext a
  exact write_of_outside (Nat.lt_or_ge a o)

/-- Two runs that follow one another. -/
theorem write_append (m : ℕ → α) (o : ℕ) (xs ys : List α) :
    write (write m o xs) (o + xs.length) ys = write m o (xs ++ ys) := by
  funext a
  by_cases ha : a < o
  · rw [write_of_outside (.inl (by omega)), write_of_outside (.inl ha), write_of_outside (.inl ha)]
  · obtain ⟨i, rfl⟩ := Nat.exists_eq_add_of_le (Nat.le_of_not_lt ha)
    by_cases hi : i < xs.length
    · rw [write_of_outside (.inl (by omega)), write_of_inside hi,
        write_of_inside (by rw [List.length_append]; omega), List.get_eq_getElem,
        List.get_eq_getElem, List.getElem_append_left hi]
    · obtain ⟨k, rfl⟩ := Nat.exists_eq_add_of_le (Nat.le_of_not_lt hi)
      by_cases hk : k < ys.length
      · rw [← Nat.add_assoc, write_of_inside hk, Nat.add_assoc,
          write_of_inside (by rw [List.length_append]; omega), List.get_eq_getElem,
          List.get_eq_getElem, List.getElem_append_right (Nat.le_add_right _ _)]
        simp only [Nat.add_sub_cancel_left]
      · rw [write_of_outside (by omega), write_of_outside (by omega),
          write_of_outside (by rw [List.length_append]; omega)]

theorem read_congr {m m' : ℕ → α} {o n : ℕ} (h : ∀ i < n, m (o + i) = m' (o + i)) :
    read m o n = read m' o n :=
  List.map_congr_left fun i hi ↦ h i (List.mem_range.1 hi)

theorem read_write_of_disjoint {m : ℕ → α} {o o' n : ℕ} {xs : List α}
    (h : o + n ≤ o' ∨ o' + xs.length ≤ o) : read (write m o' xs) o n = read m o n :=
  read_congr fun i hi ↦ write_of_outside (by omega)

theorem read_write_of_within {m : ℕ → α} {o i n : ℕ} {xs : List α} (h : i + n ≤ xs.length) :
    read (write m o xs) (o + i) n = (xs.drop i).take n := by
  refine List.ext_getElem ?_ fun k hk _ ↦ ?_
  · rw [length_read, List.length_take, List.length_drop]
    omega
  · rw [length_read] at hk
    have hik : i + k < xs.length := by omega
    simp only [read, List.getElem_map, List.getElem_range, Nat.add_assoc, List.getElem_take,
      List.getElem_drop]
    exact write_of_inside hik

theorem read_succ (m : ℕ → α) (o n : ℕ) : read m o (n + 1) = read m o n ++ [m (o + n)] := by
  rw [read, List.range_succ, List.map_append, List.map_singleton]
  rfl

theorem mem_read {m : ℕ → α} {o n : ℕ} {x : α} : x ∈ read m o n ↔ ∃ i < n, m (o + i) = x := by
  rw [read, List.mem_map]
  exact exists_congr fun i ↦ and_congr_left fun _ ↦ List.mem_range

theorem read_add (m : ℕ → α) (o n k : ℕ) : read m o (n + k) = read m o n ++ read m (o + n) k := by
  simp only [read, List.range_add, List.map_append, List.map_map, Function.comp_def, Nat.add_assoc]

theorem drop_take_read (m : ℕ → α) {o i n k : ℕ} (h : i + k ≤ n) :
    ((read m o n).drop i).take k = read m (o + i) k := by
  refine List.ext_getElem ?_ fun j hj _ ↦ ?_
  · rw [List.length_take, List.length_drop, length_read, length_read]
    omega
  · simp only [read, List.getElem_map, List.getElem_range, List.getElem_take, List.getElem_drop,
      Nat.add_assoc]

/-! ## Records -/

/-- Record `i` of the records of width `w` from address `o`. -/
def record (m : ℕ → α) (o w i : ℕ) : List α :=
  read m (o + w * i) w

section
variable {m m' : ℕ → α}

theorem record_congr {o w i : ℕ}
    (h : ∀ a, o + w * i ≤ a → a < o + w * (i + 1) → m a = m' a) :
    record m o w i = record m' o w i := by
  refine read_congr fun k hk ↦ h _ (Nat.le_add_right _ _) ?_
  rw [Nat.mul_succ]
  omega

theorem record_end_le {o w i n : ℕ} (h : i < n) : o + w * i + w ≤ o + w * n := by
  have := Nat.mul_le_mul_left w (Nat.succ_le_of_lt h)
  rw [Nat.mul_succ] at this
  omega

theorem record_write_of_disjoint {o o' w i n : ℕ} {xs : List α} (hi : i < n)
    (h : o + w * n ≤ o' ∨ o' + xs.length ≤ o) :
    record (write m o' xs) o w i = record m o w i := by
  have := record_end_le (o := o) (w := w) hi
  have : o ≤ o + w * i := Nat.le_add_right _ _
  exact read_write_of_disjoint (by omega)

/-- Records of width `w`, put one after the other. -/
theorem length_flatten_records {xs : List (List α)} {w : ℕ} (h : ∀ x ∈ xs, x.length = w) :
    xs.flatten.length = w * xs.length := by
  induction xs with
  | nil => rfl
  | cons x xs ih =>
      rw [List.flatten_cons, List.length_append, h x List.mem_cons_self,
        ih fun y hy ↦ h y (List.mem_cons_of_mem _ hy), List.length_cons, Nat.mul_succ, Nat.add_comm]

/-- Record `i` of records that are put one after the other. -/
theorem drop_take_flatten {xs : List (List α)} {w : ℕ} (h : ∀ x ∈ xs, x.length = w) {i : ℕ}
    (hi : i < xs.length) : (xs.flatten.drop (w * i)).take w = xs.get ⟨i, hi⟩ := by
  induction xs generalizing i with
  | nil => exact absurd hi (Nat.not_lt_zero i)
  | cons x xs ih =>
      have hx : x.length = w := h x List.mem_cons_self
      cases i with
      | zero => rw [Nat.mul_zero, List.drop_zero, List.flatten_cons, ← hx, List.take_left]; rfl
      | succ i =>
          rw [List.flatten_cons, Nat.mul_succ, Nat.add_comm, ← List.drop_drop, ← hx,
            List.drop_left, hx]
          exact ih (fun y hy ↦ h y (List.mem_cons_of_mem _ hy)) (Nat.lt_of_succ_lt_succ hi)

/-- The records from number `k` on are written: one of them. -/
theorem record_write_of_mem {o w k i : ℕ} {xs : List (List α)}
    (h : ∀ x ∈ xs, x.length = w) (hi : i < xs.length) :
    record (write m (o + w * k) xs.flatten) o w (k + i) = xs.get ⟨i, hi⟩ := by
  have hle := record_end_le (o := 0) (w := w) hi
  rw [record, Nat.mul_add, ← Nat.add_assoc, read_write_of_within, drop_take_flatten h hi]
  rw [length_flatten_records h]
  omega

/-- The records from number `k` on are written: another one. -/
theorem record_write_of_not_mem {o w k i : ℕ} {xs : List (List α)}
    (h : ∀ x ∈ xs, x.length = w) (hi : i < k ∨ k + xs.length ≤ i) :
    record (write m (o + w * k) xs.flatten) o w i = record m o w i := by
  refine read_write_of_disjoint ?_
  rw [length_flatten_records h]
  obtain hi | hi := hi
  · exact .inl (record_end_le hi)
  · refine .inr ?_
    have := Nat.mul_le_mul_left w hi
    rw [Nat.mul_add] at this
    omega

/-- The first `n` records are copied: one of them. -/
theorem record_copy {o o' w n i : ℕ} (hi : i < n) :
    record (write m o' (read m' o (w * n))) o' w i = record m' o w i := by
  have hle := record_end_le (o := 0) (w := w) hi
  rw [record, read_write_of_within, drop_take_read, record]
  · omega
  · rw [length_read]
    omega

/-- Rows are written one after the other, each one at its place: one of them is read. -/
theorem read_foldl_write {f : ℕ → List α} {w n i : ℕ}
    (h : ∀ j < n, (f j).length = w) (hi : i < n) :
    read ((List.range n).foldl (fun m j ↦ write m (j * w) (f j)) m) (i * w) w = f i := by
  induction n with
  | zero => exact absurd hi (Nat.not_lt_zero i)
  | succ n ih =>
      rw [List.range_succ, List.foldl_append, List.foldl_cons, List.foldl_nil]
      have hn := h n (Nat.lt_succ_self n)
      rcases Nat.lt_succ_iff_lt_or_eq.mp hi with hin | rfl
      · rw [read_write_of_disjoint, ih (fun j hj ↦ h j (Nat.lt_succ_of_lt hj)) hin]
        exact .inl (by rw [← Nat.succ_mul]; exact Nat.mul_le_mul_right w hin)
      · generalize (List.range i).foldl (fun m j ↦ write m (j * w) (f j)) m = m'
        have hread : read (write m' (i * w) (f i)) (i * w + 0) w = ((f i).drop 0).take w :=
          read_write_of_within (by omega)
        rw [Nat.add_zero] at hread
        rw [hread, List.drop_zero, ← hn, List.take_length]

end

/-! ## Numbers -/

/-- The last `k` bytes of a number, the last one first. -/
def toBytes : ℕ → ℕ → List UInt8
  | 0, _ => []
  | k + 1, x => UInt8.ofNat x :: toBytes k (x / 256)

def ofBytes : List UInt8 → ℕ
  | [] => 0
  | b :: bs => b.toNat + 256 * ofBytes bs

@[simp] theorem length_toBytes (k x : ℕ) : (toBytes k x).length = k := by
  induction k generalizing x with
  | zero => rfl
  | succ k ih => rw [toBytes, List.length_cons, ih]

theorem ofBytes_toBytes (k x : ℕ) : ofBytes (toBytes k x) = x % 256 ^ k := by
  induction k generalizing x with
  | zero => rw [Nat.pow_zero, Nat.mod_one]; rfl
  | succ k ih =>
      rw [toBytes, ofBytes, ih, UInt8.toNat_ofNat', Nat.pow_succ' (m := 256)]
      exact Nat.mod_mul.symm

end Lib
