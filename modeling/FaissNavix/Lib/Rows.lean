import FaissNavix.Lib.Region

/-!
# Tables of rows of one width

Row after row, the cells of a table are numbered: the cell `j` of row `i` has the number `i * w + j`,
where `w` is the width of the rows.
-/

namespace Lib

variable {α β ι : Type*} {n w i j : ℕ}

theorem cell_lt (hi : i < n) (hj : j < w) : i * w + j < n * w := by
  have hle : (i + 1) * w ≤ n * w := Nat.mul_le_mul_right w hi
  rw [Nat.add_mul, Nat.one_mul] at hle
  exact Nat.lt_of_lt_of_le (Nat.add_lt_add_left hj _) hle

theorem cell_eq_of_read_eq {m m' : ℕ → α} {o : ℕ} (h : read m o n = read m' o n) (hi : i < n) :
    m (o + i) = m' (o + i) :=
  List.map_inj_left.mp h i (List.mem_range.mpr hi)

theorem cell_div (i : ℕ) (hj : j < w) : (i * w + j) / w = i := by
  rw [Nat.mul_comm, Nat.mul_add_div (by omega), Nat.div_eq_of_lt hj, Nat.add_zero]

theorem cell_mod (i : ℕ) (hj : j < w) : (i * w + j) % w = j := by
  rw [Nat.mul_add_mod_self_right, Nat.mod_eq_of_lt hj]

theorem cell_inj {i' j' : ℕ} (hj : j < w) (hj' : j' < w) (h : i * w + j = i' * w + j') : i = i' ∧ j = j' := by
  refine ⟨?_, ?_⟩
  · rw [← cell_div i hj, h, cell_div i' hj']
  · rw [← cell_mod i hj, h, cell_mod i' hj']

/-! ## Tables as lists -/

section
variable {f : ℕ → List α} (hf : ∀ i < n, (f i).length = w)
include hf

theorem length_flatMap_range :
    ((List.range n).flatMap f).length = n * w := by
  induction n with
  | zero => rw [Nat.zero_mul]; rfl
  | succ n ih =>
      rw [List.range_succ, List.flatMap_append, List.flatMap_singleton, List.length_append,
        ih fun i hi ↦ hf i (Nat.lt_succ_of_lt hi), hf n (Nat.lt_succ_self n), Nat.add_mul,
        Nat.one_mul]

theorem getD_flatMap_range (hi : i < n)
    (hj : j < w) (d : α) : ((List.range n).flatMap f).getD (i * w + j) d = (f i).getD j d := by
  induction n with
  | zero => exact absurd hi (Nat.not_lt_zero i)
  | succ n ih =>
      have hlen : ((List.range n).flatMap f).length = n * w :=
        length_flatMap_range fun i hi ↦ hf i (Nat.lt_succ_of_lt hi)
      rw [List.range_succ, List.flatMap_append, List.flatMap_singleton]
      rcases Nat.lt_succ_iff_lt_or_eq.mp hi with hlt | rfl
      · rw [List.getD_append _ _ _ _ (hlen ▸ cell_lt hlt hj)]
        exact ih (fun i hi ↦ hf i (Nat.lt_succ_of_lt hi)) hlt
      · rw [List.getD_append_right _ _ _ _ (hlen ▸ Nat.le_add_right _ _), hlen,
          Nat.add_sub_cancel_left]

theorem getD_flatMap_range_of_lt {p : ℕ}
    (hp : p < n * w) (d : α) : ((List.range n).flatMap f).getD p d = (f (p / w)).getD (p % w) d := by
  have hw : 0 < w := Nat.pos_of_ne_zero fun h ↦ by
    rw [h, Nat.mul_zero] at hp
    exact Nat.not_lt_zero p hp
  have hcell := getD_flatMap_range hf (Nat.div_lt_of_lt_mul (Nat.mul_comm n w ▸ hp)) (Nat.mod_lt p hw) d
  rwa [Nat.div_add_mod'] at hcell

end

/-! ## Rows written in some order -/

theorem read_foldl_write_of_disjoint {l : List ι} {place : ι → ℕ} {row : ι → List α} {o : ℕ}
    (hrow : ∀ i ∈ l, (row i).length = w) (hl : ∀ i ∈ l, o + w ≤ place i ∨ place i + w ≤ o)
    (m : ℕ → α) :
    read (l.foldl (fun m i ↦ write m (place i) (row i)) m) o w = read m o w := by
  induction l generalizing m with
  | nil => rfl
  | cons k l ih =>
      obtain ⟨hk, hl'⟩ := List.forall_mem_cons.mp hl
      obtain ⟨hlen, hrow'⟩ := List.forall_mem_cons.mp hrow
      rw [List.foldl_cons, ih hrow' hl', read_write_of_disjoint]
      rw [hlen]
      exact hk

/-- A row that is written once is read back, whatever the order of the rows. -/
theorem read_foldl_write_of_mem {l : List ι} {place : ι → ℕ} {row : ι → List α}
    (hl : l.Pairwise fun i j ↦ place i + w ≤ place j ∨ place j + w ≤ place i)
    (hrow : ∀ i ∈ l, (row i).length = w) {i : ι} (hi : i ∈ l) (m : ℕ → α) :
    read (l.foldl (fun m i ↦ write m (place i) (row i)) m) (place i) w = row i := by
  induction l generalizing m with
  | nil => exact absurd hi List.not_mem_nil
  | cons k l ih =>
      obtain ⟨hk, hl'⟩ := List.pairwise_cons.mp hl
      obtain ⟨hlen, hrow'⟩ := List.forall_mem_cons.mp hrow
      rw [List.foldl_cons]
      rcases List.mem_cons.mp hi with rfl | hi
      · have hself := @read_write_of_within _ m (place i) 0 w (row i) (by omega)
        rw [Nat.add_zero] at hself
        rw [read_foldl_write_of_disjoint hrow' hk, hself, List.drop_zero,
          List.take_of_length_le (Nat.le_of_eq hlen)]
      · exact ih hl' hrow' hi _

/-- The rows `f 0`, `f 1`, …, `n` of them, have been written from address `o` on, and nothing else. -/
structure RowsWritten (m m' : ℕ → α) (o n w : ℕ) (f : ℕ → List α) : Prop where
  rows : ∀ i < n, read m' (o + i * w) w = f i
  outside : ∀ a, a < o ∨ o + n * w ≤ a → m' a = m a

theorem rowsWritten_zero (m : ℕ → α) (o w : ℕ) (f : ℕ → List α) : RowsWritten m m o 0 w f where
  rows := fun i hi ↦ absurd hi (Nat.not_lt_zero i)
  outside := fun _ _ ↦ rfl

theorem read_write_self {m : ℕ → α} {o : ℕ} {xs : List α} (hxs : xs.length = w) :
    read (write m o xs) o w = xs := by
  have hself := @read_write_of_within _ m o 0 w xs (by omega)
  rwa [Nat.add_zero, List.drop_zero, List.take_of_length_le (Nat.le_of_eq hxs)] at hself

/-- More rows after the ones written. -/
theorem RowsWritten.append {m m₁ m₂ : ℕ → α} {o n₁ n₂ : ℕ} {f : ℕ → List α}
    (h₁ : RowsWritten m m₁ o n₁ w f)
    (h₂ : RowsWritten m₁ m₂ (o + n₁ * w) n₂ w fun i ↦ f (n₁ + i)) :
    RowsWritten m m₂ o (n₁ + n₂) w f where
  rows := fun i hi ↦ by
    by_cases hlt : i < n₁
    · rw [← h₁.rows i hlt]
      refine read_congr fun j hj ↦ h₂.outside _ (Or.inl ?_)
      have := cell_lt hlt hj
      omega
    · obtain ⟨k, rfl⟩ := Nat.exists_eq_add_of_le (Nat.le_of_not_lt hlt)
      rw [Nat.add_mul, ← Nat.add_assoc]
      exact h₂.rows k (by omega)
  outside := fun a ha ↦ by
    rw [Nat.add_mul] at ha
    rw [h₂.outside a (by omega), h₁.outside a (by omega)]

theorem rowsWritten_foldl {f : ℕ → List α} (hf : ∀ i < n, (f i).length = w) (m : ℕ → α) (o : ℕ) :
    RowsWritten m ((List.range n).foldl (fun m i ↦ write m (o + i * w) (f i)) m) o n w f := by
  induction n with
  | zero => exact rowsWritten_zero m o w f
  | succ n ih =>
      rw [List.range_succ, List.foldl_append]
      have hlast := hf n (Nat.lt_succ_self n)
      refine (ih fun i hi ↦ hf i (Nat.lt_succ_of_lt hi)).append ⟨fun i hi ↦ ?_, fun a ha ↦ ?_⟩
      · obtain rfl : i = 0 := Nat.lt_one_iff.mp hi
        rw [Nat.zero_mul]
        exact read_write_self hlast
      · exact write_of_outside (by rw [hlast]; omega)

theorem write_zero_apply (m f : ℕ → α) (hi : i < n) : write m 0 ((List.range n).map f) i = f i := by
  have hlen : i < ((List.range n).map f).length := by rwa [List.length_map, List.length_range]
  have hwrite := write_of_inside (m := m) (o := 0) hlen
  rwa [Nat.zero_add, List.get_eq_getElem, List.getElem_map, List.getElem_range] at hwrite

theorem write_read_apply (m m' : ℕ → α) (hi : i < n) : write m 0 (read m' 0 n) i = m' i := by
  have hread : read m' 0 n = (List.range n).map m' :=
    List.map_congr_left fun i _ ↦ congrArg m' (Nat.zero_add i)
  rw [hread, write_zero_apply m m' hi]

theorem foldl_write_apply (f : ℕ → ℕ → α) (m : ℕ → α) (hi : i < n) (hj : j < w) :
    (List.range n).foldl (fun m i ↦ write m (i * w) ((List.range w).map (f i))) m (i * w + j) =
      f i j := by
  have hlen : ∀ i < n, ((List.range w).map (f i)).length = w := fun i _ ↦ by
    rw [List.length_map, List.length_range]
  have hrow := (rowsWritten_foldl hlen m 0).rows i hi
  simp only [Nat.zero_add] at hrow
  exact List.map_inj_left.mp hrow j (List.mem_range.mpr hj)

/-! ## Rows that may fail -/

/-- Rows of width `w` are computed and written from address `o` on, until one of them fails. -/
def writeRows {ε α : Type} (w : ℕ) (row : ℕ → Except ε (List α)) (o n : ℕ) (m : ℕ → α) :
    Except ε (ℕ → α) :=
  (List.range n).foldlM (fun m i ↦ do
    let xs ← row i
    return write m (o + i * w) xs) m

section WriteRows

variable {ε α : Type} {row row' : ℕ → Except ε (List α)} {m m' : ℕ → α} {o n₁ n₂ : ℕ}

theorem writeRows_succ : writeRows w row o (n + 1) m =
    writeRows w row o n m >>= fun m ↦ row n >>= fun xs ↦ .ok (write m (o + n * w) xs) := by
  rw [writeRows, List.range_succ, List.foldlM_append]
  exact congrArg (writeRows w row o n m >>= ·) (funext fun m ↦ bind_pure _)

theorem writeRows_congr (h : ∀ i < n, row i = row' i) :
    writeRows w row o n m = writeRows w row' o n m := by
  induction n with
  | zero => rfl
  | succ n ih =>
      rw [writeRows_succ, writeRows_succ, ih fun i hi ↦ h i (Nat.lt_succ_of_lt hi),
        h n (Nat.lt_succ_self n)]

theorem writeRows_add (n₁ n₂ : ℕ) : writeRows w row o (n₁ + n₂) m =
    writeRows w row o n₁ m >>= writeRows w (fun i ↦ row (n₁ + i)) (o + n₁ * w) n₂ := by
  induction n₂ with
  | zero => exact (bind_pure _).symm
  | succ n₂ ih =>
      rw [← Nat.add_assoc, writeRows_succ, ih, bind_assoc]
      refine congrArg (writeRows w row o n₁ m >>= ·) (funext fun m ↦ ?_)
      rw [writeRows_succ, Nat.add_mul, Nat.add_assoc]

/-- Rows are computed and written in blocks of `bs`. -/
theorem writeRows_blocks (row : ℕ → Except ε (List α)) {bs : ℕ} (hbs : 0 < bs) (n : ℕ) (m : ℕ → α) :
    (List.range ((n + bs - 1) / bs)).foldlM (fun m b ↦
      writeRows w (fun i ↦ row (b * bs + i)) (o + b * bs * w) (min n (b * bs + bs) - b * bs) m) m =
      writeRows w row o n m := by
  have hblocks : ∀ k, (List.range k).foldlM (fun m b ↦
      writeRows w (fun i ↦ row (b * bs + i)) (o + b * bs * w) (min n (b * bs + bs) - b * bs) m) m =
      writeRows w row o (min n (k * bs)) m := by
    intro k
    induction k with
    | zero =>
        rw [Nat.zero_mul, Nat.min_zero]
        rfl
    | succ k ih =>
        rw [List.range_succ, List.foldlM_append, ih, Nat.succ_mul]
        simp only [List.foldlM_cons, List.foldlM_nil, bind_pure]
        by_cases hk : k * bs ≤ n
        · generalize hcount : min n (k * bs + bs) - k * bs = count
          have hsplit : min n (k * bs + bs) = k * bs + count := by omega
          rw [Nat.min_eq_right hk, hsplit, writeRows_add]
        · -- past the last row the blocks are empty
          have hnone : min n (k * bs + bs) - k * bs = 0 := by omega
          have hall : min n (k * bs + bs) = min n (k * bs) := by omega
          rw [hnone, hall]
          exact bind_pure _
  rw [hblocks]
  congr 1
  have hcover : n ≤ (n + bs - 1) / bs * bs := by
    have := Nat.lt_div_mul_add hbs (a := n + bs - 1)
    omega
  exact Nat.min_eq_left hcover

theorem writeRows_of_ok {f : ℕ → List α} (h : ∀ i < n, row i = .ok (f i)) :
    writeRows w row o n m =
      .ok ((List.range n).foldl (fun m i ↦ write m (o + i * w) (f i)) m) := by
  induction n with
  | zero => rfl
  | succ n ih =>
      rw [writeRows_succ, ih fun i hi ↦ h i (Nat.lt_succ_of_lt hi), h n (Nat.lt_succ_self n),
        List.range_succ, List.foldl_append]
      rfl

end WriteRows

theorem write_before (m : ℕ → α) (o : ℕ) (xs ys : List α) :
    write (write m (o + xs.length) ys) o xs = write m o (xs ++ ys) := by
  rw [← write_append]
  funext a
  by_cases hin : o ≤ a ∧ a < o + xs.length
  · obtain ⟨i, rfl⟩ := Nat.exists_eq_add_of_le hin.1
    rw [write_of_inside (by omega), write_of_outside (.inl hin.2), write_of_inside (by omega)]
  · rw [write_of_outside (by omega)]
    by_cases hlater : o + xs.length ≤ a ∧ a < o + xs.length + ys.length
    · obtain ⟨i, rfl⟩ := Nat.exists_eq_add_of_le hlater.1
      rw [write_of_inside (by omega), write_of_inside (by omega)]
    · rw [write_of_outside (by omega), write_of_outside (by omega), write_of_outside (by omega)]

/-- Rows are spread out in place, from the last one on: each is moved to where the wider row ends, and
what comes before it is written. -/
theorem rowsWritten_spread {c s : ℕ} {f g : ℕ → List α} (hg : ∀ i < n, (g i).length = c)
    {m : ℕ → α} {o : ℕ} (hf : ∀ i < n, read m (o + i * s) s = f i) :
    RowsWritten m ((List.range n).reverse.foldl (fun m i ↦
      write (write m (o + i * (c + s) + c) (read m (o + i * s) s)) (o + i * (c + s)) (g i)) m)
      o n (c + s) fun i ↦ g i ++ f i := by
  induction n generalizing m with
  | zero => exact rowsWritten_zero m o (c + s) _
  | succ n ih =>
      rw [List.range_succ, List.reverse_append, List.reverse_singleton, List.singleton_append,
        List.foldl_cons]
      have hlen := hg n (Nat.lt_succ_self n)
      have hwide : n * (c + s) = n * c + n * s := Nat.mul_add n c s
      have hend : (n + 1) * (c + s) = n * (c + s) + (c + s) := Nat.succ_mul n (c + s)
      rw [hf n (Nat.lt_succ_self n)]
      have hflen : (f n).length = s := by rw [← hf n (Nat.lt_succ_self n), length_read]
      -- the rows that are still to be moved lie before the last one
      generalize hm₁ : write (write m (o + n * (c + s) + c) (f n)) (o + n * (c + s)) (g n) = m₁
      have hkeep : ∀ i < n, read m₁ (o + i * s) s = f i := by
        intro i hi
        have hbefore : (i + 1) * s ≤ n * s := Nat.mul_le_mul_right s hi
        rw [Nat.succ_mul] at hbefore
        rw [← hm₁, read_write_of_disjoint (.inl (by omega)), read_write_of_disjoint (.inl (by omega))]
        exact hf i (Nat.lt_succ_of_lt hi)
      have hrow : read m₁ (o + n * (c + s)) (c + s) = g n ++ f n := by
        rw [← hm₁, ← hlen, write_before]
        exact read_write_self (by rw [List.length_append]; omega)
      have hrest := ih (fun i hi ↦ hg i (Nat.lt_succ_of_lt hi)) hkeep
      refine ⟨fun i hi ↦ ?_, fun a ha ↦ ?_⟩
      · rcases Nat.lt_succ_iff_lt_or_eq.mp hi with hlt | rfl
        · exact hrest.rows i hlt
        · rw [← hrow]
          exact read_congr fun j _ ↦ hrest.outside _ (Or.inr (Nat.le_add_right _ _))
      · rw [hrest.outside a (by omega), ← hm₁, write_of_outside (by omega),
          write_of_outside (by omega)]

end Lib
