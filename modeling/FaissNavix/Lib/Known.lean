import Mathlib.Data.Nat.Basic

/-!
# Lists of which some values are known

A list of optional values says what is known of an array: its size, and the values that were put
into it.  The array itself is a size and a function.
-/

namespace Lib

universe u

variable {α : Type u}

/-- The size is that of the list, and `f` has the known values. -/
structure Known (xs : List (Option α)) (n : ℕ) (f : ℕ → α) : Prop where
  size_eq : n = xs.length
  eq_of_some : ∀ i x, xs[i]? = some (some x) → f i = x

/-- `ys` is put into the list, from position `k` on. -/
def put (k : ℕ) (ys : List α) (xs : List (Option α)) : List (Option α) :=
  xs.take k ++ ys.map some ++ xs.drop (k + ys.length)

/-- The list is cut, or unknown values are added to it. -/
def resize (n : ℕ) (xs : List (Option α)) : List (Option α) :=
  xs.take n ++ List.replicate (n - xs.length) none

theorem known_nil (f : ℕ → α) : Known [] 0 f :=
  ⟨rfl, fun _ _ h ↦ nomatch h⟩

theorem put_resize (ys : List α) (xs : List (Option α)) :
    put xs.length ys (resize (ys.length + xs.length) xs) = xs ++ ys.map some := by
  have hle : xs.length ≤ ys.length + xs.length := Nat.le_add_left _ _
  rw [put, resize, List.take_of_length_le hle, Nat.add_sub_cancel, List.take_left]
  have hlen : xs.length + ys.length = (xs ++ List.replicate ys.length (none : Option α)).length := by
    rw [List.length_append, List.length_replicate]
  rw [hlen, List.drop_length, List.append_nil]

@[simp] theorem put_nil (k : ℕ) (xs : List (Option α)) : put k [] xs = xs := by
  rw [put, List.map_nil, List.append_nil, List.length_nil, Nat.add_zero, List.take_append_drop]

variable {xs : List (Option α)} {n : ℕ} {f g : ℕ → α}

theorem Known.congr (h : Known xs n f) (hg : ∀ i < n, g i = f i) : Known xs n g := by
  refine ⟨h.size_eq, fun i x hx ↦ (hg i ?_).trans (h.eq_of_some i x hx)⟩
  rw [h.size_eq]
  exact (List.getElem?_eq_some_iff.1 hx).1

/-- The values that stay when the size changes are as before. -/
theorem Known.resize (h : Known xs n f) {m : ℕ} (hg : ∀ i < min m n, g i = f i) :
    Known (resize m xs) m g := by
  refine ⟨?_, fun i x hx ↦ ?_⟩
  · rw [Lib.resize, List.length_append, List.length_take, List.length_replicate]
    omega
  · rw [Lib.resize, List.getElem?_append] at hx
    split at hx
    · next hi =>
        rw [List.length_take, ← h.size_eq] at hi
        rw [List.getElem?_take_of_lt (Nat.lt_of_lt_of_le hi (Nat.min_le_left _ _))] at hx
        exact (hg i hi).trans (h.eq_of_some i x hx)
    · rw [List.getElem?_replicate] at hx
      split at hx
      · cases hx
      · cases hx

/-- The values that are put are known, and the others are as before. -/
theorem Known.put (h : Known xs n f) {k : ℕ} {ys : List α} (hk : k + ys.length ≤ n)
    (hnew : ∀ i (hi : i < ys.length), g (k + i) = ys.get ⟨i, hi⟩)
    (hold : ∀ i < n, i < k ∨ k + ys.length ≤ i → g i = f i) : Known (put k ys xs) n g := by
  have hlen := h.size_eq
  have htake : (xs.take k).length = k := by
    rw [List.length_take]
    omega
  have hfront : (xs.take k ++ ys.map some).length = k + ys.length := by
    rw [List.length_append, htake, List.length_map]
  refine ⟨?_, fun i x hx ↦ ?_⟩
  · rw [Lib.put, List.length_append, hfront, List.length_drop]
    omega
  · rw [Lib.put, List.getElem?_append, hfront, List.getElem?_append, htake] at hx
    split at hx
    · next hi =>
        split at hx
        · next hik =>
            rw [List.getElem?_take_of_lt hik] at hx
            exact (hold i (by omega) (.inl hik)).trans (h.eq_of_some i x hx)
        · next hki =>
            obtain ⟨d, rfl⟩ := Nat.exists_eq_add_of_le (Nat.le_of_not_lt hki)
            have hd : d < ys.length := by omega
            rw [Nat.add_sub_cancel_left, List.getElem?_map, List.getElem?_eq_getElem hd] at hx
            exact (hnew d hd).trans (Option.some.inj (Option.some.inj hx))
    · next hi =>
        rw [List.getElem?_drop, Nat.add_sub_cancel' (Nat.le_of_not_lt hi)] at hx
        have hin : i < xs.length := (List.getElem?_eq_some_iff.1 hx).1
        exact (hold i (by omega) (.inr (Nat.le_of_not_lt hi))).trans (h.eq_of_some i x hx)

theorem Known.append (h : Known xs n f) {ys : List α} (hold : ∀ i < n, g i = f i)
    (hnew : ∀ i (hi : i < ys.length), g (n + i) = ys.get ⟨i, hi⟩) :
    Known (xs ++ ys.map some) (ys.length + n) g := by
  have hlonger : Known (Lib.resize (ys.length + n) xs) (ys.length + n) g :=
    h.resize fun i hi ↦ hold i (Nat.lt_of_lt_of_le hi (Nat.min_le_right _ _))
  rw [← put_resize, ← h.size_eq]
  exact hlonger.put (Nat.le_of_eq (Nat.add_comm _ _)) hnew fun _ _ _ ↦ rfl

end Lib
