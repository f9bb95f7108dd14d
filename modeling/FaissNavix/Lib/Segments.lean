import Mathlib.Algebra.BigOperators.Group.List.Basic
import Mathlib.Algebra.Ring.Nat
import Mathlib.Data.List.Basic
import Mathlib.Data.List.GetD
import Mathlib.Data.List.Range

/-!
# Segments of a list

A list in which several tables are stored one after the other.  `segment d xs b n` is the table of
`n` entries from position `b`, where the entries beyond the end of the list are `d`, and `overwrite`
puts a table in its place.  Only the segments that overlap it notice.
-/

namespace Lib

variable {α : Type*} {d : α}

/-- The `n` entries from position `b`. -/
def segment (d : α) (xs : List α) (b n : ℕ) : List α :=
  (List.range' b n).map fun j ↦ xs.getD j d

/-- The loop `for (y : ys) xs[b++] = y`. -/
def overwrite (xs : List α) (b : ℕ) : List α → List α
  | [] => xs
  | y :: ys => overwrite (xs.set b y) (b + 1) ys

@[simp] theorem length_segment (xs : List α) (b n : ℕ) : (segment d xs b n).length = n := by
  rw [segment, List.length_map, List.length_range']

theorem segment_add (xs : List α) (b m n : ℕ) :
    segment d xs b (m + n) = segment d xs b m ++ segment d xs (b + m) n := by
  rw [segment, segment, segment, ← List.map_append, List.range'_append_1]

theorem segment_succ (xs : List α) (b n : ℕ) :
    segment d xs b (n + 1) = segment d xs b n ++ [xs.getD (b + n) d] :=
  segment_add xs b n 1

theorem getD_of_segment {xs ys : List α} {b n : ℕ} (h : segment d xs b n = ys) {j : ℕ} (hj : j < n) :
    xs.getD (b + j) d = ys.getD j d := by
  subst h
  have hlen : j < (segment d xs b n).length := by rw [length_segment]; exact hj
  rw [List.getD_eq_getElem (segment d xs b n) d hlen]
  simp only [segment, List.getElem_map, List.getElem_range', Nat.one_mul]

theorem segment_congr {xs ys : List α} {b n : ℕ}
    (h : ∀ j, b ≤ j → j < b + n → xs.getD j d = ys.getD j d) :
    segment d xs b n = segment d ys b n := by
  refine List.map_congr_left fun j hj ↦ ?_
  obtain ⟨hb, hn⟩ := List.mem_range'_1.mp hj
  exact h j hb hn

theorem segment_append_left {xs : List α} (ys : List α) {b n : ℕ} (h : b + n ≤ xs.length) :
    segment d (xs ++ ys) b n = segment d xs b n :=
  segment_congr fun j _ hj ↦ List.getD_append xs ys d j (by omega)

theorem segment_append_replicate {xs : List α} {k b n : ℕ} (h : xs.length ≤ b) :
    segment d (xs ++ List.replicate k d) b n = List.replicate n d := by
  refine List.eq_replicate_iff.mpr ⟨length_segment _ _ _, fun x hx ↦ ?_⟩
  obtain ⟨j, hj, rfl⟩ := List.mem_map.mp hx
  obtain ⟨hb, -⟩ := List.mem_range'_1.mp hj
  rw [List.getD_append_right xs _ d j (h.trans hb), List.getD_eq_getElem?_getD,
    List.getElem?_replicate]
  split <;> rfl

theorem getD_set (xs : List α) (i j : ℕ) (v : α) :
    (xs.set i v).getD j d = if i = j ∧ i < xs.length then v else xs.getD j d := by
  rw [List.getD_eq_getElem?_getD, List.getElem?_set, List.getD_eq_getElem?_getD]
  by_cases hij : i = j
  · subst hij
    by_cases hi : i < xs.length
    · rw [if_pos rfl, if_pos hi, if_pos ⟨rfl, hi⟩]
      rfl
    · rw [if_pos rfl, if_neg hi, if_neg fun h ↦ hi h.2, List.getElem?_eq_none (Nat.le_of_not_lt hi)]
  · rw [if_neg hij, if_neg fun h ↦ hij h.1]

theorem segment_set_of_disjoint {xs : List α} {i b n : ℕ} (v : α) (h : b + n ≤ i ∨ i < b) :
    segment d (xs.set i v) b n = segment d xs b n :=
  segment_congr fun j _ _ ↦ by rw [getD_set, if_neg (by omega)]

theorem segment_set {xs : List α} {i b n : ℕ} (v : α) (hb : b ≤ i) (hi : i < xs.length) :
    segment d (xs.set i v) b n = (segment d xs b n).set (i - b) v := by
  refine List.ext_getElem (by simp) fun j h1 h2 ↦ ?_
  simp only [segment, List.getElem_set, List.getElem_map, List.getElem_range', Nat.one_mul, getD_set]
  by_cases hij : i = b + j
  · rw [if_pos ⟨hij, hi⟩, if_pos (by omega)]
  · rw [if_neg fun h ↦ hij h.1, if_neg (by omega)]

theorem getElem_segment {xs : List α} {b n i : ℕ} (h : i < (segment d xs b n).length) :
    (segment d xs b n).get ⟨i, h⟩ = xs.getD (b + i) d := by
  simp only [segment, List.get_eq_getElem, List.getElem_map, List.getElem_range', Nat.one_mul]

theorem segment_segment {xs : List α} {b n b' n' : ℕ} (h : b' + n' ≤ n) :
    segment d (segment d xs b n) b' n' = segment d xs (b + b') n' := by
  refine List.ext_getElem (by rw [length_segment, length_segment]) fun j h1 h2 ↦ ?_
  rw [length_segment] at h1
  have hin := @getElem_segment _ d (segment d xs b n) b' n' j (by rwa [length_segment])
  have hout := @getElem_segment _ d xs (b + b') n' j (by rwa [length_segment])
  rw [List.get_eq_getElem] at hin hout
  rw [hin, hout, Nat.add_assoc]
  exact (getD_of_segment rfl (by omega)).symm

theorem segment_map {β : Type*} {e : β} {xs : List α} {b n : ℕ} (f : α → β) (h : b + n ≤ xs.length) :
    segment e (xs.map f) b n = (segment d xs b n).map f := by
  unfold segment
  rw [List.map_map]
  refine List.map_congr_left fun j hj ↦ ?_
  have hlt : j < xs.length := by
    have := (List.mem_range'_1.mp hj).2
    omega
  rw [Function.comp_apply, List.getD_eq_getElem _ _ hlt,
    List.getD_eq_getElem _ _ (by rwa [List.length_map]), List.getElem_map]

theorem segment_middle (pre xs post : List α) :
    segment d (pre ++ xs ++ post) pre.length xs.length = xs := by
  refine List.ext_getElem (length_segment _ _ _) fun j h1 h2 ↦ ?_
  have hget := getElem_segment h1
  rw [List.get_eq_getElem] at hget
  rw [hget, List.append_assoc, List.getD_append_right _ _ _ _ (Nat.le_add_right _ _),
    Nat.add_sub_cancel_left, List.getD_append _ _ _ _ h2, List.getD_eq_getElem _ _ h2]

theorem segment_self (xs : List α) : segment d xs 0 xs.length = xs := by
  have h := @segment_middle _ d [] xs []
  rwa [List.nil_append, List.append_nil] at h

theorem segment_flatMap_range {n i : ℕ} (hi : i < n) (f : ℕ → List α) :
    segment d ((List.range n).flatMap f) ((List.range i).flatMap f).length (f i).length = f i := by
  have hsplit : (List.range n).flatMap f = (List.range i).flatMap f ++ f i ++
      ((List.range (n - (i + 1))).map (i + 1 + ·)).flatMap f := by
    have hn : n = i + 1 + (n - (i + 1)) := by omega
    conv_lhs => rw [hn]
    rw [List.range_add, List.flatMap_append, List.range_succ, List.flatMap_append,
      List.flatMap_singleton]
  rw [hsplit]
  exact segment_middle _ _ _

/-! ## Overwriting -/

@[simp] theorem length_overwrite (xs : List α) (b : ℕ) (ys : List α) :
    (overwrite xs b ys).length = xs.length := by
  induction ys generalizing xs b with
  | nil => rfl
  | cons y ys ih => rw [overwrite, ih, List.length_set]

theorem overwrite_append (xs : List α) (b : ℕ) (ys zs : List α) :
    overwrite (overwrite xs b ys) (b + ys.length) zs = overwrite xs b (ys ++ zs) := by
  induction ys generalizing xs b with
  | nil => rfl
  | cons y ys ih =>
      rw [overwrite, List.length_cons, List.cons_append, overwrite, ← ih]
      congr 1
      omega

theorem take_overwrite {xs : List α} {m b : ℕ} (h : m ≤ b) (ys : List α) :
    (overwrite xs b ys).take m = xs.take m := by
  induction ys generalizing xs b with
  | nil => rfl
  | cons y ys ih => rw [overwrite, ih (Nat.le_succ_of_le h), List.take_set_of_le h]

/-- The list up to the end of the table. -/
theorem take_overwrite_end {xs ys : List α} {b : ℕ} (h : b + ys.length ≤ xs.length) :
    (overwrite xs b ys).take (b + ys.length) = xs.take b ++ ys := by
  induction ys generalizing xs b with
  | nil => rw [overwrite, List.length_nil, Nat.add_zero, List.append_nil]
  | cons y ys ih =>
      rw [List.length_cons] at h ⊢
      have hb : b < (xs.set b y).length := by
        rw [List.length_set]
        omega
      have hsplit : (xs.set b y).take (b + 1) = xs.take b ++ [y] := by
        rw [List.take_succ_eq_append_getElem hb, List.take_set_of_le le_rfl, List.getElem_set_self]
      have hroom : b + 1 + ys.length ≤ (xs.set b y).length := by
        rw [List.length_set]
        omega
      rw [overwrite, show b + (ys.length + 1) = b + 1 + ys.length by omega, ih hroom, hsplit,
        List.append_assoc]
      rfl

theorem getD_overwrite_of_outside {xs ys : List α} {b j : ℕ} (h : j < b ∨ b + ys.length ≤ j) :
    (overwrite xs b ys).getD j d = xs.getD j d := by
  induction ys generalizing xs b with
  | nil => rfl
  | cons y ys ih =>
      rw [List.length_cons] at h
      rw [overwrite, ih (by omega), getD_set, if_neg (by omega)]

theorem segment_overwrite {xs ys : List α} {b : ℕ} (h : b + ys.length ≤ xs.length) :
    segment d (overwrite xs b ys) b ys.length = ys := by
  induction ys generalizing xs b with
  | nil => rfl
  | cons y ys ih =>
      rw [List.length_cons] at h ⊢
      have hy : (overwrite (xs.set b y) (b + 1) ys).getD b d = y := by
        rw [getD_overwrite_of_outside (Or.inl (Nat.lt_succ_self b)), getD_set,
          if_pos ⟨rfl, by omega⟩]
      rw [Nat.add_comm, segment_add, overwrite, ih (by rw [List.length_set]; omega)]
      change [(overwrite (xs.set b y) (b + 1) ys).getD b d] ++ ys = _
      rw [hy]
      rfl

end Lib

/-!
# Windows over a sequence of slices

Slices lie one after the other in one array, with the sums of their sizes beside them.  A slice is
added at the end, and the oldest one is removed at the beginning by moving the others.
-/

namespace Lib

universe u

variable {α : Type u}

/-! ## Arrays -/

/-- The array from position `k` on is moved to its beginning; what is not written stays. -/
def moveDown (xs : List α) (k : ℕ) : List α :=
  xs.drop k ++ xs.drop (xs.length - k)

/-- The array gets `n` cells, the new ones with `fill`. -/
def regrow (fill : α) (xs : List α) (n : ℕ) : List α :=
  xs.take n ++ List.replicate (n - xs.length) fill

/-- `src` is written from position `k` on. -/
def blit (xs : List α) (k : ℕ) (src : List α) : List α :=
  xs.take k ++ src ++ xs.drop (k + src.length)

section
variable (fill : α) {xs : List α} {k : ℕ} (h : k ≤ xs.length) (src : List α)
include h

theorem length_moveDown :
    (moveDown xs k).length = xs.length := by
  rw [moveDown, List.length_append, List.length_drop, List.length_drop]
  omega

theorem blit_regrow :
    blit (regrow fill xs (k + src.length)) k src = xs.take k ++ src := by
  have hlen : (regrow fill xs (k + src.length)).length = k + src.length := by
    rw [regrow, List.length_append, List.length_take, List.length_replicate]
    omega
  have htake : (regrow fill xs (k + src.length)).take k = xs.take k := by
    rw [regrow, List.take_append_of_le_length (by rw [List.length_take]; omega), List.take_take,
      Nat.min_eq_left (Nat.le_add_right k _)]
  rw [blit, htake, List.drop_of_length_le hlen.le, List.append_nil]

theorem blit_regrow_moveDown :
    blit (regrow fill (moveDown xs k) (xs.length - k + src.length)) (xs.length - k) src =
      xs.drop k ++ src := by
  have hk : xs.length - k ≤ (moveDown xs k).length := by
    rw [length_moveDown h]
    exact Nat.sub_le _ _
  rw [blit_regrow fill hk, moveDown, List.take_left' List.length_drop]

end

/-! ## Sums of sizes -/

def cumulative (ns : List ℕ) : List ℕ :=
  (List.range ns.length).map fun j ↦ (ns.take (j + 1)).sum

@[simp] theorem length_cumulative (ns : List ℕ) : (cumulative ns).length = ns.length := by
  rw [cumulative, List.length_map, List.length_range]

theorem cumulative_concat (ns : List ℕ) (n : ℕ) :
    cumulative (ns ++ [n]) = cumulative ns ++ [ns.sum + n] := by
  rw [cumulative, List.length_append, List.length_singleton, List.range_succ, List.map_append]
  refine congrArg₂ _ (List.map_congr_left fun j hj ↦ ?_) ?_
  · rw [List.take_append_of_le_length (List.mem_range.mp hj)]
  · rw [List.map_singleton, List.take_of_length_le (by simp), List.sum_append, List.sum_singleton]

theorem cumulative_cons (n : ℕ) (ns : List ℕ) :
    cumulative (n :: ns) = n :: (cumulative ns).map (n + ·) := by
  rw [cumulative, List.length_cons, List.range_succ_eq_map, List.map_cons, List.map_map,
    cumulative, List.map_map]
  refine congrArg₂ _ (by simp) (List.map_congr_left fun j _ ↦ ?_)
  rw [Function.comp_apply, Function.comp_apply, List.take_succ_cons, List.sum_cons]

theorem map_sub_cumulative (n : ℕ) (ns : List ℕ) :
    ((cumulative (n :: ns)).drop 1).map (· - n) = cumulative ns := by
  rw [cumulative_cons, List.drop_succ_cons, List.drop_zero, List.map_map]
  refine (List.map_congr_left fun m _ ↦ ?_).trans (List.map_id _)
  exact Nat.add_sub_cancel_left n m

/-- The first `m` numbers are replaced by the ones after them less `n`, one after the other. -/
def shiftDown (n m : ℕ) (ns : List ℕ) : List ℕ :=
  (List.range m).foldl (fun ns j ↦ ns.set j (ns.getD (j + 1) 0 - n)) ns

theorem shiftDown_eq (n : ℕ) {m : ℕ} {ns : List ℕ} (h : m < ns.length) :
    shiftDown n m ns = ((ns.drop 1).take m).map (· - n) ++ ns.drop m := by
  induction m with
  | zero => rfl
  | succ m ih =>
      have hlen : (((ns.drop 1).take m).map (· - n)).length = m := by
        rw [List.length_map, List.length_take, List.length_drop]
        omega
      have hstep : shiftDown n (m + 1) ns =
          (shiftDown n m ns).set m ((shiftDown n m ns).getD (m + 1) 0 - n) := by
        rw [shiftDown, List.range_succ, List.foldl_append]
        rfl
      have hget : (ns.drop m).getD 1 0 = ns[m + 1] := by
        rw [List.getD_eq_getElem?_getD, List.getElem?_drop, List.getElem?_eq_getElem h]
        rfl
      rw [hstep, ih (by omega), List.set_append_right _ _ hlen.le, hlen, Nat.sub_self,
        List.getD_eq_getElem?_getD, List.getElem?_append_right (by omega), hlen,
        Nat.add_sub_cancel_left, ← List.getD_eq_getElem?_getD, hget,
        List.drop_eq_getElem_cons (by omega : m < ns.length), List.set_cons_zero]
      have htake : (ns.drop 1).take (m + 1) = (ns.drop 1).take m ++ [ns[m + 1]] := by
        rw [List.take_add_one, List.getElem?_drop, Nat.add_comm 1 m, List.getElem?_eq_getElem h]
        rfl
      rw [htake, List.map_append, List.append_assoc]
      rfl

end Lib
