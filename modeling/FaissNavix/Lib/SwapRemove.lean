import Mathlib.Data.List.Basic
import Mathlib.Data.List.GetD
import Mathlib.Data.List.Perm.Basic
import Mathlib.Data.List.Range
import Mathlib.Order.Basic

/-!
# Compacting a vector in place

The elements are gone through in their order; those that are kept are moved down to the first places,
which are then all that is left of the vector.
-/

namespace Lib

universe u v

variable {α : Type u} {β : Type v}

/-- A turn of the loop, with the number of elements that are kept so far. -/
def compactStep (p : ℕ → α → Bool) (s : List α × ℕ) (i : ℕ) : List α × ℕ :=
  match s.1[i]? with
  | some x => if p i x then s else (s.1.set s.2 x, s.2 + 1)
  | none => s

/-- The elements that do not pass the test, which also knows where they are. -/
def compact (p : ℕ → α → Bool) (xs : List α) : List α :=
  let s := (List.range xs.length).foldl (compactStep p) (xs, 0)
  s.1.take s.2

variable {p : ℕ → α → Bool} {q : β → Bool} {xs : List α} {ys : List β}

/-- What the loop has done to the first `i` elements; the others are as they were. -/
structure Compacted (q : β → Bool) (xs : List α) (ys : List β) (i : ℕ) (s : List α × ℕ) : Prop where
  length : s.1.length = xs.length
  le : s.2 ≤ i
  kept : s.1.take s.2 = (((xs.zip ys).take i).filter fun e ↦ !q e.2).map Prod.fst
  rest : s.1.drop i = xs.drop i

theorem Compacted.step (hlen : ys.length = xs.length) {i : ℕ} (hi : i < xs.length)
    (h : ∀ x y, xs[i]? = some x → ys[i]? = some y → p i x = q y) {s : List α × ℕ} (hs : Compacted q xs ys i s) :
    Compacted q xs ys (i + 1) (compactStep p s i) := by
  obtain ⟨zs, j⟩ := s
  obtain ⟨hlength, hle, hkept, hrest⟩ := hs
  dsimp only at hlength hle hkept hrest
  have hzs : zs[i]? = some xs[i] := by
    have hhead := congrArg List.head? hrest
    rwa [List.head?_drop, List.head?_drop, List.getElem?_eq_getElem hi] at hhead
  have hys : ys[i]? = some ys[i] := List.getElem?_eq_getElem (hlen ▸ hi)
  have htake : (xs.zip ys).take (i + 1) = (xs.zip ys).take i ++ [(xs[i], ys[i])] := by
    have hzip : (xs.zip ys)[i]? = some (xs[i], ys[i]) :=
      List.getElem?_zip_eq_some.mpr ⟨List.getElem?_eq_getElem hi, hys⟩
    rw [List.take_add_one, hzip]
    rfl
  have hdrop : zs.drop (i + 1) = xs.drop (i + 1) := by
    rw [← List.drop_drop, ← List.drop_drop, hrest]
  unfold compactStep
  rw [hzs]
  dsimp only
  rw [h _ _ (List.getElem?_eq_getElem hi) hys]
  cases hq : q ys[i] with
  | true =>
      refine ⟨hlength, Nat.le_succ_of_le hle, ?_, hdrop⟩
      rw [if_pos rfl, htake, List.filter_append, List.filter_cons_of_neg (by simp [hq]),
        List.filter_nil, List.append_nil, ← hkept]
  | false =>
      rw [if_neg Bool.false_ne_true]
      refine ⟨List.length_set.trans hlength, Nat.succ_le_succ hle, ?_, ?_⟩
      · rw [htake, List.filter_append, List.filter_cons_of_pos (by simp [hq]), List.filter_nil,
          List.map_append, ← hkept, List.take_add_one, List.take_set_of_le (Nat.le_refl j),
          List.getElem?_set_self (by omega)]
        rfl
      · rw [List.drop_set_of_lt (by omega), hdrop]

/-- The elements that are kept, in their order, where the test looks at what is beside them. -/
theorem compact_eq (hlen : ys.length = xs.length)
    (h : ∀ i x y, xs[i]? = some x → ys[i]? = some y → p i x = q y) :
    compact p xs = ((xs.zip ys).filter fun e ↦ !q e.2).map Prod.fst := by
  have hloop : ∀ i ≤ xs.length,
      Compacted q xs ys i ((List.range i).foldl (compactStep p) (xs, 0)) := by
    intro i
    induction i with
    | zero => exact fun _ ↦ ⟨rfl, Nat.le_refl 0, rfl, rfl⟩
    | succ i ih =>
        intro hi
        rw [List.range_succ, List.foldl_append]
        exact (ih (Nat.le_of_succ_le hi)).step hlen hi (h i)
  rw [compact, (hloop xs.length (Nat.le_refl _)).kept, List.take_of_length_le]
  rw [List.length_zip, hlen]
  exact Nat.min_le_left _ _

/-- The elements that are kept, where the test looks at them alone. -/
theorem compact_self {p : α → Bool} (xs : List α) :
    compact (fun _ ↦ p) xs = xs.filter fun x ↦ !p x := by
  have hzip : ∀ xs : List α, xs.zip xs = xs.map fun x ↦ (x, x) := by
    intro xs
    induction xs with
    | nil => rfl
    | cons x xs ih => rw [List.zip_cons_cons, ih, List.map_cons]
  have hsame : ∀ (i : ℕ) (x y : α), xs[i]? = some x → xs[i]? = some y → p x = p y := by
    intro i x y hx hy
    rw [Option.some.inj (hx.symm.trans hy)]
  rw [compact_eq rfl hsame, hzip, List.filter_map, List.map_map]
  exact List.map_id _

end Lib

/-!
# Removing entries by moving the last one into the hole

A store has numbered slots, of which the first `l` are in use.  To remove the entries that pass a
test, the slots are examined from the first one on; the entry of the last slot in use takes the
place of one that is removed, and the slot is examined again.  How a slot is read and how an entry
is moved is left to the store.
-/

namespace Lib

universe u v

variable {σ : Type u} {α : Type v}

/-- A store: what is in a slot, and moving the entry of the first slot to the second. -/
structure Slots (σ : Type u) (α : Type v) where
  get : σ → ℕ → α
  move : σ → ℕ → ℕ → σ

/-- Moving within the first `n` slots changes the one that is moved to, in the stores of `ok`. -/
structure Slots.Lawful (S : Slots σ α) (ok : σ → Prop) (n : ℕ) : Prop where
  ok_move : ∀ {s l j}, ok s → l < n → j < n → ok (S.move s l j)
  get_move : ∀ {s l j k}, ok s → l < n → j < n → k < n →
    S.get (S.move s l j) k = if k = j then S.get s l else S.get s k

variable (S : Slots σ α) (p : α → Bool)

/-- The loop, from slot `j` on, with `l` slots in use: the store and the slots left in use. -/
def swapRemove (s : σ) (j l : ℕ) : σ × ℕ :=
  if j < l then
    if p (S.get s j) then swapRemove (S.move s (l - 1) j) j (l - 1)
    else swapRemove s (j + 1) l
  else (s, l)
termination_by l - j

variable {S p}

theorem swapRemove_of_pos {s : σ} {j l : ℕ} (hlt : j < l) (hp : p (S.get s j) = true) :
    swapRemove S p s j l = swapRemove S p (S.move s (l - 1) j) j (l - 1) := by
  rw [swapRemove.eq_def S p s, if_pos hlt, if_pos hp]

theorem swapRemove_of_neg {s : σ} {j l : ℕ} (hlt : j < l) (hp : ¬ p (S.get s j) = true) :
    swapRemove S p s j l = swapRemove S p s (j + 1) l := by
  rw [swapRemove, if_pos hlt, if_neg hp]

theorem swapRemove_of_le {s : σ} {j l : ℕ} (hle : ¬ j < l) : swapRemove S p s j l = (s, l) := by
  rw [swapRemove, if_neg hle]

/-- The entries of the first `l` slots. -/
def Slots.contents (S : Slots σ α) (s : σ) (l : ℕ) : List α :=
  (List.range l).map (S.get s)

theorem Slots.contents_succ (s : σ) (l : ℕ) :
    S.contents s (l + 1) = S.contents s l ++ [S.get s l] := by
  rw [contents, List.range_succ, List.map_append]
  rfl

/-- The entry of the last slot is moved to slot `j`. -/
theorem Slots.Lawful.contents_move {ok : σ → Prop} {n : ℕ} (h : S.Lawful ok n) {s : σ} (hs : ok s)
    {j l : ℕ} (hj : j ≤ l) (hl : l < n) :
    (S.get s j :: S.contents (S.move s l j) l).Perm (S.contents s (l + 1)) := by
  have hget : ∀ k ∈ List.range l, S.get (S.move s l j) k =
      Function.update (S.get s) j (S.get s l) k := fun k hk ↦ by
    have hk' := List.mem_range.mp hk
    rw [h.get_move hs hl (hj.trans_lt hl) (hk'.trans hl), Function.update_apply]
  rw [contents, List.map_congr_left hget, contents_succ]
  refine List.Perm.trans ?_ List.perm_append_comm
  rcases hj.lt_or_eq with hj | rfl
  · -- slot `j` is taken out of the range, where the two stores differ
    have hmem : j ∈ List.range l := List.mem_range.mpr hj
    have hsplit := List.perm_cons_erase hmem
    have hrest : ((List.range l).erase j).map (Function.update (S.get s) j (S.get s l)) =
        ((List.range l).erase j).map (S.get s) := by
      refine List.map_congr_left fun k hk ↦ Function.update_of_ne ?_ _ _
      rintro rfl
      exact (List.nodup_range.not_mem_erase) hk
    have hnew := hsplit.map (Function.update (S.get s) j (S.get s l))
    have hold := hsplit.map (S.get s)
    rw [List.map_cons, Function.update_self, hrest] at hnew
    rw [List.map_cons] at hold
    refine (hnew.cons _).trans ((List.Perm.swap _ _ _).trans ?_)
    exact (hold.symm.cons _)
  · refine List.Perm.cons _ (List.Perm.of_eq ?_)
    refine List.map_congr_left fun k hk ↦ Function.update_of_ne ?_ _ _
    exact (List.mem_range.mp hk).ne

/-- The loop keeps the entries that do not pass the test. -/
theorem Slots.Lawful.swapRemove {ok : σ → Prop} {n : ℕ} (h : S.Lawful ok n) {s : σ} (hs : ok s)
    {j l : ℕ} (hj : j ≤ l) (hl : l ≤ n) (hkept : ∀ k < j, p (S.get s k) = false) :
    ok (Lib.swapRemove S p s j l).1 ∧ (Lib.swapRemove S p s j l).2 ≤ l ∧
      (S.contents (Lib.swapRemove S p s j l).1 (Lib.swapRemove S p s j l).2).Perm
        ((S.contents s l).filter fun x ↦ !p x) := by
  fun_induction Lib.swapRemove S p s j l with
  | case1 s j l hlt hp ih =>
      obtain ⟨m, rfl⟩ : ∃ m, l = m + 1 := ⟨l - 1, by omega⟩
      rw [Nat.add_sub_cancel] at ih ⊢
      have hkept' : ∀ k < j, p (S.get (S.move s m j) k) = false := fun k hk ↦ by
        rw [h.get_move hs (by omega) (by omega) (by omega), if_neg hk.ne]
        exact hkept k hk
      obtain ⟨hok, hle, hperm⟩ := ih (h.ok_move hs (by omega) (by omega)) (by omega) (by omega) hkept'
      refine ⟨hok, hle.trans (Nat.le_succ m), hperm.trans ?_⟩
      have hmove := (h.contents_move hs (j := j) (l := m) (by omega) (by omega)).filter fun x ↦ !p x
      rwa [List.filter_cons_of_neg (by rw [hp]; exact Bool.false_ne_true)] at hmove
  | case2 s j l hlt hp ih =>
      refine ih hs (by omega) hl fun k hk ↦ ?_
      rcases Nat.lt_succ_iff_lt_or_eq.mp hk with hk | rfl
      · exact hkept k hk
      · exact Bool.eq_false_iff.mpr hp
  | case3 s j l hlt =>
      obtain rfl : j = l := by omega
      refine ⟨hs, le_rfl, List.Perm.of_eq (List.filter_eq_self.mpr fun x hx ↦ ?_).symm⟩
      obtain ⟨k, hk, rfl⟩ := List.mem_map.mp hx
      rw [hkept k (List.mem_range.mp hk)]
      rfl

end Lib
