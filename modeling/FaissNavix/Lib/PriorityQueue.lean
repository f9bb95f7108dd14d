import FaissNavix.Lib.KSmallest
import Mathlib.Order.Interval.Finset.Nat

/-!
# Binary heaps in an array

A heap of `k` elements lives at the positions `1, …, k` of an array, the children of position `i`
being `2 * i` and `2 * i + 1`.  The array is a function of the position, so that sifting needs no
bounds, and the comparison `gt` is a program's own test, about which nothing is assumed until an
order is claimed.

There are two groups of results.  The *contents* of the array, as a multiset, are kept whatever
`gt` is.  The *heap order* is kept for every weight that `gt` refines on the elements at hand: a
comparison that breaks ties by a second key refines the first key, and elements that do not
compare at all are left out through the predicate `P`.
-/

namespace Lib.BinaryHeap

open Function

variable {α β : Type*}

/-- The elements at positions `1, …, k`. -/
def contents (k : ℕ) (a : ℕ → α) : Multiset α := (Finset.Icc 1 k).val.map a

@[simp] theorem card_contents (k : ℕ) (a : ℕ → α) : (contents k a).card = k := by
  simp [contents]

theorem mem_contents {k : ℕ} {a : ℕ → α} {x : α} :
    x ∈ contents k a ↔ ∃ i, 1 ≤ i ∧ i ≤ k ∧ a i = x := by
  simp [contents, and_assoc]

theorem contents_succ (k : ℕ) (a : ℕ → α) :
    contents (k + 1) a = a (k + 1) ::ₘ contents k a := by
  have hk : Finset.Icc 1 (k + 1) = insert (k + 1) (Finset.Icc 1 k) := by
    ext i; simp only [Finset.mem_Icc, Finset.mem_insert]; omega
  rw [contents, hk, Finset.insert_val_of_notMem (by simp), Multiset.map_cons, contents]

theorem contents_congr {k : ℕ} {a b : ℕ → α} (h : ∀ i, 1 ≤ i → i ≤ k → a i = b i) :
    contents k a = contents k b :=
  Multiset.map_congr rfl fun i hi ↦ by
    rw [Finset.mem_val, Finset.mem_Icc] at hi
    exact h i hi.1 hi.2

@[simp] theorem contents_update_of_lt {k i : ℕ} (h : k < i) (a : ℕ → α) (x : α) :
    contents k (update a i x) = contents k a :=
  contents_congr fun j _ hj ↦ update_of_ne (by omega) _ _

/-- Writing over position `i` replaces the element that stood there. -/
theorem cons_contents_update {k i : ℕ} (h1 : 1 ≤ i) (h2 : i ≤ k) (a : ℕ → α) (x : α) :
    a i ::ₘ contents k (update a i x) = x ::ₘ contents k a := by
  have hi : i ∈ Finset.Icc 1 k := Finset.mem_Icc.mpr ⟨h1, h2⟩
  have hs : (Finset.Icc 1 k).val = i ::ₘ ((Finset.Icc 1 k).erase i).val := by
    rw [Finset.erase_val, Multiset.cons_erase (Finset.mem_val.mpr hi)]
  have hrest : ((Finset.Icc 1 k).erase i).val.map (update a i x) =
      ((Finset.Icc 1 k).erase i).val.map a :=
    Multiset.map_congr rfl fun j hj ↦
      update_of_ne (Finset.ne_of_mem_erase (Finset.mem_val.mp hj)) _ _
  rw [contents, contents, hs, Multiset.map_cons, Multiset.map_cons, hrest, update_self]
  exact Multiset.cons_swap _ _ _

/-- Moving the element at `j` into the hole at `i` moves the hole to `j`. -/
theorem contents_move {k i j : ℕ} (hi1 : 1 ≤ i) (hi2 : i ≤ k) (hj1 : 1 ≤ j) (hj2 : j ≤ k)
    (hij : i ≠ j) (a : ℕ → α) (x : α) :
    contents k (update (update a i (a j)) j x) = contents k (update a i x) := by
  have h1 := cons_contents_update hj1 hj2 (update a i (a j)) x
  have h2 := cons_contents_update hi1 hi2 a (a j)
  have h3 := cons_contents_update hi1 hi2 a x
  rw [update_of_ne hij.symm] at h1
  have h4 : a i ::ₘ a j ::ₘ contents k (update (update a i (a j)) j x) =
      a i ::ₘ a j ::ₘ contents k (update a i x) := by
    rw [h1, Multiset.cons_swap, h2, Multiset.cons_swap, ← h3, Multiset.cons_swap]
  exact (Multiset.cons_inj_right _).mp ((Multiset.cons_inj_right _).mp h4)

/-! ## Sifting -/

section Sift

variable (gt : α → α → Bool)

/-- The child of `i` a hole at `i` is filled from: the left one if there is no right one or if the
left one compares greater. -/
def largerChild (k : ℕ) (a : ℕ → α) (i : ℕ) : ℕ :=
  if 2 * i + 1 = k + 1 ∨ gt (a (2 * i)) (a (2 * i + 1)) then 2 * i else 2 * i + 1

/-- Place `x` at or below the hole `i` of a heap of `k` elements.  The hole at least doubles at
every turn, so that `k` turns always suffice. -/
def siftDown (k : ℕ) (x : α) : ℕ → ℕ → (ℕ → α) → ℕ → α
  | 0, i, a => update a i x
  | fuel + 1, i, a =>
    if k < 2 * i then update a i x
    else if gt x (a (largerChild gt k a i)) then update a i x
    else siftDown k x fuel (largerChild gt k a i) (update a i (a (largerChild gt k a i)))

/-- Place `x` at or above the hole `i`.  The hole at least halves at every turn. -/
def siftUp (x : α) : ℕ → ℕ → (ℕ → α) → ℕ → α
  | 0, i, a => update a i x
  | fuel + 1, i, a =>
    if i ≤ 1 then update a i x
    else if !gt x (a (i / 2)) then update a i x
    else siftUp x fuel (i / 2) (update a i (a (i / 2)))

variable {gt}

variable (gt) in
theorem largerChild_bounds {k i : ℕ} (a : ℕ → α) (h : ¬ k < 2 * i) :
    2 * i ≤ largerChild gt k a i ∧ largerChild gt k a i ≤ 2 * i + 1 ∧
      largerChild gt k a i ≤ k := by
  unfold largerChild
  split <;> omega

/-- Sifting down keeps the elements, `x` standing for the one that was in the hole. -/
theorem contents_siftDown {k : ℕ} (x : α) :
    ∀ (fuel i : ℕ) (a : ℕ → α), 1 ≤ i → i ≤ k →
      contents k (siftDown gt k x fuel i a) = contents k (update a i x) := by
  intro fuel
  induction fuel with
  | zero => intro i a _ _; rfl
  | succ fuel ih =>
      intro i a h1 h2
      rw [siftDown]
      split
      · rfl
      · rename_i hlt
        obtain ⟨hc1, hc2, hc3⟩ := largerChild_bounds gt a hlt
        split
        · rfl
        · rw [ih _ _ (by omega) hc3, contents_move h1 h2 (by omega) hc3 (by omega)]

/-- Sifting up keeps the elements, `x` standing for the one that was in the hole. -/
theorem contents_siftUp {k : ℕ} (x : α) :
    ∀ (fuel i : ℕ) (a : ℕ → α), 1 ≤ i → i ≤ k →
      contents k (siftUp gt x fuel i a) = contents k (update a i x) := by
  intro fuel
  induction fuel with
  | zero => intro i a _ _; rfl
  | succ fuel ih =>
      intro i a h1 h2
      rw [siftUp]
      split
      · rfl
      · split
        · rfl
        · rw [ih _ _ (by omega) (by omega),
            contents_move h1 h2 (by omega) (by omega) (by omega)]

theorem siftDown_of_lt {k j : ℕ} (x : α) (hj : k < j) :
    ∀ (fuel i : ℕ) (a : ℕ → α), i ≤ k → siftDown gt k x fuel i a j = a j := by
  intro fuel
  induction fuel with
  | zero => intro i a hi; exact update_of_ne (by omega) _ _
  | succ fuel ih =>
      intro i a hi
      rw [siftDown]
      split
      · exact update_of_ne (by omega) _ _
      · rename_i hlt
        split
        · exact update_of_ne (by omega) _ _
        · rw [ih _ _ (largerChild_bounds gt a hlt).2.2, update_of_ne (by omega)]

/-- When the last element is the one sifted down, the last position still holds it at the end:
that position is a leaf, which is written only if the hole gets there. -/
theorem siftDown_last {k : ℕ} {x : α} :
    ∀ (fuel i : ℕ) (a : ℕ → α), 1 ≤ i → i ≤ k → (a k = x ∨ i = k) →
      siftDown gt k x fuel i a k = x := by
  have place : ∀ (i : ℕ) (a : ℕ → α), (a k = x ∨ i = k) → update a i x k = x := by
    intro i a h
    by_cases hik : k = i
    · rw [hik, update_self]
    · rw [update_of_ne hik]
      exact h.resolve_right fun h ↦ hik h.symm
  intro fuel
  induction fuel with
  | zero => intro i a _ _ h; exact place i a h
  | succ fuel ih =>
      intro i a h1 h2 h
      rw [siftDown]
      split
      · exact place i a h
      · rename_i hlt
        obtain ⟨hc1, hc2, hc3⟩ := largerChild_bounds gt a hlt
        split
        · exact place i a h
        · refine ih _ _ (by omega) hc3 (Or.inl ?_)
          rw [update_of_ne (by omega)]
          exact h.resolve_right (by omega)

end Sift

/-! ## Heap order -/

section Order

variable [LinearOrder β] {gt : α → α → Bool} {w : α → β} {P : α → Prop}

/-- On the elements in `P`, the comparison never contradicts the weight. -/
structure Refines (gt : α → α → Bool) (w : α → β) (P : α → Prop) : Prop where
  le_of_gt : ∀ {x y : α}, P x → P y → gt x y = true → w y ≤ w x
  le_of_not_gt : ∀ {x y : α}, P x → P y → gt x y = false → w x ≤ w y

def IsHeap (w : α → β) (k : ℕ) (a : ℕ → α) : Prop :=
  ∀ i, 2 ≤ i → i ≤ k → w (a i) ≤ w (a (i / 2))

theorem IsHeap.mono {k l : ℕ} {a : ℕ → α} (h : IsHeap w k a) (hl : l ≤ k) : IsHeap w l a :=
  fun i h1 h2 ↦ h i h1 (h2.trans hl)

theorem IsHeap.congr {k : ℕ} {a b : ℕ → α} (h : IsHeap w k a)
    (hab : ∀ i, 1 ≤ i → i ≤ k → w (a i) = w (b i)) : IsHeap w k b := fun i h1 h2 ↦ by
  rw [← hab i (by omega) h2, ← hab (i / 2) (by omega) (by omega)]
  exact h i h1 h2

theorem IsHeap.le_root {k : ℕ} {a : ℕ → α} (h : IsHeap w k a) :
    ∀ i, 1 ≤ i → i ≤ k → w (a i) ≤ w (a 1) := by
  intro i
  induction i using Nat.strongRecOn with
  | ind i ih =>
      intro h1 h2
      by_cases hi : i = 1
      · rw [hi]
      · exact (h i (by omega) h2).trans (ih (i / 2) (by omega) (by omega) (by omega))

theorem IsHeap.le_root_of_mem {k : ℕ} {a : ℕ → α} (h : IsHeap w k a) {x : α}
    (hx : x ∈ contents k a) : w x ≤ w (a 1) := by
  obtain ⟨i, h1, h2, rfl⟩ := mem_contents.mp hx
  exact h.le_root i h1 h2

/-- Every parent and child that the hole `i` does not touch are in order. -/
def OrderedExcept (w : α → β) (k i : ℕ) (a : ℕ → α) : Prop :=
  ∀ j, 2 ≤ j → j ≤ k → j ≠ i → j / 2 ≠ i → w (a j) ≤ w (a (j / 2))

/-- What sifting `x` down from the hole `i` needs of the order. -/
structure DownOrder (w : α → β) (k i : ℕ) (x : α) (a : ℕ → α) : Prop where
  except : OrderedExcept w k i a
  grand : 2 ≤ i → ∀ c, c ≤ k → c / 2 = i → w (a c) ≤ w (a (i / 2))
  above : 2 ≤ i → w x ≤ w (a (i / 2))

/-- What sifting `x` up from the hole `i` needs of the order. -/
structure UpOrder (w : α → β) (k i : ℕ) (x : α) (a : ℕ → α) : Prop where
  except : OrderedExcept w k i a
  grand : 2 ≤ i → ∀ c, c ≤ k → c / 2 = i → w (a c) ≤ w (a (i / 2))
  below : ∀ c, c ≤ k → c / 2 = i → w (a c) ≤ w x

/-- Filling the hole with an element that fits between its parent and its children. -/
theorem OrderedExcept.place {k i : ℕ} {x : α} {a : ℕ → α} (h : OrderedExcept w k i a)
    (hi : 1 ≤ i) (above : 2 ≤ i → w x ≤ w (a (i / 2)))
    (below : ∀ c, c ≤ k → c / 2 = i → w (a c) ≤ w x) : IsHeap w k (update a i x) := by
  intro j h1 h2
  by_cases hj : j = i
  · subst hj
    rw [update_self, update_of_ne (by omega)]
    exact above h1
  · rw [update_of_ne hj]
    by_cases hp : j / 2 = i
    · rw [hp, update_self]; exact below j h2 hp
    · rw [update_of_ne hp]; exact h j h1 h2 hj hp

/-- The child that fills the hole is a heaviest child. -/
theorem le_largerChild (hR : Refines gt w P) {k i : ℕ} {a : ℕ → α} (hi : 1 ≤ i)
    (hP : ∀ j, 1 ≤ j → j ≤ k → P (a j)) (c : ℕ) (hck : c ≤ k) (hc : c / 2 = i) :
    w (a c) ≤ w (a (largerChild gt k a i)) := by
  have hcases : c = 2 * i ∨ c = 2 * i + 1 := by omega
  unfold largerChild
  split
  · rename_i hgt
    rcases hcases with rfl | rfl
    · exact le_rfl
    · exact hR.le_of_gt (hP _ (by omega) (by omega)) (hP _ (by omega) hck)
        (hgt.resolve_left (by omega))
  · rename_i hgt
    rw [not_or] at hgt
    rcases hcases with rfl | rfl
    · exact hR.le_of_not_gt (hP _ (by omega) hck) (hP _ (by omega) (by omega))
        (by simpa using hgt.2)
    · exact le_rfl

/-- One turn of sifting down keeps `DownOrder`. -/
theorem DownOrder.move (hR : Refines gt w P) {k i : ℕ} {x : α} {a : ℕ → α}
    (h : DownOrder w k i x a) (hi : 1 ≤ i) (hlt : ¬ k < 2 * i) (hPx : P x)
    (hP : ∀ j, 1 ≤ j → j ≤ k → P (a j))
    (hgt : gt x (a (largerChild gt k a i)) = false) :
    DownOrder w k (largerChild gt k a i) x (update a i (a (largerChild gt k a i))) := by
  obtain ⟨hc1, hc2, hc3⟩ := largerChild_bounds gt a hlt
  have hmin := le_largerChild hR hi hP
  generalize largerChild gt k a i = c at *
  have hci : c / 2 = i := by omega
  constructor
  · intro j h1 h2 hjc hjp
    by_cases hji : j = i
    · subst hji
      rw [update_self, update_of_ne (by omega)]
      exact h.grand h1 c hc3 hci
    · rw [update_of_ne hji]
      by_cases hp : j / 2 = i
      · rw [hp, update_self]; exact hmin j h2 hp
      · rw [update_of_ne hp]; exact h.except j h1 h2 hji hp
  · intro _ d hd1 hd2
    rw [hci, update_self, update_of_ne (by omega)]
    have := h.except d (by omega) hd1 (by omega) (by omega)
    rwa [hd2] at this
  · intro _
    rw [hci, update_self]
    exact hR.le_of_not_gt hPx (hP c (by omega) hc3) hgt

theorem forall_update {k i j : ℕ} {a : ℕ → α} (hP : ∀ j, 1 ≤ j → j ≤ k → P (a j))
    (hj1 : 1 ≤ j) (hj2 : j ≤ k) : ∀ l, 1 ≤ l → l ≤ k → P (update a i (a j) l) := by
  intro l h1 h2
  by_cases hl : l = i
  · rw [hl, update_self]; exact hP j hj1 hj2
  · rw [update_of_ne hl]; exact hP l h1 h2

/-- Sifting down ends in a heap. -/
theorem isHeap_siftDown (hR : Refines gt w P) {k : ℕ} {x : α} (hPx : P x) :
    ∀ (fuel i : ℕ) (a : ℕ → α), 1 ≤ i → i ≤ k → k + 1 ≤ i + fuel → DownOrder w k i x a →
      (∀ j, 1 ≤ j → j ≤ k → P (a j)) → IsHeap w k (siftDown gt k x fuel i a) := by
  intro fuel
  induction fuel with
  | zero => intro i a _ h2 hf; omega
  | succ fuel ih =>
      intro i a h1 h2 hf h hP
      rw [siftDown]
      split
      · rename_i hlt
        exact h.except.place h1 h.above fun c hc1 hc2 ↦ by omega
      · rename_i hlt
        obtain ⟨hc1, hc2, hc3⟩ := largerChild_bounds gt a hlt
        split
        · rename_i hgt
          refine h.except.place h1 h.above fun c hck hc ↦ ?_
          exact (le_largerChild hR h1 hP c hck hc).trans
            (hR.le_of_gt hPx (hP _ (by omega) hc3) hgt)
        · rename_i hgt
          exact ih _ _ (by omega) hc3 (by omega)
            (h.move hR h1 hlt hPx hP (by simpa using hgt))
            (forall_update hP (by omega) hc3)

/-- One turn of sifting up keeps `UpOrder`. -/
theorem UpOrder.move {k i : ℕ} {x : α} {a : ℕ → α} (h : UpOrder w k i x a) (hi : 2 ≤ i)
    (hik : i ≤ k) (hx : w (a (i / 2)) ≤ w x) :
    UpOrder w k (i / 2) x (update a i (a (i / 2))) := by
  have up : 2 ≤ i / 2 → w (a (i / 2)) ≤ w (a (i / 2 / 2)) := fun h2 ↦
    h.except (i / 2) h2 (by omega) (by omega) (by omega)
  -- the hole's new children: the parent that moved down, and the hole's old sibling
  have sibling : ∀ c, c ≤ k → c / 2 = i / 2 → c ≠ i → w (a c) ≤ w (a (i / 2)) := by
    intro c hc1 hc2 hci
    have := h.except c (by omega) hc1 hci (by omega)
    rwa [hc2] at this
  constructor
  · intro j h1 h2 hjq hjp
    by_cases hji : j = i
    · exact absurd (by rw [hji]) hjp
    · rw [update_of_ne hji]
      by_cases hp : j / 2 = i
      · rw [hp, update_self]; exact h.grand hi j h2 hp
      · rw [update_of_ne hp]; exact h.except j h1 h2 hji hp
  · intro h2 c hc1 hc2
    rw [update_of_ne (show i / 2 / 2 ≠ i by omega)]
    by_cases hci : c = i
    · rw [hci, update_self]; exact up h2
    · rw [update_of_ne hci]; exact (sibling c hc1 hc2 hci).trans (up h2)
  · intro c hc1 hc2
    by_cases hci : c = i
    · rw [hci, update_self]; exact hx
    · rw [update_of_ne hci]; exact (sibling c hc1 hc2 hci).trans hx

/-- Sifting up ends in a heap. -/
theorem isHeap_siftUp (hR : Refines gt w P) {k : ℕ} {x : α} (hPx : P x) :
    ∀ (fuel i : ℕ) (a : ℕ → α), 1 ≤ i → i ≤ k → i ≤ fuel → UpOrder w k i x a →
      (∀ j, 1 ≤ j → j ≤ k → j ≠ i → P (a j)) → IsHeap w k (siftUp gt x fuel i a) := by
  intro fuel
  induction fuel with
  | zero => intro i a h1 _ hf; omega
  | succ fuel ih =>
      intro i a h1 h2 hf h hP
      rw [siftUp]
      split
      · rename_i hle
        exact h.except.place h1 (fun h2 ↦ by omega) h.below
      · rename_i hle
        split
        · rename_i hgt
          refine h.except.place h1 (fun _ ↦ ?_) h.below
          exact hR.le_of_not_gt hPx (hP _ (by omega) (by omega) (by omega)) (by simpa using hgt)
        · rename_i hgt
          have hx : w (a (i / 2)) ≤ w x :=
            hR.le_of_gt hPx (hP _ (by omega) (by omega) (by omega)) (by simpa using hgt)
          refine ih _ _ (by omega) (by omega) (by omega) (h.move (by omega) h2 hx) ?_
          intro j hj1 hj2 hji
          by_cases hj : j = i
          · rw [hj, update_self]; exact hP _ (by omega) (by omega) (by omega)
          · rw [update_of_ne hj]; exact hP j hj1 hj2 hj

end Order

/-! ## The operations of a heap -/

section Ops

variable (gt : α → α → Bool)

/-- Replace the root of a heap of `k` elements by `x`. -/
def replaceTop (k : ℕ) (x : α) (a : ℕ → α) : ℕ → α := siftDown gt k x k 1 a

/-- Take the root off a heap of `k` elements: the last element is sifted down from the root. -/
def pop (k : ℕ) (a : ℕ → α) : ℕ → α := siftDown gt k (a k) k 1 a

/-- Add `x` to a heap of `k - 1` elements. -/
def push (k : ℕ) (x : α) (a : ℕ → α) : ℕ → α := siftUp gt x k k a

variable {gt}

variable (gt) in
theorem cons_contents_replaceTop {k : ℕ} (hk : 1 ≤ k) (x : α) (a : ℕ → α) :
    a 1 ::ₘ contents k (replaceTop gt k x a) = x ::ₘ contents k a := by
  rw [replaceTop, contents_siftDown x k 1 a le_rfl hk]
  exact cons_contents_update le_rfl hk a x

theorem cons_contents_pop {k : ℕ} (a : ℕ → α) :
    a 1 ::ₘ contents k (pop gt (k + 1) a) = contents (k + 1) a := by
  have h := cons_contents_replaceTop gt (show 1 ≤ k + 1 by omega) (a (k + 1)) a
  have hlast : replaceTop gt (k + 1) (a (k + 1)) a (k + 1) = a (k + 1) :=
    siftDown_last (k + 1) 1 a le_rfl (by omega) (Or.inl rfl)
  rw [contents_succ, hlast, Multiset.cons_swap] at h
  exact (Multiset.cons_inj_right _).mp h

theorem contents_push {k : ℕ} (x : α) (a : ℕ → α) :
    contents (k + 1) (push gt (k + 1) x a) = x ::ₘ contents k a := by
  rw [push, contents_siftUp x (k + 1) (k + 1) a (by omega) le_rfl, contents_succ, update_self,
    contents_update_of_lt (by omega)]

variable [LinearOrder β] {w : α → β} {P : α → Prop}

variable (hR : Refines gt w P) {k : ℕ} {x : α} {a : ℕ → α}
include hR

theorem IsHeap.replaceTop
    (h : IsHeap w k a) (hk : 1 ≤ k) (hx : P x) (hP : ∀ y ∈ contents k a, P y) :
    IsHeap w k (replaceTop gt k x a) :=
  isHeap_siftDown hR hx k 1 a le_rfl hk (by omega)
    ⟨fun j h1 h2 _ _ ↦ h j h1 h2, fun h2 ↦ by omega, fun h2 ↦ by omega⟩
    fun j h1 h2 ↦ hP _ (mem_contents.mpr ⟨j, h1, h2, rfl⟩)

theorem IsHeap.pop (h : IsHeap w (k + 1) a) (hP : ∀ y ∈ contents (k + 1) a, P y) :
    IsHeap w k (pop gt (k + 1) a) :=
  (h.replaceTop hR (by omega) (hP _ (mem_contents.mpr ⟨k + 1, by omega, le_rfl, rfl⟩)) hP).mono
    (Nat.le_succ k)

theorem IsHeap.push (h : IsHeap w k a) (hx : P x) (hP : ∀ y ∈ contents k a, P y) :
    IsHeap w (k + 1) (push gt (k + 1) x a) :=
  isHeap_siftUp hR hx (k + 1) (k + 1) a (by omega) le_rfl le_rfl
    ⟨fun j h1 h2 h3 _ ↦ h j h1 (by omega), fun _ c h1 h2 ↦ by omega, fun c h1 h2 ↦ by omega⟩
    fun j h1 h2 h3 ↦ hP _ (mem_contents.mpr ⟨j, h1, by omega, rfl⟩)

end Ops

end Lib.BinaryHeap

/-!
# Priority queues

A priority queue is a bag of elements with a comparison `lt`, from which an element is taken that
no other one is greater than.  The bag is a list; among elements that `lt` does not tell apart the
one added last is taken first, which no result depends on.
-/

namespace Lib.PriorityQueue

open Lib.BinaryHeap (Refines)

variable {α β : Type*}

/-- Take a greatest element out of the queue. -/
def pop (lt : α → α → Bool) : List α → Option (α × List α)
  | [] => none
  | x :: xs =>
    match pop lt xs with
    | none => some (x, [])
    | some (y, ys) => if lt x y then some (y, x :: ys) else some (x, xs)

def top (lt : α → α → Bool) (q : List α) : Option α := (pop lt q).map Prod.fst

/-- Pop until at most `k` elements are left; the first argument bounds the number of pops. -/
def shrink (lt : α → α → Bool) (k : ℕ) : ℕ → List α → List α
  | 0, q => q
  | n + 1, q =>
    if k < q.length then
      match pop lt q with
      | none => q
      | some (_, q') => shrink lt k n q'
    else q

/-- The elements in the order they are popped in; the first argument bounds their number. -/
def drain (lt : α → α → Bool) : ℕ → List α → List α
  | 0, _ => []
  | n + 1, q =>
    match pop lt q with
    | none => []
    | some (y, q') => y :: drain lt n q'

def pushEach (q : List α) (xs : List α) : List α := xs.foldl (fun q x ↦ x :: q) q

variable {lt : α → α → Bool}

theorem pushEach_perm (q xs : List α) : (pushEach q xs).Perm (xs ++ q) := by
  induction xs generalizing q with
  | nil => rfl
  | cons x xs ih => exact (ih (x :: q)).trans List.perm_middle

theorem pushEach_nil_perm (xs : List α) : (pushEach [] xs).Perm xs := by
  have h := pushEach_perm [] xs
  rwa [List.append_nil] at h

theorem pop_eq_none {q : List α} : pop lt q = none ↔ q = [] := by
  cases q with
  | nil => simp [pop]
  | cons x xs =>
      rw [pop]
      split
      · simp
      · split <;> simp

/-- Popping takes one element out and keeps the others. -/
theorem pop_perm {q : List α} : ∀ {y : α} {ys : List α}, pop lt q = some (y, ys) →
    q.Perm (y :: ys) := by
  induction q with
  | nil => intro y ys h; simp [pop] at h
  | cons x xs ih =>
      intro y ys h
      rw [pop] at h
      split at h
      · rename_i hn
        rw [pop_eq_none] at hn
        cases h
        rw [hn]
      · rename_i z zs hz
        split at h
        · cases h
          exact ((ih hz).cons x).trans (List.Perm.swap _ _ _)
        · cases h
          exact List.Perm.refl _

section
variable [LinearOrder β] {w : α → β} {P : α → Prop} (hR : Refines (fun x y ↦ lt y x) w P)
include hR

/-- The element taken out is a greatest one. -/
theorem le_pop {q : List α} :
    ∀ {y : α} {ys : List α}, (∀ x ∈ q, P x) → pop lt q = some (y, ys) →
      ∀ x ∈ q, w x ≤ w y := by
  induction q with
  | nil => intro y ys _ h; simp [pop] at h
  | cons x xs ih =>
      intro y ys hP h z hz
      rw [pop] at h
      split at h
      · rename_i hn
        rw [pop_eq_none] at hn
        subst hn
        cases h
        rw [List.mem_singleton.mp hz]
      · rename_i u us hu
        have hxs : ∀ x ∈ xs, P x := fun x hx ↦ hP x (List.mem_cons_of_mem _ hx)
        have hmem : u ∈ xs := (pop_perm hu).mem_iff.mpr List.mem_cons_self
        have hmax := ih hxs hu
        split at h
        · rename_i hlt
          cases h
          rcases List.mem_cons.mp hz with rfl | hz
          · exact hR.le_of_gt (hxs _ hmem) (hP _ List.mem_cons_self) hlt
          · exact hmax z hz
        · rename_i hlt
          cases h
          rcases List.mem_cons.mp hz with rfl | hz
          · exact le_rfl
          · exact (hmax z hz).trans
              (hR.le_of_not_gt (hxs _ hmem) (hP _ List.mem_cons_self) (by simpa using hlt))

/-- Popping until `k` elements are left leaves `k` smallest ones. -/
theorem kSmallest_shrink {k : ℕ} :
    ∀ (n : ℕ) (q : List α), q.length ≤ n + k → (∀ x ∈ q, P x) →
      KSmallest w k ↑q ↑(shrink lt k n q) := by
  intro n
  induction n with
  | zero =>
      intro q hq _
      exact KSmallest.self (by simpa using hq)
  | succ n ih =>
      intro q hq hP
      rw [shrink]
      split
      · rename_i hk
        cases hpop : pop lt q with
        | none => rw [pop_eq_none] at hpop; subst hpop; simp at hk
        | some r =>
            obtain ⟨y, q'⟩ := r
            have hperm := pop_perm hpop
            have hlen := hperm.length_eq
            rw [List.length_cons] at hlen
            have hsub : ∀ x ∈ q', x ∈ q := fun x hx ↦
              hperm.mem_iff.mpr (List.mem_cons_of_mem _ hx)
            have hih := ih q' (by omega) fun x hx ↦ hP x (hsub x hx)
            have hcard : (↑(shrink lt k n q') : Multiset α).card = k := by
              rw [hih.card_eq, Multiset.coe_card, min_eq_left (by omega)]
            rw [Multiset.coe_eq_coe.mpr hperm, ← Multiset.cons_coe]
            exact hih.cons_of_le hcard fun z hz ↦
              le_pop hR hP hpop z (hsub z (Multiset.mem_coe.mp (Multiset.mem_of_le hih.sub hz)))
      · rename_i hk
        exact KSmallest.self (by simpa using hk)

end

/-- Draining a queue gives all its elements. -/
theorem drain_perm : ∀ (n : ℕ) (q : List α), q.length ≤ n → (drain lt n q).Perm q := by
  intro n
  induction n with
  | zero => intro q hq; rw [List.eq_nil_of_length_eq_zero (Nat.le_zero.mp hq)]; rfl
  | succ n ih =>
      intro q hq
      rw [drain]
      cases hpop : pop lt q with
      | none => rw [pop_eq_none] at hpop; rw [hpop]
      | some r =>
          obtain ⟨y, q'⟩ := r
          have hperm := pop_perm hpop
          have hlen := hperm.length_eq
          rw [List.length_cons] at hlen
          exact ((ih q' (by omega)).cons y).trans hperm.symm

/-- Draining takes the greatest elements first. -/
theorem pairwise_drain [LinearOrder β] {w : α → β} {P : α → Prop}
    (hR : Refines (fun x y ↦ lt y x) w P) (n : ℕ) {q : List α} (hq : q.length ≤ n)
    (hP : ∀ x ∈ q, P x) : (drain lt n q).Pairwise fun x y ↦ w y ≤ w x := by
  induction n generalizing q with
  | zero => exact List.Pairwise.nil
  | succ n ih =>
      rw [drain]
      cases hpop : pop lt q with
      | none => exact List.Pairwise.nil
      | some r =>
          obtain ⟨y, q'⟩ := r
          have hperm := pop_perm hpop
          have hlen := hperm.length_eq
          rw [List.length_cons] at hlen
          have hsub : ∀ x ∈ q', x ∈ q := fun x hx ↦ hperm.mem_iff.mpr (List.mem_cons_of_mem _ hx)
          refine List.pairwise_cons.mpr ⟨fun x hx ↦ ?_, ih (by omega) fun x hx ↦ hP x (hsub x hx)⟩
          exact le_pop hR hP hpop x (hsub x ((drain_perm n q' (by omega)).mem_iff.mp hx))

theorem top_eq_some {q : List α} {y : α} : top lt q = some y ↔ ∃ ys, pop lt q = some (y, ys) := by
  simp [top]

end Lib.PriorityQueue
