import FaissNavix.Lib.Partition

/-!
# Merging in parts

Two runs are cut at as many positions each, and the parts between the cuts are merged one by one.
The result has the elements of both runs, each run in its order.  It is sorted if the cuts separate
both runs at the same value.
-/

namespace Lib

universe u v

variable {α : Type u} {β : Type v}

section

variable (lt : α → α → Bool)

theorem sublist_merge_left (xs ys : List α) : xs.Sublist (xs.merge ys lt) := by
  induction xs generalizing ys with
  | nil => exact List.nil_sublist _
  | cons x xs ihx =>
      induction ys with
      | nil => rw [List.merge_right]
      | cons y ys ihy =>
          rw [List.cons_merge_cons]
          split
          · exact (ihx (y :: ys)).cons_cons x
          · exact ihy.cons y

theorem sublist_merge_right (xs ys : List α) : ys.Sublist (xs.merge ys lt) := by
  induction xs generalizing ys with
  | nil => rw [List.nil_merge]
  | cons x xs ihx =>
      induction ys with
      | nil => exact List.nil_sublist _
      | cons y ys ihy =>
          rw [List.cons_merge_cons]
          split
          · exact (ihx (y :: ys)).cons x
          · exact ihy.cons_cons y

/-- Sorted runs are merged to a sorted one, if an element of the first run is put first where it is
smaller. -/
theorem pairwise_merge [LinearOrder β] {lt : α → α → Bool} {w : α → β}
    (hlt : ∀ a b, lt a b = true ↔ w a < w b) {xs ys : List α}
    (hxs : xs.Pairwise fun a b ↦ w a ≤ w b) (hys : ys.Pairwise fun a b ↦ w a ≤ w b) :
    (xs.merge ys lt).Pairwise fun a b ↦ w a ≤ w b := by
  induction xs generalizing ys with
  | nil => rwa [List.nil_merge]
  | cons x xs ihx =>
      induction ys with
      | nil => rwa [List.merge_right]
      | cons y ys ihy =>
          obtain ⟨hx, hxs'⟩ := List.pairwise_cons.1 hxs
          obtain ⟨hy, hys'⟩ := List.pairwise_cons.1 hys
          rw [List.cons_merge_cons]
          split
          · next h =>
              have hxy : w x ≤ w y := ((hlt x y).1 h).le
              refine List.pairwise_cons.2 ⟨fun z hz ↦ ?_, ihx hxs' hys⟩
              obtain hz | hz := List.mem_merge.1 hz
              · exact hx z hz
              · obtain rfl | hz := List.mem_cons.1 hz
                · exact hxy
                · exact hxy.trans (hy z hz)
          · next h =>
              have hyx : w y ≤ w x := not_lt.1 fun hlt' ↦ h ((hlt x y).2 hlt')
              refine List.pairwise_cons.2 ⟨fun z hz ↦ ?_, ihy hys'⟩
              obtain hz | hz := List.mem_merge.1 hz
              · obtain rfl | hz := List.mem_cons.1 hz
                · exact hyx
                · exact hyx.trans (hx z hz)
              · exact hy z hz

/-- The parts of `xs` between the positions `p` and those of `ys` between the positions `q` are
merged. -/
def splitMerge (m : ℕ) (p q : ℕ → ℕ) (xs ys : List α) : List α :=
  (List.range m).flatMap fun t ↦
    (slice xs (p t) (p (t + 1))).merge (slice ys (q t) (q (t + 1))) lt

end

/-- Positions that cut a list of `n` elements into `m` parts. -/
structure Cuts (m : ℕ) (p : ℕ → ℕ) (n : ℕ) : Prop where
  zero : p 0 = 0
  last : p m = n
  rises : ∀ t < m, p t ≤ p (t + 1)

variable {lt : α → α → Bool} {m : ℕ} {p q : ℕ → ℕ} {xs ys : List α}

theorem Cuts.flatMap_slice (h : Cuts m p xs.length) :
    ((List.range m).flatMap fun t ↦ slice xs (p t) (p (t + 1))) = xs := by
  rw [Lib.flatMap_slice xs h.zero h.rises, h.last, List.take_length]

theorem sublist_flatMap {f g : ℕ → List α} (h : ∀ t, (f t).Sublist (g t)) (ts : List ℕ) :
    (ts.flatMap f).Sublist (ts.flatMap g) := by
  induction ts with
  | nil => exact List.Sublist.refl []
  | cons t ts ih =>
      rw [List.flatMap_cons, List.flatMap_cons]
      exact (h t).append ih

theorem perm_flatMap_append (f g : ℕ → List α) (ts : List ℕ) :
    (ts.flatMap fun t ↦ f t ++ g t).Perm (ts.flatMap f ++ ts.flatMap g) := by
  induction ts with
  | nil => exact List.Perm.refl []
  | cons t ts ih =>
      rw [List.flatMap_cons, List.flatMap_cons, List.flatMap_cons, List.append_assoc,
        List.append_assoc]
      refine List.Perm.append_left (f t) ((ih.append_left (g t)).trans ?_)
      rw [← List.append_assoc, ← List.append_assoc]
      exact List.perm_append_comm.append_right _

theorem Cuts.sublist_left (hp : Cuts m p xs.length) (q : ℕ → ℕ) (ys : List α) :
    xs.Sublist (splitMerge lt m p q xs ys) := by
  have h := sublist_flatMap (fun t ↦ sublist_merge_left lt (slice xs (p t) (p (t + 1)))
    (slice ys (q t) (q (t + 1)))) (List.range m)
  rwa [hp.flatMap_slice] at h

theorem Cuts.sublist_right (hq : Cuts m q ys.length) (p : ℕ → ℕ) (xs : List α) :
    ys.Sublist (splitMerge lt m p q xs ys) := by
  have h := sublist_flatMap (fun t ↦ sublist_merge_right lt (slice xs (p t) (p (t + 1)))
    (slice ys (q t) (q (t + 1)))) (List.range m)
  rwa [hq.flatMap_slice] at h

theorem Cuts.perm (lt : α → α → Bool) (hp : Cuts m p xs.length) (hq : Cuts m q ys.length) :
    (splitMerge lt m p q xs ys).Perm (xs ++ ys) := by
  have h : (splitMerge lt m p q xs ys).Perm
      ((List.range m).flatMap fun t ↦ slice xs (p t) (p (t + 1)) ++ slice ys (q t) (q (t + 1))) :=
    List.Perm.flatMap_left _ fun t _ ↦ List.merge_perm_append lt
  refine h.trans ((perm_flatMap_append _ _ _).trans ?_)
  rw [hp.flatMap_slice, hq.flatMap_slice]

section Sorted

variable [LinearOrder β] {w : α → β}

/-- The value `b` separates the list at position `k`. -/
def SeparatedAt (w : α → β) (b : β) (xs : List α) (k : ℕ) : Prop :=
  (∀ x ∈ xs.take k, w x ≤ b) ∧ ∀ x ∈ xs.drop k, b ≤ w x

theorem mem_take_of_mem_slice {x : α} {i j k : ℕ} (h : x ∈ slice xs i j) (hjk : j ≤ k) :
    x ∈ xs.take k := by
  rw [slice] at h
  by_cases hij : i ≤ j
  · have hmem : x ∈ xs.take j := by
      have hsplit := List.take_add (l := xs) (i := i) (j := j - i)
      rw [Nat.add_sub_cancel' hij] at hsplit
      rw [hsplit]
      exact List.mem_append_right _ h
    exact (List.take_sublist_take_left hjk).subset hmem
  · rw [Nat.sub_eq_zero_of_le (Nat.le_of_not_le hij), List.take_zero] at h
    exact absurd h List.not_mem_nil

theorem mem_drop_of_mem_slice {x : α} {i j k : ℕ} (h : x ∈ slice xs i j) (hki : k ≤ i) :
    x ∈ xs.drop k :=
  (List.drop_sublist_drop_left xs hki).subset ((List.take_sublist _ _).subset h)

/-- The result is sorted if the runs are and each pair of cuts separates both at one value. -/
theorem Cuts.pairwise (hlt : ∀ a b, lt a b = true ↔ w a < w b) (hp : Cuts m p xs.length)
    (hq : Cuts m q ys.length) (hxs : xs.Pairwise fun a b ↦ w a ≤ w b)
    (hys : ys.Pairwise fun a b ↦ w a ≤ w b)
    (hsep : ∀ t, t + 1 < m → ∃ b, SeparatedAt w b xs (p (t + 1)) ∧ SeparatedAt w b ys (q (t + 1))) :
    (splitMerge lt m p q xs ys).Pairwise fun a b ↦ w a ≤ w b := by
  rw [splitMerge, List.pairwise_flatMap]
  refine ⟨fun t _ ↦ pairwise_merge hlt
    ((hxs.sublist (List.drop_sublist _ _)).sublist (List.take_sublist _ _))
    ((hys.sublist (List.drop_sublist _ _)).sublist (List.take_sublist _ _)), ?_⟩
  refine List.pairwise_lt_range.imp_of_mem fun {t u} _ hu htu x hx y hy ↦ ?_
  have hum : u < m := List.mem_range.1 hu
  obtain ⟨b, hbx, hby⟩ := hsep t (by omega)
  have hpu : p (t + 1) ≤ p u := le_of_rises hp.rises htu hum.le
  have hqu : q (t + 1) ≤ q u := le_of_rises hq.rises htu hum.le
  have hxb : w x ≤ b := by
    obtain hx | hx := List.mem_merge.1 hx
    · exact hbx.1 x (mem_take_of_mem_slice hx le_rfl)
    · exact hby.1 x (mem_take_of_mem_slice hx le_rfl)
  have hyb : b ≤ w y := by
    obtain hy | hy := List.mem_merge.1 hy
    · exact hbx.2 y (mem_drop_of_mem_slice hy hpu)
    · exact hby.2 y (mem_drop_of_mem_slice hy hqu)
  exact hxb.trans hyb

/-- A sorted list is separated at a value that is between its neighbours. -/
theorem separatedAt_of_pairwise {b : β} {k : ℕ} (hk : k ≤ xs.length)
    (hxs : xs.Pairwise fun a b ↦ w a ≤ w b)
    (hbefore : ∀ i (hi : i < xs.length), i + 1 = k → w (xs.get ⟨i, hi⟩) ≤ b)
    (hafter : ∀ hk : k < xs.length, b ≤ w (xs.get ⟨k, hk⟩)) : SeparatedAt w b xs k := by
  have hle : ∀ (i j : ℕ) (hi : i < xs.length) (hj : j < xs.length), i ≤ j →
      w (xs.get ⟨i, hi⟩) ≤ w (xs.get ⟨j, hj⟩) := by
    intro i j hi hj hij
    obtain rfl | hlt := hij.eq_or_lt
    · exact le_rfl
    · exact List.pairwise_iff_get.1 hxs ⟨i, hi⟩ ⟨j, hj⟩ hlt
  constructor
  · intro x hx
    obtain ⟨i, hi, rfl⟩ := List.mem_take_iff_getElem.1 hx
    have hlast : k - 1 < xs.length := by omega
    exact (hle i (k - 1) (by omega) hlast (by omega)).trans (hbefore _ hlast (by omega))
  · intro x hx
    obtain ⟨i, hi, rfl⟩ := List.mem_drop_iff_getElem.1 hx
    exact (hafter (by omega)).trans (hle k (k + i) (by omega) (by omega) (by omega))

/-- In a sorted list at most `k` elements are below `b` if the element at position `k` is not. -/
theorem countP_lt_le_iff {b : β} {k : ℕ} (hk : k < xs.length)
    (hxs : xs.Pairwise fun a b ↦ w a ≤ w b) :
    xs.countP (fun x ↦ decide (w x < b)) ≤ k ↔ b ≤ w (xs.get ⟨k, hk⟩) := by
  have hsplit : xs = xs.take k ++ xs.get ⟨k, hk⟩ :: xs.drop (k + 1) := by
    rw [List.get_eq_getElem, ← List.drop_eq_getElem_cons hk, List.take_append_drop]
  have hlen : (xs.take k).length = k := by
    rw [List.length_take]
    omega
  rw [hsplit] at hxs
  obtain ⟨-, hcons, hcross⟩ := List.pairwise_append.1 hxs
  have hafter := (List.pairwise_cons.1 hcons).1
  have hcount : xs.countP (fun x ↦ decide (w x < b)) =
      (xs.take k).countP (fun x ↦ decide (w x < b)) +
        (xs.get ⟨k, hk⟩ :: xs.drop (k + 1)).countP (fun x ↦ decide (w x < b)) := by
    rw [← List.countP_append, ← hsplit]
  rw [hcount]
  constructor
  · intro hle
    by_contra hlt
    have hfirst : (xs.take k).countP (fun x ↦ decide (w x < b)) = (xs.take k).length :=
      List.countP_eq_length.2 fun x hx ↦
        decide_eq_true ((hcross x hx _ List.mem_cons_self).trans_lt (not_le.1 hlt))
    have hnext : (xs.get ⟨k, hk⟩ :: xs.drop (k + 1)).countP (fun x ↦ decide (w x < b)) =
        (xs.drop (k + 1)).countP (fun x ↦ decide (w x < b)) + 1 :=
      List.countP_cons_of_pos (decide_eq_true (not_le.1 hlt))
    omega
  · intro hb
    have hrest : (xs.get ⟨k, hk⟩ :: xs.drop (k + 1)).countP (fun x ↦ decide (w x < b)) = 0 := by
      refine List.countP_eq_zero.2 fun x hx ↦ ?_
      rw [decide_eq_true_iff, not_lt]
      obtain rfl | hx := List.mem_cons.1 hx
      · exact hb
      · exact hb.trans (hafter x hx)
    rw [hrest]
    exact List.countP_le_length.trans hlen.le

theorem Cuts.exists_mem_slice {k : ℕ} (hp : Cuts (k + 1) p xs.length) {x : α}
    (hx : x ∈ xs.drop (p 1)) : ∃ t < k, x ∈ slice xs (p (t + 1)) (p (t + 2)) := by
  have hall := hp.flatMap_slice
  have hfirst : slice xs (p 0) (p (0 + 1)) = xs.take (p 1) := by
    rw [slice, hp.zero, List.drop_zero, Nat.sub_zero]
  rw [List.range_succ_eq_map, List.flatMap_cons, hfirst, List.flatMap_map] at hall
  have hrest := List.append_cancel_left (hall.trans (List.take_append_drop (p 1) xs).symm)
  rw [← hrest] at hx
  obtain ⟨t, ht, hxt⟩ := List.mem_flatMap.1 hx
  exact ⟨t, List.mem_range.1 ht, hxt⟩

/-- In a sorted result, an element before the first cut of one run is not larger than those after
the first cut of the other. -/
theorem Cuts.le_of_pairwise (hm : 0 < m) (hp : Cuts m p xs.length)
    (h : (splitMerge lt m p q xs ys).Pairwise fun a b ↦ w a ≤ w b) {x y : α}
    (hx : x ∈ xs.drop (p 1)) (hy : y ∈ slice ys (q 0) (q 1)) : w y ≤ w x := by
  obtain ⟨k, rfl⟩ := Nat.exists_eq_succ_of_ne_zero hm.ne'
  obtain ⟨t, ht, hxt⟩ := hp.exists_mem_slice hx
  rw [splitMerge, List.range_succ_eq_map, List.flatMap_cons, List.flatMap_map] at h
  refine (List.pairwise_append.1 h).2.2 y (List.mem_merge_right lt hy) x ?_
  exact List.mem_flatMap.2 ⟨t, List.mem_range.2 ht, List.mem_merge_left lt hxt⟩

end Sorted

end Lib
