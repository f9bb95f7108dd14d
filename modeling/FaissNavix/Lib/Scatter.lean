import FaissNavix.Lib.Region
import Mathlib.Data.List.Induction
import Mathlib.Data.List.Perm.Basic
import Mathlib.Logic.Function.Basic
import Mathlib.Order.Basic

/-!
# Scattering pieces over rows

Pieces, each with the number of the row it belongs to, come in any order.  The rows lie one after
the other in memory, and for each row a cursor says where its next piece goes.  When the rows are
as long as their pieces together, each row ends up with its pieces in the order they came in.
-/

namespace Lib

open Function

universe u

variable {α : Type u}

section
variable (s : (ℕ → α) × (ℕ → ℕ)) (p : ℕ × List α) (pieces ps ps' : List (ℕ × List α))

/-- The pieces of row `q`, one after the other. -/
def row (q : ℕ) : List α :=
  pieces.flatMap fun p ↦ if p.1 = q then p.2 else []

def scatterPiece : (ℕ → α) × (ℕ → ℕ) :=
  (write s.1 (s.2 p.1) p.2, update s.2 p.1 (s.2 p.1 + p.2.length))

/-- All pieces, one at a time. -/
def scatter : (ℕ → α) × (ℕ → ℕ) :=
  pieces.foldl scatterPiece s

@[simp] theorem row_nil (q : ℕ) : row ([] : List (ℕ × List α)) q = [] := rfl

theorem row_cons (q : ℕ) :
    row (p :: pieces) q = (if p.1 = q then p.2 else []) ++ row pieces q := rfl

theorem row_append (q : ℕ) :
    row (ps ++ ps') q = row ps q ++ row ps' q :=
  List.flatMap_append

theorem row_singleton (q : ℕ) : row [p] q = if p.1 = q then p.2 else [] := by
  rw [row_cons, row_nil, List.append_nil]

theorem scatter_append :
    scatter s (ps ++ ps') = scatter (scatter s ps) ps' :=
  List.foldl_append

end

/-! ## The pieces of all rows -/

section Rows

variable {κ : Type*}

/-- Only one of the elements has a list that is not empty. -/
theorem flatMap_eq_of_unique {l : List κ} {f : κ → List α} {a : κ} (hl : l.Nodup) (ha : a ∈ l)
    (h : ∀ b ∈ l, b ≠ a → f b = []) : l.flatMap f = f a := by
  induction l with
  | nil => exact absurd ha List.not_mem_nil
  | cons b l ih =>
      obtain ⟨hb, hl⟩ := List.nodup_cons.mp hl
      rw [List.flatMap_cons]
      rcases List.mem_cons.mp ha with rfl | ha
      · have hrest : l.flatMap f = [] := List.flatMap_eq_nil_iff.mpr fun c hc ↦
          h c (List.mem_cons_of_mem _ hc) fun hca ↦ hb (hca ▸ hc)
        rw [hrest, List.append_nil]
      · have hba : b ≠ a := fun hba ↦ hb (hba ▸ ha)
        rw [h b List.mem_cons_self hba, List.nil_append]
        exact ih hl ha fun c hc ↦ h c (List.mem_cons_of_mem b hc)

/-- The pieces, row after row. -/
theorem flatMap_row_perm {m : ℕ} {pieces : List (ℕ × List α)} (h : ∀ p ∈ pieces, p.1 < m) :
    ((List.range m).flatMap (row pieces)).Perm (pieces.flatMap Prod.snd) := by
  induction pieces with
  | nil =>
      rw [List.flatMap_nil, List.perm_nil]
      exact List.flatMap_eq_nil_iff.mpr fun _ _ ↦ rfl
  | cons p pieces ih =>
      have hself : (List.range m).flatMap (fun t ↦ if p.1 = t then p.2 else []) = p.2 := by
        refine (flatMap_eq_of_unique List.nodup_range
          (List.mem_range.mpr (h p List.mem_cons_self)) fun t _ ht ↦ if_neg ht.symm).trans ?_
        exact if_pos rfl
      rw [List.flatMap_cons]
      have happend := List.flatMap_append_perm (List.range m)
        (fun t ↦ if p.1 = t then p.2 else []) (row pieces)
      rw [hself] at happend
      exact happend.symm.trans ((ih fun q hq ↦ h q (List.mem_cons_of_mem p hq)).append_left p.2)

theorem row_map_of_mem {r : ℕ → List α} {l : List ℕ} (hl : l.Nodup) {i : ℕ} (hi : i ∈ l) :
    row (l.map fun i ↦ (i, r i)) i = r i := by
  rw [row, List.flatMap_map]
  exact (flatMap_eq_of_unique hl hi fun j _ hj ↦ if_neg hj).trans (if_pos rfl)

end Rows

variable {start : ℕ → ℕ} {nq : ℕ} {s : (ℕ → α) × (ℕ → ℕ)} {done rest : List (ℕ × List α)}

/-- The rows have the pieces `done`, and the cursors are behind these. -/
structure Scattered (start : ℕ → ℕ) (nq : ℕ) (done : List (ℕ × List α))
    (s : (ℕ → α) × (ℕ → ℕ)) : Prop where
  cursor : ∀ q < nq, s.2 q = start q + (row done q).length
  read : ∀ q < nq, read s.1 (start q) (row done q).length = row done q

/-- The rows have room for the pieces, one behind the other. -/
def RoomFor (start : ℕ → ℕ) (nq : ℕ) (pieces : List (ℕ × List α)) : Prop :=
  ∀ q < nq, start q + (row pieces q).length ≤ start (q + 1)

theorem RoomFor.le {pieces : List (ℕ × List α)} (h : RoomFor start nq pieces) {q q' : ℕ}
    (hlt : q < q') (hq' : q' ≤ nq) : start q + (row pieces q).length ≤ start q' := by
  induction hlt with
  | refl => exact h q (Nat.lt_of_succ_le hq')
  | @step k _ ih =>
      have hk := h k (Nat.lt_of_succ_le hq')
      have := ih (Nat.le_of_succ_le hq')
      exact this.trans ((Nat.le_add_right _ _).trans hk)

/-- One piece more. -/
theorem Scattered.scatterPiece {q : ℕ} {xs : List α} (h : Scattered start nq done s)
    (hroom : RoomFor start nq (done ++ [(q, xs)])) (hq : q < nq) :
    Scattered start nq (done ++ [(q, xs)]) (scatterPiece s (q, xs)) := by
  have hrow : ∀ k, row (done ++ [(q, xs)]) k = row done k ++ if q = k then xs else [] :=
    fun k ↦ by rw [row_append, row_singleton]
  have hself : row (done ++ [(q, xs)]) q = row done q ++ xs := by rw [hrow, if_pos rfl]
  have hother : ∀ {k}, k ≠ q → row (done ++ [(q, xs)]) k = row done k := fun hk ↦ by
    rw [hrow, if_neg (Ne.symm hk), List.append_nil]
  have hcursor := h.cursor q hq
  refine ⟨fun k hk ↦ ?_, fun k hk ↦ ?_⟩
  · change update s.2 q (s.2 q + xs.length) k = _
    rcases eq_or_ne k q with rfl | hne
    · rw [update_self, hself, hcursor, List.length_append, Nat.add_assoc]
    · rw [update_of_ne hne, hother hne]
      exact h.cursor k hk
  · change Lib.read (write s.1 (s.2 q) xs) (start k) _ = _
    rcases eq_or_ne k q with rfl | hne
    · rw [hself, List.length_append, read_add, hcursor]
      congr 1
      · rw [read_write_of_disjoint (.inl le_rfl)]
        exact h.read k hk
      · have hself : Lib.read (write s.1 (start k + (row done k).length) xs)
            (start k + (row done k).length + 0) xs.length = (xs.drop 0).take xs.length :=
          read_write_of_within (Nat.zero_add _).le
        rwa [Nat.add_zero, List.drop_zero, List.take_length] at hself
    · rw [hother hne, read_write_of_disjoint]
      · exact h.read k hk
      · rw [hcursor]
        rcases Nat.lt_or_gt_of_ne hne with hlt | hlt
        · left
          have := hroom.le hlt hq.le
          rw [hother hne] at this
          omega
        · right
          have := hroom.le hlt hk.le
          rw [hself, List.length_append] at this
          omega

theorem Scattered.scatter (h : Scattered start nq done s)
    (hroom : RoomFor start nq (done ++ rest)) (hrest : ∀ p ∈ rest, p.1 < nq) :
    Scattered start nq (done ++ rest) (scatter s rest) := by
  induction rest generalizing done s with
  | nil => rwa [List.append_nil]
  | cons p rest ih =>
      obtain ⟨r, xs⟩ := p
      rw [List.append_cons] at hroom ⊢
      have hone : RoomFor start nq (done ++ [(r, xs)]) := fun q hq ↦ by
        have := hroom q hq
        rw [row_append, List.length_append] at this
        omega
      exact ih (h.scatterPiece hone (hrest (r, xs) List.mem_cons_self)) hroom
        fun p hp ↦ hrest p (List.mem_cons_of_mem _ hp)

end Lib

/-!
# Writing behind cursors

Items that come one after the other are written to memory, each to the place that the cursor of its key
points to, and move this cursor on.  Where the runs of the keys do not meet, each of them has the items of
its key, in the order they came in.
-/

namespace Lib

open Function

variable {α ι κ : Type*} [DecidableEq κ] (key : ι → κ) (value : ι → α)

def placeAt (s : (ℕ → α) × (κ → ℕ)) (i : ι) : (ℕ → α) × (κ → ℕ) :=
  (update s.1 (s.2 (key i)) (value i), update s.2 (key i) (s.2 (key i) + 1))

def ofKey (is : List ι) (q : κ) : List ι :=
  is.filter fun i ↦ decide (key i = q)

def Apart (start : κ → ℕ) (is : List ι) : Prop :=
  ∀ q q', q ≠ q' → ∀ a < (ofKey key is q).length, ∀ b < (ofKey key is q').length, start q + a ≠ start q' + b

variable {key value} {is : List ι} {start : κ → ℕ} {i : ι} {q : κ}

theorem ofKey_concat_self (is : List ι) (i : ι) : ofKey key (is ++ [i]) (key i) = ofKey key is (key i) ++ [i] := by
  rw [ofKey, List.filter_append, List.filter_singleton, decide_eq_true rfl]
  rfl

theorem ofKey_concat_of_ne (is : List ι) (h : q ≠ key i) : ofKey key (is ++ [i]) q = ofKey key is q := by
  rw [ofKey, List.filter_append, List.filter_singleton, decide_eq_false (Ne.symm h)]
  exact List.append_nil _

theorem length_ofKey_le_concat (is : List ι) (i : ι) (q : κ) :
    (ofKey key is q).length ≤ (ofKey key (is ++ [i]) q).length := by
  rw [ofKey, ofKey, List.filter_append, List.length_append]
  exact Nat.le_add_right _ _

theorem cursor_foldl_placeAt (m : ℕ → α) (start : κ → ℕ) (is : List ι) (q : κ) :
    (is.foldl (placeAt key value) (m, start)).2 q = start q + (ofKey key is q).length := by
  induction is using List.reverseRecOn with
  | nil => rfl
  | append_singleton is i ih =>
      rw [List.foldl_append]
      change update _ (key i) (_ + 1) q = _
      by_cases hq : q = key i
      · subst hq
        rw [update_self, ih, ofKey_concat_self, List.length_append]
        rfl
      · rw [update_of_ne hq, ih, ofKey_concat_of_ne is hq]

/-- The run of a key has the items of the key. -/
theorem read_foldl_placeAt (value : ι → α) (h : Apart key start is) (m : ℕ → α) (q : κ) :
    read (is.foldl (placeAt key value) (m, start)).1 (start q) (ofKey key is q).length =
      (ofKey key is q).map value := by
  induction is using List.reverseRecOn generalizing q with
  | nil => rfl
  | append_singleton is i ih =>
      have hbefore : Apart key start is := fun q q' hne a ha b hb ↦
        h q q' hne a (ha.trans_le (length_ofKey_le_concat is i q)) b
          (hb.trans_le (length_ofKey_le_concat is i q'))
      rw [List.foldl_append]
      change read (update _ _ (value i)) _ _ = _
      rw [cursor_foldl_placeAt]
      by_cases hq : q = key i
      · subst hq
        rw [ofKey_concat_self, List.length_append, List.map_append, read_add]
        refine congrArg₂ (· ++ ·) (Eq.trans (read_congr fun a ha ↦ update_of_ne (by omega) _ _) (ih hbefore _)) ?_
        change [update _ (_ + 0 + 0) _ _] = _
        exact congrArg (fun v ↦ [v]) (update_self _ _ _)
      · rw [ofKey_concat_of_ne is hq]
        refine Eq.trans (read_congr fun a ha ↦ update_of_ne (fun hmeet ↦ ?_) _ _) (ih hbefore q)
        refine h q (key i) hq a ?_ (ofKey key is (key i)).length ?_ hmeet
        · rwa [ofKey_concat_of_ne is hq]
        · rw [ofKey_concat_self, List.length_append]
          exact Nat.lt_succ_self _

theorem foldl_placeAt_of_outside {a : ℕ} (h : ∀ q, ∀ b < (ofKey key is q).length, a ≠ start q + b) (m : ℕ → α) :
    (is.foldl (placeAt key value) (m, start)).1 a = m a := by
  induction is using List.reverseRecOn with
  | nil => rfl
  | append_singleton is i ih =>
      rw [List.foldl_append]
      change update (is.foldl (placeAt key value) (m, start)).1 _ (value i) a = m a
      rw [cursor_foldl_placeAt, update_of_ne]
      · exact ih fun q b hb ↦ h q b (hb.trans_le (length_ofKey_le_concat is i q))
      · refine h (key i) _ ?_
        rw [ofKey_concat_self, List.length_append]
        exact Nat.lt_succ_self _

end Lib
