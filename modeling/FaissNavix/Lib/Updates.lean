import Mathlib.Data.Set.Lattice

/-!
# Loops that update a table

A loop over different positions of a table, each turn of which works on the cell of its position,
does to each of these cells what a turn does to it, in whatever order it gets to them.
-/

namespace Lib

open Function

universe u

variable {ε ι β : Type u} [DecidableEq ι] {f : ι → β → Except ε β}

def updateCell (f : ι → β → Except ε β) (table : ι → β) (i : ι) : Except ε (ι → β) := do
  let b ← f i (table i)
  return update table i b

theorem updateCell_eq_ok {table table' : ι → β} {i : ι} :
    updateCell f table i = .ok table' ↔ ∃ b, f i (table i) = .ok b ∧ table' = update table i b := by
  unfold updateCell
  cases f i (table i) with
  | error e =>
      constructor
      · rintro ⟨⟩
      · rintro ⟨b, ⟨⟩, -⟩
  | ok b =>
      constructor
      · rintro ⟨⟩
        exact ⟨b, rfl, rfl⟩
      · rintro ⟨b', ⟨⟩, rfl⟩
        rfl

/-- The loop returns the table in which every cell that it gets to has been worked on. -/
theorem foldlM_updateCell_eq_ok {l : List ι} (hl : l.Nodup) {table table' : ι → β} :
    l.foldlM (updateCell f) table = .ok table' ↔
      (∀ i ∈ l, f i (table i) = .ok (table' i)) ∧ ∀ i ∉ l, table' i = table i := by
  induction l generalizing table with
  | nil =>
      constructor
      · rintro ⟨⟩
        exact ⟨fun i hi ↦ absurd hi List.not_mem_nil, fun i _ ↦ rfl⟩
      · exact fun h ↦ congrArg Except.ok (funext fun i ↦ (h.2 i List.not_mem_nil).symm)
  | cons i l ih =>
      obtain ⟨hi, hl⟩ := List.nodup_cons.mp hl
      rw [List.foldlM_cons]
      constructor
      · intro h
        cases hstep : updateCell f table i with
        | error e =>
            rw [hstep] at h
            cases h
        | ok mid =>
            rw [hstep] at h
            obtain ⟨b, hb, rfl⟩ := updateCell_eq_ok.mp hstep
            obtain ⟨hin, hout⟩ := (ih hl).mp h
            refine ⟨fun j hj ↦ ?_, fun j hj ↦ ?_⟩
            · rcases List.mem_cons.mp hj with rfl | hj
              · rw [hb, hout j hi, update_self]
              · have hji : j ≠ i := fun h ↦ hi (h ▸ hj)
                rw [← hin j hj, update_of_ne hji]
            · rw [List.mem_cons, not_or] at hj
              rw [hout j hj.2, update_of_ne hj.1]
      · rintro ⟨hin, hout⟩
        have hstep : updateCell f table i = .ok (update table i (table' i)) :=
          updateCell_eq_ok.mpr ⟨_, hin i List.mem_cons_self, rfl⟩
        rw [hstep]
        refine (ih hl).mpr ⟨fun j hj ↦ ?_, fun j hj ↦ ?_⟩
        · have hji : j ≠ i := fun h ↦ hi (h ▸ hj)
          rw [update_of_ne hji, hin j (List.mem_cons_of_mem i hj)]
        · by_cases hji : j = i
          · rw [hji, update_self]
          · rw [update_of_ne hji]
            exact hout j fun h ↦ (List.mem_cons.mp h).elim hji hj

theorem foldlM_updateCell_of_ok {l : List ι} (hl : l.Nodup) {table : ι → β} {g : ι → β}
    (h : ∀ i ∈ l, f i (table i) = .ok (g i)) :
    ∃ table', l.foldlM (updateCell f) table = .ok table' ∧ (∀ i ∈ l, table' i = g i) ∧
      ∀ i ∉ l, table' i = table i := by
  refine ⟨fun i ↦ if i ∈ l then g i else table i, (foldlM_updateCell_eq_ok hl).mpr ⟨?_, ?_⟩, ?_, ?_⟩
  · intro i hi
    rw [if_pos hi, h i hi]
  · exact fun i hi ↦ if_neg hi
  · exact fun i hi ↦ if_pos hi
  · exact fun i hi ↦ if_neg hi

/-! ## Loops that make a list -/

section Lists

variable {ε α β σ : Type u} {f : α → Except ε β} {g : α → β} {l : List α}

theorem mapM_of_ok (h : ∀ a ∈ l, f a = .ok (g a)) : l.mapM f = .ok (l.map g) := by
  induction l with
  | nil => rfl
  | cons a l ih =>
      rw [List.mapM_cons, h a List.mem_cons_self, ih fun b hb ↦ h b (List.mem_cons_of_mem a hb)]
      rfl

theorem ok_of_mapM {bs : List β} (h : l.mapM f = .ok bs) : ∀ a ∈ l, ∃ b, f a = .ok b := by
  induction l generalizing bs with
  | nil => exact fun a ha ↦ absurd ha List.not_mem_nil
  | cons a l ih =>
      rw [List.mapM_cons] at h
      cases ha : f a with
      | error e =>
          rw [ha] at h
          cases h
      | ok b =>
          rw [ha] at h
          cases hl : l.mapM f with
          | error e =>
              rw [hl] at h
              cases h
          | ok bs' => exact List.forall_mem_cons.mpr ⟨⟨b, ha⟩, ih hl⟩

theorem foldlM_congr_mem {f g : σ → α → Except ε σ} (h : ∀ a ∈ l, ∀ s, f s a = g s a) (s : σ) :
    l.foldlM f s = l.foldlM g s := by
  induction l generalizing s with
  | nil => rfl
  | cons a l ih =>
      rw [List.foldlM_cons, List.foldlM_cons, h a List.mem_cons_self]
      exact congrArg _ (funext fun s ↦ ih (fun b hb ↦ h b (List.mem_cons_of_mem a hb)) s)

theorem foldlM_of_ok {f : σ → α → Except ε σ} {g : σ → α → σ} (Inv : σ → Prop)
    (h : ∀ a ∈ l, ∀ s, Inv s → f s a = .ok (g s a) ∧ Inv (g s a)) {s : σ} (hs : Inv s) :
    l.foldlM f s = .ok (l.foldl g s) ∧ Inv (l.foldl g s) := by
  induction l generalizing s with
  | nil => exact ⟨rfl, hs⟩
  | cons a l ih =>
      obtain ⟨hstep, hinv⟩ := h a List.mem_cons_self s hs
      rw [List.foldlM_cons, hstep, List.foldl_cons]
      exact ih (fun b hb ↦ h b (List.mem_cons_of_mem a hb)) hinv

end Lists

end Lib

/-!
# Runs of steps that write apart

The state of a loop that fills a table has slots.  When a step always writes the same values to the
slots that belong to it and leaves the others alone, then after any run of such steps every slot
that belongs to one of them has its value, in whatever order the steps were taken.
-/

namespace Lib

variable {σ ι ρ α : Type*}

/-- From one state to the other, the slots of `written` took their values and the others stayed. -/
structure Writes (view : σ → ι → ρ) (value : ι → ρ) (written : Set ι) (s s' : σ) : Prop where
  eq : ∀ i ∈ written, view s' i = value i
  frame : ∀ i ∉ written, view s' i = view s i

variable {view : σ → ι → ρ} {value : ι → ρ}

theorem Writes.refl (s : σ) : Writes view value ∅ s s where
  eq := fun _ hi ↦ absurd hi (Set.notMem_empty _)
  frame := fun _ _ ↦ rfl

theorem Writes.trans {written written' : Set ι} {s s' s'' : σ}
    (h : Writes view value written s s') (h' : Writes view value written' s' s'') :
    Writes view value (written ∪ written') s s'' where
  eq := fun i hi ↦ by
    by_cases hi' : i ∈ written'
    · exact h'.eq i hi'
    · rw [h'.frame i hi']
      exact h.eq i (hi.resolve_right hi')
  frame := fun i hi ↦ by
    rw [h'.frame i fun hi' ↦ hi (Or.inr hi'), h.frame i fun hi' ↦ hi (Or.inl hi')]

/-- A run of steps, from an invariant that each of them keeps. -/
theorem foldlM_writes {f : σ → α → Option σ} (view : σ → ι → ρ) (value : ι → ρ)
    (written : α → Set ι) (Inv : σ → Prop) (l : List α)
    (hstep : ∀ a ∈ l, ∀ s, Inv s →
      ∃ s', f s a = some s' ∧ Inv s' ∧ Writes view value (written a) s s')
    {s : σ} (hs : Inv s) :
    ∃ s', l.foldlM f s = some s' ∧ Inv s' ∧ Writes view value (⋃ a ∈ l, written a) s s' := by
  induction l generalizing s with
  | nil => exact ⟨s, rfl, hs, by simpa using Writes.refl s⟩
  | cons a l ih =>
      obtain ⟨s', hf, hs', hw⟩ := hstep a List.mem_cons_self s hs
      obtain ⟨s'', hl, hs'', hw'⟩ := ih (fun b hb ↦ hstep b (List.mem_cons_of_mem _ hb)) hs'
      refine ⟨s'', ?_, hs'', ?_⟩
      · rw [List.foldlM_cons, hf]
        exact hl
      · have hunion : (⋃ b ∈ a :: l, written b) = written a ∪ ⋃ b ∈ l, written b := by
          ext i; simp
        rw [hunion]
        exact hw.trans hw'

end Lib
