import Mathlib.Data.Finset.Card

/-!
# Enumerators

A loop `do { … } while (next())` visits the value of each state that an enumerator goes through.  Where
each turn takes its value out of what is left, every value of a finite set is visited once.
-/

namespace Lib

variable {σ α : Type*} {next : σ → Option σ} {value : σ → α}

/-- The values that are visited, unless there are more than `turns`. -/
def visits (next : σ → Option σ) (value : σ → α) : ℕ → σ → Option (List α)
  | 0, _ => none
  | turns + 1, s =>
    match next s with
    | none => some [value s]
    | some s' => (visits next value turns s').map (value s :: ·)

/-- What an enumerator leaves to be visited. -/
structure Enumerates [DecidableEq α] (next : σ → Option σ) (value : σ → α) (inv : σ → Prop)
    (rest : σ → Finset α) : Prop where
  last : ∀ s, inv s → next s = none → rest s = {value s}
  step : ∀ s s', inv s → next s = some s' →
    inv s' ∧ value s ∉ rest s' ∧ rest s = insert (value s) (rest s')

variable [DecidableEq α] {inv : σ → Prop} {rest : σ → Finset α}

/-- All that is left is visited, once each. -/
theorem Enumerates.visits (h : Enumerates next value inv rest) {s : σ} (hs : inv s) {turns : ℕ}
    (hturns : (rest s).card ≤ turns) :
    ∃ l, Lib.visits next value turns s = some l ∧ l.Nodup ∧ ∀ a, a ∈ l ↔ a ∈ rest s := by
  induction turns generalizing s with
  | zero =>
      have hempty := Finset.card_eq_zero.mp (Nat.le_zero.mp hturns)
      cases hnext : next s with
      | none =>
          rw [h.last s hs hnext] at hempty
          exact absurd hempty (Finset.singleton_ne_empty _)
      | some s' =>
          rw [(h.step s s' hs hnext).2.2] at hempty
          exact absurd hempty (Finset.insert_ne_empty _ _)
  | succ turns ih =>
      cases hnext : next s with
      | none =>
          refine ⟨[value s], by rw [Lib.visits, hnext], List.nodup_singleton _, fun a ↦ ?_⟩
          rw [h.last s hs hnext, List.mem_singleton, Finset.mem_singleton]
      | some s' =>
          obtain ⟨hs', hnew, hrest⟩ := h.step s s' hs hnext
          rw [hrest, Finset.card_insert_of_notMem hnew] at hturns
          obtain ⟨l, hl, hnodup, hmem⟩ := ih hs' (Nat.le_of_succ_le_succ hturns)
          refine ⟨value s :: l, ?_, ?_, fun a ↦ ?_⟩
          · rw [Lib.visits, hnext]
            dsimp only
            rw [hl, Option.map_some]
          · exact List.nodup_cons.mpr ⟨fun hin ↦ hnew ((hmem _).mp hin), hnodup⟩
          · rw [hrest, List.mem_cons, Finset.mem_insert, hmem]

/-- What is before all that is left is visited before it. -/
theorem Enumerates.visits_pairwise (h : Enumerates next value inv rest) {R : α → α → Prop}
    (hR : ∀ s, inv s → ∀ a ∈ rest s, R (value s) a) {s : σ} (hs : inv s) {turns : ℕ} {l : List α}
    (hl : Lib.visits next value turns s = some l) : l.Pairwise R ∧ ∀ a ∈ l, a ∈ rest s := by
  induction turns generalizing s l with
  | zero => exact absurd hl (Option.some_ne_none l).symm
  | succ turns ih =>
      cases hnext : next s with
      | none =>
          rw [Lib.visits, hnext] at hl
          obtain rfl := Option.some.inj hl
          refine ⟨List.pairwise_singleton R _, fun a ha ↦ ?_⟩
          rw [h.last s hs hnext, List.mem_singleton.mp ha]
          exact Finset.mem_singleton_self _
      | some s' =>
          rw [Lib.visits, hnext] at hl
          obtain ⟨l', hl', rfl⟩ := Option.map_eq_some_iff.mp hl
          obtain ⟨hs', -, hrest⟩ := h.step s s' hs hnext
          obtain ⟨hsorted, hmem⟩ := ih hs' hl'
          have hin : ∀ a ∈ l', a ∈ rest s := fun a ha ↦ by
            rw [hrest]
            exact Finset.mem_insert_of_mem (hmem a ha)
          refine ⟨List.pairwise_cons.mpr ⟨fun a ha ↦ hR s hs a (hin a ha), hsorted⟩, fun a ha ↦ ?_⟩
          rcases List.mem_cons.mp ha with rfl | ha
          · rw [hrest]
            exact Finset.mem_insert_self _ _
          · exact hin a ha

end Lib
