import Mathlib.Data.Finset.Card

/-!
# Ownership

Threads own locks, each thread at most one and each lock by at most one thread.  The locks that are
owned are a finite set, whatever the number of threads.
-/

namespace Lib

universe u v

variable {T : Type u} {L : Type v}

/-- The locks in `held` are those that a thread owns, and each is owned by one thread. -/
structure Owned (lock : T → Option L) (held : Finset L) : Prop where
  mem_iff : ∀ l, l ∈ held ↔ ∃ t, lock t = some l
  inj : ∀ t t' l, lock t = some l → lock t' = some l → t = t'

variable {lock lock' : T → Option L} {held held' : Finset L}

theorem owned_empty : Owned (fun _ : T ↦ (none : Option L)) ∅ := by
  refine ⟨fun l ↦ iff_of_false (Finset.notMem_empty l) ?_, ?_⟩
  · rintro ⟨t, ⟨⟩⟩
  · rintro t t' l ⟨⟩

variable [DecidableEq T]

theorem Owned.keep (h : Owned lock held) {t : T} {o : Option L} (ht : lock t = o) :
    Owned (Function.update lock t o) held := by
  rw [← ht, Function.update_eq_self]
  exact h

variable [DecidableEq L]

/-- A thread takes a lock that is free. -/
theorem Owned.acquire (h : Owned lock held) {t : T} {l : L} (ht : lock t = none)
    (hl : l ∉ held) : Owned (Function.update lock t (some l)) (insert l held) := by
  have hfree : ∀ t', lock t' ≠ some l := fun t' ht' ↦ hl ((h.mem_iff l).2 ⟨t', ht'⟩)
  have hcases : ∀ t' k, Function.update lock t (some l) t' = some k ↔
      (t' = t ∧ k = l) ∨ lock t' = some k := by
    intro t' k
    by_cases htt : t' = t
    · rw [htt, Function.update_self, ht]
      exact ⟨fun hk ↦ .inl ⟨rfl, (Option.some.inj hk).symm⟩, fun hk ↦ by
        obtain ⟨-, rfl⟩ | ⟨⟨⟩⟩ := hk
        rfl⟩
    · rw [Function.update_of_ne htt]
      exact (or_iff_right fun hk ↦ htt hk.1).symm
  refine ⟨fun k ↦ ?_, fun t₁ t₂ k h₁ h₂ ↦ ?_⟩
  · rw [Finset.mem_insert, h.mem_iff]
    simp only [hcases]
    constructor
    · rintro (rfl | ⟨t', ht'⟩)
      · exact ⟨t, .inl ⟨rfl, rfl⟩⟩
      · exact ⟨t', .inr ht'⟩
    · rintro ⟨t', ⟨-, rfl⟩ | ht'⟩
      · exact .inl rfl
      · exact .inr ⟨t', ht'⟩
  · obtain ⟨rfl, rfl⟩ | hk₁ := (hcases t₁ k).1 h₁
    · obtain ⟨rfl, -⟩ | hk₂ := (hcases t₂ k).1 h₂
      · rfl
      · exact absurd hk₂ (hfree t₂)
    · obtain ⟨rfl, rfl⟩ | hk₂ := (hcases t₂ k).1 h₂
      · exact absurd hk₁ (hfree t₁)
      · exact h.inj t₁ t₂ k hk₁ hk₂

/-- A thread gives its lock back. -/
theorem Owned.release (h : Owned lock held) {t : T} {l : L} (ht : lock t = some l) :
    Owned (Function.update lock t none) (held.erase l) := by
  have hcases : ∀ t' k, Function.update lock t none t' = some k ↔ t' ≠ t ∧ lock t' = some k := by
    intro t' k
    by_cases htt : t' = t
    · rw [htt, Function.update_self]
      exact iff_of_false nofun fun hk ↦ hk.1 rfl
    · rw [Function.update_of_ne htt, and_iff_right htt]
  refine ⟨fun k ↦ ?_, fun t₁ t₂ k h₁ h₂ ↦ ?_⟩
  · rw [Finset.mem_erase, h.mem_iff]
    simp only [hcases]
    constructor
    · rintro ⟨hkl, t', ht'⟩
      refine ⟨t', ?_, ht'⟩
      rintro rfl
      exact hkl (Option.some.inj (ht'.symm.trans ht))
    · rintro ⟨t', htt, ht'⟩
      refine ⟨?_, t', ht'⟩
      rintro rfl
      exact htt (h.inj t' t k ht' ht)
  · exact h.inj t₁ t₂ k ((hcases t₁ k).1 h₁).2 ((hcases t₂ k).1 h₂).2

omit [DecidableEq T] [DecidableEq L] in
/-- If some of the owners are counted, and they are as many as all owners, then all are. -/
theorem Owned.eq_some_of_card_le (h : Owned lock held) (h' : Owned lock' held')
    (hsub : ∀ t l, lock' t = some l → lock t = some l) (hcard : held.card ≤ held'.card) {t : T}
    {l : L} (ht : lock t = some l) : lock' t = some l := by
  have hle : held' ⊆ held := fun k hk ↦ by
    obtain ⟨t', ht'⟩ := (h'.mem_iff k).1 hk
    exact (h.mem_iff k).2 ⟨t', hsub t' k ht'⟩
  have heq : held' = held := Finset.eq_of_subset_of_card_le hle hcard
  obtain ⟨t', ht'⟩ := (h'.mem_iff l).1 (heq ▸ (h.mem_iff l).2 ⟨t, ht⟩)
  rw [h.inj t t' l ht (hsub t' l ht')]
  exact ht'

end Lib
