import Mathlib.Data.Set.Insert

/-!
# The last of the smallest

Of the positions in a set, the one with the smallest key, and of several such positions the last
one.  A scan may find it position by position, and several scans over parts of the set find it
together.
-/

namespace Lib

variable {ι β : Type*} [LinearOrder ι] [LinearOrder β] {key : ι → β} {S T : Set ι} {m m' p : ι}

/-- `m` is the last of the positions in `S` whose keys are smallest. -/
structure LastMin (key : ι → β) (S : Set ι) (m : ι) : Prop where
  mem : m ∈ S
  le : ∀ i ∈ S, key m ≤ key i
  last : ∀ i ∈ S, key i ≤ key m → i ≤ m

namespace LastMin

theorem unique (h : LastMin key S m) (h' : LastMin key S m') : m = m' :=
  le_antisymm (h'.last m h.mem (h.le m' h'.mem)) (h.last m' h'.mem (h'.le m h.mem))

theorem singleton (key : ι → β) (p : ι) : LastMin key {p} p where
  mem := rfl
  le := by rintro i rfl; exact le_rfl
  last := by rintro i rfl -; exact le_rfl

variable (h : LastMin key S m)
include h

theorem union_of_lt (h' : LastMin key T m') (hlt : key m < key m') :
    LastMin key (S ∪ T) m where
  mem := Or.inl h.mem
  le := by
    rintro i (hi | hi)
    · exact h.le i hi
    · exact hlt.le.trans (h'.le i hi)
  last := by
    rintro i (hi | hi) hle
    · exact h.last i hi hle
    · exact absurd (hle.trans_lt hlt) (not_lt.mpr (h'.le i hi))

theorem union_of_eq (h' : LastMin key T m') (heq : key m = key m')
    (hle : m ≤ m') : LastMin key (S ∪ T) m' where
  mem := Or.inr h'.mem
  le := by
    rintro i (hi | hi)
    · rw [← heq]
      exact h.le i hi
    · exact h'.le i hi
  last := by
    rintro i (hi | hi) hi'
    · rw [← heq] at hi'
      exact (h.last i hi hi').trans hle
    · exact h'.last i hi hi'

theorem append_of_le (hp : ∀ i ∈ S, i < p) (hle : key p ≤ key m) :
    LastMin key (S ∪ {p}) p := by
  rcases hle.lt_or_eq with hlt | heq
  · rw [Set.union_comm]
    exact (singleton key p).union_of_lt h hlt
  · exact h.union_of_eq (singleton key p) heq.symm (hp m h.mem).le

theorem append_of_lt (hlt : key m < key p) : LastMin key (S ∪ {p}) m :=
  h.union_of_lt (singleton key p) hlt

theorem append_before_of_le (hp : ∀ i ∈ S, p < i) (hle : key m ≤ key p) :
    LastMin key (S ∪ {p}) m := by
  rcases hle.lt_or_eq with hlt | heq
  · exact h.union_of_lt (singleton key p) hlt
  · rw [Set.union_comm]
    exact (singleton key p).union_of_eq h heq.symm (hp m h.mem).le

theorem append_before_of_lt (hlt : key p < key m) :
    LastMin key (S ∪ {p}) p := by
  rw [Set.union_comm]
  exact (singleton key p).union_of_lt h hlt

end LastMin

end Lib
