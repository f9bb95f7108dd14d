import Mathlib.Data.Set.Insert

/-!
# Graph traversals

A traversal of a directed graph keeps the vertices it has seen and, among these, the ones it has
expanded, that is whose neighbours it has all seen.  Which vertex is expanded next does not matter
here: once everything seen is expanded, everything reachable from the roots has been seen.
-/

namespace Lib

open Relation

variable {V : Type*} {edge : V → V → Prop} {roots seen expanded : Set V}

def reachable (edge : V → V → Prop) (roots : Set V) : Set V :=
  {v | ∃ r ∈ roots, ReflTransGen edge r v}

theorem subset_reachable : roots ⊆ reachable edge roots :=
  fun r hr ↦ ⟨r, hr, ReflTransGen.refl⟩

theorem reachable_step {u v : V} (hu : u ∈ reachable edge roots) (he : edge u v) :
    v ∈ reachable edge roots := by
  obtain ⟨r, hr, hru⟩ := hu
  exact ⟨r, hr, hru.tail he⟩

theorem reachable_mono {edge' : V → V → Prop} (h : ∀ u v, edge u v → edge' u v) :
    reachable edge roots ⊆ reachable edge' roots := by
  rintro v ⟨r, hr, hrv⟩
  exact ⟨r, hr, ReflTransGen.mono h _ _ hrv⟩

theorem reachable_subset_of_closed {A : Set V} (hroots : roots ⊆ A)
    (hclosed : ∀ u ∈ A, ∀ v, edge u v → v ∈ A) : reachable edge roots ⊆ A := by
  rintro v ⟨r, hr, hrv⟩
  induction hrv with
  | refl => exact hroots hr
  | tail _ he ih => exact hclosed _ ih _ he

/-- The state of a traversal: the roots have been seen, and so have the neighbours of every
expanded vertex. -/
structure Traversal (edge : V → V → Prop) (roots seen expanded : Set V) : Prop where
  roots_seen : roots ⊆ seen
  expanded_seen : expanded ⊆ seen
  closed : ∀ u ∈ expanded, ∀ v, edge u v → v ∈ seen

namespace Traversal

theorem start (h : roots ⊆ seen) : Traversal edge roots seen ∅ where
  roots_seen := h
  expanded_seen := Set.empty_subset _
  closed := fun _ hu ↦ absurd hu (Set.notMem_empty _)

variable (h : Traversal edge roots seen expanded)
include h

theorem expand {u : V} {seen' : Set V} (hu : u ∈ seen)
    (hsub : seen ⊆ seen') (hnew : ∀ v, edge u v → v ∈ seen') :
    Traversal edge roots seen' (insert u expanded) where
  roots_seen := h.roots_seen.trans hsub
  expanded_seen := Set.insert_subset (hsub hu) (h.expanded_seen.trans hsub)
  closed := by
    intro x hx v he
    rcases Set.mem_insert_iff.mp hx with rfl | hx
    · exact hnew v he
    · exact hsub (h.closed x hx v he)

theorem restrict {expanded' : Set V}
    (hsub : expanded' ⊆ expanded) : Traversal edge roots seen expanded' where
  roots_seen := h.roots_seen
  expanded_seen := hsub.trans h.expanded_seen
  closed := fun u hu ↦ h.closed u (hsub hu)

theorem see {seen' : Set V} (hsub : seen ⊆ seen') :
    Traversal edge roots seen' expanded where
  roots_seen := h.roots_seen.trans hsub
  expanded_seen := h.expanded_seen.trans hsub
  closed := fun u hu v he ↦ hsub (h.closed u hu v he)

theorem grow {edge' : V → V → Prop} {u : V}
    (hedge : ∀ a b, edge' a b → edge a b ∨ a = u) : Traversal edge' roots seen (expanded \ {u}) where
  roots_seen := h.roots_seen
  expanded_seen := fun _ ha ↦ h.expanded_seen ha.1
  closed := fun a ha b he ↦ by
    rcases hedge a b he with he | rfl
    · exact h.closed a ha.1 b he
    · exact absurd rfl ha.2

theorem reachable_subset (hdone : seen ⊆ expanded) :
    reachable edge roots ⊆ seen :=
  reachable_subset_of_closed h.roots_seen fun u hu ↦ h.closed u (hdone hu)

end Traversal

end Lib
