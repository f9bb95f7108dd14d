import Mathlib.Order.Lattice

/-!
# Fronts of a trade-off

A point has a gain, of which more is better, and a cost, of which less is better.  A list of points
*covers* another if nothing in the second beats the first, and a list is a *front* if paying more is
the only way to gain more.  On a front, the first point with enough gain is the cheapest one, and
what it costs depends only on what the front covers.
-/

namespace Lib.Pareto

variable {P α β : Type*} [LinearOrder α] [LinearOrder β] (gain : P → α) (cost : P → β)

/-- `x` gains no less than `y`, for no more. -/
def Dominates (x y : P) : Prop := gain y ≤ gain x ∧ cost x ≤ cost y

/-- Every point of `b` is dominated in `a`. -/
def Covers (a b : List P) : Prop := ∀ y ∈ b, ∃ x ∈ a, Dominates gain cost x y

/-- The gains rise, and so do the costs. -/
def IsFront (a : List P) : Prop := a.Pairwise fun x y ↦ gain x < gain y ∧ cost x ≤ cost y

variable {gain cost} {a b c : List P} {x y z : P}

theorem Dominates.refl (x : P) : Dominates gain cost x x := ⟨le_rfl, le_rfl⟩

theorem Dominates.trans (hxy : Dominates gain cost x y) (hyz : Dominates gain cost y z) :
    Dominates gain cost x z :=
  ⟨hyz.1.trans hxy.1, hxy.2.trans hyz.2⟩

theorem Covers.of_subset (h : b ⊆ a) : Covers gain cost a b :=
  fun y hy ↦ ⟨y, h hy, Dominates.refl y⟩

theorem Covers.refl (a : List P) : Covers gain cost a a := Covers.of_subset (List.Subset.refl a)

theorem Covers.trans (hab : Covers gain cost a b) (hbc : Covers gain cost b c) :
    Covers gain cost a c := by
  intro z hz
  obtain ⟨y, hy, hyz⟩ := hbc z hz
  obtain ⟨x, hx, hxy⟩ := hab y hy
  exact ⟨x, hx, hxy.trans hyz⟩

theorem Covers.mono (h : Covers gain cost a b) (hac : a ⊆ c) : Covers gain cost c b := by
  intro y hy
  obtain ⟨x, hx, hxy⟩ := h y hy
  exact ⟨x, hac hx, hxy⟩

theorem Covers.cons (hx : ∃ y ∈ a, Dominates gain cost y x) (h : Covers gain cost a b) :
    Covers gain cost a (x :: b) := by
  intro y hy
  rcases List.mem_cons.mp hy with rfl | hy
  · exact hx
  · exact h y hy

/-! ## Looking a gain up -/

def lookup (gain : P → α) (a : List P) (p : α) : Option P := a.find? fun x ↦ decide (p ≤ gain x)

theorem lookup_eq_none {p : α} : lookup gain a p = none ↔ ∀ x ∈ a, gain x < p := by
  simp [lookup]

theorem lookup_isSome {p : α} : (lookup gain a p).isSome ↔ ∃ x ∈ a, p ≤ gain x := by
  simp [lookup]

theorem le_of_lookup {p : α} (h : lookup gain a p = some x) : p ≤ gain x := by
  simpa using List.find?_some h

theorem Covers.lookup_isSome {p : α} (h : Covers gain cost a b) (hb : (lookup gain b p).isSome) :
    (lookup gain a p).isSome := by
  obtain ⟨y, hy, hp⟩ := Pareto.lookup_isSome.mp hb
  obtain ⟨x, hx, hxy⟩ := h y hy
  exact Pareto.lookup_isSome.mpr ⟨x, hx, hp.trans hxy.1⟩

/-- On a front, the first point with enough gain is the cheapest. -/
theorem IsFront.lookup_le {p : α} (ha : IsFront gain cost a) (hx : lookup gain a p = some x)
    (hy : y ∈ a) (hp : p ≤ gain y) : cost x ≤ cost y := by
  induction a with
  | nil => exact absurd hy List.not_mem_nil
  | cons z a ih =>
      obtain ⟨hz, ha⟩ := List.pairwise_cons.mp ha
      rw [lookup, List.find?_cons] at hx
      by_cases hpz : p ≤ gain z
      · rw [decide_eq_true hpz] at hx
        obtain rfl := Option.some.inj hx
        rcases List.mem_cons.mp hy with rfl | hy
        · exact le_rfl
        · exact (hz y hy).2
      · rw [decide_eq_false hpz] at hx
        rcases List.mem_cons.mp hy with rfl | hy
        · exact absurd hp hpz
        · exact ih ha hx hy

theorem IsFront.cost_le (ha : IsFront gain cost a) (hx : x ∈ a) (hy : y ∈ a)
    (h : gain x ≤ gain y) : cost x ≤ cost y := by
  induction a with
  | nil => exact absurd hx List.not_mem_nil
  | cons z a ih =>
      obtain ⟨hz, ha⟩ := List.pairwise_cons.mp ha
      rcases List.mem_cons.mp hx with rfl | hx
      · rcases List.mem_cons.mp hy with rfl | hy
        · exact le_rfl
        · exact (hz y hy).2
      · rcases List.mem_cons.mp hy with heq | hy
        · rw [heq] at h
          exact absurd h (not_le.mpr (hz x hx).1)
        · exact ih ha hx hy

theorem IsFront.lookup_le_of_covers {p : α} (ha : IsFront gain cost a) (h : Covers gain cost a b)
    (hx : lookup gain a p = some x) (hy : lookup gain b p = some y) : cost x ≤ cost y := by
  obtain ⟨z, hz, hzy⟩ := h y (List.mem_of_find?_eq_some hy)
  exact (ha.lookup_le hx hz ((le_of_lookup hy).trans hzy.1)).trans hzy.2

/-! ## Thinning a list out -/

/-- Leaves out each point that costs more than the next one that is kept. -/
def thin (cost : P → β) : List P → List P
  | [] => []
  | x :: a =>
      match thin cost a with
      | [] => [x]
      | y :: r => if cost y < cost x then y :: r else x :: y :: r

theorem thin_sublist (a : List P) : (thin cost a).Sublist a := by
  induction a with
  | nil => exact List.Sublist.refl []
  | cons x a ih =>
      rw [thin]
      cases hr : thin cost a with
      | nil => exact List.Sublist.cons_cons x (List.nil_sublist a)
      | cons y r =>
          rw [hr] at ih
          dsimp only
          split
          · exact ih.cons x
          · exact ih.cons_cons x

/-- What is kept costs more and more. -/
theorem thin_pairwise (a : List P) : (thin cost a).Pairwise fun x y ↦ cost x ≤ cost y := by
  induction a with
  | nil => exact List.Pairwise.nil
  | cons x a ih =>
      rw [thin]
      cases hr : thin cost a with
      | nil => exact List.pairwise_singleton _ x
      | cons y r =>
          rw [hr] at ih
          dsimp only
          split
          · exact ih
          · rename_i hxy
            refine List.pairwise_cons.mpr ⟨fun z hz ↦ ?_, ih⟩
            rcases List.mem_cons.mp hz with rfl | hz
            · exact not_lt.mp hxy
            · exact (not_lt.mp hxy).trans ((List.pairwise_cons.mp ih).1 z hz)

theorem isFront_thin (h : a.Pairwise fun x y ↦ gain x < gain y) :
    IsFront gain cost (thin cost a) :=
  (h.sublist (thin_sublist a)).and (thin_pairwise a)

/-- Where the gains rise, what is left out is dominated by what is kept. -/
theorem covers_thin (h : a.Pairwise fun x y ↦ gain x < gain y) :
    Covers gain cost (thin cost a) a := by
  induction a with
  | nil => exact Covers.refl []
  | cons x a ih =>
      obtain ⟨hx, ha⟩ := List.pairwise_cons.mp h
      have hcovers := ih ha
      have hkept := (@thin_sublist _ _ _ cost a).subset
      rw [thin]
      cases hr : thin cost a with
      | nil =>
          rw [hr] at hcovers
          cases a with
          | nil => exact Covers.refl [x]
          | cons y a => exact absurd (hcovers y List.mem_cons_self) (by simp)
      | cons y r =>
          rw [hr] at hcovers hkept
          dsimp only
          split
          · rename_i hlt
            exact hcovers.cons
              ⟨y, List.mem_cons_self, (hx y (hkept List.mem_cons_self)).le, hlt.le⟩
          · exact (hcovers.mono (List.subset_cons_self x _)).cons
              ⟨x, List.mem_cons_self, Dominates.refl x⟩

theorem thin_ne_nil (h : a ≠ []) : thin cost a ≠ [] := by
  cases a with
  | nil => exact absurd rfl h
  | cons x a =>
      rw [thin]
      cases thin cost a with
      | nil => exact List.cons_ne_nil x []
      | cons y r =>
          dsimp only
          split
          · exact List.cons_ne_nil y r
          · exact List.cons_ne_nil x (y :: r)

/-- Where the gains rise, a point is kept exactly if no point that gains more costs less. -/
theorem mem_thin_iff (h : a.Pairwise fun x y ↦ gain x < gain y) :
    x ∈ thin cost a ↔ x ∈ a ∧ ∀ y ∈ a, gain x < gain y → cost x ≤ cost y := by
  induction a with
  | nil => exact iff_of_false List.not_mem_nil fun hx ↦ List.not_mem_nil hx.1
  | cons z a ih =>
      obtain ⟨hz, ha⟩ := List.pairwise_cons.mp h
      have hfront : IsFront gain cost (thin cost a) := isFront_thin ha
      have hcovers : Covers gain cost (thin cost a) a := covers_thin ha
      have hold : x ∈ thin cost a ↔
          x ∈ a ∧ ∀ y ∈ z :: a, gain x < gain y → cost x ≤ cost y := by
        rw [ih ha]
        refine and_congr_right fun hx ↦ ?_
        rw [List.forall_mem_cons, iff_and_self]
        exact fun _ hlt ↦ absurd hlt (hz x hx).not_gt
      rw [thin]
      cases hr : thin cost a with
      | nil =>
          have hnil : a = [] := by
            by_contra hne
            exact thin_ne_nil hne hr
          subst hnil
          rw [List.mem_singleton]
          refine ⟨fun hx ↦ ⟨hx, ?_⟩, fun hx ↦ hx.1⟩
          rintro y hy hlt
          rw [List.mem_singleton.mp hy, hx] at hlt
          exact absurd hlt (lt_irrefl _)
      | cons y r =>
          rw [hr] at hfront hcovers hold
          have hkeep : ¬cost y < cost z ↔ ∀ w ∈ a, cost z ≤ cost w := by
            refine ⟨fun hle w hw ↦ ?_, fun hall ↦ not_lt.mpr (hall y ?_)⟩
            · obtain ⟨v, hv, hvw⟩ := hcovers w hw
              refine (not_lt.mp hle).trans (le_trans ?_ hvw.2)
              rcases List.mem_cons.mp hv with rfl | hv
              · exact le_rfl
              · exact ((List.pairwise_cons.mp hfront).1 v hv).2
            · exact (thin_sublist a).subset (hr ▸ List.mem_cons_self)
          dsimp only
          split
          · rename_i hlt
            rw [hold]
            refine ⟨fun hx ↦ ⟨List.mem_cons_of_mem z hx.1, hx.2⟩, fun hx ↦ ⟨?_, hx.2⟩⟩
            rcases List.mem_cons.mp hx.1 with rfl | hxa
            · exact absurd hlt (hkeep.mpr fun w hw ↦
                hx.2 w (List.mem_cons_of_mem _ hw) (hz w hw))
            · exact hxa
          · rename_i hle
            rw [List.mem_cons, hold]
            constructor
            · rintro (rfl | hx)
              · refine ⟨List.mem_cons_self, fun w hw hlt ↦ ?_⟩
                rcases List.mem_cons.mp hw with rfl | hw
                · exact le_rfl
                · exact hkeep.mp hle w hw
              · exact ⟨List.mem_cons_of_mem z hx.1, hx.2⟩
            · rintro ⟨hx, hall⟩
              exact (List.mem_cons.mp hx).imp_right fun hx ↦ ⟨hx, hall⟩

theorem thin_append_congr (h : thin cost b = thin cost c) :
    thin cost (a ++ b) = thin cost (a ++ c) := by
  induction a with
  | nil => exact h
  | cons x a ih => rw [List.cons_append, List.cons_append, thin, thin, ih]

/-- What comes after a point that is kept has no bearing on what comes before. -/
theorem thin_append_cons (h : thin cost (y :: b) = y :: c) :
    thin cost (a ++ y :: b) = thin cost (a ++ [y]) ++ c := by
  induction a with
  | nil => exact h
  | cons x a ih =>
      rw [List.cons_append, List.cons_append, thin, thin, ih]
      have hne : thin cost (a ++ [y]) ≠ [] := thin_ne_nil (by simp)
      cases hr : thin cost (a ++ [y]) with
      | nil => exact absurd hr hne
      | cons z r =>
          rw [List.cons_append]
          dsimp only
          split <;> rfl

end Lib.Pareto
