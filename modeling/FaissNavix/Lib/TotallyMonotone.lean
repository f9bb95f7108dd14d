import Mathlib.Data.Finset.Max

/-!
# Totally monotone matrices

In a totally monotone matrix, a later column that beats an earlier one in some row also beats it in all
later rows.  The first smallest entry of a row then moves only to the right from row to row, and a column
that is beaten in each row by some other column can be left out.
-/

namespace Lib

variable {ι κ β : Type*} [LinearOrder κ] [LinearOrder β]

/-- `m` is the first of the columns of `cols` whose entries are smallest. -/
structure FirstMin (v : κ → β) (cols : List κ) (m : κ) : Prop where
  mem : m ∈ cols
  le : ∀ c ∈ cols, v m ≤ v c
  lt : ∀ c ∈ cols, c < m → v m < v c

/-- Another column has a smaller entry, or is an earlier one with the same entry. -/
def Dominated (v : κ → β) (cols : List κ) (c : κ) : Prop :=
  ∃ c' ∈ cols, v c' < v c ∨ c' < c ∧ v c' ≤ v c

namespace FirstMin

variable {v : κ → β} {cols cols' : List κ} {m m' : κ}

theorem unique (h : FirstMin v cols m) (h' : FirstMin v cols m') : m = m' := by
  rcases lt_trichotomy m m' with hlt | heq | hlt
  · exact absurd (h.le m' h'.mem) (not_le.mpr (h'.lt m h.mem hlt))
  · exact heq
  · exact absurd (h'.le m h.mem) (not_le.mpr (h.lt m' h'.mem hlt))

theorem exists_of_ne_nil (v : κ → β) (h : cols ≠ []) : ∃ m, FirstMin v cols m := by
  obtain ⟨c, hc⟩ := List.exists_mem_of_ne_nil cols h
  obtain ⟨x, hx, hmin⟩ := cols.toFinset.exists_min_image v ⟨c, List.mem_toFinset.mpr hc⟩
  have hne : (cols.toFinset.filter fun c ↦ v c = v x).Nonempty := ⟨x, Finset.mem_filter.mpr ⟨hx, rfl⟩⟩
  obtain ⟨hm, hmx⟩ := Finset.mem_filter.mp (Finset.min'_mem _ hne)
  refine ⟨_, List.mem_toFinset.mp hm, fun c hc ↦ ?_, fun c hc hlt ↦ ?_⟩
  · rw [hmx]
    exact hmin c (List.mem_toFinset.mpr hc)
  · refine lt_of_le_of_ne (hmx.trans_le (hmin c (List.mem_toFinset.mpr hc))) fun heq ↦ ?_
    have hmem : c ∈ cols.toFinset.filter fun c ↦ v c = v x :=
      Finset.mem_filter.mpr ⟨List.mem_toFinset.mpr hc, heq.symm.trans hmx⟩
    exact absurd hlt (not_lt.mpr (Finset.min'_le _ _ hmem))

theorem not_dominated (h : FirstMin v cols m) : ¬ Dominated v cols m := by
  rintro ⟨c, hc, hlt | ⟨hcm, hle⟩⟩
  · exact absurd (h.le c hc) (not_le.mpr hlt)
  · exact absurd hle (not_le.mpr (h.lt c hc hcm))

theorem of_subset (h : FirstMin v cols' m) (hsub : ∀ c ∈ cols', c ∈ cols)
    (hdom : ∀ c ∈ cols, c ∉ cols' → Dominated v cols c) : FirstMin v cols m := by
  obtain ⟨x, hx⟩ := exists_of_ne_nil v (List.ne_nil_of_mem (hsub m h.mem))
  have hx' : x ∈ cols' := by
    by_contra hx'
    exact hx.not_dominated (hdom x hx.mem hx')
  have hself : FirstMin v cols' x :=
    ⟨hx', fun c hc ↦ hx.le c (hsub c hc), fun c hc hlt ↦ hx.lt c (hsub c hc) hlt⟩
  rwa [h.unique hself]

theorem ne_nil_of_subset (v : κ → β) (h : cols ≠ [])
    (hdom : ∀ c ∈ cols, c ∉ cols' → Dominated v cols c) : cols' ≠ [] := by
  obtain ⟨x, hx⟩ := exists_of_ne_nil v h
  rintro rfl
  exact hx.not_dominated (hdom x hx.mem List.not_mem_nil)

end FirstMin

/-- A later column that beats an earlier one in some row also beats it in all later rows. -/
def TotallyMonotone [LT ι] (A : ι → κ → β) (rows : ι → Prop) (cols : κ → Prop) : Prop :=
  ∀ r r' c c', rows r → rows r' → cols c → cols c' → r < r' → c < c' → A r c' < A r c → A r' c' < A r' c

namespace TotallyMonotone

variable [LT ι] {A : ι → κ → β} {rows rows' : ι → Prop} {cols cols' : κ → Prop} {r r' : ι} {c c' : κ}

theorem mono (h : TotallyMonotone A rows cols) (hr : ∀ r, rows' r → rows r) (hc : ∀ c, cols' c → cols c) :
    TotallyMonotone A rows' cols' :=
  fun r r' c c' h1 h2 h3 h4 ↦ h r r' c c' (hr r h1) (hr r' h2) (hc c h3) (hc c' h4)

theorem le_of_le (h : TotallyMonotone A rows cols) (h1 : rows r) (h2 : rows r') (h3 : cols c)
    (h4 : cols c') (hr : r < r') (hc : c < c') (hle : A r' c ≤ A r' c') : A r c ≤ A r c' :=
  not_lt.mp fun hlt ↦ absurd hle (not_le.mpr (h r r' c c' h1 h2 h3 h4 hr hc hlt))

end TotallyMonotone

end Lib
