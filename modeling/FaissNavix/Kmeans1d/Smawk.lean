import FaissNavix.Lib.Loop
import FaissNavix.Lib.TotallyMonotone
import Mathlib.Data.List.GetD

/-!
# Row minima of a totally monotone matrix

`reduce`, `interpolate` and `smawk` of `faiss/impl/kmeans1d.cpp`.  Entries are looked up, and vectors are
read and written, only where there is something: a program that goes beyond gives nothing.

In every row of a totally monotone matrix, the column that is found is the first of those with the
smallest entry (`smawk_firstMin`).
-/

namespace FaissNavix.Kmeans1d

open Lib

/-! ## The code -/

/-- `lookup(row, col)` -/
abbrev LookUpFunc (α : Type) := ℕ → ℕ → Option α

section Code

variable {α : Type} [LinearOrder α] (lookup : LookUpFunc α)

/-- The inner loop of `reduce`; the columns of `output_cols` are listed from the last one on. -/
def popDefeated (rows : List ℕ) (col : ℕ) : List ℕ → Option (List ℕ)
  | [] => some []
  | back :: rest => do
    let row ← rows[rest.length]?
    let a ← lookup row col
    let b ← lookup row back
    -- defeated
    if b ≤ a then some (back :: rest) else popDefeated rows col rest

/-- A turn of the outer loop of `reduce`. -/
def reduceTurn (rows outputCols : List ℕ) (col : ℕ) : Option (List ℕ) := do
  let outputCols ← popDefeated lookup rows col outputCols
  return if outputCols.length < rows.length then col :: outputCols else outputCols

/-- `reduce` -/
def reduce (rows inputCols : List ℕ) : Option (List ℕ) := do
  let outputCols ← inputCols.foldlM (reduceTurn lookup rows) []
  return outputCols.reverse

/-- `idx_to_col` -/
def idxToCol (cols : List ℕ) : ℕ → ℕ :=
  (List.range cols.length).foldl (fun map idx ↦ Function.update map (cols.getD idx 0) idx) fun _ ↦ 0

/-- A turn of the inner loop of `interpolate`. -/
def scanTurn (row : ℕ) (cols : List ℕ) (s : ℕ × α) (c : ℕ) : Option (ℕ × α) := do
  let col ← cols[c]?
  let value ← lookup row col
  return if value < s.2 then (col, value) else s

/-- What `interpolate` does with a row. -/
def interpolateRow (cols : List ℕ) (row start stop : ℕ) (argmins : List ℕ) : Option (List ℕ) := do
  let argmin ← cols[start]?
  let min ← lookup row argmin
  let (argmin, _) ← (List.range' (start + 1) (stop - start)).foldlM (scanTurn lookup row cols) (argmin, min)
  if row < argmins.length then some (argmins.set row argmin) else none

/-- The loop of `interpolate`, over every second row. -/
def interpolateLoop (cols : List ℕ) : List ℕ → ℕ → List ℕ → Option (List ℕ)
  | [], _, argmins => some argmins
  | [row], start, argmins => interpolateRow lookup cols row start (cols.length - 1) argmins
  | row :: next :: rest, start, argmins => do
    let idx ← argmins[next]?
    let stop := idxToCol cols idx
    let argmins ← interpolateRow lookup cols row start stop argmins
    interpolateLoop cols rest stop argmins

/-- `interpolate` -/
def interpolate (rows cols argmins : List ℕ) : Option (List ℕ) := interpolateLoop lookup cols rows 0 argmins

def oddRows : List ℕ → List ℕ
  | _ :: row :: rest => row :: oddRows rest
  | _ => []

/-- The columns that `smawk_impl` goes on with. -/
def survivedCols (rows inputCols : List ℕ) : Option (List ℕ) :=
  if rows.length < inputCols.length then reduce lookup rows inputCols else some inputCols

/-- `smawk_impl`, with a bound on the depth of the recursion. -/
def smawkImpl : ℕ → List ℕ → List ℕ → List ℕ → Option (List ℕ)
  | _, [], _, argmins => some argmins
  | 0, _ :: _, _, _ => none
  | depth + 1, rows, inputCols, argmins => do
    let cols ← survivedCols lookup rows inputCols
    let argmins ← smawkImpl depth (oddRows rows) cols argmins
    interpolate lookup rows cols argmins

/-- `smawk` -/
def smawk (nrows ncols : ℕ) (argmins : List ℕ) : Option (List ℕ) :=
  smawkImpl lookup nrows (List.range nrows) (List.range ncols) argmins

end Code

/-! ## Leaving out columns -/

variable {α : Type} [LinearOrder α] {lookup : LookUpFunc α} {A : ℕ → ℕ → α} {rows cols inputCols : List ℕ}
  {col : ℕ}

def LooksUp (lookup : LookUpFunc α) (A : ℕ → ℕ → α) (rows cols : List ℕ) : Prop :=
  ∀ r ∈ rows, ∀ c ∈ cols, lookup r c = some (A r c)

omit [LinearOrder α] in
theorem LooksUp.mono {rows' cols' : List ℕ} (h : LooksUp lookup A rows cols)
    (hr : ∀ r ∈ rows', r ∈ rows) (hc : ∀ c ∈ cols', c ∈ cols) : LooksUp lookup A rows' cols' :=
  fun r hr' c hc' ↦ h r (hr r hr') c (hc c hc')

/-- Each column of a stack is beaten by the one below it in the rows before its own. -/
def Stacked (A : ℕ → ℕ → α) (rows : List ℕ) : List ℕ → Prop
  | c :: d :: rest => (∀ i ≤ rest.length, ∀ r, rows[i]? = some r → A r d ≤ A r c) ∧
      Stacked A rows (d :: rest)
  | _ => True

theorem Stacked.tail {c : ℕ} {rest : List ℕ} (h : Stacked A rows (c :: rest)) : Stacked A rows rest := by
  cases rest with
  | nil => trivial
  | cons d rest => exact h.2

/-- What holds when the columns `done` of `inputCols` have been processed. -/
structure ReduceInv (A : ℕ → ℕ → α) (rows inputCols done stack : List ℕ) : Prop where
  length_le : stack.length ≤ rows.length
  sorted : stack.Pairwise fun c d ↦ d < c
  stacked : Stacked A rows stack
  mem : ∀ c ∈ stack, c ∈ done
  dominated : ∀ c ∈ done, c ∉ stack → ∀ r ∈ rows, Dominated (A r) inputCols c

/-- What the rows and columns of a totally monotone matrix are to be. -/
structure Searchable (lookup : LookUpFunc α) (A : ℕ → ℕ → α) (rows cols : List ℕ) : Prop where
  lookup : LooksUp lookup A rows cols
  monotone : TotallyMonotone A (· ∈ rows) (· ∈ cols)
  sorted : rows.Pairwise (· < ·)

theorem lt_of_getElem? (h : rows.Pairwise (· < ·)) {i j r r' : ℕ} (hi : rows[i]? = some r)
    (hj : rows[j]? = some r') (hij : i < j) : r < r' := by
  obtain ⟨hi', rfl⟩ := List.getElem?_eq_some_iff.mp hi
  obtain ⟨hj', rfl⟩ := List.getElem?_eq_some_iff.mp hj
  exact List.pairwise_iff_getElem.mp h i j hi' hj' hij

section
variable (h : Searchable lookup A rows inputCols)
include h

/-- The columns that a new one beats in their rows are popped: they are dominated.  It is beaten by the
next one in all rows up to there. -/
theorem popDefeated_spec (hcol : col ∈ inputCols)
    {stack : List ℕ} (hlen : stack.length ≤ rows.length) (hsorted : stack.Pairwise fun c d ↦ d < c)
    (hstacked : Stacked A rows stack) (hmem : ∀ c ∈ stack, c ∈ inputCols) (hlt : ∀ c ∈ stack, c < col) :
    ∃ stack', popDefeated lookup rows col stack = some stack' ∧ stack' <:+ stack ∧
      Stacked A rows (col :: stack') ∧
      ∀ c ∈ stack, c ∉ stack' → ∀ r ∈ rows, Dominated (A r) inputCols c := by
  induction stack with
  | nil => exact ⟨[], rfl, List.suffix_refl _, trivial, fun c hc ↦ absurd hc List.not_mem_nil⟩
  | cons b rest ih =>
      have hrest : rest.length < rows.length := hlen
      have hrow : rows[rest.length]? = some (rows.get ⟨rest.length, hrest⟩) :=
        List.getElem?_eq_getElem hrest
      generalize rows.get ⟨rest.length, hrest⟩ = row at hrow
      have hrowmem : row ∈ rows := List.mem_of_getElem? hrow
      have hb : b ∈ inputCols := hmem b List.mem_cons_self
      have hbcol : b < col := hlt b List.mem_cons_self
      have hstep : popDefeated lookup rows col (b :: rest) =
          if A row b ≤ A row col then some (b :: rest) else popDefeated lookup rows col rest := by
        rw [popDefeated, hrow]
        change (lookup row col).bind _ = _
        rw [h.lookup row hrowmem col hcol]
        change (lookup row b).bind _ = _
        rw [h.lookup row hrowmem b hb]
        rfl
      rw [hstep]
      by_cases hle : A row b ≤ A row col
      · rw [if_pos hle]
        refine ⟨b :: rest, rfl, List.suffix_refl _, ⟨fun i hi r hr ↦ ?_, hstacked⟩,
          fun c hc hc' ↦ absurd hc hc'⟩
        rcases hi.lt_or_eq with hi | rfl
        · exact h.monotone.le_of_le (List.mem_of_getElem? hr) hrowmem hb hcol
            (lt_of_getElem? h.sorted hr hrow hi) hbcol hle
        · rwa [Option.some.inj (hr.symm.trans hrow)]
      · rw [if_neg hle]
        obtain ⟨stack', heq, hsuffix, hstacked', hdom⟩ := ih hrest.le (List.pairwise_cons.mp hsorted).2
          hstacked.tail (fun c hc ↦ hmem c (List.mem_cons_of_mem b hc))
          fun c hc ↦ hlt c (List.mem_cons_of_mem b hc)
        refine ⟨stack', heq, hsuffix.trans (List.suffix_cons b rest), hstacked', fun c hc hc' r hr ↦ ?_⟩
        rcases List.mem_cons.mp hc with rfl | hc
        · obtain ⟨i, hi⟩ := List.getElem?_of_mem hr
          rcases Nat.lt_or_ge i rest.length with hlow | hhigh
          · -- the rows above its own belong to the column below
            cases rest with
            | nil => exact absurd hlow (Nat.not_lt_zero i)
            | cons d rest =>
                have hd : d ∈ c :: d :: rest := List.mem_cons_of_mem c List.mem_cons_self
                exact ⟨d, hmem d hd, .inr ⟨(List.pairwise_cons.mp hsorted).1 d List.mem_cons_self,
                  hstacked.1 i (Nat.le_of_lt_succ hlow) r hi⟩⟩
          · refine ⟨col, hcol, .inl ?_⟩
            rcases hhigh.lt_or_eq with hhigh | rfl
            · exact h.monotone row r c col hrowmem hr hb hcol (lt_of_getElem? h.sorted hrow hi hhigh)
                hbcol (not_le.mp hle)
            · rw [← Option.some.inj (hrow.symm.trans hi)]
              exact not_le.mp hle
        · exact hdom c hc hc' r hr

/-- A turn of `reduce` keeps the invariant. -/
theorem ReduceInv.turn {done stack : List ℕ}
    (hinv : ReduceInv A rows inputCols done stack) (hcol : col ∈ inputCols)
    (hdone : ∀ c ∈ done, c ∈ inputCols) (hlt : ∀ c ∈ done, c < col) :
    ∃ stack', reduceTurn lookup rows stack col = some stack' ∧
      ReduceInv A rows inputCols (done ++ [col]) stack' := by
  obtain ⟨top, heq, hsuffix, hstacked, hdom⟩ := popDefeated_spec h hcol hinv.length_le hinv.sorted
    hinv.stacked (fun c hc ↦ hdone c (hinv.mem c hc)) fun c hc ↦ hlt c (hinv.mem c hc)
  have hsub : ∀ c ∈ top, c ∈ stack := fun c hc ↦ hsuffix.subset hc
  have hturn : reduceTurn lookup rows stack col =
      some (if top.length < rows.length then col :: top else top) := by
    rw [reduceTurn, heq]
    rfl
  have hdom' : ∀ c ∈ done, c ∉ top → ∀ r ∈ rows, Dominated (A r) inputCols c := by
    intro c hc hctop
    by_cases hcs : c ∈ stack
    · exact hdom c hcs hctop
    · exact hinv.dominated c hc hcs
  rw [hturn]
  refine ⟨_, rfl, ?_⟩
  by_cases hroom : top.length < rows.length
  · rw [if_pos hroom]
    refine ⟨hroom, List.pairwise_cons.mpr ⟨fun c hc ↦ hlt c (hinv.mem c (hsub c hc)),
      hinv.sorted.sublist hsuffix.sublist⟩, hstacked, fun c hc ↦ ?_, fun c hc hctop ↦ ?_⟩
    · rcases List.mem_cons.mp hc with rfl | hc
      · exact List.mem_append_right done List.mem_cons_self
      · exact List.mem_append_left [col] (hinv.mem c (hsub c hc))
    · rw [List.mem_cons, not_or] at hctop
      rcases List.mem_append.mp hc with hc | hc
      · exact hdom' c hc hctop.2
      · exact absurd (List.mem_singleton.mp hc) hctop.1
  · rw [if_neg hroom]
    refine ⟨hsuffix.length_le.trans hinv.length_le, hinv.sorted.sublist hsuffix.sublist, hstacked.tail,
      fun c hc ↦ List.mem_append_left [col] (hinv.mem c (hsub c hc)), fun c hc hctop r hr ↦ ?_⟩
    rcases List.mem_append.mp hc with hc | hc
    · exact hdom' c hc hctop r hr
    · -- all rows have columns, and the last one of them is at least as good everywhere
      obtain rfl := List.mem_singleton.mp hc
      obtain ⟨i, hi⟩ := List.getElem?_of_mem hr
      have hilt : i < rows.length := (List.getElem?_eq_some_iff.mp hi).1
      cases top with
      | nil => exact absurd (Nat.zero_lt_of_lt hilt) hroom
      | cons b rest =>
          have hb : b ∈ done := hinv.mem b (hsub b List.mem_cons_self)
          rw [List.length_cons] at hroom
          exact ⟨b, hdone b hb, .inr ⟨hlt b hb, hstacked.1 i (by omega) r hi⟩⟩

/-- The columns that `reduce` leaves out are dominated in all rows. -/
theorem reduce_spec (hcols : inputCols.Pairwise (· < ·)) :
    ∃ cols, reduce lookup rows inputCols = some cols ∧ cols.Pairwise (· < ·) ∧
      (∀ c ∈ cols, c ∈ inputCols) ∧
      ∀ c ∈ inputCols, c ∉ cols → ∀ r ∈ rows, Dominated (A r) inputCols c := by
  have hrun : ∀ done rest : List ℕ, ∀ stack, done ++ rest = inputCols →
      ReduceInv A rows inputCols done stack →
      ∃ stack', rest.foldlM (reduceTurn lookup rows) stack = some stack' ∧
        ReduceInv A rows inputCols inputCols stack' := by
    intro done rest
    induction rest generalizing done with
    | nil =>
        rintro stack rfl hinv
        exact ⟨stack, rfl, by simpa only [List.append_nil] using hinv⟩
    | cons col rest ih =>
        rintro stack hsplit hinv
        have hpair := List.pairwise_append.mp (hsplit ▸ hcols)
        obtain ⟨stack', hturn, hinv'⟩ := hinv.turn h
          (hsplit ▸ List.mem_append_right done List.mem_cons_self)
          (fun c hc ↦ hsplit ▸ List.mem_append_left _ hc)
          fun c hc ↦ hpair.2.2 c hc col List.mem_cons_self
        obtain ⟨stack'', hfold, hfinal⟩ := ih (done ++ [col]) stack'
          (by rw [List.append_assoc]; exact hsplit) hinv'
        exact ⟨stack'', by rw [List.foldlM_cons, hturn]; exact hfold, hfinal⟩
  obtain ⟨stack, hfold, hinv⟩ := hrun [] inputCols [] rfl
    ⟨Nat.zero_le _, .nil, trivial, fun _ ↦ id, fun c hc ↦ absurd hc List.not_mem_nil⟩
  refine ⟨stack.reverse, by rw [reduce, hfold]; rfl, List.pairwise_reverse.mpr hinv.sorted,
    fun c hc ↦ hinv.mem c (List.mem_reverse.mp hc), fun c hc hc' ↦ ?_⟩
  exact hinv.dominated c hc fun hmem ↦ hc' (List.mem_reverse.mpr hmem)

theorem survivedCols_spec (hcols : inputCols.Pairwise (· < ·)) :
    ∃ cols, survivedCols lookup rows inputCols = some cols ∧ cols.Pairwise (· < ·) ∧
      (∀ c ∈ cols, c ∈ inputCols) ∧
      ∀ c ∈ inputCols, c ∉ cols → ∀ r ∈ rows, Dominated (A r) inputCols c := by
  rw [survivedCols]
  split
  · exact reduce_spec h hcols
  · exact ⟨inputCols, rfl, hcols, fun _ ↦ id, fun c hc hc' ↦ absurd hc hc'⟩

end

/-! ## The rows in between -/

theorem oddRows_sublist : ∀ rows : List ℕ, (oddRows rows).Sublist rows
  | [] => .slnil
  | [row] => List.nil_sublist [row]
  | a :: row :: rest => ((oddRows_sublist rest).cons_cons row).cons a

theorem length_oddRows_lt : ∀ {rows : List ℕ}, rows ≠ [] → (oddRows rows).length < rows.length
  | [_], _ => Nat.one_pos
  | a :: row :: rest, _ => by
      have h := (oddRows_sublist rest).length_le
      rw [oddRows, List.length_cons, List.length_cons, List.length_cons]
      omega

theorem idxToCol_getD (hcols : cols.Pairwise (· < ·)) {i : ℕ} (hi : i < cols.length) :
    idxToCol cols (cols.getD i 0) = i := by
  refine foldl_range_invariant
    (fun n (map : ℕ → ℕ) ↦ ∀ i < n, i < cols.length → map (cols.getD i 0) = i)
    (fun i hi ↦ absurd hi (Nat.not_lt_zero i)) ?_ i hi hi
  intro n hn map hmap i hi hlen
  by_cases heq : i = n
  · subst heq
    exact Function.update_self _ _ _
  · have hlt : cols.getD i 0 < cols.getD n 0 := by
      rw [List.getD_eq_getElem _ _ hlen, List.getD_eq_getElem _ _ hn]
      exact List.pairwise_iff_getElem.mp hcols i n hlen hn (by omega)
    rw [Function.update_of_ne hlt.ne]
    exact hmap i (by omega) hlen

theorem getD_lt_getD_iff (hcols : cols.Pairwise (· < ·)) {i j : ℕ} (hi : i < cols.length)
    (hj : j < cols.length) : cols.getD i 0 < cols.getD j 0 ↔ i < j := by
  have hlt : ∀ {i j}, i < cols.length → j < cols.length → i < j → cols.getD i 0 < cols.getD j 0 := by
    intro i j hi hj hij
    rw [List.getD_eq_getElem _ _ hi, List.getD_eq_getElem _ _ hj]
    exact List.pairwise_iff_getElem.mp hcols i j hi hj hij
  refine ⟨fun h ↦ ?_, hlt hi hj⟩
  rcases lt_trichotomy i j with hij | rfl | hij
  · exact hij
  · exact absurd h (lt_irrefl _)
  · exact absurd (hlt hj hi hij) h.asymm

theorem exists_getD_of_mem {c : ℕ} (hc : c ∈ cols) : ∃ i < cols.length, cols.getD i 0 = c := by
  obtain ⟨i, hi, rfl⟩ := List.getElem_of_mem hc
  exact ⟨i, hi, List.getD_eq_getElem _ _ hi⟩

/-- The first smallest entry of a row between two columns. -/
theorem interpolateRow_spec {row : ℕ} (start stop : ℕ) (argmins : List ℕ)
    (hlookup : ∀ c ∈ cols, lookup row c = some (A row c)) (hstart : start ≤ stop)
    (hstop : stop < cols.length) (hrow : row < argmins.length) :
    ∃ t, start ≤ t ∧ t ≤ stop ∧
      interpolateRow lookup cols row start stop argmins = some (argmins.set row (cols.getD t 0)) ∧
      ∀ i, start ≤ i → i ≤ stop → A row (cols.getD t 0) ≤ A row (cols.getD i 0) ∧
        (i < t → A row (cols.getD t 0) < A row (cols.getD i 0)) := by
  have hget : ∀ i < cols.length, cols[i]? = some (cols.getD i 0) := by
    intro i hi
    rw [List.getElem?_eq_getElem hi, List.getD_eq_getElem _ _ hi]
  have hval : ∀ i < cols.length, lookup row (cols.getD i 0) = some (A row (cols.getD i 0)) := by
    intro i hi
    refine hlookup _ ?_
    rw [List.getD_eq_getElem _ _ hi]
    exact List.getElem_mem hi
  have hscan : ∀ n, start + n < cols.length → ∃ t, start ≤ t ∧ t ≤ start + n ∧
      (List.range' (start + 1) n).foldlM (scanTurn lookup row cols)
        (cols.getD start 0, A row (cols.getD start 0)) = some (cols.getD t 0, A row (cols.getD t 0)) ∧
      ∀ i, start ≤ i → i ≤ start + n → A row (cols.getD t 0) ≤ A row (cols.getD i 0) ∧
        (i < t → A row (cols.getD t 0) < A row (cols.getD i 0)) := by
    intro n
    induction n with
    | zero =>
        intro _
        refine ⟨start, le_rfl, le_rfl, rfl, fun i hi hi' ↦ ?_⟩
        obtain rfl : i = start := by omega
        exact ⟨le_rfl, fun h ↦ absurd h (lt_irrefl i)⟩
    | succ n ih =>
        intro hn
        obtain ⟨t, ht, ht', hfold, hmin⟩ := ih (by omega)
        have hlast : start + 1 + 1 * n < cols.length := by omega
        have hturn : scanTurn lookup row cols (cols.getD t 0, A row (cols.getD t 0)) (start + 1 + 1 * n) =
            some (if A row (cols.getD (start + 1 + 1 * n) 0) < A row (cols.getD t 0) then
              (cols.getD (start + 1 + 1 * n) 0, A row (cols.getD (start + 1 + 1 * n) 0))
              else (cols.getD t 0, A row (cols.getD t 0))) := by
          rw [scanTurn, hget _ hlast]
          change (lookup row _).bind _ = _
          rw [hval _ hlast]
          rfl
        rw [List.range'_concat, foldlM_concat, hfold]
        change ∃ t, _ ∧ _ ∧ scanTurn lookup row cols _ _ = _ ∧ _
        rw [hturn]
        by_cases hlt : A row (cols.getD (start + 1 + 1 * n) 0) < A row (cols.getD t 0)
        · rw [if_pos hlt]
          refine ⟨start + 1 + 1 * n, by omega, by omega, rfl, fun i hi hi' ↦ ?_⟩
          by_cases heq : i = start + 1 + 1 * n
          · subst heq
            exact ⟨le_rfl, fun h ↦ absurd h (lt_irrefl _)⟩
          · have hall := hlt.trans_le (hmin i hi (by omega)).1
            exact ⟨hall.le, fun _ ↦ hall⟩
        · rw [if_neg hlt]
          refine ⟨t, ht, by omega, rfl, fun i hi hi' ↦ ?_⟩
          by_cases heq : i = start + 1 + 1 * n
          · subst heq
            exact ⟨not_lt.mp hlt, fun h ↦ absurd h (by omega)⟩
          · exact hmin i hi (by omega)
  obtain ⟨t, ht, ht', hfold, hmin⟩ := hscan (stop - start) (by omega)
  refine ⟨t, ht, by omega, ?_, fun i hi hi' ↦ hmin i hi (by omega)⟩
  rw [interpolateRow, hget start (by omega)]
  change (lookup row _).bind _ = _
  rw [hval start (by omega)]
  change ((List.range' (start + 1) (stop - start)).foldlM (scanTurn lookup row cols) _).bind _ = _
  rw [hfold]
  exact if_pos hrow

/-- A smallest entry between two columns that have smaller entries than those beyond them. -/
theorem firstMin_of_between {v : ℕ → α} (hcols : cols.Pairwise (· < ·)) {start stop t : ℕ}
    (hstart : start ≤ t) (htstop : t ≤ stop) (hstop : stop < cols.length)
    (hmin : ∀ i, start ≤ i → i ≤ stop → v (cols.getD t 0) ≤ v (cols.getD i 0) ∧
      (i < t → v (cols.getD t 0) < v (cols.getD i 0)))
    (hbefore : ∀ i < start, v (cols.getD start 0) < v (cols.getD i 0))
    (hafter : ∀ i < cols.length, stop < i → v (cols.getD stop 0) ≤ v (cols.getD i 0)) :
    FirstMin v cols (cols.getD t 0) := by
  have hlow : ∀ i < start, v (cols.getD t 0) < v (cols.getD i 0) := fun i hi ↦
    (hmin start le_rfl (hstart.trans htstop)).1.trans_lt (hbefore i hi)
  refine ⟨?_, fun c hc ↦ ?_, fun c hc hlt ↦ ?_⟩
  · rw [List.getD_eq_getElem _ _ (htstop.trans_lt hstop)]
    exact List.getElem_mem _
  · obtain ⟨i, hi, rfl⟩ := exists_getD_of_mem hc
    rcases Nat.lt_or_ge i start with hlt | hge
    · exact (hlow i hlt).le
    · rcases Nat.lt_or_ge stop i with hgt | hle
      · exact (hmin stop (hstart.trans htstop) le_rfl).1.trans (hafter i hi hgt)
      · exact (hmin i hge hle).1
  · obtain ⟨i, hi, rfl⟩ := exists_getD_of_mem hc
    have hit := (getD_lt_getD_iff hcols hi (htstop.trans_lt hstop)).mp hlt
    rcases Nat.lt_or_ge i start with hlt | hge
    · exact hlow i hlt
    · exact (hmin i hge (by omega)).2 hit

/-- The minima of the rows, given those of the rows with odd indices. -/
theorem interpolateLoop_spec (h : Searchable lookup A rows cols) (hcols : cols.Pairwise (· < ·))
    {start : ℕ} {argmins : List ℕ} (hstart : start < cols.length)
    (hbefore : ∀ r ∈ rows, ∀ i < start, A r (cols.getD start 0) < A r (cols.getD i 0))
    (hlen : ∀ r ∈ rows, r < argmins.length)
    (hodd : ∀ r ∈ oddRows rows, ∃ m, argmins[r]? = some m ∧ FirstMin (A r) cols m) :
    ∃ argmins', interpolateLoop lookup cols rows start argmins = some argmins' ∧
      argmins'.length = argmins.length ∧
      (∀ r ∈ rows, ∃ m, argmins'[r]? = some m ∧ FirstMin (A r) cols m) ∧
      ∀ i, i ∉ rows → argmins'[i]? = argmins[i]? := by
  have hmem : ∀ i < cols.length, cols.getD i 0 ∈ cols := by
    intro i hi
    rw [List.getD_eq_getElem _ _ hi]
    exact List.getElem_mem hi
  induction hn : rows.length using Nat.strong_induction_on generalizing rows start argmins with
  | _ n ih =>
      rcases rows with _ | ⟨row, _ | ⟨next, rest⟩⟩
      · exact ⟨argmins, rfl, rfl, fun r hr ↦ absurd hr List.not_mem_nil, fun _ _ ↦ rfl⟩
      · have hrow : row < argmins.length := hlen row List.mem_cons_self
        obtain ⟨t, ht, ht', heq, hmin⟩ := interpolateRow_spec start (cols.length - 1) argmins
          (h.lookup row List.mem_cons_self) (by omega) (by omega) hrow
        refine ⟨_, heq, List.length_set, fun r hr ↦ ?_, fun i hi ↦ ?_⟩
        · obtain rfl := List.mem_singleton.mp hr
          refine ⟨_, List.getElem?_set_self hrow, ?_⟩
          exact firstMin_of_between hcols ht ht' (by omega) hmin (hbefore r hr) fun i hi hlt ↦ by omega
        · rw [List.mem_singleton] at hi
          exact List.getElem?_set_ne (Ne.symm hi)
      · have hrow : row < argmins.length := hlen row List.mem_cons_self
        have hnext : next ∈ row :: next :: rest := List.mem_cons_of_mem row List.mem_cons_self
        have hsub : ∀ r ∈ rest, r ∈ row :: next :: rest := fun r hr ↦
          List.mem_cons_of_mem row (List.mem_cons_of_mem next hr)
        obtain ⟨hrowlt, hpair⟩ := List.pairwise_cons.mp h.sorted
        obtain ⟨hnextlt, hrest⟩ := List.pairwise_cons.mp hpair
        have hrownext : row < next := hrowlt next List.mem_cons_self
        obtain ⟨m, hm, hfirst⟩ := hodd next List.mem_cons_self
        obtain ⟨e, he, rfl⟩ := exists_getD_of_mem hfirst.mem
        have hse : start ≤ e := by
          by_contra hlt
          exact absurd (hfirst.le _ (hmem start hstart))
            (not_le.mpr (hbefore next hnext e (Nat.lt_of_not_le hlt)))
        obtain ⟨t, ht, ht', heq, hmin⟩ := interpolateRow_spec start e argmins
          (h.lookup row List.mem_cons_self) hse he hrow
        -- the minimum of the next row bounds those of this row and of the rows behind it
        have hfirstrow : FirstMin (A row) cols (cols.getD t 0) :=
          firstMin_of_between hcols ht ht' he hmin (hbefore row List.mem_cons_self) fun i hi hlt ↦
            h.monotone.le_of_le List.mem_cons_self hnext (hmem e he) (hmem i hi) hrownext
              ((getD_lt_getD_iff hcols he hi).mpr hlt) (hfirst.le _ (hmem i hi))
        have hbefore' : ∀ r ∈ rest, ∀ i < e, A r (cols.getD e 0) < A r (cols.getD i 0) := by
          intro r hr i hi
          have hlt := (getD_lt_getD_iff hcols (hi.trans he) he).mpr hi
          exact h.monotone next r _ _ hnext (hsub r hr) (hmem i (hi.trans he)) (hmem e he)
            (hnextlt r hr) hlt (hfirst.lt _ (hmem i (hi.trans he)) hlt)
        have hunset : ∀ r, r ≠ row → (argmins.set row (cols.getD t 0))[r]? = argmins[r]? := fun r hr ↦
          List.getElem?_set_ne hr.symm
        have hsearch : Searchable lookup A rest cols :=
          ⟨h.lookup.mono hsub fun _ ↦ id, h.monotone.mono hsub fun _ ↦ id, hrest⟩
        have hlen₁ : ∀ r ∈ rest, r < (argmins.set row (cols.getD t 0)).length := by
          intro r hr
          rw [List.length_set]
          exact hlen r (hsub r hr)
        have hodd₁ : ∀ r ∈ oddRows rest, ∃ m, (argmins.set row (cols.getD t 0))[r]? = some m ∧
            FirstMin (A r) cols m := by
          intro r hr
          obtain ⟨m, hm, hfirst⟩ := hodd r (List.mem_cons_of_mem next hr)
          have hrow := hrowlt r (List.mem_cons_of_mem next ((oddRows_sublist rest).subset hr))
          exact ⟨m, by rw [hunset r hrow.ne', hm], hfirst⟩
        obtain ⟨argmins', hloop, hlen', hall, hother⟩ := ih rest.length
          (by rw [← hn, List.length_cons, List.length_cons]; omega) hsearch he hbefore' hlen₁ hodd₁ rfl
        refine ⟨argmins', ?_, by rw [hlen', List.length_set], ?_, ?_⟩
        · rw [interpolateLoop, hm]
          change (interpolateRow lookup cols row start (idxToCol cols (cols.getD e 0)) argmins).bind _ = _
          rw [idxToCol_getD hcols he, heq]
          exact hloop
        · have hnotin : row ∉ rest := fun hr ↦ (hrowlt row (List.mem_cons_of_mem next hr)).ne rfl
          have hnextnot : next ∉ rest := fun hr ↦ (hnextlt next hr).ne rfl
          intro r hr
          rcases List.mem_cons.mp hr with rfl | hr
          · exact ⟨_, by rw [hother r hnotin, List.getElem?_set_self hrow], hfirstrow⟩
          · rcases List.mem_cons.mp hr with rfl | hr
            · exact ⟨_, by rw [hother r hnextnot, hunset r hrownext.ne', hm], hfirst⟩
            · exact hall r hr
        · intro i hi
          rw [List.mem_cons, List.mem_cons, not_or, not_or] at hi
          rw [hother i hi.2.2, hunset i hi.1]

/-! ## All rows -/

/-- The first smallest entries of the rows of a totally monotone matrix. -/
theorem smawkImpl_spec (depth : ℕ) (argmins : List ℕ) (h : Searchable lookup A rows inputCols)
    (hcols : inputCols.Pairwise (· < ·)) (hne : inputCols ≠ []) (hdepth : rows.length ≤ depth)
    (hlen : ∀ r ∈ rows, r < argmins.length) :
    ∃ argmins', smawkImpl lookup depth rows inputCols argmins = some argmins' ∧
      argmins'.length = argmins.length ∧
      ∀ r ∈ rows, ∃ m, argmins'[r]? = some m ∧ FirstMin (A r) inputCols m := by
  induction depth generalizing rows inputCols argmins with
  | zero =>
      obtain rfl := List.eq_nil_of_length_eq_zero (Nat.le_zero.mp hdepth)
      exact ⟨argmins, by rw [smawkImpl], rfl, fun r hr ↦ absurd hr List.not_mem_nil⟩
  | succ depth ih =>
      by_cases hrows : rows = []
      · subst hrows
        exact ⟨argmins, by rw [smawkImpl], rfl, fun r hr ↦ absurd hr List.not_mem_nil⟩
      · obtain ⟨cols, hreduce, hsorted, hsub, hdom⟩ := survivedCols_spec h hcols
        obtain ⟨r₀, hr₀⟩ := List.exists_mem_of_ne_nil rows hrows
        have hcolsne : cols ≠ [] :=
          FirstMin.ne_nil_of_subset (A r₀) hne fun c hc hc' ↦ hdom c hc hc' r₀ hr₀
        have hsearch : Searchable lookup A rows cols :=
          ⟨h.lookup.mono (fun _ ↦ id) hsub, h.monotone.mono (fun _ ↦ id) hsub, h.sorted⟩
        have hoddsub := (oddRows_sublist rows).subset
        have hoddlt := length_oddRows_lt hrows
        obtain ⟨argmins₁, hrec, hlen₁, hodd⟩ := ih argmins
          ⟨hsearch.lookup.mono hoddsub fun _ ↦ id, hsearch.monotone.mono hoddsub fun _ ↦ id,
            hsearch.sorted.sublist (oddRows_sublist rows)⟩ hsorted hcolsne (by omega)
          fun r hr ↦ hlen r (hoddsub hr)
        obtain ⟨argmins₂, hloop, hlen₂, hall, -⟩ := interpolateLoop_spec hsearch hsorted
          (List.length_pos_of_ne_nil hcolsne) (fun r _ i hi ↦ absurd hi (Nat.not_lt_zero i))
          (fun r hr ↦ by rw [hlen₁]; exact hlen r hr) hodd
        refine ⟨argmins₂, ?_, hlen₂.trans hlen₁, fun r hr ↦ ?_⟩
        · obtain ⟨row, rest, rfl⟩ := List.exists_cons_of_ne_nil hrows
          rw [smawkImpl, hreduce]
          change (smawkImpl lookup depth (oddRows (row :: rest)) cols argmins).bind _ = _
          rw [hrec]
          · exact hloop
          · exact List.cons_ne_nil row rest
        · obtain ⟨m, hm, hfirst⟩ := hall r hr
          exact ⟨m, hm, hfirst.of_subset hsub fun c hc hc' ↦ hdom c hc hc' r hr⟩

/-- `smawk` finds the first smallest entry of each row of a totally monotone matrix. -/
theorem smawk_firstMin {nrows ncols : ℕ} (hncols : 0 < ncols)
    (hlookup : ∀ r < nrows, ∀ c < ncols, lookup r c = some (A r c))
    (hmono : TotallyMonotone A (· < nrows) (· < ncols)) {argmins : List ℕ}
    (hlen : argmins.length = nrows) :
    ∃ argmins', smawk lookup nrows ncols argmins = some argmins' ∧ argmins'.length = nrows ∧
      ∀ r < nrows, ∃ m, argmins'[r]? = some m ∧ FirstMin (A r) (List.range ncols) m := by
  have hsearch : Searchable lookup A (List.range nrows) (List.range ncols) :=
    ⟨fun r hr c hc ↦ hlookup r (List.mem_range.mp hr) c (List.mem_range.mp hc),
      hmono.mono (fun r hr ↦ List.mem_range.mp hr) fun c hc ↦ List.mem_range.mp hc,
      List.pairwise_lt_range⟩
  obtain ⟨argmins', heq, hlen', hall⟩ := smawkImpl_spec nrows argmins hsearch
    List.pairwise_lt_range (List.ne_nil_of_mem (List.mem_range.mpr hncols)) List.length_range.le
    fun r hr ↦ by rw [hlen]; exact List.mem_range.mp hr
  exact ⟨argmins', heq, hlen'.trans hlen, fun r hr ↦ hall r (List.mem_range.mpr hr)⟩

end FaissNavix.Kmeans1d
