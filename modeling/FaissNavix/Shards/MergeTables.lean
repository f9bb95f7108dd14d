import FaissNavix.Float32
import FaissNavix.Lib.KSmallest
import FaissNavix.Lib.Loop
import FaissNavix.Lib.Region
import Mathlib.Algebra.Order.BigOperators.Group.Finset

/-!
# Merging one table of results into another

`merge_result_table_with` of `faiss/utils/utils.cpp`.  The rows of two tables are merged from their
best results on.  Whether the first table has a result left is told by its label; whether the second one
has, by the sign of its distance.

The merge is exact as long as that sign is right: the results of the second table that are wanted have
no negative distance, and what comes behind its last result neither looks like a result nor stands in the
way of those that the first table has left (`mergeResultTableWith_exact_iff`).
-/

namespace FaissNavix

open Lib

/-! ## The code -/

/-- What is written where "both are NaNs". -/
def noResult : F32 × ℤ := (⟨0x7fc00000#32⟩, -1)

/-- `lD0[r0] < lD1[r1]` with `keep_min`, and `lD0[r0] > lD1[r1]` without. -/
def comesFirst (keepMin : Bool) (d0 d1 : F32) : Bool :=
  if keepMin then decide (d0 < d1) else decide (d1 < d0)

/-- The variables of the loop over a row; `tmpD` and `tmpI` are one array. -/
structure RowMerge where
  r0 : ℕ
  r1 : ℕ
  tmp : List (F32 × ℤ)

/-- A turn of the loop over a row. -/
def RowMerge.turn (keepMin : Bool) (translation : ℤ) (l0 l1 : ℕ → F32 × ℤ) (s : RowMerge) : RowMerge :=
  if 0 ≤ (l0 s.r0).2 ∧ comesFirst keepMin (l0 s.r0).1 (l1 s.r1).1 = true then
    { s with r0 := s.r0 + 1, tmp := s.tmp ++ [l0 s.r0] }
  else if .zero ≤ (l1 s.r1).1 then
    { s with r1 := s.r1 + 1, tmp := s.tmp ++ [((l1 s.r1).1, (l1 s.r1).2 + translation)] }
  else { s with tmp := s.tmp ++ [noResult] }

def mergeTableRow (k : ℕ) (keepMin : Bool) (translation : ℤ) (l0 l1 : ℕ → F32 × ℤ) : RowMerge :=
  (List.range k).foldl (fun s _ ↦ s.turn keepMin translation l0 l1) ⟨0, 0, []⟩

/-- The first table, and how many values came from the second one. -/
structure MergedTables where
  tab : ℕ → F32 × ℤ
  n1 : ℕ

/-- `merge_result_table_with` -/
def mergeResultTableWith (n k : ℕ) (tab0 tab1 : ℕ → F32 × ℤ) (keepMin : Bool) (translation : ℤ) :
    MergedTables :=
  (List.range n).foldl (fun s i ↦
    let m := mergeTableRow k keepMin translation (fun j ↦ s.tab (i * k + j)) fun j ↦ tab1 (i * k + j)
    { tab := Lib.write s.tab (i * k) m.tmp, n1 := s.n1 + m.r1 }) ⟨tab0, 0⟩

/-! ## Rows of results -/

def mergeCost (keepMin : Bool) (d : F32) : ℤ := if keepMin then d.key else -d.key

/-- A row of `k` entries that begins with `c` results, the best one first. -/
structure TableRow (keepMin : Bool) (k c : ℕ) (row : ℕ → F32 × ℤ) : Prop where
  count_le : c ≤ k
  label : ∀ j < c, 0 ≤ (row j).2
  comparable : ∀ j < c, (row j).1.Comparable
  sorted : ∀ i j, i < j → j < c → mergeCost keepMin (row i).1 ≤ mergeCost keepMin (row j).1
  missing : ∀ j, c ≤ j → j < k → (row j).2 = -1

def translatedEntry (translation : ℤ) (row : ℕ → F32 × ℤ) (j : ℕ) : F32 × ℤ :=
  ((row j).1, (row j).2 + translation)

/-- The row `out` is the exact merge of the results `V0` and `V1`, of which it has `taken` from `V1`. -/
structure MergedRow (keepMin : Bool) (k : ℕ) (V0 V1 out : List (F32 × ℤ)) (taken : ℕ) : Prop where
  /-- The best results of both, as many as there is room for. -/
  best : KSmallest (fun x ↦ mergeCost keepMin x.1) k (↑V0 + ↑V1 : Multiset (F32 × ℤ))
    ↑(out.take (min k (V0.length + V1.length)))
  /-- They come from the one or the other. -/
  sources : ∃ T0 T1 : Multiset (F32 × ℤ), T0 ≤ ↑V0 ∧ T1 ≤ ↑V1 ∧
    ↑(out.take (min k (V0.length + V1.length))) = T0 + T1 ∧ T1.card = taken
  /-- They are in order. -/
  sorted : (out.take (min k (V0.length + V1.length))).Pairwise fun x y ↦
    mergeCost keepMin x.1 ≤ mergeCost keepMin y.1
  /-- There is nothing else. -/
  missing : ∀ x ∈ out.drop (min k (V0.length + V1.length)), x.2 = -1

/-- The sign of a distance of the second table tells whether it is that of a result, where it is asked:
* a result that is wanted has no negative distance;
* a result of the first table that comes behind all those of the second one still beats what the second
  one has there;
* when all results have been taken, there is something negative or a NaN. -/
structure MergeSafe (keepMin : Bool) (k a b : ℕ) (l0 l1 : ℕ → F32 × ℤ) : Prop where
  wanted : ∀ m < b, m + ((Finset.range a).filter fun i ↦
    mergeCost keepMin (l0 i).1 < mergeCost keepMin (l1 m).1).card < k → .zero ≤ (l1 m).1
  remaining : ∀ i < a, i + b < k →
    (∃ m < b, mergeCost keepMin (l0 i).1 < mergeCost keepMin (l1 m).1) ∨
      comesFirst keepMin (l0 i).1 (l1 b).1 = true
  ended : a + b < k → ¬ .zero ≤ (l1 b).1

theorem comesFirst_iff {keepMin : Bool} {d0 d1 : F32} (h0 : d0.Comparable) (h1 : d1.Comparable) :
    comesFirst keepMin d0 d1 = true ↔ mergeCost keepMin d0 < mergeCost keepMin d1 := by
  cases keepMin with
  | true => simp [comesFirst, mergeCost, F32.lt_iff_key h0 h1]
  | false => simp [comesFirst, mergeCost, F32.lt_iff_key h1 h0]

theorem TableRow.cost_le {keepMin : Bool} {k c i j : ℕ} {row : ℕ → F32 × ℤ}
    (h : TableRow keepMin k c row) (hij : i ≤ j) (hj : j < c) :
    mergeCost keepMin (row i).1 ≤ mergeCost keepMin (row j).1 := by
  rcases hij.lt_or_eq with hij | rfl
  · exact h.sorted i j hij hj
  · exact le_rfl

/-! ## The loop over a row -/

section Row

variable {keepMin : Bool} {translation : ℤ} {k a b j : ℕ} {l0 l1 : ℕ → F32 × ℤ} {s : RowMerge}

/-- What holds after `j` turns of the loop over a row. -/
structure RowMerge.Inv (keepMin : Bool) (translation : ℤ) (a b : ℕ) (l0 l1 : ℕ → F32 × ℤ) (j : ℕ)
    (s : RowMerge) : Prop where
  le : s.r0 + s.r1 ≤ j
  r0_le : s.r0 ≤ a
  written : ∃ out, s.tmp = out ++ List.replicate (j - (s.r0 + s.r1)) noResult ∧
    (↑out : Multiset (F32 × ℤ)) = ↑(Lib.read l0 0 s.r0) + ↑(Lib.read (translatedEntry translation l1) 0 s.r1) ∧
    (s.r1 ≤ b → out.Pairwise fun x y ↦ mergeCost keepMin x.1 ≤ mergeCost keepMin y.1)
  stuck : s.r0 + s.r1 < j →
    ¬ (0 ≤ (l0 s.r0).2 ∧ comesFirst keepMin (l0 s.r0).1 (l1 s.r1).1 = true) ∧ ¬ .zero ≤ (l1 s.r1).1
  nonneg : ∀ m < s.r1, .zero ≤ (l1 m).1
  beaten : ∀ i < s.r0, ∃ m ≤ s.r1, comesFirst keepMin (l0 i).1 (l1 m).1 = true
  before : ∀ i < s.r0, ∀ m, s.r1 ≤ m → m < b →
    mergeCost keepMin (l0 i).1 < mergeCost keepMin (l1 m).1
  behind : ∀ m < s.r1, m < b → ∀ i, s.r0 ≤ i → i < a →
    mergeCost keepMin (l1 m).1 ≤ mergeCost keepMin (l0 i).1

theorem RowMerge.turn_cases (keepMin : Bool) (translation : ℤ) (l0 l1 : ℕ → F32 × ℤ) (s : RowMerge) :
    ((0 ≤ (l0 s.r0).2 ∧ comesFirst keepMin (l0 s.r0).1 (l1 s.r1).1 = true) ∧
        s.turn keepMin translation l0 l1 = ⟨s.r0 + 1, s.r1, s.tmp ++ [l0 s.r0]⟩) ∨
      (¬ (0 ≤ (l0 s.r0).2 ∧ comesFirst keepMin (l0 s.r0).1 (l1 s.r1).1 = true) ∧ .zero ≤ (l1 s.r1).1 ∧
        s.turn keepMin translation l0 l1 =
          ⟨s.r0, s.r1 + 1, s.tmp ++ [translatedEntry translation l1 s.r1]⟩) ∨
      (¬ (0 ≤ (l0 s.r0).2 ∧ comesFirst keepMin (l0 s.r0).1 (l1 s.r1).1 = true) ∧ ¬ .zero ≤ (l1 s.r1).1 ∧
        s.turn keepMin translation l0 l1 = ⟨s.r0, s.r1, s.tmp ++ [noResult]⟩) := by
  by_cases hfirst : 0 ≤ (l0 s.r0).2 ∧ comesFirst keepMin (l0 s.r0).1 (l1 s.r1).1 = true
  · exact .inl ⟨hfirst, if_pos hfirst⟩
  · by_cases hsecond : F32.zero ≤ (l1 s.r1).1
    · exact .inr (.inl ⟨hfirst, hsecond, by rw [turn, if_neg hfirst, if_pos hsecond]; rfl⟩)
    · exact .inr (.inr ⟨hfirst, hsecond, by rw [turn, if_neg hfirst, if_neg hsecond]⟩)

theorem mem_written {out : List (F32 × ℤ)} {r0 r1 : ℕ} {x : F32 × ℤ}
    (h : (↑out : Multiset (F32 × ℤ)) =
      ↑(Lib.read l0 0 r0) + ↑(Lib.read (translatedEntry translation l1) 0 r1)) (hx : x ∈ out) :
    (∃ i < r0, l0 i = x) ∨ ∃ m < r1, translatedEntry translation l1 m = x := by
  have hx' : x ∈ (↑out : Multiset (F32 × ℤ)) := hx
  rw [h, Multiset.mem_add, Multiset.mem_coe, Multiset.mem_coe, mem_read, mem_read] at hx'
  simpa only [Nat.zero_add] using hx'

theorem RowMerge.Inv.init : RowMerge.Inv keepMin translation a b l0 l1 0 ⟨0, 0, []⟩ where
  le := le_rfl
  r0_le := Nat.zero_le a
  written := ⟨[], rfl, rfl, fun _ ↦ .nil⟩
  stuck h := absurd h (Nat.not_lt_zero 0)
  nonneg m hm := absurd hm (Nat.not_lt_zero m)
  beaten i hi := absurd hi (Nat.not_lt_zero i)
  before i hi := absurd hi (Nat.not_lt_zero i)
  behind m hm := absurd hm (Nat.not_lt_zero m)

theorem RowMerge.Inv.eq_of_taken (h : s.Inv keepMin translation a b l0 l1 j)
    (htaken : (0 ≤ (l0 s.r0).2 ∧ comesFirst keepMin (l0 s.r0).1 (l1 s.r1).1 = true) ∨
      .zero ≤ (l1 s.r1).1) : s.r0 + s.r1 = j := by
  rcases h.le.lt_or_eq with hlt | heq
  · exact absurd htaken (not_or.mpr (h.stuck hlt))
  · exact heq

section
variable (h0 : TableRow keepMin k a l0) (h1 : TableRow keepMin k b l1)
  (h : s.Inv keepMin translation a b l0 l1 j)
include h0 h1 h

/-- The entry of the first row comes first. -/
theorem RowMerge.Inv.takeFirst (hj : j < k)
    (hfirst : 0 ≤ (l0 s.r0).2 ∧ comesFirst keepMin (l0 s.r0).1 (l1 s.r1).1 = true) :
    RowMerge.Inv keepMin translation a b l0 l1 (j + 1) ⟨s.r0 + 1, s.r1, s.tmp ++ [l0 s.r0]⟩ := by
  have hsum := h.eq_of_taken (.inl hfirst)
  have hr0 : s.r0 < a := by
    by_contra hle
    have hmiss := h0.missing s.r0 (Nat.le_of_not_lt hle) (by omega)
    have hlabel := hfirst.1
    omega
  have hbetter : ∀ m, s.r1 ≤ m → m < b →
      mergeCost keepMin (l0 s.r0).1 < mergeCost keepMin (l1 m).1 := fun m hm hmb ↦
    lt_of_lt_of_le ((comesFirst_iff (h0.comparable _ hr0) (h1.comparable _ (hm.trans_lt hmb))).mp
      hfirst.2) (h1.cost_le hm hmb)
  obtain ⟨out, htmp, hperm, hsorted⟩ := h.written
  rw [hsum, Nat.sub_self, List.replicate_zero, List.append_nil] at htmp
  refine ⟨?_, hr0, ⟨out ++ [l0 s.r0], ?_, ?_, fun hb ↦ ?_⟩, fun hlt ↦ ?_, h.nonneg, ?_, ?_, ?_⟩
  · change s.r0 + 1 + s.r1 ≤ j + 1
    omega
  · change s.tmp ++ [l0 s.r0] = _ ++ List.replicate (j + 1 - (s.r0 + 1 + s.r1)) noResult
    rw [htmp, show j + 1 - (s.r0 + 1 + s.r1) = 0 by omega, List.replicate_zero, List.append_nil]
  · rw [read_succ, ← Multiset.coe_add, ← Multiset.coe_add, hperm, Nat.zero_add, add_right_comm]
  · refine List.pairwise_append.mpr ⟨hsorted hb, List.pairwise_singleton _ _, fun x hx y hy ↦ ?_⟩
    obtain rfl := List.mem_singleton.mp hy
    rcases mem_written hperm hx with ⟨i, hi, rfl⟩ | ⟨m, hm, rfl⟩
    · exact h0.cost_le hi.le hr0
    · exact h.behind m hm (hm.trans_le hb) s.r0 le_rfl hr0
  · exact absurd hlt (by change ¬ s.r0 + 1 + s.r1 < j + 1; omega)
  · intro i hi
    rcases Nat.lt_succ_iff_lt_or_eq.mp hi with hi | rfl
    · exact h.beaten i hi
    · exact ⟨s.r1, le_rfl, hfirst.2⟩
  · intro i hi m hm hmb
    rcases Nat.lt_succ_iff_lt_or_eq.mp hi with hi | rfl
    · exact h.before i hi m hm hmb
    · exact hbetter m hm hmb
  · exact fun m hm hmb i hi ↦ h.behind m hm hmb i (Nat.le_of_succ_le hi)

/-- The entry of the second row looks like a result. -/
theorem RowMerge.Inv.takeSecond
    (hfirst : ¬ (0 ≤ (l0 s.r0).2 ∧ comesFirst keepMin (l0 s.r0).1 (l1 s.r1).1 = true))
    (hsecond : .zero ≤ (l1 s.r1).1) :
    RowMerge.Inv keepMin translation a b l0 l1 (j + 1)
      ⟨s.r0, s.r1 + 1, s.tmp ++ [translatedEntry translation l1 s.r1]⟩ := by
  have hsum := h.eq_of_taken (.inr hsecond)
  have hworse : ∀ i, s.r0 ≤ i → i < a → s.r1 < b →
      mergeCost keepMin (l1 s.r1).1 ≤ mergeCost keepMin (l0 i).1 := by
    intro i hi hia hb
    have hr0 := hi.trans_lt hia
    refine le_trans (not_lt.mp fun hlt ↦ hfirst ⟨h0.label _ hr0, ?_⟩) (h0.cost_le hi hia)
    exact (comesFirst_iff (h0.comparable _ hr0) (h1.comparable _ hb)).mpr hlt
  obtain ⟨out, htmp, hperm, hsorted⟩ := h.written
  rw [hsum, Nat.sub_self, List.replicate_zero, List.append_nil] at htmp
  refine ⟨?_, h.r0_le, ⟨out ++ [translatedEntry translation l1 s.r1], ?_, ?_, fun hb ↦ ?_⟩, fun hlt ↦ ?_,
    ?_, ?_, ?_, ?_⟩
  · change s.r0 + (s.r1 + 1) ≤ j + 1
    omega
  · change s.tmp ++ [_] = _ ++ List.replicate (j + 1 - (s.r0 + (s.r1 + 1))) noResult
    rw [htmp, show j + 1 - (s.r0 + (s.r1 + 1)) = 0 by omega, List.replicate_zero, List.append_nil]
  · rw [read_succ, ← Multiset.coe_add, ← Multiset.coe_add, hperm, Nat.zero_add, add_assoc]
  · refine List.pairwise_append.mpr
      ⟨hsorted (Nat.le_of_succ_le hb), List.pairwise_singleton _ _, fun x hx y hy ↦ ?_⟩
    obtain rfl := List.mem_singleton.mp hy
    rcases mem_written hperm hx with ⟨i, hi, rfl⟩ | ⟨m, hm, rfl⟩
    · exact (h.before i hi s.r1 le_rfl hb).le
    · exact h1.cost_le hm.le hb
  · exact absurd hlt (by change ¬ s.r0 + (s.r1 + 1) < j + 1; omega)
  · intro m hm
    rcases Nat.lt_succ_iff_lt_or_eq.mp hm with hm | rfl
    · exact h.nonneg m hm
    · exact hsecond
  · intro i hi
    obtain ⟨m, hm, hbeats⟩ := h.beaten i hi
    exact ⟨m, Nat.le_succ_of_le hm, hbeats⟩
  · exact fun i hi m hm hmb ↦ h.before i hi m (Nat.le_of_succ_le hm) hmb
  · intro m hm hmb i hi hia
    rcases Nat.lt_succ_iff_lt_or_eq.mp hm with hm | rfl
    · exact h.behind m hm hmb i hi hia
    · exact hworse i hi hia hmb

end

theorem RowMerge.Inv.takeNone (h : s.Inv keepMin translation a b l0 l1 j)
    (hfirst : ¬ (0 ≤ (l0 s.r0).2 ∧ comesFirst keepMin (l0 s.r0).1 (l1 s.r1).1 = true))
    (hsecond : ¬ .zero ≤ (l1 s.r1).1) :
    RowMerge.Inv keepMin translation a b l0 l1 (j + 1) ⟨s.r0, s.r1, s.tmp ++ [noResult]⟩ := by
  have hle := h.le
  obtain ⟨out, htmp, hperm, hsorted⟩ := h.written
  refine ⟨Nat.le_succ_of_le hle, h.r0_le, ⟨out, ?_, hperm, hsorted⟩, fun _ ↦ ⟨hfirst, hsecond⟩,
    h.nonneg, h.beaten, h.before, h.behind⟩
  change s.tmp ++ [noResult] = out ++ List.replicate (j + 1 - (s.r0 + s.r1)) noResult
  rw [htmp, Nat.succ_sub hle, List.replicate_succ', List.append_assoc]

theorem RowMerge.Inv.turn (h0 : TableRow keepMin k a l0) (h1 : TableRow keepMin k b l1)
    (h : s.Inv keepMin translation a b l0 l1 j) (hj : j < k) :
    (s.turn keepMin translation l0 l1).Inv keepMin translation a b l0 l1 (j + 1) := by
  obtain ⟨hfirst, heq⟩ | ⟨hfirst, hsecond, heq⟩ | ⟨hfirst, hsecond, heq⟩ :=
    s.turn_cases keepMin translation l0 l1
  · rw [heq]
    exact h.takeFirst h0 h1 hj hfirst
  · rw [heq]
    exact h.takeSecond h0 h1 hfirst hsecond
  · rw [heq]
    exact h.takeNone hfirst hsecond

theorem mergeTableRow_inv (h0 : TableRow keepMin k a l0) (h1 : TableRow keepMin k b l1) :
    (mergeTableRow k keepMin translation l0 l1).Inv keepMin translation a b l0 l1 k :=
  foldl_range_invariant (RowMerge.Inv keepMin translation a b l0 l1) .init
    fun _ hj _ h ↦ h.turn h0 h1 hj

/-! ## When a row is merged exactly -/

/-- As long as the signs tell what they are asked, no more than the results of the second row are
taken. -/
theorem RowMerge.Inv.r1_le_turn (h0 : TableRow keepMin k a l0) (hsafe : MergeSafe keepMin k a b l0 l1)
    (h : s.Inv keepMin translation a b l0 l1 j) (hj : j < k) (hb : s.r1 ≤ b) :
    (s.turn keepMin translation l0 l1).r1 ≤ b := by
  obtain ⟨-, heq⟩ | ⟨hfirst, hsecond, heq⟩ | ⟨-, -, heq⟩ := s.turn_cases keepMin translation l0 l1
  · rwa [heq]
  · rw [heq]
    refine Nat.succ_le_of_lt (hb.lt_of_ne fun hend ↦ ?_)
    have hsum := h.eq_of_taken (.inr hsecond)
    rcases h.r0_le.lt_or_eq with hr0 | hr0
    · -- the first row has results left, and the next one is beaten by what is no result
      refine hfirst ⟨h0.label _ hr0, ?_⟩
      rcases hsafe.remaining s.r0 hr0 (by omega) with ⟨m, hm, hlt⟩ | hbeats
      · exact absurd hlt (not_lt.mpr (h.behind m (by omega) hm s.r0 le_rfl hr0))
      · rwa [hend]
    · exact hsafe.ended (by omega) (hend ▸ hsecond)
  · rwa [heq]

section
variable (h0 : TableRow keepMin k a l0) (h1 : TableRow keepMin k b l1)
include h0 h1

theorem mergeTableRow_r1_le (hsafe : MergeSafe keepMin k a b l0 l1) :
    (mergeTableRow k keepMin translation l0 l1).r1 ≤ b :=
  (foldl_range_invariant
    (fun j (s : RowMerge) ↦ s.Inv keepMin translation a b l0 l1 j ∧ s.r1 ≤ b)
    ⟨.init, Nat.zero_le b⟩
    fun _ hj _ h ↦ ⟨h.1.turn h0 h1 hj, h.1.r1_le_turn h0 hsafe hj h.2⟩).2

/-- The number of entries of the first row that beat the next one of the second row. -/
theorem RowMerge.Inv.card_beating (h : s.Inv keepMin translation a b l0 l1 j) (hb : s.r1 < b)
    (hfirst : ¬ (0 ≤ (l0 s.r0).2 ∧ comesFirst keepMin (l0 s.r0).1 (l1 s.r1).1 = true)) :
    ((Finset.range a).filter fun i ↦
      mergeCost keepMin (l0 i).1 < mergeCost keepMin (l1 s.r1).1).card = s.r0 := by
  have heq : ((Finset.range a).filter fun i ↦
      mergeCost keepMin (l0 i).1 < mergeCost keepMin (l1 s.r1).1) = Finset.range s.r0 := by
    ext i
    rw [Finset.mem_filter, Finset.mem_range, Finset.mem_range]
    constructor
    · rintro ⟨hi, hlt⟩
      by_contra hle
      have hr0 : s.r0 < a := (Nat.le_of_not_lt hle).trans_lt hi
      refine hfirst ⟨h0.label _ hr0, ?_⟩
      refine (comesFirst_iff (h0.comparable _ hr0) (h1.comparable _ hb)).mpr ?_
      exact (h0.cost_le (Nat.le_of_not_lt hle) hi).trans_lt hlt
    · intro hi
      exact ⟨hi.trans_le h.r0_le, h.before i hi s.r1 le_rfl hb⟩
  rw [heq, Finset.card_range]

/-- All that is wanted has been taken when the signs tell what they are asked. -/
theorem RowMerge.Inv.sum_of_safe
    (hsafe : MergeSafe keepMin k a b l0 l1) (h : s.Inv keepMin translation a b l0 l1 k)
    (hb : s.r1 ≤ b) : s.r0 + s.r1 = min k (a + b) := by
  have hle := h.le
  have hr0 := h.r0_le
  by_contra hne
  have hk : s.r0 + s.r1 < k := by omega
  obtain ⟨hfirst, hsecond⟩ := h.stuck hk
  rcases hb.lt_or_eq with hb | hb
  · refine hsecond (hsafe.wanted s.r1 hb ?_)
    rw [h.card_beating h0 h1 hb hfirst]
    omega
  · have hr0 : s.r0 < a := by omega
    refine hfirst ⟨h0.label _ hr0, ?_⟩
    rcases hsafe.remaining s.r0 hr0 (by omega) with ⟨m, hm, hlt⟩ | hbeats
    · exact absurd hlt (not_lt.mpr (h.behind m (by omega) hm s.r0 le_rfl hr0))
    · rwa [hb]

/-- If all that is wanted has been taken, and nothing else, then the signs told what they were asked. -/
theorem RowMerge.Inv.safe
    (h : s.Inv keepMin translation a b l0 l1 k) (hb : s.r1 ≤ b) (hsum : s.r0 + s.r1 = min k (a + b)) : MergeSafe keepMin k a b l0 l1 := by
  have hr0 := h.r0_le
  refine ⟨fun m hm hroom ↦ ?_, fun i hia hroom ↦ ?_, fun hroom ↦ ?_⟩
  · by_contra hneg
    have hle : s.r1 ≤ m := by
      by_contra hlt
      exact hneg (h.nonneg m (Nat.lt_of_not_le hlt))
    have hsub : Finset.range s.r0 ⊆ (Finset.range a).filter fun i ↦
        mergeCost keepMin (l0 i).1 < mergeCost keepMin (l1 m).1 := by
      intro i hi
      have hi := Finset.mem_range.mp hi
      exact Finset.mem_filter.mpr ⟨Finset.mem_range.mpr (hi.trans_le hr0), h.before i hi m hle hm⟩
    have hcard := Finset.card_le_card hsub
    have hall : ((Finset.range a).filter fun i ↦
        mergeCost keepMin (l0 i).1 < mergeCost keepMin (l1 m).1).card ≤ a :=
      (Finset.card_filter_le _ _).trans_eq (Finset.card_range a)
    rw [Finset.card_range] at hcard
    omega
  · have hi : i < s.r0 := by omega
    obtain ⟨m, hm, hbeats⟩ := h.beaten i hi
    rcases (hm.trans hb).lt_or_eq with hmb | rfl
    · exact .inl ⟨m, hmb, (comesFirst_iff (h0.comparable _ hia) (h1.comparable _ hmb)).mp hbeats⟩
    · exact .inr hbeats
  · have hend : s.r1 = b := by omega
    exact hend ▸ (h.stuck (by omega)).2

end

/-! ## What is left in a row -/

theorem not_comparable_noResult : ¬ noResult.1.Comparable := by decide

theorem comparable_of_mem (h0 : TableRow keepMin k a l0) (h1 : TableRow keepMin k b l1) {x : F32 × ℤ}
    (hx : x ∈ (↑(Lib.read l0 0 a) + ↑(Lib.read (translatedEntry translation l1) 0 b) :
      Multiset (F32 × ℤ))) : x.1.Comparable := by
  rcases Multiset.mem_add.mp hx with hx | hx
  · obtain ⟨i, hi, rfl⟩ := mem_read.mp hx
    rw [Nat.zero_add]
    exact h0.comparable i hi
  · obtain ⟨m, hm, rfl⟩ := mem_read.mp hx
    rw [Nat.zero_add]
    exact h1.comparable m hm

theorem read_split {α : Type} (m : ℕ → α) {r n : ℕ} (h : r ≤ n) :
    (↑(Lib.read m 0 n) : Multiset α) = ↑(Lib.read m 0 r) + ↑(Lib.read m r (n - r)) := by
  obtain ⟨d, rfl⟩ := Nat.exists_eq_add_of_le h
  rw [read_add, Multiset.coe_add, Nat.zero_add, Nat.add_sub_cancel_left]

/-- A row in which all that is wanted has been taken, and nothing else, is merged exactly. -/
theorem RowMerge.Inv.merged (h0 : TableRow keepMin k a l0) (h1 : TableRow keepMin k b l1)
    (h : s.Inv keepMin translation a b l0 l1 k) (hb : s.r1 ≤ b) (hsum : s.r0 + s.r1 = min k (a + b)) :
    MergedRow keepMin k (Lib.read l0 0 a) (Lib.read (translatedEntry translation l1) 0 b) s.tmp s.r1 := by
  obtain ⟨out, htmp, hperm, hsorted⟩ := h.written
  have hlen : out.length = s.r0 + s.r1 := by
    simpa only [Multiset.coe_card, Multiset.card_add, length_read] using congrArg Multiset.card hperm
  have htake : s.tmp.take (min k ((Lib.read l0 0 a).length +
      (Lib.read (translatedEntry translation l1) 0 b).length)) = out := by
    rw [length_read, length_read, ← hsum, htmp, ← hlen, List.take_left]
  have hdrop : s.tmp.drop (min k ((Lib.read l0 0 a).length +
      (Lib.read (translatedEntry translation l1) 0 b).length)) =
        List.replicate (k - (s.r0 + s.r1)) noResult := by
    rw [length_read, length_read, ← hsum, htmp, ← hlen, List.drop_left]
  have hr0 := h.r0_le
  have h0split := read_split l0 hr0
  have h1split := read_split (translatedEntry translation l1) hb
  refine ⟨⟨↑(Lib.read l0 s.r0 (a - s.r0)) + ↑(Lib.read (translatedEntry translation l1) s.r1 (b - s.r1)),
    ?_, ?_, fun hne ↦ ?_, fun x hx y hy ↦ ?_⟩,
    ⟨↑(Lib.read l0 0 s.r0), ↑(Lib.read (translatedEntry translation l1) 0 s.r1), ?_, ?_, ?_, ?_⟩, ?_, ?_⟩
  · rw [htake, hperm, h0split, h1split, add_add_add_comm]
  · rw [htake, Multiset.coe_card, hlen, hsum]
    exact min_le_left _ _
  · have hpos := Multiset.card_pos.mpr hne
    rw [Multiset.card_add, Multiset.coe_card, Multiset.coe_card, length_read,
      length_read] at hpos
    rw [htake, Multiset.coe_card, hlen]
    omega
  · rw [htake] at hx
    rcases Multiset.mem_add.mp hy with hy | hy
    · obtain ⟨i, hi, rfl⟩ := mem_read.mp hy
      rcases mem_written hperm hx with ⟨i', hi', rfl⟩ | ⟨m, hm, rfl⟩
      · exact h0.cost_le (by omega) (by omega)
      · exact h.behind m hm (by omega) _ (Nat.le_add_right _ _) (by omega)
    · obtain ⟨m, hm, rfl⟩ := mem_read.mp hy
      rcases mem_written hperm hx with ⟨i, hi, rfl⟩ | ⟨m', hm', rfl⟩
      · exact (h.before i hi _ (Nat.le_add_right _ _) (by omega)).le
      · exact h1.cost_le (by omega) (by omega)
  · rw [h0split]
    exact Multiset.le_add_right _ _
  · rw [h1split]
    exact Multiset.le_add_right _ _
  · rw [htake, hperm]
  · rw [Multiset.coe_card, length_read]
  · rw [htake]
    exact hsorted hb
  · intro x hx
    rw [hdrop] at hx
    rw [List.eq_of_mem_replicate hx]
    rfl

variable {taken : ℕ} (h0 : TableRow keepMin k a l0) (h1 : TableRow keepMin k b l1)
  (h : s.Inv keepMin translation a b l0 l1 k)
  (hm : MergedRow keepMin k (Lib.read l0 0 a) (Lib.read (translatedEntry translation l1) 0 b) s.tmp taken)
include taken h0 h1 h hm

theorem RowMerge.Inv.le_of_merged :
    min k (a + b) ≤ s.r0 + s.r1 := by
  obtain ⟨out, htmp, hperm, -⟩ := h.written
  have hlen : out.length = s.r0 + s.r1 := by
    simpa only [Multiset.coe_card, Multiset.card_add, length_read] using congrArg Multiset.card hperm
  by_contra hlt
  refine not_comparable_noResult (comparable_of_mem h0 h1 (Multiset.mem_of_le hm.best.sub ?_))
  rw [Multiset.mem_coe, length_read, length_read, htmp, List.take_append, List.mem_append,
    List.take_replicate, List.mem_replicate]
  exact .inr ⟨by omega, rfl⟩

/-- No more results of the second row are in a row that is merged exactly than were taken. -/
theorem RowMerge.Inv.taken_le :
    taken ≤ s.r1 := by
  obtain ⟨T0, T1, -, hT1, hsum, rfl⟩ := hm.sources
  have hcard := Multiset.card_le_card hT1
  rw [Multiset.coe_card, length_read] at hcard
  rcases Nat.lt_or_ge b s.r1 with hb | hb
  · omega
  · obtain ⟨out, htmp, hperm, -⟩ := h.written
    have hlen : out.length = s.r0 + s.r1 := by
      simpa only [Multiset.coe_card, Multiset.card_add, length_read] using
        congrArg Multiset.card hperm
    have hle := h.le_of_merged h0 h1 hm
    have hr0 := h.r0_le
    have hk := h.le
    have hc : min k ((Lib.read l0 0 a).length + (Lib.read (translatedEntry translation l1) 0 b).length) =
        out.length := by
      rw [length_read, length_read, hlen]
      omega
    rw [hc, htmp, List.take_left, hperm] at hsum
    -- nothing that was taken from the first row is also left in the second one
    have hdisj : (↑(Lib.read (translatedEntry translation l1) s.r1 (b - s.r1)) : Multiset (F32 × ℤ)) ∩
        ↑(Lib.read l0 0 s.r0) = 0 := by
      refine Multiset.eq_zero_of_forall_notMem fun x hx ↦ ?_
      obtain ⟨hx1, hx0⟩ := Multiset.mem_inter.mp hx
      obtain ⟨m, hm, rfl⟩ := mem_read.mp hx1
      obtain ⟨i, hi, heq⟩ := mem_read.mp hx0
      have hlt := h.before i hi (s.r1 + m) (Nat.le_add_right _ _) (by omega)
      rw [Nat.zero_add] at heq
      rw [heq] at hlt
      exact lt_irrefl _ hlt
    have hmeet : T1 ≤ ↑(Lib.read (translatedEntry translation l1) 0 s.r1) := by
      have hleft : T1 ≤ ↑(Lib.read (translatedEntry translation l1) s.r1 (b - s.r1)) +
          ↑(Lib.read (translatedEntry translation l1) 0 s.r1) := by
        rw [add_comm, ← read_split _ hb]
        exact hT1
      have hright : T1 ≤ ↑(Lib.read l0 0 s.r0) + ↑(Lib.read (translatedEntry translation l1) 0 s.r1) := by
        rw [hsum]
        exact Multiset.le_add_left _ _
      have hboth := Multiset.le_inter hleft hright
      rwa [← Multiset.inter_add_distrib, hdisj, zero_add] at hboth
    have hfinal := Multiset.card_le_card hmeet
    rwa [Multiset.coe_card, length_read] at hfinal

end Row

/-! ## Whole tables -/

/-- The merge of row `i`. -/
def mergeOfRow (k : ℕ) (tab0 tab1 : ℕ → F32 × ℤ) (keepMin : Bool) (translation : ℤ) (i : ℕ) : RowMerge :=
  mergeTableRow k keepMin translation (fun j ↦ tab0 (i * k + j)) fun j ↦ tab1 (i * k + j)

/-- Each row of `out` is the exact merge of the results in the rows of `tab0` and `tab1`, `counts` of
which it begins with, and `n1` of the results come from `tab1`. -/
def ExactMerge (n k : ℕ) (tab0 tab1 : ℕ → F32 × ℤ) (keepMin : Bool) (translation : ℤ) (a b : ℕ → ℕ)
    (out : MergedTables) : Prop :=
  ∃ taken : ℕ → ℕ, (∀ i < n, MergedRow keepMin k (Lib.read tab0 (i * k) (a i))
    (Lib.read (translatedEntry translation tab1) (i * k) (b i)) (Lib.read out.tab (i * k) k) (taken i)) ∧
    out.n1 = ∑ i ∈ Finset.range n, taken i

section Tables

variable {n k : ℕ} {tab0 tab1 : ℕ → F32 × ℤ} {keepMin : Bool} {translation : ℤ} {a b : ℕ → ℕ}

@[simp] theorem length_tmp_turn (l0 l1 : ℕ → F32 × ℤ) (s : RowMerge) :
    (s.turn keepMin translation l0 l1).tmp.length = s.tmp.length + 1 := by
  obtain ⟨-, heq⟩ | ⟨-, -, heq⟩ | ⟨-, -, heq⟩ := s.turn_cases keepMin translation l0 l1 <;>
    rw [heq, List.length_append, List.length_singleton]

theorem length_tmp_mergeTableRow (l0 l1 : ℕ → F32 × ℤ) :
    (mergeTableRow k keepMin translation l0 l1).tmp.length = k :=
  foldl_range_invariant (fun j (s : RowMerge) ↦ s.tmp.length = j) rfl
    fun _ _ s hs ↦ by rw [length_tmp_turn, hs]

/-- What holds when the first `i` rows have been merged. -/
structure RowsMerged (k : ℕ) (tab0 tab1 : ℕ → F32 × ℤ) (keepMin : Bool) (translation : ℤ) (i : ℕ)
    (s : MergedTables) : Prop where
  done : ∀ j < i, Lib.read s.tab (j * k) k = (mergeOfRow k tab0 tab1 keepMin translation j).tmp
  ahead : ∀ x, i * k ≤ x → s.tab x = tab0 x
  n1 : s.n1 = ∑ j ∈ Finset.range i, (mergeOfRow k tab0 tab1 keepMin translation j).r1

theorem mergeResultTableWith_rows (n k : ℕ) (tab0 tab1 : ℕ → F32 × ℤ) (keepMin : Bool)
    (translation : ℤ) : RowsMerged k tab0 tab1 keepMin translation n
      (mergeResultTableWith n k tab0 tab1 keepMin translation) := by
  refine foldl_range_invariant (RowsMerged k tab0 tab1 keepMin translation) ?_ fun i _ s h ↦ ?_
  · exact ⟨fun j hj ↦ absurd hj (Nat.not_lt_zero j), fun _ _ ↦ rfl, rfl⟩
  · have hrow : mergeTableRow k keepMin translation (fun j ↦ s.tab (i * k + j))
        (fun j ↦ tab1 (i * k + j)) = mergeOfRow k tab0 tab1 keepMin translation i := by
      rw [mergeOfRow]
      congr 1
      funext j
      exact h.ahead _ (Nat.le_add_right _ _)
    have hlen : (mergeOfRow k tab0 tab1 keepMin translation i).tmp.length = k :=
      length_tmp_mergeTableRow _ _
    simp only [hrow]
    refine ⟨fun j hj ↦ ?_, fun x hx ↦ ?_, ?_⟩
    · rcases Nat.lt_succ_iff_lt_or_eq.mp hj with hj | rfl
      · rw [read_write_of_disjoint, h.done j hj]
        exact .inl (by rw [← Nat.succ_mul]; exact Nat.mul_le_mul_right k hj)
      · have hread : Lib.read (Lib.write s.tab (j * k)
            (mergeOfRow k tab0 tab1 keepMin translation j).tmp) (j * k + 0) k =
              ((mergeOfRow k tab0 tab1 keepMin translation j).tmp.drop 0).take k :=
          read_write_of_within (by omega)
        rw [Nat.add_zero, List.drop_zero] at hread
        rw [hread, List.take_of_length_le hlen.le]
    · rw [Nat.succ_mul] at hx
      change Lib.write s.tab (i * k) _ x = tab0 x
      rw [write_of_outside (.inr (by omega)), h.ahead x (by omega)]
    · rw [Finset.sum_range_succ, ← h.n1]

theorem read_row {α : Type} (m : ℕ → α) (o n : ℕ) :
    Lib.read (fun j ↦ m (o + j)) 0 n = Lib.read m o n := by
  simp only [Lib.read, Nat.zero_add]

/-- Where the rows of both tables begin with their results, `merge_result_table_with` merges them exactly
if and only if, in every row, the signs of the distances in the second table tell what they are asked. -/
theorem mergeResultTableWith_exact_iff
    (h0 : ∀ i < n, TableRow keepMin k (a i) fun j ↦ tab0 (i * k + j))
    (h1 : ∀ i < n, TableRow keepMin k (b i) fun j ↦ tab1 (i * k + j)) :
    ExactMerge n k tab0 tab1 keepMin translation a b
        (mergeResultTableWith n k tab0 tab1 keepMin translation) ↔
      ∀ i < n, MergeSafe keepMin k (a i) (b i) (fun j ↦ tab0 (i * k + j)) fun j ↦ tab1 (i * k + j) := by
  have hrows := mergeResultTableWith_rows n k tab0 tab1 keepMin translation
  have hinv : ∀ i < n, (mergeOfRow k tab0 tab1 keepMin translation i).Inv keepMin translation (a i)
      (b i) (fun j ↦ tab0 (i * k + j)) (fun j ↦ tab1 (i * k + j)) k :=
    fun i hi ↦ mergeTableRow_inv (h0 i hi) (h1 i hi)
  have hread0 : ∀ i, Lib.read tab0 (i * k) (a i) = Lib.read (fun j ↦ tab0 (i * k + j)) 0 (a i) :=
    fun i ↦ (read_row tab0 (i * k) (a i)).symm
  have hread1 : ∀ i, Lib.read (translatedEntry translation tab1) (i * k) (b i) =
      Lib.read (translatedEntry translation fun j ↦ tab1 (i * k + j)) 0 (b i) :=
    fun i ↦ (read_row (translatedEntry translation tab1) (i * k) (b i)).symm
  constructor
  · rintro ⟨taken, hmerged, hn1⟩ i hi
    have hrow : ∀ i < n, MergedRow keepMin k (Lib.read (fun j ↦ tab0 (i * k + j)) 0 (a i))
        (Lib.read (translatedEntry translation fun j ↦ tab1 (i * k + j)) 0 (b i))
        (mergeOfRow k tab0 tab1 keepMin translation i).tmp (taken i) := by
      intro i hi
      rw [← hread0, ← hread1, ← hrows.done i hi]
      exact hmerged i hi
    -- no row has more than were taken there, and the sums agree
    have hle : ∀ i ∈ Finset.range n, taken i ≤ (mergeOfRow k tab0 tab1 keepMin translation i).r1 :=
      fun i hi ↦ (hinv i (Finset.mem_range.mp hi)).taken_le (h0 i (Finset.mem_range.mp hi))
        (h1 i (Finset.mem_range.mp hi)) (hrow i (Finset.mem_range.mp hi))
    have heq := (Finset.sum_eq_sum_iff_of_le hle).mp (hn1.symm.trans hrows.n1) i
      (Finset.mem_range.mpr hi)
    obtain ⟨T0, T1, -, hT1, -, hcard⟩ := (hrow i hi).sources
    have hb := Multiset.card_le_card hT1
    rw [Multiset.coe_card, length_read, hcard, heq] at hb
    have hsum := (hinv i hi).le_of_merged (h0 i hi) (h1 i hi) (hrow i hi)
    have hr0 := (hinv i hi).r0_le
    have hk := (hinv i hi).le
    exact (hinv i hi).safe (h0 i hi) (h1 i hi) hb (by omega)
  · intro hsafe
    refine ⟨fun i ↦ (mergeOfRow k tab0 tab1 keepMin translation i).r1, fun i hi ↦ ?_, hrows.n1⟩
    have hb : (mergeOfRow k tab0 tab1 keepMin translation i).r1 ≤ b i :=
      mergeTableRow_r1_le (h0 i hi) (h1 i hi) (hsafe i hi)
    rw [hrows.done i hi, hread0, hread1]
    exact (hinv i hi).merged (h0 i hi) (h1 i hi) hb
      ((hinv i hi).sum_of_safe (h0 i hi) (h1 i hi) (hsafe i hi) hb)

end Tables

/-- One result in each table: 1.0 for the vector 5, and 2.0 for the vector 7. -/
theorem mergeResultTableWith_exact_iff_one :
    ExactMerge 1 2 (fun j ↦ if j = 0 then (⟨0x3f800000#32⟩, 5) else noResult)
      (fun j ↦ if j = 0 then (⟨0x40000000#32⟩, 7) else noResult) true 10 (fun _ ↦ 1) (fun _ ↦ 1)
      (mergeResultTableWith 1 2 (fun j ↦ if j = 0 then (⟨0x3f800000#32⟩, 5) else noResult)
        (fun j ↦ if j = 0 then (⟨0x40000000#32⟩, 7) else noResult) true 10) := by
  refine (mergeResultTableWith_exact_iff (fun i hi ↦ ?_) fun i hi ↦ ?_).mpr fun i hi ↦ ?_
  · obtain rfl : i = 0 := by omega
    exact ⟨by decide, by decide, by decide, fun i j hij hj ↦ by omega, by decide⟩
  · obtain rfl : i = 0 := by omega
    exact ⟨by decide, by decide, by decide, fun i j hij hj ↦ by omega, by decide⟩
  · obtain rfl : i = 0 := by omega
    exact ⟨by decide, by decide, by decide⟩

/-- The largest values are kept, and the only result has the similarity -1.0: it is lost. -/
theorem not_exactMerge_negative :
    TableRow false 1 0 (fun _ ↦ (.lowest, -1)) ∧ TableRow false 1 1 (fun _ ↦ (⟨0xbf800000#32⟩, 0)) ∧
      F32.isNaN ⟨0xbf800000#32⟩ = false ∧
      ¬ ExactMerge 1 1 (fun _ ↦ (.lowest, -1)) (fun _ ↦ (⟨0xbf800000#32⟩, 0)) false 0 (fun _ ↦ 0)
        (fun _ ↦ 1) (mergeResultTableWith 1 1 (fun _ ↦ (.lowest, -1)) (fun _ ↦ (⟨0xbf800000#32⟩, 0))
          false 0) := by
  refine ⟨⟨by decide, by decide, by decide, fun i j hij hj ↦ by omega, by decide⟩,
    ⟨by decide, by decide, by decide, fun i j hij hj ↦ by omega, fun j hj hjk ↦ by omega⟩, by decide, ?_⟩
  rintro ⟨taken, hmerged, -⟩
  have hread : Lib.read (mergeResultTableWith 1 1 (fun _ ↦ (.lowest, -1))
      (fun _ ↦ (⟨0xbf800000#32⟩, 0)) false 0).tab (0 * 1) 1 = [noResult] := by decide
  have hbest := (hmerged 0 Nat.one_pos).best.sub
  rw [hread] at hbest
  have hmem : noResult ∈ (↑(Lib.read (fun _ ↦ ((.lowest, -1) : F32 × ℤ)) (0 * 1) 0) +
      ↑(Lib.read (translatedEntry 0 fun _ ↦ ((⟨0xbf800000#32⟩, 0) : F32 × ℤ)) (0 * 1) 1) :
        Multiset (F32 × ℤ)) := Multiset.mem_of_le hbest (by decide)
  exact absurd hmem (by decide)

end FaissNavix
