import FaissNavix.BucketSort
import Mathlib.Algebra.Order.BigOperators.Group.Finset

/-!
# What the bucket sort in place returns

The sort follows its cycles to the end if the values `-1` come first, and otherwise it comes back to
the same place again and again.
-/

namespace FaissNavix

open Function
open Lib

variable {ncol nval nbucket : ℕ} {V : ℕ → ℤ} {rest : Finset ℕ} {s : SortCycle}

/-! ## One turn -/

/-- `ptrs` after the row has been written, if there is one. -/
def SortCycle.advanced (s : SortCycle) : ℕ → ℕ :=
  if 0 ≤ s.row then bump s.ptrs s.bucketNo else s.ptrs

/-- The values at the places `rest` are still to be lifted. -/
structure Cycling (ncol nval nbucket : ℕ) (V : ℕ → ℤ) (rest : Finset ℕ) (s : SortCycle) : Prop where
  following : Following ncol nval nbucket V s.vals s.ptrs (carried s.row s.bucketNo) rest
  row : s.row = -1 ∨ 0 ≤ s.row
  bucketNo_lt : s.bucketNo < nbucket
  start : s.row = -1 → Unwritten nval nbucket V s.ptrs (s.ptrs s.bucketNo)
  passed : ∀ b < nbucket, b < s.initBucketNo → valuesBelow nval V (b + 1) ≤ s.ptrs b

def Sorted (ncol nval nbucket : ℕ) (V vals : ℕ → ℤ) : Prop :=
  ∀ b < nbucket, writtenAt vals (valuesBelow nval V b) (valuesBelow nval V (b + 1)) =
    rowsAt ncol V (Finset.Ico (valuesBelow nval V 0) nval) b

theorem carried_neg (b : ℕ) : carried (-1) b = fun _ ↦ 0 := by
  funext b'
  exact if_neg fun h ↦ absurd h.1 (by decide)

theorem Cycling.after (h : Cycling ncol nval nbucket V rest s) :
    Unwritten nval nbucket V s.ptrs (s.ptrs s.bucketNo) ∧
    Following ncol nval nbucket V (update s.vals (s.ptrs s.bucketNo) s.row) s.advanced
      (lifted ncol V rest (s.ptrs s.bucketNo)) (rest.erase (s.ptrs s.bucketNo)) ∧
    ∀ p, Unwritten nval nbucket V s.advanced p ↔
      Unwritten nval nbucket V s.ptrs p ∧ (0 ≤ s.row → p ≠ s.ptrs s.bucketNo) := by
  have hfollowing := h.following
  rcases h.row with hrow | hrow
  · rw [hrow, carried_neg] at hfollowing
    have hadvanced : s.advanced = s.ptrs := if_neg (by omega)
    rw [hadvanced, hrow]
    exact ⟨h.start hrow, hfollowing.lift (h.start hrow), fun p ↦ ⟨fun hp ↦ ⟨hp, by omega⟩, And.left⟩⟩
  · obtain ⟨hlt, hplace⟩ := hfollowing.place h.bucketNo_lt hrow
    have hadvanced : s.advanced = bump s.ptrs s.bucketNo := if_pos hrow
    rw [hadvanced]
    refine ⟨⟨_, h.bucketNo_lt, le_rfl, hlt⟩, hplace, fun p ↦ ?_⟩
    rw [hfollowing.unwritten_bump h.bucketNo_lt hlt]
    exact and_congr_right fun _ ↦ ⟨fun hne _ ↦ hne, fun hne ↦ hne hrow⟩

theorem SortCycle.le_advanced (s : SortCycle) (b : ℕ) : s.ptrs b ≤ s.advanced b := by
  unfold SortCycle.advanced
  split
  · exact le_bump _ _ _
  · exact le_rfl

theorem Unwritten.lt {ptrs : ℕ → ℕ} {p : ℕ} (h : Unwritten nval nbucket V ptrs p) : p < nval := by
  obtain ⟨b, -, -, hp⟩ := h
  exact hp.trans_le (List.countP_le_length.trans List.length_range.le)

/-- The turn that goes on with the value that it finds. -/
theorem Cycling.turn_lifts (hV : ∀ p < nval, -1 ≤ V p ∧ V p < nbucket)
    (h : Cycling ncol nval nbucket V rest s) (hnext : s.vals (s.ptrs s.bucketNo) ≠ -1) :
    s.ptrs s.bucketNo ∈ rest ∧ Cycling ncol nval nbucket V (rest.erase (s.ptrs s.bucketNo))
      ⟨update s.vals (s.ptrs s.bucketNo) s.row, s.advanced, (s.ptrs s.bucketNo / ncol : ℕ),
        (s.vals (s.ptrs s.bucketNo)).toNat, s.initBucketNo⟩ := by
  obtain ⟨hidx, hafter, -⟩ := h.after
  have hrest : s.ptrs s.bucketNo ∈ rest := by
    by_contra hout
    exact hnext (h.following.taken _ hout hidx)
  have hval := h.following.original _ hrest
  have hbounds := hV _ hidx.lt
  rw [hval] at hnext ⊢
  have hcarried : lifted ncol V rest (s.ptrs s.bucketNo) =
      carried ((s.ptrs s.bucketNo / ncol : ℕ) : ℤ) (V (s.ptrs s.bucketNo)).toNat := by
    funext b
    exact if_congr (by
      rw [and_iff_right hrest, and_iff_right (Int.natCast_nonneg _)]
      omega) rfl rfl
  rw [hcarried] at hafter
  refine ⟨hrest, hafter, Or.inr (Int.natCast_nonneg _), ?_, fun hrow ↦ ?_, fun b hb hpassed ↦ ?_⟩
  · change (V (s.ptrs s.bucketNo)).toNat < nbucket
    omega
  · have hrow : ((s.ptrs s.bucketNo / ncol : ℕ) : ℤ) = -1 := hrow
    exact absurd (hrow ▸ Int.natCast_nonneg _ : (0 : ℤ) ≤ -1) (by decide)
  · exact (h.passed b hb hpassed).trans (s.le_advanced b)

theorem Cycling.turn_ends (h : Cycling ncol nval nbucket V rest s)
    (hnext : s.vals (s.ptrs s.bucketNo) = -1) : Following ncol nval nbucket V
      (update s.vals (s.ptrs s.bucketNo) s.row) s.advanced (fun _ ↦ 0) (rest.erase (s.ptrs s.bucketNo)) := by
  obtain ⟨-, hafter, -⟩ := h.after
  have hnone : lifted ncol V rest (s.ptrs s.bucketNo) = fun _ ↦ 0 := by
    funext b
    refine if_neg fun hlifted ↦ ?_
    have hval := h.following.original _ hlifted.1
    have := hlifted.2
    omega
  rwa [hnone] at hafter

variable {assertions : Bool} {lims : ℕ → ℕ}

theorem nextBucket_eq_none {ptrs : ℕ → ℕ} {init : ℕ} (h : nextBucket nbucket lims ptrs init = none) {b : ℕ}
    (hinit : init ≤ b) (hb : b < nbucket) : lims (b + 1) ≤ ptrs b := by
  have hfound := List.find?_range'_eq_none.mp h b hinit (by omega)
  simpa using hfound

theorem nextBucket_eq_some {ptrs : ℕ → ℕ} {init b : ℕ} (h : nextBucket nbucket lims ptrs init = some b) :
    b < nbucket ∧ ptrs b < lims (b + 1) ∧ ∀ b', init ≤ b' → b' < b → lims (b' + 1) ≤ ptrs b' := by
  obtain ⟨hb, hmem, hbefore⟩ := List.find?_range'_eq_some.mp h
  have hmem := List.mem_range'_1.mp hmem
  refine ⟨by omega, of_decide_eq_true hb, fun b' hinit hlt ↦ ?_⟩
  simpa using hbefore b' hinit hlt

section
variable (hV : ∀ p < nval, -1 ≤ V p ∧ V p < nbucket)
  (hlims : ∀ b ≤ nbucket, lims b = valuesBelow nval V b) (h : Cycling ncol nval nbucket V rest s)
include hV hlims h

/-- What a turn can do. -/
theorem Cycling.turn
    (hasserted : ¬ (assertions = true ∧ lims (s.bucketNo + 1) ≤ s.ptrs s.bucketNo)) :
    (s.ptrs s.bucketNo ∈ rest ∧ s.vals (s.ptrs s.bucketNo) ≠ -1 ∧ ∃ s' : SortCycle,
      cycleTurn assertions ncol nval nbucket lims (some s) = .next (some s') ∧
      Cycling ncol nval nbucket V (rest.erase (s.ptrs s.bucketNo)) s' ∧ 0 ≤ s'.row ∧ s'.ptrs = s.advanced) ∨
    (s.vals (s.ptrs s.bucketNo) = -1 ∧ ∃ s' : SortCycle, s'.ptrs = s.advanced ∧
      ((cycleTurn assertions ncol nval nbucket lims (some s) = .next (some s') ∧
        Cycling ncol nval nbucket V (rest.erase (s.ptrs s.bucketNo)) s' ∧ s'.row = -1 ∧
        s'.ptrs s'.bucketNo < lims (s'.bucketNo + 1)) ∨
      (cycleTurn assertions ncol nval nbucket lims (some s) = .done (some s') ∧
        Sorted ncol nval nbucket V s'.vals ∧ ∀ b < nbucket, s'.ptrs b = lims (b + 1)))) := by
  obtain ⟨hidx, -, hunwritten⟩ := h.after
  have hbounds : ¬ (nbucket ≤ s.bucketNo ∨ nval ≤ s.ptrs s.bucketNo) := by
    have := h.bucketNo_lt
    have := hidx.lt
    omega
  by_cases hnext : s.vals (s.ptrs s.bucketNo) ≠ -1
  · obtain ⟨hrest, hcycling⟩ := h.turn_lifts hV hnext
    have hturn : cycleTurn assertions ncol nval nbucket lims (some s) =
        .next (some ⟨update s.vals (s.ptrs s.bucketNo) s.row, s.advanced, (s.ptrs s.bucketNo / ncol : ℕ),
          (s.vals (s.ptrs s.bucketNo)).toNat, s.initBucketNo⟩) := by
      unfold cycleTurn
      dsimp only
      rw [if_neg hasserted, if_neg hbounds, if_pos hnext]
      rfl
    exact Or.inl ⟨hrest, hnext, _, hturn, hcycling, Int.natCast_nonneg _, rfl⟩
  · have hends := h.turn_ends (not_not.mp hnext)
    refine Or.inr ⟨not_not.mp hnext, ?_⟩
    cases hfound : nextBucket nbucket lims s.advanced s.initBucketNo with
    | none =>
        have hturn : cycleTurn assertions ncol nval nbucket lims (some s) =
            .done (some ⟨update s.vals (s.ptrs s.bucketNo) s.row, s.advanced, s.row, s.bucketNo,
              nbucket⟩) := by
          unfold cycleTurn
          dsimp only
          rw [if_neg hasserted, if_neg hbounds, if_neg hnext]
          exact hfound ▸ rfl
        have hfull : ∀ b < nbucket, s.advanced b = lims (b + 1) := fun b hb ↦ by
          have hle := (hends.ptrs_mem b hb).2
          have hlim := hlims (b + 1) hb
          by_cases hinit : s.initBucketNo ≤ b
          · have := nextBucket_eq_none hfound hinit hb
            omega
          · have := (h.passed b hb (by omega)).trans (s.le_advanced b)
            omega
        refine ⟨_, rfl, Or.inr ⟨hturn, fun b hb ↦ ?_, hfull⟩⟩
        have hnone : rest.erase (s.ptrs s.bucketNo) = ∅ := by
          refine Finset.eq_empty_of_forall_notMem fun p hp ↦ ?_
          obtain ⟨b, hb, hl, hr⟩ := hends.rest_mem p hp
          rw [hfull b hb, hlims (b + 1) hb] at hl
          omega
        have haccount := hends.account b hb
        rw [hfull b hb, hlims (b + 1) hb, hnone, add_zero] at haccount
        rw [← haccount]
        exact (add_zero _).symm
    | some b =>
        have hturn : cycleTurn assertions ncol nval nbucket lims (some s) =
            .next (some ⟨update s.vals (s.ptrs s.bucketNo) s.row, s.advanced, -1, b, b⟩) := by
          unfold cycleTurn
          dsimp only
          rw [if_neg hasserted, if_neg hbounds, if_neg hnext]
          exact hfound ▸ rfl
        obtain ⟨hb, hlt, hbefore⟩ := nextBucket_eq_some hfound
        refine ⟨_, rfl, Or.inl ⟨hturn, ⟨?_, Or.inl rfl, hb, fun _ ↦ ?_, fun b' hb' hlt' ↦ ?_⟩, rfl, hlt⟩⟩
        · rw [carried_neg]
          exact hends
        · refine ⟨b, hb, le_rfl, ?_⟩
          rw [← hlims (b + 1) hb]
          exact hlt
        · rw [← hlims (b' + 1) hb']
          by_cases hinit : s.initBucketNo ≤ b'
          · exact hbefore b' hinit hlt'
          · rw [hlims (b' + 1) hb']
            exact (h.passed b' hb' (by omega)).trans (s.le_advanced b')

/-! ## The loop -/

/-- The buckets are written when the loop ends. -/
theorem Cycling.sorted_of_end {turns : ℕ}
    {r : SortCycle} (hr : iterate (cycleTurn assertions ncol nval nbucket lims) turns (some s) = some (some r)) :
    Sorted ncol nval nbucket V r.vals := by
  refine @Lib.iterate_partial _ _ (fun t ↦ ∀ s, t = some s → ∃ rest, Cycling ncol nval nbucket V rest s)
    (fun t ↦ ∀ r, t = some r → Sorted ncol nval nbucket V r.vals) ?_ ?_ turns (some s) (some r)
    (fun s' hs' ↦ ⟨rest, Option.some.inj hs' ▸ h⟩) hr r rfl
  · rintro (_ | s) t ht hnext s' rfl
    · cases hnext
    · obtain ⟨rest, hs⟩ := ht s rfl
      by_cases hasserted : assertions = true ∧ lims (s.bucketNo + 1) ≤ s.ptrs s.bucketNo
      · unfold cycleTurn at hnext
        dsimp only at hnext
        rw [if_pos hasserted] at hnext
        cases hnext
      · obtain ⟨-, -, s'', hturn, hs', -⟩ | ⟨-, s'', -, ⟨hturn, hs', -⟩ | ⟨hturn, -⟩⟩ :=
          hs.turn hV hlims hasserted
        · obtain rfl := Option.some.inj (Turn.next.inj (hturn.symm.trans hnext))
          exact ⟨_, hs'⟩
        · obtain rfl := Option.some.inj (Turn.next.inj (hturn.symm.trans hnext))
          exact ⟨_, hs'⟩
        · cases hturn.symm.trans hnext
  · rintro (_ | s) t ht hdone r rfl
    · cases hdone
    · obtain ⟨rest, hs⟩ := ht s rfl
      by_cases hasserted : assertions = true ∧ lims (s.bucketNo + 1) ≤ s.ptrs s.bucketNo
      · unfold cycleTurn at hdone
        dsimp only at hdone
        rw [if_pos hasserted] at hdone
        cases hdone
      · obtain ⟨-, -, s'', hturn, hs', -⟩ | ⟨-, s'', -, ⟨hturn, hs', -⟩ | ⟨hturn, hsorted, -⟩⟩ :=
          hs.turn hV hlims hasserted
        · cases hturn.symm.trans hdone
        · cases hturn.symm.trans hdone
        · obtain rfl := Option.some.inj (Turn.done.inj (hturn.symm.trans hdone))
          exact hsorted

end

/-- A state from which the loop ends: all places but one have the values that are still to be lifted, and the
one where the cycle began is the end of it. -/
structure Ending (assertions : Bool) (ncol nval nbucket : ℕ) (V : ℕ → ℤ) (lims : ℕ → ℕ) (rest : Finset ℕ)
    (s : SortCycle) : Prop extends Cycling ncol nval nbucket V rest s where
  assigned : ∀ p ∈ rest, V p ≠ -1
  all_left : s.row = -1 → ∀ p, Unwritten nval nbucket V s.ptrs p → p ∈ rest
  one_taken : 0 ≤ s.row → ∃ q, ∀ p ∉ rest, Unwritten nval nbucket V s.ptrs p → p = q
  asserted : s.row = -1 → assertions = true → s.ptrs s.bucketNo < lims (s.bucketNo + 1)

def leftToWrite (nbucket : ℕ) (lims ptrs : ℕ → ℕ) : ℕ :=
  ∑ b ∈ Finset.range nbucket, (lims (b + 1) - ptrs b)

theorem leftToWrite_bump {ptrs : ℕ → ℕ} {b : ℕ} (hb : b < nbucket) (hlt : ptrs b < lims (b + 1)) :
    leftToWrite nbucket lims (bump ptrs b) < leftToWrite nbucket lims ptrs := by
  refine Finset.sum_lt_sum (fun b' _ ↦ ?_) ⟨b, Finset.mem_range.mpr hb, ?_⟩
  · have := le_bump ptrs b b'
    omega
  · rw [bump_self]
    omega

def turnsLeft (nbucket : ℕ) (lims : ℕ → ℕ) (s : SortCycle) : ℕ :=
  2 * leftToWrite nbucket lims s.ptrs + if s.row = -1 then 1 else 0

/-- A turn that ends the loop, or comes nearer to its end. -/
theorem Ending.turn (hV : ∀ p < nval, -1 ≤ V p ∧ V p < nbucket)
    (hlims : ∀ b ≤ nbucket, lims b = valuesBelow nval V b)
    (h : Ending assertions ncol nval nbucket V lims rest s) :
    (∃ s', cycleTurn assertions ncol nval nbucket lims (some s) = .done (some s') ∧
      Sorted ncol nval nbucket V s'.vals ∧ ∀ b < nbucket, s'.ptrs b = lims (b + 1)) ∨
    ∃ s', cycleTurn assertions ncol nval nbucket lims (some s) = .next (some s') ∧
      (∃ rest', Ending assertions ncol nval nbucket V lims rest' s') ∧
      turnsLeft nbucket lims s' < turnsLeft nbucket lims s := by
  obtain ⟨hidx, -, hunwritten⟩ := h.toCycling.after
  have hlim := hlims (s.bucketNo + 1) h.bucketNo_lt
  rcases h.row with hrow | hrow
  · -- a cycle begins
    have hadvanced : s.advanced = s.ptrs := if_neg (by omega)
    have hleft := h.all_left hrow _ hidx
    obtain ⟨-, hnext, s', hturn, hs', hrow', hptrs⟩ | ⟨hnext, -⟩ := h.toCycling.turn hV hlims fun hasserted ↦
      absurd (h.asserted hrow hasserted.1) (Nat.not_lt.mpr hasserted.2)
    · refine Or.inr ⟨s', hturn, ⟨_, ⟨hs', fun p hp ↦ ?_, fun hrow ↦ by omega, fun _ ↦ ⟨s.ptrs s.bucketNo, ?_⟩,
        fun hrow ↦ by omega⟩⟩, ?_⟩
      · exact h.assigned p (Finset.mem_of_mem_erase hp)
      · intro p hp hp'
        rw [hptrs, hadvanced] at hp'
        by_contra hne
        exact hp (Finset.mem_erase.mpr ⟨hne, h.all_left hrow p hp'⟩)
      · unfold turnsLeft
        rw [hptrs, hadvanced, if_pos hrow, if_neg (by omega)]
        exact Nat.lt_succ_self _
    · rw [h.following.original _ hleft] at hnext
      exact absurd hnext (h.assigned _ hleft)
  · have hadvanced : s.advanced = bump s.ptrs s.bucketNo := if_pos hrow
    have hlt := (h.following.place h.bucketNo_lt hrow).1
    rw [← hlim] at hlt
    have hless := leftToWrite_bump h.bucketNo_lt hlt
    rw [← hadvanced] at hless
    have hmeasure : ∀ s' : SortCycle, s'.ptrs = s.advanced →
        turnsLeft nbucket lims s' < turnsLeft nbucket lims s := fun s' hptrs ↦ by
      unfold turnsLeft
      rw [hptrs]
      split_ifs <;> omega
    have hasserted : ¬ (assertions = true ∧ lims (s.bucketNo + 1) ≤ s.ptrs s.bucketNo) := fun hasserted ↦
      absurd hlt (Nat.not_lt.mpr hasserted.2)
    obtain ⟨q, hq⟩ := h.one_taken hrow
    have hstill : ∀ p ∉ rest.erase (s.ptrs s.bucketNo), Unwritten nval nbucket V s.advanced p →
        p ∉ rest ∧ Unwritten nval nbucket V s.ptrs p ∧ p ≠ s.ptrs s.bucketNo := fun p hp hp' ↦ by
      obtain ⟨hp', hne⟩ := (hunwritten p).mp hp'
      exact ⟨fun hin ↦ hp (Finset.mem_erase.mpr ⟨hne hrow, hin⟩), hp', hne hrow⟩
    obtain ⟨-, -, s', hturn, hs', hrow', hptrs⟩ |
        ⟨hnext, s', hptrs, ⟨hturn, hs', hrow', hbucket⟩ | ⟨hturn, hsorted⟩⟩ :=
      h.toCycling.turn hV hlims hasserted
    · refine Or.inr ⟨s', hturn, ⟨_, ⟨hs', fun p hp ↦ ?_, fun hrow ↦ by omega, fun _ ↦ ⟨q, ?_⟩,
        fun hrow ↦ by omega⟩⟩, hmeasure s' hptrs⟩
      · exact h.assigned p (Finset.mem_of_mem_erase hp)
      · intro p hp hp'
        rw [hptrs] at hp'
        obtain ⟨hout, hp', -⟩ := hstill p hp hp'
        exact hq p hout hp'
    · -- the cycle is closed at the place where it began
      have htaken : s.ptrs s.bucketNo ∉ rest := fun hin ↦ by
        rw [h.following.original _ hin] at hnext
        exact h.assigned _ hin hnext
      refine Or.inr ⟨s', hturn, ⟨_, ⟨hs', fun p hp ↦ ?_, fun _ p hp ↦ ?_, fun hrow ↦ by omega,
        fun _ _ ↦ hbucket⟩⟩, hmeasure s' hptrs⟩
      · exact h.assigned p (Finset.mem_of_mem_erase hp)
      · by_contra hout
        rw [hptrs] at hp
        obtain ⟨hout, hp, hne⟩ := hstill p hout hp
        exact hne ((hq p hout hp).trans (hq _ htaken hidx).symm)
    · exact Or.inl ⟨s', hturn, hsorted⟩

theorem Ending.ends (hV : ∀ p < nval, -1 ≤ V p ∧ V p < nbucket)
    (hlims : ∀ b ≤ nbucket, lims b = valuesBelow nval V b)
    (h : Ending assertions ncol nval nbucket V lims rest s) :
    ∃ turns r, iterate (cycleTurn assertions ncol nval nbucket lims) turns (some s) = some (some r) ∧
      Sorted ncol nval nbucket V r.vals ∧ ∀ b < nbucket, r.ptrs b = lims (b + 1) := by
  obtain ⟨r, hr, s', rfl, hsorted⟩ := @iterate_total _ (cycleTurn assertions ncol nval nbucket lims)
    (fun t ↦ ∃ s rest, t = some s ∧ Ending assertions ncol nval nbucket V lims rest s)
    (fun t ↦ ∃ s, t = some s ∧ Sorted ncol nval nbucket V s.vals ∧ ∀ b < nbucket, s.ptrs b = lims (b + 1))
    (fun t ↦ (t.map (turnsLeft nbucket lims)).getD 0) (by
      rintro _ ⟨s, rest, rfl, hs⟩
      obtain ⟨s', hturn, hpost⟩ | ⟨s', hturn, ⟨rest', hs'⟩, hlt⟩ := hs.turn hV hlims
      · exact Or.inl ⟨some s', hturn, s', rfl, hpost⟩
      · exact Or.inr ⟨some s', hturn, ⟨s', rest', rfl, hs'⟩, hlt⟩)
    (turnsLeft nbucket lims s + 1) (some s) ⟨s, rest, rfl, h⟩ (Nat.lt_succ_self _)
  exact ⟨_, s', hr, hsorted⟩

/-! ## The sort -/

/-- The values `-1` come first, and are not all of the values. -/
def AssignedLast (nval : ℕ) (V : ℕ → ℤ) : Prop :=
  (∀ p q, p < q → q < nval → V q = -1 → V p = -1) ∧ ∃ p < nval, V p ≠ -1

theorem valuesBelow_split (c m : ℕ) (V : ℕ → ℤ) : valuesBelow (c + m) V 0 =
    valuesBelow c V 0 + (List.range m).countP fun p ↦ V (c + p) < 0 := by
  unfold valuesBelow
  rw [List.range_add, List.countP_append, List.countP_map]
  rfl

theorem valuesBelow_of_forall {c : ℕ} (h : ∀ p < c, V p = -1) : valuesBelow c V 0 = c := by
  unfold valuesBelow
  rw [List.countP_eq_length.mpr fun p hp ↦ ?_, List.length_range]
  rw [h p (List.mem_range.mp hp)]
  rfl

theorem AssignedLast.assigned (h : AssignedLast nval V) {p : ℕ} (hp : valuesBelow nval V 0 ≤ p)
    (hlt : p < nval) : V p ≠ -1 := by
  intro hnone
  obtain ⟨m, rfl⟩ := Nat.exists_eq_add_of_le (Nat.succ_le_of_lt hlt)
  have hall : ∀ q < p.succ, V q = -1 := fun q hq ↦ by
    rcases Nat.lt_succ_iff_lt_or_eq.mp hq with hq | rfl
    · exact h.1 q p hq hlt hnone
    · exact hnone
  rw [valuesBelow_split, valuesBelow_of_forall hall] at hp
  omega

theorem AssignedLast.before (h : AssignedLast nval V) {p : ℕ} (hp : p < valuesBelow nval V 0) (hlt : p < nval)
    (hV : ∀ p < nval, -1 ≤ V p) : V p = -1 := by
  by_contra hne
  obtain ⟨m, hm⟩ := Nat.exists_eq_add_of_le hlt.le
  have hafter : ∀ q < m, ¬ V (p + q) < 0 := fun q hq hneg ↦ by
    have hbound := hV (p + q) (by omega)
    rcases Nat.eq_zero_or_pos q with rfl | hpos
    · rw [Nat.add_zero] at hneg hbound
      omega
    · exact hne (h.1 p (p + q) (by omega) (by omega) (by omega))
  have hsplit := valuesBelow_split p m V
  have hcount : valuesBelow p V 0 ≤ p := List.countP_le_length.trans List.length_range.le
  rw [← hm, List.countP_eq_zero.mpr fun q hq ↦ by simpa using hafter q (List.mem_range.mp hq)] at hsplit
  omega

theorem AssignedLast.lt (hV : ∀ p < nval, -1 ≤ V p) (h : AssignedLast nval V) : valuesBelow nval V 0 < nval := by
  obtain ⟨-, p, hp, hne⟩ := h
  have hle : valuesBelow nval V 0 ≤ nval := List.countP_le_length.trans List.length_range.le
  refine lt_of_le_of_ne hle fun heq ↦ ?_
  have hall := List.countP_eq_length.mp (heq.trans List.length_range.symm) p (List.mem_range.mpr hp)
  have hneg : V p < 0 := by simpa using hall
  have := hV p hp
  omega

/-- The loop begins with all values where they were. -/
theorem cycling_start (ncol : ℕ) (hV : ∀ p < nval, -1 ≤ V p ∧ V p < nbucket)
    (hlims : ∀ b ≤ nbucket, lims b = valuesBelow nval V b) (hsome : valuesBelow nval V 0 < nval) :
    Cycling ncol nval nbucket V (Finset.Ico (valuesBelow nval V 0) nval) ⟨V, lims, -1, 0, 0⟩ := by
  have hall := valuesBelow_nbucket hV
  have hpos : 0 < nbucket := by
    by_contra hzero
    obtain rfl := Nat.eq_zero_of_not_pos hzero
    omega
  have hunwritten : ∀ p ∈ Finset.Ico (valuesBelow nval V 0) nval, Unwritten nval nbucket V lims p := by
    intro p hp
    obtain ⟨hl, hr⟩ := Finset.mem_Ico.mp hp
    have hex : ∃ b, p < valuesBelow nval V (b + 1) := ⟨nbucket - 1, by
      rw [Nat.sub_add_cancel hpos, hall]
      exact hr⟩
    have hfind : Nat.find hex < nbucket := by
      have := Nat.find_min' hex (m := nbucket - 1) (by
        rw [Nat.sub_add_cancel hpos, hall]
        exact hr)
      omega
    refine ⟨Nat.find hex, hfind, ?_, Nat.find_spec hex⟩
    rw [hlims _ hfind.le]
    cases hb : Nat.find hex with
    | zero => exact hl
    | succ b => exact Nat.not_lt.mp (Nat.find_min hex (by omega))
  have hfirst : Unwritten nval nbucket V lims (lims 0) := by
    refine hunwritten _ (Finset.mem_Ico.mpr ?_)
    rw [hlims 0 (Nat.zero_le _)]
    exact ⟨le_rfl, hsome⟩
  refine ⟨⟨fun b hb ↦ ?_, hunwritten, fun _ _ ↦ rfl, fun p hp hp' ↦ ?_, fun b hb ↦ ?_⟩, Or.inl rfl, hpos,
    fun _ ↦ hfirst, fun b _ hb ↦ absurd hb (Nat.not_lt_zero b)⟩
  · dsimp only
    rw [hlims b hb.le]
    exact ⟨le_rfl, valuesBelow_mono nval V (Nat.le_succ b)⟩
  · refine absurd (Finset.mem_Ico.mpr ⟨?_, hp'.lt⟩) hp
    obtain ⟨b, hb, hl, -⟩ := hp'
    dsimp only at hl
    rw [hlims b hb.le] at hl
    exact (valuesBelow_mono nval V (Nat.zero_le b)).trans hl
  · dsimp only
    rw [hlims b hb.le, carried_neg]
    unfold writtenAt
    rw [Finset.Ico_self]
    exact zero_add _

/-- Buckets that are complete have taken all values. -/
theorem Sorted.assignedLast {vals : ℕ → ℤ} (hV : ∀ p < nval, -1 ≤ V p ∧ V p < nbucket)
    (h : Sorted ncol nval nbucket V vals) (hsome : valuesBelow nval V 0 < nval) : AssignedLast nval V := by
  have hbefore : ∀ p < valuesBelow nval V 0, V p = -1 := by
    intro p hp
    by_contra hne
    have hbounds := hV p (hp.trans hsome)
    have hb : (V p).toNat < nbucket := by omega
    have hcard := congrArg Multiset.card (h (V p).toNat hb)
    rw [card_writtenAt, valuesBelow_succ, Nat.add_sub_cancel_left, rowsAt, Multiset.card_map,
      Finset.card_val, List.countP_eq_length_filter] at hcard
    have hlt : ((Finset.Ico (valuesBelow nval V 0) nval).filter fun q ↦ V q = (V p).toNat).card <
        ((Finset.range nval).filter fun q ↦ V q = (V p).toNat).card := by
      refine Finset.card_lt_card (Finset.ssubset_iff_of_subset ?_ |>.mpr ⟨p, ?_, ?_⟩)
      · exact Finset.filter_subset_filter _ fun q hq ↦ Finset.mem_range.mpr (Finset.mem_Ico.mp hq).2
      · exact Finset.mem_filter.mpr ⟨Finset.mem_range.mpr (hp.trans hsome), by omega⟩
      · intro hin
        exact absurd (Finset.mem_Ico.mp (Finset.mem_filter.mp hin).1).1 (Nat.not_le.mpr hp)
    exact absurd hcard hlt.ne'
  obtain ⟨m, hm⟩ := Nat.exists_eq_add_of_le hsome.le
  have hafter : ∀ q < nval, valuesBelow nval V 0 ≤ q → V q ≠ -1 := by
    intro q hq hle hnone
    have hsplit := valuesBelow_split (valuesBelow nval V 0) m V
    rw [← hm, valuesBelow_of_forall hbefore] at hsplit
    have hzero := List.countP_eq_zero.mp (Nat.left_eq_add.mp hsplit) (q - valuesBelow nval V 0)
      (List.mem_range.mpr (by omega))
    rw [Nat.add_sub_cancel' hle, hnone] at hzero
    exact hzero rfl
  refine ⟨fun p q hpq hq hnone ↦ hbefore p (hpq.trans ?_), _, hsome, hafter _ hsome le_rfl⟩
  by_contra hge
  exact hafter q hq (Nat.not_lt.mp hge) hnone

theorem bucketSortInplaceRef_eq (assertions : Bool) {nrow limsSize : ℕ} (hV : ∀ p < nrow * ncol, -1 ≤ V p ∧ V p < nbucket)
    (hlt : nbucket < nrow * ncol) (hroom : nbucket + 1 ≤ limsSize) :
    ∃ lims, (∀ b ≤ nbucket, lims b = valuesBelow (nrow * ncol) V b) ∧ ∀ turns,
      bucketSortInplaceRef assertions turns nrow ncol V nbucket limsSize =
        (iterate (cycleTurn assertions ncol (nrow * ncol) nbucket lims) turns
          (some ⟨V, lims, -1, 0, 0⟩)).join.bind fun s ↦
            if assertions ∧ ∃ b < nbucket, s.ptrs b ≠ lims (b + 1) then none else some (s.vals, lims) := by
  have hvals : ∀ v ∈ (List.range (nrow * ncol)).map V, -1 ≤ v ∧ v < nbucket := fun v hv ↦ by
    obtain ⟨p, hp, rfl⟩ := List.mem_map.mp hv
    exact hV p (List.mem_range.mp hp)
  have hlims := fun b (hb : b ≤ nbucket) ↦ cumulate_counts hV hb
  refine ⟨_, hlims, fun turns ↦ ?_⟩
  unfold bucketSortInplaceRef
  dsimp only
  rw [if_neg (Nat.not_le.mpr hlt), if_neg (Nat.not_lt.mpr hroom), countVals_eq hvals, Option.bind_eq_bind,
    Option.bind_some, if_neg (not_not.mpr ?_)]
  · rfl
  · rw [hlims nbucket le_rfl, valuesBelow_nbucket hV]

/-- What the sort returns, if it does. -/
theorem bucketSortInplaceRef_spec {turns nrow limsSize : ℕ} {vals : ℕ → ℤ}
    (hV : ∀ p < nrow * ncol, -1 ≤ V p ∧ V p < nbucket)
    (h : bucketSortInplaceRef assertions turns nrow ncol V nbucket limsSize = some (vals, lims)) :
    nbucket < nrow * ncol ∧ nbucket + 1 ≤ limsSize ∧ AssignedLast (nrow * ncol) V ∧
      (assertions = true → ∃ p < nrow * ncol, V p = 0) ∧
      (∀ b ≤ nbucket, lims b = valuesBelow (nrow * ncol) V b) ∧ Sorted ncol (nrow * ncol) nbucket V vals := by
  have hlt : nbucket < nrow * ncol := by
    by_contra hge
    rw [bucketSortInplaceRef, if_pos (Nat.not_lt.mp hge)] at h
    cases h
  have hroom : nbucket + 1 ≤ limsSize := by
    by_contra hge
    rw [bucketSortInplaceRef, if_neg (Nat.not_le.mpr hlt), if_pos (Nat.not_le.mp hge)] at h
    cases h
  obtain ⟨lims', hlims, hsort⟩ := bucketSortInplaceRef_eq assertions hV hlt hroom
  rw [hsort] at h
  obtain ⟨r, hr, hret⟩ := Option.bind_eq_some_iff.mp h
  have hr := Option.join_eq_some_iff.mp hr
  split at hret
  · cases hret
  obtain ⟨rfl, rfl⟩ := Prod.mk.inj (Option.some.inj hret)
  -- the first turn reads the place behind the values `-1`
  have hfirst : ¬ ((assertions = true ∧ lims' 1 ≤ lims' 0) ∨ nrow * ncol ≤ lims' 0) := by
    intro hfails
    cases turns with
    | zero => cases hr
    | succ turns =>
        have hturn : cycleTurn assertions ncol (nrow * ncol) nbucket lims' (some ⟨V, lims', -1, 0, 0⟩) =
            .done none := by
          unfold cycleTurn
          dsimp only
          rcases hfails with hfails | hfails
          · rw [if_pos hfails]
          · rw [if_pos (Or.inr hfails)]
            exact ite_self _
        rw [iterate_done hturn] at hr
        cases hr
  have hzero := hlims 0 (Nat.zero_le _)
  have hsome : valuesBelow (nrow * ncol) V 0 < nrow * ncol := by
    rw [← hzero]
    exact Nat.not_le.mp fun hle ↦ hfirst (Or.inr hle)
  have hstart := cycling_start ncol hV hlims hsome
  have hsorted := hstart.sorted_of_end hV hlims hr
  refine ⟨hlt, hroom, hsorted.assignedLast hV hsome, fun hassert ↦ ?_, hlims, hsorted⟩
  have hone : lims' 0 < lims' 1 := Nat.not_le.mp fun hle ↦ hfirst (Or.inl ⟨hassert, hle⟩)
  rw [hzero, hlims 1 hstart.bucketNo_lt, valuesBelow_succ, Nat.lt_add_right_iff_pos,
    List.countP_pos_iff] at hone
  obtain ⟨p, hp, hV0⟩ := hone
  exact ⟨p, List.mem_range.mp hp, of_decide_eq_true hV0⟩

theorem bucketSortInplaceRef_total {nrow limsSize : ℕ} (hV : ∀ p < nrow * ncol, -1 ≤ V p ∧ V p < nbucket)
    (hlt : nbucket < nrow * ncol) (hroom : nbucket + 1 ≤ limsSize) (hlast : AssignedLast (nrow * ncol) V)
    (hassert : assertions = true → ∃ p < nrow * ncol, V p = 0) :
    ∃ turns vals lims, bucketSortInplaceRef assertions turns nrow ncol V nbucket limsSize =
      some (vals, lims) := by
  obtain ⟨lims, hlims, hsort⟩ := bucketSortInplaceRef_eq assertions hV hlt hroom
  have hsome := hlast.lt fun p hp ↦ (hV p hp).1
  have hstart := cycling_start ncol hV hlims hsome
  have hending : Ending assertions ncol (nrow * ncol) nbucket V lims
      (Finset.Ico (valuesBelow (nrow * ncol) V 0) (nrow * ncol)) ⟨V, lims, -1, 0, 0⟩ := by
    refine ⟨hstart, fun p hp ↦ ?_, fun _ p hp ↦ ?_, fun hrow ↦ ?_, fun _ hassertions ↦ ?_⟩
    · exact hlast.assigned (Finset.mem_Ico.mp hp).1 (Finset.mem_Ico.mp hp).2
    · have hp' := hp.lt
      obtain ⟨b, hb, hl, -⟩ := hp
      dsimp only at hl
      rw [hlims b hb.le] at hl
      exact Finset.mem_Ico.mpr ⟨(valuesBelow_mono _ V (Nat.zero_le b)).trans hl, hp'⟩
    · exact absurd (show (0 : ℤ) ≤ -1 from hrow) (by decide)
    · obtain ⟨p, hp, hV0⟩ := hassert hassertions
      dsimp only
      rw [hlims 0 (Nat.zero_le _), hlims 1 hstart.bucketNo_lt, valuesBelow_succ, Nat.lt_add_right_iff_pos]
      exact List.countP_pos_iff.mpr ⟨p, List.mem_range.mpr hp, decide_eq_true hV0⟩
  obtain ⟨turns, r, hr, -, hptrs⟩ := hending.ends hV hlims
  refine ⟨turns, r.vals, lims, ?_⟩
  rw [hsort, hr]
  exact if_neg fun hfails ↦ by
    obtain ⟨-, b, hb, hne⟩ := hfails
    exact hne (hptrs b hb)

end FaissNavix
