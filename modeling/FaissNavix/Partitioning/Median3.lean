import FaissNavix.Lib.Loop
import FaissNavix.Partitioning.Compress

/-!
# Partitioning around a sampled threshold

`partition_fuzzy_median3` of `faiss/utils/partitioning.cpp`, for floats and for words.  A threshold is
looked for between two bounds, by sampling medians of three values, until it has a suitable number of
better values.  The search gives up after 200 rounds, or when the sample finds no value strictly between
the bounds; the bounds are the extreme values of the type at the start.  It then tries the value next to
the last threshold, and this works out only if all better values are equal to that one.
-/

namespace FaissNavix

open Lib

/-- What the partition uses of a type of values. -/
structure ScalarType (T : Type) where
  zero : T
  /-- `<` -/
  lt : T → T → Bool
  /-- `==` -/
  eq : T → T → Bool
  /-- `std::numeric_limits<T>::max()` -/
  max : T
  /-- `std::numeric_limits<T>::lowest()` -/
  lowest : T
  /-- `cmin_nextafter` -/
  cminNextafter : T → T
  /-- `cmax_nextafter` -/
  cmaxNextafter : T → T
  /-- the conversion to `size_t`, where it is defined -/
  toSize : T → Option ℕ

def F32.ofKey (k : ℤ) : F32 := ⟨if k < 0 then .ofNat 32 (2 ^ 31 + k.natAbs) else .ofNat 32 k.natAbs⟩

/-- `std::nextafterf(x, -HUGE_VALF)` -/
def F32.nextDown (x : F32) : F32 :=
  if x.isNaN then x else .ofKey (Max.max (x.key - 1) (-F32.inf.key))

/-- `std::nextafterf(x, HUGE_VALF)` -/
def F32.nextUp (x : F32) : F32 := if x.isNaN then x else .ofKey (Min.min (x.key + 1) F32.inf.key)

/-- `float` -/
def floatType : ScalarType F32 where
  zero := ⟨0⟩
  lt := F32.lt
  eq := F32.feq
  max := F32.max
  lowest := F32.lowest
  cminNextafter := F32.nextDown
  cmaxNextafter := F32.nextUp
  -- the two extremes, which are the only values converted, are out of range
  toSize := fun _ ↦ none

/-- `uint16_t` -/
def wordType : ScalarType UInt16 where
  zero := 0
  lt a b := decide (a < b)
  eq a b := decide (a = b)
  max := 0xffff
  lowest := 0
  cminNextafter x := x - 1
  cmaxNextafter x := x + 1
  toSize x := some x.toNat

namespace ScalarType

variable {T : Type} (S : ScalarType T) (isMax : Bool)

section
variable (vals : ℕ → T × ℤ) (n : ℕ) (thresh : T)

/-- `C::cmp` of `CMax` and `CMin`, told apart by `C::is_max` -/
def cmp (a b : T) : Bool := if isMax then S.lt b a else S.lt a b

/-- `C::neutral` -/
def neutral : T := if isMax then S.max else S.lowest

/-- `C::Crev::neutral` -/
def revNeutral : T := S.neutral !isMax

/-- `C::Crev::nextafter` -/
def revNextafter : T → T := if isMax then S.cminNextafter else S.cmaxNextafter

/-- `median3` -/
def median3 (a b c : T) : T :=
  let r := if S.lt b a then (b, a) else (a, b)
  if S.lt r.2 c then r.2
  else if S.lt r.1 c then c
  else r.1

/-- `sample_threshold_median3` -/
def sampleThresholdMedian3 (threshInf threshSup : T) : T :=
  let val3 := (List.range n).foldl (fun val3 i ↦
    let v := (vals (i * 6700417 % n)).1
    if val3.length < 3 && S.cmp isMax v threshInf && S.cmp isMax threshSup v then val3 ++ [v]
    else val3) ([] : List T)
  match val3 with
  | [a, b, c] => S.median3 a b c
  | a :: _ => a
  | [] => threshInf

/-- `count_lt_and_eq` -/
def countLtAndEq : ℕ × ℕ :=
  (List.range n).foldl (fun s i ↦
    let v := (vals i).1
    if S.cmp isMax thresh v then (s.1 + 1, s.2)
    else if S.eq v thresh then (s.1, s.2 + 1)
    else s) (0, 0)

/-- `compress_array`, with `none` where its assertion fails -/
def compressArray (nEq : ℕ) : Option (Compress T) :=
  let s := (List.range n).foldl (fun (s : Compress T) i ↦
    s.step (S.cmp isMax thresh (s.arrays i).1) (S.eq (s.arrays i).1 thresh) i) ⟨vals, 0, nEq⟩
  if s.nEq = 0 then some s else none

end

/-- The local variables of the search. -/
structure Search (T : Type) where
  threshInf : T
  threshSup : T
  thresh : T
  nLt : ℕ
  nEq : ℕ
  q : ℕ

/-- The loop that looks for a threshold. -/
def search (vals : ℕ → T × ℤ) (n qMin qMax : ℕ) : ℕ → Search T → Search T
  | 0, s => s
  | turns + 1, s =>
      let c := S.countLtAndEq isMax vals n s.thresh
      let s := { s with nLt := c.1, nEq := c.2 }
      let next := fun s : Search T ↦
        let newThresh := S.sampleThresholdMedian3 isMax vals n s.threshInf s.threshSup
        -- there is nothing between the bounds
        if S.eq newThresh s.threshInf then s
        else search vals n qMin qMax turns { s with thresh := newThresh }
      if c.1 ≤ qMin then
        if qMin ≤ c.1 + c.2 then { s with q := qMin }
        else next { s with threshInf := s.thresh }
      else if c.1 ≤ qMax then { s with q := c.1 }
      else next { s with threshSup := s.thresh }

section
variable (vals : ℕ → T × ℤ) (n qMin qMax : ℕ)

/-- The last lines: the arrays are compressed. -/
def compressTo (thresh : T) (nEq1 q : ℕ) :
    Option (T × ℕ × (ℕ → T × ℤ)) :=
  (S.compressArray isMax vals n thresh nEq1).bind fun s ↦
    if s.wp = q then some (thresh, q, s.arrays) else none

/-- What comes after the search. -/
def finish (s : Search T) : Option (T × ℕ × (ℕ → T × ℤ)) :=
  let nEq1 : ℤ := s.q - s.nLt
  if nEq1 < 0 then S.compressTo isMax vals n (S.revNextafter isMax s.thresh) qMin qMin
  else if nEq1 ≤ s.nEq then S.compressTo isMax vals n s.thresh nEq1.toNat s.q
  else none

/-- `partition_fuzzy_median3`: the threshold, `q_out` and the arrays, or `none` where an assertion
fails -/
def partitionFuzzyMedian3 : Option (T × ℕ × (ℕ → T × ℤ)) :=
  if qMin = 0 then (S.toSize (S.revNeutral isMax)).map fun q ↦ (S.zero, q, vals)
  else if n ≤ qMax then some (S.neutral isMax, qMax, vals)
  else if n < 3 then none
  else
    S.finish isMax vals n qMin (S.search isMax vals n qMin qMax 200
      { threshInf := S.revNeutral isMax
        threshSup := S.neutral isMax
        thresh := S.median3 (vals 0).1 (vals (n / 2)).1 (vals (n - 1)).1
        nLt := 0, nEq := 0, q := 0 })

/-! ## The condition -/

def ltCount (thresh : T) : ℕ :=
  (Compress.front vals n).countP fun x ↦ S.cmp isMax thresh x.1

def eqCount (thresh : T) : ℕ :=
  Compress.taken (S.cmp isMax thresh) (fun v ↦ S.eq v thresh) vals n

/-- There are at most `qMax` values better than the threshold, and with the equal ones there are at
least `qMin`. -/
def Suitable (thresh : T) : Prop :=
  S.ltCount isMax vals n thresh ≤ qMax ∧
    qMin ≤ S.ltCount isMax vals n thresh + S.eqCount isMax vals n thresh

/-- There are values better than the last threshold counted, none is better than the value next to
`thresh`, and at least `qMin` are equal to that value. -/
def NextSuitable (last thresh : T) : Prop :=
  0 < S.ltCount isMax vals n last ∧
    S.ltCount isMax vals n (S.revNextafter isMax thresh) = 0 ∧
    qMin ≤ S.eqCount isMax vals n (S.revNextafter isMax thresh)

end

/-- Among the thresholds sampled between narrower and narrower bounds, `turns` at most, is a suitable
one; or the value next to the last of them will do. -/
def Meets (vals : ℕ → T × ℤ) (n qMin qMax : ℕ) : ℕ → T → T → T → Prop
  | 0, _, _, _ => False
  | turns + 1, threshInf, threshSup, thresh =>
      let inf := if S.ltCount isMax vals n thresh ≤ qMin then thresh else threshInf
      let sup := if S.ltCount isMax vals n thresh ≤ qMin then threshSup else thresh
      let next := S.sampleThresholdMedian3 isMax vals n inf sup
      S.Suitable isMax vals n qMin qMax thresh ∨
        if S.eq next inf = true then S.NextSuitable isMax vals n qMin thresh thresh
        else if turns = 0 then S.NextSuitable isMax vals n qMin thresh next
        else Meets vals n qMin qMax turns inf sup next

variable {S isMax} {K : Type} [LinearOrder K] {key : T → K} {ok : T → Prop}
  {vals : ℕ → T × ℤ} {n qMin qMax : ℕ}

/-- The values in `ok` compare as their keys do. -/
structure Keyed (S : ScalarType T) (key : T → K) (ok : T → Prop) : Prop where
  lt_iff : ∀ {a b : T}, S.lt a b = true ↔ ok a ∧ ok b ∧ key a < key b
  eq_iff : ∀ {a b : T}, S.eq a b = true ↔ ok a ∧ ok b ∧ key a = key b

theorem keyed_floatType : floatType.Keyed F32.key F32.Comparable where
  lt_iff := F32.lt_iff
  eq_iff := F32.feq_iff

theorem keyed_wordType : wordType.Keyed UInt16.toNat (fun _ ↦ True) where
  lt_iff := by simp [wordType, UInt16.lt_iff_toNat_lt]
  eq_iff := by simp [wordType, UInt16.toNat_inj]

/-- `C::cmp` is the comparison of keys as well, in one direction or the other. -/
theorem Keyed.exists_cmp_iff (hS : S.Keyed key ok) (isMax : Bool) :
    ∃ (K' : Type) (_ : LinearOrder K') (g : K → K'),
      (∀ a b, S.cmp isMax a b = true ↔ ok a ∧ ok b ∧ g (key b) < g (key a)) ∧
      ∀ a b, S.eq a b = true ↔ ok a ∧ ok b ∧ g (key a) = g (key b) := by
  cases isMax with
  | true =>
      refine ⟨K, inferInstance, fun k ↦ k, fun a b ↦ ?_, fun a b ↦ hS.eq_iff⟩
      change S.lt b a = true ↔ _
      rw [hS.lt_iff, and_left_comm]
  | false =>
      refine ⟨Kᵒᵈ, inferInstance, fun k ↦ OrderDual.toDual k, fun a b ↦ ?_, fun a b ↦ ?_⟩
      · change S.lt a b = true ↔ _
        rw [hS.lt_iff, OrderDual.toDual_lt_toDual]
      · rw [hS.eq_iff, OrderDual.toDual_inj]

/-- The call keeps between `qMin` and `qMax` of the pairs, and no assertion fails. -/
def Succeeds (S : ScalarType T) (isMax : Bool) (vals : ℕ → T × ℤ) (n qMin qMax : ℕ)
    (result : Option (T × ℕ × (ℕ → T × ℤ))) : Prop :=
  ∃ thresh q vals', result = some (thresh, q, vals') ∧
    Partitions (S.cmp isMax) vals n qMin qMax q vals'

theorem not_succeeds_none : ¬ S.Succeeds isMax vals n qMin qMax none := by
  rintro ⟨thresh, q, vals', hr, -⟩
  exact absurd hr (by simp)

/-! ## One threshold -/

section
variable (S : ScalarType T) (isMax : Bool) (vals : ℕ → T × ℤ) (n : ℕ) (thresh : T)

theorem countLtAndEq_eq :
    S.countLtAndEq isMax vals n thresh = (S.ltCount isMax vals n thresh, S.eqCount isMax vals n thresh) := by
  refine foldl_range_invariant (fun i s ↦ s = (S.ltCount isMax vals i thresh, S.eqCount isMax vals i thresh))
    rfl fun i _ s hs ↦ ?_
  rw [ltCount, Compress.front_succ, List.countP_append, List.countP_singleton, eqCount,
    Compress.taken_succ, hs]
  dsimp only
  by_cases hlt : S.cmp isMax thresh (vals i).1 = true
  · rw [if_pos hlt, if_pos hlt, if_neg (by simp [hlt])]
    rfl
  · rw [if_neg hlt, if_neg hlt]
    rw [Bool.not_eq_true] at hlt
    by_cases heq : S.eq (vals i).1 thresh = true
    · rw [if_pos heq, if_pos (by simp [hlt, heq])]
      rfl
    · rw [if_neg heq, if_neg (by simp [heq])]
      rfl

theorem compressArray_done (nEq : ℕ) :
    ∃ s, Compress.Done (S.cmp isMax thresh) (fun v ↦ S.eq v thresh) nEq vals n s ∧
      S.compressArray isMax vals n thresh nEq = if s.nEq = 0 then some s else none := by
  refine ⟨_, ?_, rfl⟩
  refine foldl_range_invariant
    (Compress.Done (S.cmp isMax thresh) (fun v ↦ S.eq v thresh) nEq vals)
    (Compress.done_zero _ _ nEq vals) fun i _ s hs ↦ ?_
  rw [hs.rest i le_rfl]
  exact hs.step

end

section
variable (hS : S.Keyed key ok) (hok : ∀ x ∈ entries n vals, ok x.1)
include hS hok

/-- Compressing around a threshold succeeds exactly when there are as many equal values as asked for,
and with the better ones there are `q`. -/
theorem compressTo_succeeds_iff {thresh : T}
    {nEq q : ℕ} :
    S.Succeeds isMax vals n qMin qMax (S.compressTo isMax vals n thresh nEq q) ↔
      nEq ≤ S.eqCount isMax vals n thresh ∧ S.ltCount isMax vals n thresh + nEq = q ∧
        qMin ≤ q ∧ q ≤ qMax := by
  obtain ⟨s, hs, hcomp⟩ := compressArray_done S isMax vals n thresh nEq
  have hnEq : s.nEq = nEq - S.eqCount isMax vals n thresh := hs.nEq_eq
  have hwp : s.wp = S.ltCount isMax vals n thresh + min nEq (S.eqCount isMax vals n thresh) :=
    hs.wp_eq_add
  unfold compressTo
  rw [hcomp]
  by_cases hzero : s.nEq = 0
  · rw [if_pos hzero]
    change S.Succeeds isMax vals n qMin qMax (if s.wp = q then some (thresh, q, s.arrays) else none) ↔ _
    by_cases hwpq : s.wp = q
    · rw [if_pos hwpq]
      constructor
      · rintro ⟨thresh', q', vals', hr, hpart⟩
        obtain ⟨rfl, rfl, rfl⟩ : thresh = thresh' ∧ q = q' ∧ s.arrays = vals' := by simpa using hr
        exact ⟨by omega, by omega, hpart.1, hpart.2.1⟩
      · rintro ⟨-, -, hmin, hmax⟩
        refine ⟨thresh, q, s.arrays, rfl, hmin, hmax, ?_⟩
        obtain ⟨dropped, hsplit, hkept, hdropped⟩ := hs.split
        rw [hwpq] at hsplit hkept
        refine ⟨dropped, hsplit, fun x hx y hy ↦ ?_⟩
        have hy' := hdropped y hy
        have hoky : ok y.1 := hok y (by rw [hsplit]; exact Multiset.mem_add.mpr (Or.inr hy))
        -- what is kept is no worse than the threshold, and what is dropped no better
        obtain ⟨K', _, g, hcmp, heq⟩ := hS.exists_cmp_iff isMax
        have hx' := hkept x hx
        rw [hcmp, heq] at hx'
        rw [Bool.eq_false_iff, ne_eq, hcmp] at hy' ⊢
        rintro ⟨hokx, -, hlt⟩
        rcases hx' with ⟨hokt, -, hxt⟩ | ⟨-, hokt, hxt⟩
        · exact hy' ⟨hokt, hoky, hlt.trans hxt⟩
        · exact hy' ⟨hokt, hoky, hlt.trans_eq hxt⟩
    · rw [if_neg hwpq]
      refine ⟨fun h ↦ absurd h not_succeeds_none, fun h ↦ absurd ?_ hwpq⟩
      omega
  · rw [if_neg hzero]
    refine ⟨fun h ↦ absurd h not_succeeds_none, fun h ↦ absurd ?_ hzero⟩
    omega

/-! ## The search -/

/-- A search that ends without a threshold: all depends on the value next to the last one. -/
theorem finish_succeeds_iff
    (hmin : 0 < qMin) (hq : qMin ≤ qMax) {s : Search T} {last : T} (hsq : s.q = 0)
    (hlast : s.nLt = S.ltCount isMax vals n last) :
    S.Succeeds isMax vals n qMin qMax (S.finish isMax vals n qMin s) ↔
      S.NextSuitable isMax vals n qMin last s.thresh := by
  unfold finish NextSuitable
  rw [hsq, ← hlast]
  by_cases hneg : ((0 : ℕ) : ℤ) - s.nLt < 0
  · rw [if_pos hneg, compressTo_succeeds_iff hS hok]
    omega
  · rw [if_neg hneg]
    refine ⟨fun h ↦ ?_, fun h ↦ by omega⟩
    -- nothing is kept
    exfalso
    split at h
    · rw [show (((0 : ℕ) : ℤ) - s.nLt).toNat = 0 by omega] at h
      obtain ⟨thresh, q, vals', hr, hpart⟩ := h
      obtain ⟨c, -, hc⟩ := Option.bind_eq_some_iff.mp hr
      split at hc
      · obtain ⟨-, rfl, -⟩ : s.thresh = thresh ∧ 0 = q ∧ c.arrays = vals' := by simpa using hc
        have := hpart.1
        omega
      · exact absurd hc (by simp)
    · exact not_succeeds_none h

theorem finish_suitable {s : Search T} (hlt : s.nLt = S.ltCount isMax vals n s.thresh)
    (heq : s.nEq = S.eqCount isMax vals n s.thresh) (hle : s.nLt ≤ s.q) (hadd : s.q ≤ s.nLt + s.nEq)
    (hqMin : qMin ≤ s.q) (hqMax : s.q ≤ qMax) :
    S.Succeeds isMax vals n qMin qMax (S.finish isMax vals n qMin s) := by
  unfold finish
  rw [if_neg (by omega), if_pos (by omega), compressTo_succeeds_iff hS hok]
  omega

/-- The search succeeds exactly when it meets a suitable threshold, or the value next to the last one
will do. -/
theorem search_succeeds_iff
    (hmin : 0 < qMin) (hq : qMin ≤ qMax) {turns : ℕ} (hturns : 0 < turns) {s : Search T}
    (hsq : s.q = 0) :
    S.Succeeds isMax vals n qMin qMax
        (S.finish isMax vals n qMin (S.search isMax vals n qMin qMax turns s)) ↔
      S.Meets isMax vals n qMin qMax turns s.threshInf s.threshSup s.thresh := by
  induction turns generalizing s with
  | zero => exact absurd hturns (lt_irrefl 0)
  | succ turns ih =>
      -- one more round, from the bounds that the threshold leaves
      have hnext : ∀ s' : Search T, s'.q = 0 → s'.nLt = S.ltCount isMax vals n s'.thresh →
          (S.Succeeds isMax vals n qMin qMax (S.finish isMax vals n qMin
            (let newThresh := S.sampleThresholdMedian3 isMax vals n s'.threshInf s'.threshSup
             if S.eq newThresh s'.threshInf then s'
             else S.search isMax vals n qMin qMax turns { s' with thresh := newThresh })) ↔
          let next := S.sampleThresholdMedian3 isMax vals n s'.threshInf s'.threshSup
          if S.eq next s'.threshInf = true then S.NextSuitable isMax vals n qMin s'.thresh s'.thresh
          else if turns = 0 then S.NextSuitable isMax vals n qMin s'.thresh next
          else S.Meets isMax vals n qMin qMax turns s'.threshInf s'.threshSup next) := by
        intro s' hs'q hs'lt
        dsimp only
        split
        · exact finish_succeeds_iff hS hok hmin hq hs'q hs'lt
        · split
          · rename_i hzero
            subst hzero
            exact finish_succeeds_iff hS hok hmin hq hs'q hs'lt
          · rename_i hpos
            exact ih (Nat.pos_of_ne_zero hpos) hs'q
      rw [search, Meets, countLtAndEq_eq]
      dsimp only
      unfold Suitable
      by_cases hfew : S.ltCount isMax vals n s.thresh ≤ qMin
      · simp only [if_pos hfew]
        by_cases henough : qMin ≤ S.ltCount isMax vals n s.thresh + S.eqCount isMax vals n s.thresh
        · rw [if_pos henough]
          refine iff_of_true ?_ (Or.inl ⟨hfew.trans hq, henough⟩)
          exact finish_suitable hS hok rfl rfl hfew henough le_rfl hq
        · rw [if_neg henough, hnext { s with
            nLt := S.ltCount isMax vals n s.thresh
            nEq := S.eqCount isMax vals n s.thresh
            threshInf := s.thresh } hsq rfl]
          exact ⟨Or.inr, fun h ↦ h.resolve_left fun hsuit ↦ henough hsuit.2⟩
      · simp only [if_neg hfew]
        by_cases hfits : S.ltCount isMax vals n s.thresh ≤ qMax
        · rw [if_pos hfits]
          refine iff_of_true ?_ (Or.inl ⟨hfits, by omega⟩)
          exact finish_suitable hS hok rfl rfl le_rfl (Nat.le_add_right _ _)
            (not_le.mp hfew).le hfits
        · rw [if_neg hfits, hnext { s with
            nLt := S.ltCount isMax vals n s.thresh
            nEq := S.eqCount isMax vals n s.thresh
            threshSup := s.thresh } hsq rfl]
          exact ⟨Or.inr, fun h ↦ h.resolve_left fun hsuit ↦ hfits hsuit.1⟩

end

/-! ## When the search meets a suitable threshold -/

def Between (S : ScalarType T) (isMax : Bool) (inf sup v : T) : Prop :=
  S.cmp isMax v inf = true ∧ S.cmp isMax sup v = true

theorem median3_mem (S : ScalarType T) (a b c : T) : S.median3 a b c ∈ [a, b, c] := by
  unfold median3
  dsimp only
  split_ifs <;> simp

/-- The sample goes through all positions if their number has no factor in common with the stride, so
that it finds a value between the bounds if there is one. -/
theorem sampleThresholdMedian3_between (hn : n.Coprime 6700417) (hpos : 0 < n) {inf sup : T} {u : ℕ}
    (hu : u < n) (hbetween : S.Between isMax inf sup (vals u).1) :
    ∃ i < n, S.sampleThresholdMedian3 isMax vals n inf sup = (vals i).1 ∧
      S.Between isMax inf sup (vals i).1 := by
  obtain ⟨m, hm, hmu⟩ := Nat.exists_mul_mod_eq_of_coprime u hn.symm hpos.ne'
  rw [Nat.mod_eq_of_lt hu] at hmu
  -- the values collected are between the bounds, and there is one once position `u` has been seen
  have hloop := foldl_range_invariant (n := n) (s := ([] : List T))
    (f := fun val3 i ↦
      if val3.length < 3 && S.cmp isMax (vals (i * 6700417 % n)).1 inf &&
        S.cmp isMax sup (vals (i * 6700417 % n)).1 then val3 ++ [(vals (i * 6700417 % n)).1] else val3)
    (fun k val3 ↦ val3.length ≤ 3 ∧
      (∀ v ∈ val3, ∃ i < n, v = (vals i).1 ∧ S.Between isMax inf sup (vals i).1) ∧
      (m < k → val3 ≠ [])) ⟨Nat.zero_le 3, by simp, by simp⟩ ?_
  · obtain ⟨hlen, hall, hne⟩ := hloop
    have hmem : S.sampleThresholdMedian3 isMax vals n inf sup ∈ (List.range n).foldl
        (fun val3 i ↦
          if val3.length < 3 && S.cmp isMax (vals (i * 6700417 % n)).1 inf &&
            S.cmp isMax sup (vals (i * 6700417 % n)).1 then val3 ++ [(vals (i * 6700417 % n)).1]
          else val3) [] := by
      unfold sampleThresholdMedian3
      dsimp only
      split
      · rename_i h
        rw [h]
        exact median3_mem S _ _ _
      · rename_i h
        rw [h]
        exact List.mem_cons_self
      · rename_i h
        exact absurd h (hne hm)
    obtain ⟨i, hi, hv, hb⟩ := hall _ hmem
    exact ⟨i, hi, hv, hb⟩
  · rintro k hk val3 ⟨hlen, hall, hne⟩
    split
    · rename_i hcond
      rw [Bool.and_eq_true, Bool.and_eq_true, decide_eq_true_eq] at hcond
      refine ⟨by rw [List.length_append, List.length_singleton]; omega, fun v hv ↦ ?_, by simp⟩
      rcases List.mem_append.mp hv with hv | hv
      · exact hall v hv
      · rw [List.mem_singleton.mp hv]
        exact ⟨_, Nat.mod_lt _ hpos, rfl, hcond.1.2, hcond.2⟩
    · rename_i hcond
      refine ⟨hlen, hall, fun hmk hnil ↦ ?_⟩
      rcases Nat.lt_succ_iff_lt_or_eq.mp hmk with hlt | rfl
      · exact hne hlt hnil
      · refine hcond ?_
        rw [Nat.mul_comm, hmu, hnil, hbetween.1, hbetween.2]
        rfl

/-- The keys of the values strictly between the bounds. -/
noncomputable def keysBetween {K' : Type} (key' : T → K') (S : ScalarType T) (isMax : Bool)
    (vals : ℕ → T × ℤ) (n : ℕ) (inf sup : T) : Finset K' := by
  classical
  exact ((Finset.range n).filter fun i ↦ S.Between isMax inf sup (vals i).1).image
    fun i ↦ key' (vals i).1

theorem mem_keysBetween {K' : Type} {key' : T → K'} {inf sup : T} {x : K'} :
    x ∈ keysBetween key' S isMax vals n inf sup ↔
      ∃ i < n, S.Between isMax inf sup (vals i).1 ∧ key' (vals i).1 = x := by
  classical
  unfold keysBetween
  simp [and_assoc]

section Rounds

variable {K' : Type} [LinearOrder K'] {key' : T → K'} {inf sup t a b : T} {u : ℕ}

/-- A threshold that is no worse has no more values that are as good. -/
theorem counts_mono (vals : ℕ → T × ℤ) (n : ℕ)
    (hcmp : ∀ a b, S.cmp isMax a b = true ↔ ok a ∧ ok b ∧ key' b < key' a)
    (heq : ∀ a b, S.eq a b = true ↔ ok a ∧ ok b ∧ key' a = key' b) (hb : ok b)
    (hle : key' a ≤ key' b) :
    S.ltCount isMax vals n a ≤ S.ltCount isMax vals n b ∧
      S.ltCount isMax vals n a + S.eqCount isMax vals n a ≤
        S.ltCount isMax vals n b + S.eqCount isMax vals n b := by
  have hlt : ∀ v, S.cmp isMax a v = true → S.cmp isMax b v = true := by
    intro v hv
    rw [hcmp] at hv ⊢
    exact ⟨hb, hv.2.1, hv.2.2.trans_le hle⟩
  refine ⟨List.countP_mono_left fun x _ hx ↦ hlt x.1 hx, ?_⟩
  unfold ltCount eqCount Compress.taken
  rw [countP_add_spent, countP_add_spent]
  refine List.countP_mono_left fun x _ hx ↦ ?_
  rw [Bool.or_eq_true] at hx ⊢
  rcases hx with hx | hx
  · exact Or.inl (hlt x.1 hx)
  · rw [heq] at hx
    rcases hle.lt_or_eq with h | h
    · exact Or.inl ((hcmp _ _).mpr ⟨hb, hx.1, hx.2.2.trans_lt h⟩)
    · exact Or.inr ((heq _ _).mpr ⟨hx.1, hb, hx.2.2.trans h⟩)

/-- With more rounds left than there are different values between the next bounds, the search meets a
suitable threshold, if there is one between the bounds. -/
theorem meets_of_card_lt (key' : T → K')
    (hcmp : ∀ a b, S.cmp isMax a b = true ↔ ok a ∧ ok b ∧ key' b < key' a)
    (heq : ∀ a b, S.eq a b = true ↔ ok a ∧ ok b ∧ key' a = key' b) (hq : qMin ≤ qMax)
    (hn : n.Coprime 6700417) (hu : u < n) (hsuit : S.Suitable isMax vals n qMin qMax (vals u).1)
    {turns : ℕ} (ht : ok t) (hbetween : S.Between isMax inf sup (vals u).1)
    (hcard : (keysBetween key' S isMax vals n
      (if S.ltCount isMax vals n t ≤ qMin then t else inf)
      (if S.ltCount isMax vals n t ≤ qMin then sup else t)).card < turns) :
    S.Meets isMax vals n qMin qMax turns inf sup t := by
  induction turns generalizing inf sup t with
  | zero => exact absurd hcard (Nat.not_lt_zero _)
  | succ turns ih =>
      by_cases htsuit : S.Suitable isMax vals n qMin qMax t
      · exact Or.inl htsuit
      refine Or.inr ?_
      have hoku : ok (vals u).1 := ((hcmp _ _).mp hbetween.1).1
      -- the suitable value is between the next bounds as well
      have hnarrow : S.Between isMax (if S.ltCount isMax vals n t ≤ qMin then t else inf)
          (if S.ltCount isMax vals n t ≤ qMin then sup else t) (vals u).1 := by
        unfold Suitable at htsuit hsuit
        by_cases hfew : S.ltCount isMax vals n t ≤ qMin
        · rw [if_pos hfew, if_pos hfew]
          refine ⟨(hcmp _ _).mpr ⟨hoku, ht, lt_of_not_ge fun hle ↦ ?_⟩, hbetween.2⟩
          have := (counts_mono vals n hcmp heq ht hle).2
          omega
        · rw [if_neg hfew, if_neg hfew]
          refine ⟨hbetween.1, (hcmp _ _).mpr ⟨ht, hoku, lt_of_not_ge fun hle ↦ ?_⟩⟩
          have := (counts_mono vals n hcmp heq hoku hle).1
          omega
      revert hcard hnarrow
      generalize (if S.ltCount isMax vals n t ≤ qMin then t else inf) = inf'
      generalize (if S.ltCount isMax vals n t ≤ qMin then sup else t) = sup'
      intro hcard hnarrow
      obtain ⟨i, hi, hnext, hib⟩ :=
        sampleThresholdMedian3_between hn (Nat.zero_lt_of_lt hu) hu hnarrow
      rw [hnext]
      have hne : ¬ S.eq (vals i).1 inf' = true := fun h ↦
        ((hcmp _ _).mp hib.1).2.2.ne ((heq _ _).mp h).2.2.symm
      rw [if_neg hne]
      have hmem : key' (vals i).1 ∈ keysBetween key' S isMax vals n inf' sup' :=
        mem_keysBetween.mpr ⟨i, hi, hib, rfl⟩
      have hturns : turns ≠ 0 := by
        have := Finset.card_pos.mpr ⟨_, hmem⟩
        omega
      rw [if_neg hturns]
      -- the bounds after the next threshold leave it out
      refine ih ((hcmp _ _).mp hib.1).1 hnarrow (lt_of_lt_of_le (Finset.card_lt_card ?_)
        (Nat.lt_succ_iff.mp hcard))
      rw [Finset.ssubset_iff_of_subset]
      · refine ⟨_, hmem, fun hout ↦ ?_⟩
        obtain ⟨j, -, hj, hjk⟩ := mem_keysBetween.mp hout
        by_cases hfew : S.ltCount isMax vals n (vals i).1 ≤ qMin
        · rw [if_pos hfew, if_pos hfew] at hj
          exact ((hcmp _ _).mp hj.1).2.2.ne hjk.symm
        · rw [if_neg hfew, if_neg hfew] at hj
          exact ((hcmp _ _).mp hj.2).2.2.ne hjk
      · intro x hx
        obtain ⟨j, hjn, hj, rfl⟩ := mem_keysBetween.mp hx
        refine mem_keysBetween.mpr ⟨j, hjn, ?_, rfl⟩
        by_cases hfew : S.ltCount isMax vals n (vals i).1 ≤ qMin
        · rw [if_pos hfew, if_pos hfew] at hj
          obtain ⟨hokj, -, hlt⟩ := (hcmp _ _).mp hj.1
          obtain ⟨-, hoki, hlt'⟩ := (hcmp _ _).mp hib.1
          exact ⟨(hcmp _ _).mpr ⟨hokj, hoki, hlt'.trans hlt⟩, hj.2⟩
        · rw [if_neg hfew, if_neg hfew] at hj
          obtain ⟨-, hokj, hlt⟩ := (hcmp _ _).mp hj.2
          obtain ⟨hoks, -, hlt'⟩ := (hcmp _ _).mp hib.2
          exact ⟨hj.1, (hcmp _ _).mpr ⟨hoks, hokj, hlt.trans hlt'⟩⟩

end Rounds

/-- Where a suitable value is strictly between the extreme values of the type, there are at most 200
different values, and their number has no factor in common with the stride of the sample, the partition
keeps what it should. -/
theorem partitionFuzzyMedian3_succeeds_of_few (hS : S.Keyed key ok) (isMax : Bool) {vals : ℕ → T × ℤ}
    (hn : 3 ≤ n) (hmin : 0 < qMin) (hq : qMin ≤ qMax) (hmax : qMax < n)
    (hok : ∀ i < n, ok (vals i).1) (hcoprime : n.Coprime 6700417) {u : ℕ} (hu : u < n)
    (hbetween : S.Between isMax (S.revNeutral isMax) (S.neutral isMax) (vals u).1)
    (hsuit : S.Suitable isMax vals n qMin qMax (vals u).1)
    (hfew : ((Finset.range n).image fun i ↦ key (vals i).1).card ≤ 200) :
    S.Succeeds isMax vals n qMin qMax (S.partitionFuzzyMedian3 isMax vals n qMin qMax) := by
  have hokEntries : ∀ x ∈ entries n vals, ok x.1 := by
    intro x hx
    obtain ⟨i, hi, rfl⟩ := mem_entries.mp hx
    exact hok i hi
  unfold partitionFuzzyMedian3
  rw [if_neg (by omega), if_neg (by omega), if_neg (by omega),
    search_succeeds_iff hS hokEntries hmin hq (by decide) rfl]
  obtain ⟨K', _, g, hcmp, heq⟩ := hS.exists_cmp_iff isMax
  -- the first threshold is one of the values
  obtain ⟨i, hi, hthresh⟩ : ∃ i < n,
      S.median3 (vals 0).1 (vals (n / 2)).1 (vals (n - 1)).1 = (vals i).1 := by
    have hmem := median3_mem S (vals 0).1 (vals (n / 2)).1 (vals (n - 1)).1
    simp only [List.mem_cons, List.not_mem_nil, or_false] at hmem
    rcases hmem with h | h | h
    · exact ⟨0, by omega, h⟩
    · exact ⟨n / 2, by omega, h⟩
    · exact ⟨n - 1, by omega, h⟩
  -- and not strictly between the bounds that it leaves
  have hsub : keysBetween (fun a ↦ g (key a)) S isMax vals n
      (if S.ltCount isMax vals n (vals i).1 ≤ qMin then (vals i).1 else S.revNeutral isMax)
      (if S.ltCount isMax vals n (vals i).1 ≤ qMin then S.neutral isMax else (vals i).1) ⊂
        ((Finset.range n).image fun i ↦ key (vals i).1).image g := by
    rw [Finset.image_image, Finset.ssubset_iff_of_subset]
    · refine ⟨g (key (vals i).1), Finset.mem_image.mpr ⟨i, Finset.mem_range.mpr hi, rfl⟩, fun hout ↦ ?_⟩
      obtain ⟨j, -, hj, hjk⟩ := mem_keysBetween.mp hout
      by_cases hfew : S.ltCount isMax vals n (vals i).1 ≤ qMin
      · rw [if_pos hfew, if_pos hfew] at hj
        exact ((hcmp _ _).mp hj.1).2.2.ne hjk.symm
      · rw [if_neg hfew, if_neg hfew] at hj
        exact ((hcmp _ _).mp hj.2).2.2.ne hjk
    · intro x hx
      obtain ⟨j, hjn, -, rfl⟩ := mem_keysBetween.mp hx
      exact Finset.mem_image.mpr ⟨j, Finset.mem_range.mpr hjn, rfl⟩
  dsimp only
  rw [hthresh]
  exact meets_of_card_lt (fun a ↦ g (key a)) hcmp heq hq hcoprime hu hsuit (hok i hi) hbetween
    ((Finset.card_lt_card hsub).trans_le (Finset.card_image_le.trans hfew))

/-- Three words. -/
theorem partitionFuzzyMedian3_succeeds_of_few_words :
    wordType.Succeeds true (fun i ↦ (UInt16.ofNat (i + 1), i)) 3 1 2
      (wordType.partitionFuzzyMedian3 true (fun i ↦ (UInt16.ofNat (i + 1), i)) 3 1 2) :=
  partitionFuzzyMedian3_succeeds_of_few keyed_wordType true le_rfl (by decide) (by decide) (by decide)
    (fun _ _ ↦ trivial) (by decide +kernel) (u := 0) (by decide) ⟨by decide, by decide⟩
    ⟨by decide, by decide⟩ (by decide)

/-! ## The partition -/

end ScalarType

end FaissNavix
