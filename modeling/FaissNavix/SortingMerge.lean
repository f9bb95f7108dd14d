import FaissNavix.Float32
import FaissNavix.Lib.Loop
import FaissNavix.Lib.Region
import FaissNavix.Lib.SplitMerge

/-!
# Parallel argsort

`fvec_argsort_parallel` sorts a segment of the permutation for each thread and merges the segments
in a tree.  Each merge is shared by some of the threads: the larger run is cut in equal parts, and
the smaller one where a binary search puts the first element of each part.  `std::sort` is a
parameter, and arrays are memory from address 0 on.
-/

namespace FaissNavix

/-- `ArgsortComparator` -/
def argsortComparator (vals : List F32) (a b : ℕ) : Bool :=
  decide (vals.getD a ⟨0⟩ < vals.getD b ⟨0⟩)

/-- `SegmentS` -/
structure SegmentS where
  i0 : ℕ
  i1 : ℕ
deriving DecidableEq, Repr

namespace SegmentS

/-- `len` -/
def len (s : SegmentS) : ℕ :=
  s.i1 - s.i0

def run (src : ℕ → ℕ) (s : SegmentS) : List ℕ :=
  Lib.read src s.i0 s.len

/-- Part `t` of `nt` equal parts. -/
def part (s : SegmentS) (nt t : ℕ) : SegmentS :=
  ⟨s.i0 + s.len * t / nt, s.i0 + s.len * (t + 1) / nt⟩

end SegmentS

/-! ## One merge -/

section Merge

variable (comp : ℕ → ℕ → Bool) (src : ℕ → ℕ)

/-- The loop `while (i0 + 1 < i1)` of the binary search, for at most `fuel` turns. -/
def searchPivot (pivot : ℕ) : ℕ → ℕ → ℕ → ℕ
  | 0, _, i1 => i1
  | fuel + 1, i0, i1 =>
      if i0 + 1 < i1 then
        let imed := (i1 + i0) / 2
        if comp pivot (src imed) then searchPivot pivot fuel i0 imed
        else searchPivot pivot fuel imed i1
      else i1

/-- `s2s[t].i0`, and `s2s[nt - 1].i1` where `t` is `nt`. -/
def cut (s1 s2 : SegmentS) (nt t : ℕ) : ℕ :=
  if t = 0 then s2.i0
  else if t < nt then searchPivot comp src (src (s1.part nt (t - 1)).i1) s2.len s2.i0 s2.i1
  else s2.i1

/-- What thread `t` writes.  Where its part of `s2` ends before it starts, `s1t.len() == sw.len()`
does not hold, or if `s1t` is empty as many bytes are copied as there are addresses. -/
def mergeThread (s1 s2 : SegmentS) (nt t : ℕ) : Option (List ℕ) :=
  let s1t := s1.part nt t
  let s2t : SegmentS := ⟨cut comp src s1 s2 nt t, cut comp src s1 s2 nt (t + 1)⟩
  if s2t.i1 < s2t.i0 then none else some ((s1t.run src).merge (s2t.run src) comp)

/-- `s1s[t].len() + s2s[t].len()` -/
def threadLen (s1 s2 : SegmentS) (nt t : ℕ) : ℕ :=
  (s1.part nt t).len + (cut comp src s1 s2 nt (t + 1) - cut comp src s1 s2 nt t)

/-- The threads write one after the other, from address `o` on. -/
def writeRuns (dst : ℕ → ℕ) (o : ℕ) : List (List ℕ) → ℕ → ℕ
  | [] => dst
  | xs :: xss => writeRuns (Lib.write dst o xs) (o + xs.length) xss

/-- `parallel_merge` after `s1` and `s2` are in order: the destination, and the union of the
segments. -/
def mergeOrdered (dst : ℕ → ℕ) (s1 s2 : SegmentS) (nt : ℕ) : Option ((ℕ → ℕ) × SegmentS) := do
  let s : SegmentS := ⟨min s1.i0 s2.i0, max s1.i1 s2.i1⟩
  let outs ← (List.range nt).mapM (mergeThread comp src s1 s2 nt)
  -- assert(sws[nt - 1].i1 == s1.i1)
  guard (s.i0 + ((List.range nt).map (threadLen comp src s1 s2 nt)).sum = s.i1)
  return (writeRuns dst s.i0 outs, s)

/-- `parallel_merge` -/
def parallelMerge (dst : ℕ → ℕ) (s1 s2 : SegmentS) (nt : ℕ) : Option ((ℕ → ℕ) × SegmentS) :=
  if s1.len < s2.len then mergeOrdered comp src dst s2 s1 nt
  else mergeOrdered comp src dst s1 s2 nt

end Merge

/-! ## The tree -/

/-- The number of threads that merge the segments `s` and `s + 1` of `nseg`. -/
def mergeThreads (nt nseg s : ℕ) : ℕ :=
  let subNt := if nseg % 2 = 0 then nt else nt - 1
  let subNseg1 := nseg / 2
  (s + 1) * subNt / subNseg1 - s * subNt / subNseg1

/-- The segments from number `s` on are merged in pairs. -/
def mergeLevel (comp : ℕ → ℕ → Bool) (nt nseg : ℕ) (permA : ℕ → ℕ) :
    ℕ → List SegmentS → (ℕ → ℕ) → Option ((ℕ → ℕ) × List SegmentS)
  | _, [], permB => some (permB, [])
  | _, [a], permB => some (Lib.write permB a.i0 (a.run permA), [a])
  | s, a :: b :: segs, permB => do
      let (permB, ab) ← parallelMerge comp permA permB a b (mergeThreads nt nseg s)
      let (permB, segs) ← mergeLevel comp nt nseg permA (s + 2) segs permB
      return (permB, ab :: segs)

/-- The loop `while (nseg > 1)`, for at most `fuel` turns.  `isPerm` says which of the two arrays
`permA` is. -/
def mergeLevels (comp : ℕ → ℕ → Bool) (nt : ℕ) :
    ℕ → List SegmentS → (ℕ → ℕ) → (ℕ → ℕ) → Bool → Option (ℕ → ℕ)
  | 0, _, _, _, _ => none
  | fuel + 1, segs, permA, permB, isPerm =>
      if 1 < segs.length then do
        let (permB, segs) ← mergeLevel comp nt segs.length permA 0 segs permB
        mergeLevels comp nt fuel segs permB permA (!isPerm)
      -- assert(permA == perm)
      else if isPerm then some permA else none

/-- The first loop of `fvec_argsort_parallel`, for at most `fuel` turns. -/
def startsInPerm : ℕ → ℕ → Bool → Bool
  | 0, _, isPerm => isPerm
  | fuel + 1, nseg, isPerm =>
      if 1 < nseg then startsInPerm fuel ((nseg + 1) / 2) (!isPerm) else isPerm

def segments (n nt : ℕ) : List SegmentS :=
  (List.range nt).map fun t ↦ ⟨t * n / nt, (t + 1) * n / nt⟩

def sortSegments (sort : List ℕ → List ℕ) (permA : ℕ → ℕ) (segs : List SegmentS) : ℕ → ℕ :=
  segs.foldl (fun m s ↦ Lib.write m s.i0 (sort (s.run m))) permA

/-- `fvec_argsort_parallel`, where `perm` and `perm2` are the arrays before. -/
def fvecArgsortParallel (sort : (ℕ → ℕ → Bool) → List ℕ → List ℕ) (vals : List F32) (nt : ℕ)
    (perm perm2 : ℕ → ℕ) : Option (List ℕ) := do
  let n := vals.length
  let isPerm := startsInPerm nt nt true
  let permA := if isPerm then perm else perm2
  let permB := if isPerm then perm2 else perm
  let comp := argsortComparator vals
  let permA := Lib.write permA 0 (List.range n)
  let permA := sortSegments (sort comp) permA (segments n nt)
  let perm ← mergeLevels comp nt nt (segments n nt) permA permB isPerm
  return Lib.read perm 0 n

end FaissNavix

/-!
# One merge of the parallel argsort

The binary search looks for the first element of the smaller run that is above the pivot, but never
looks at the first element of all.  If that is above the first pivot already, it is merged into the
part before the pivot.  Otherwise each cut separates both runs at its pivot, and the merge of sorted
runs is sorted.
-/

namespace FaissNavix

open Lib (slice splitMerge Cuts SeparatedAt)

section Search

variable {comp : ℕ → ℕ → Bool} {src : ℕ → ℕ} {pivot : ℕ}

/-- What the binary search finds in `[i0, i1)`: nothing is known of the element at `i0`. -/
structure Found (comp : ℕ → ℕ → Bool) (src : ℕ → ℕ) (pivot i0 i1 r : ℕ) : Prop where
  lt : i0 < r
  le : r ≤ i1
  above : r < i1 → comp pivot (src r) = true
  before : i0 + 1 < r → comp pivot (src (r - 1)) = false

theorem searchPivot_of_le {fuel i0 i1 : ℕ} (h : i1 ≤ i0) :
    searchPivot comp src pivot fuel i0 i1 = i1 := by
  cases fuel with
  | zero => rfl
  | succ fuel => rw [searchPivot, if_neg (by omega)]

theorem searchPivot_spec {fuel i0 i1 : ℕ} (h : i0 < i1) (hfuel : i1 - i0 ≤ fuel) :
    Found comp src pivot i0 i1 (searchPivot comp src pivot fuel i0 i1) := by
  induction fuel generalizing i0 i1 with
  | zero => omega
  | succ fuel ih =>
      rw [searchPivot]
      split
      · next hlt =>
          simp only
          split
          · next hcomp =>
              have hf := ih (by omega : i0 < (i1 + i0) / 2) (by omega)
              refine ⟨hf.lt, hf.le.trans (by omega), fun hr ↦ ?_, hf.before⟩
              obtain heq | hlt := hf.le.eq_or_lt
              · rw [heq]
                exact hcomp
              · exact hf.above hlt
          · next hcomp =>
              have hf := ih (by omega : (i1 + i0) / 2 < i1) (by omega)
              refine ⟨(by omega : i0 < (i1 + i0) / 2).trans hf.lt, hf.le, hf.above, fun hr ↦ ?_⟩
              obtain heq | hlt := (Nat.succ_le_of_lt hf.lt).eq_or_lt
              · rw [← heq, Nat.succ_sub_one]
                exact Bool.eq_false_iff.2 hcomp
              · exact hf.before hlt
      · next hge => exact ⟨h, le_rfl, fun hr ↦ absurd hr (lt_irrefl _), fun hr ↦ absurd hr hge⟩

end Search

/-! ## Cuts -/

section Cut

variable {comp : ℕ → ℕ → Bool} {src : ℕ → ℕ} {s1 s2 : SegmentS} {nt : ℕ}

def SegmentS.Ok (s : SegmentS) : Prop :=
  s.i0 ≤ s.i1

/-- The first element of part `t`, for `0 < t`. -/
def firstOfPart (src : ℕ → ℕ) (s1 : SegmentS) (nt t : ℕ) : ℕ :=
  src (s1.i0 + s1.len * t / nt)

theorem cut_eq {t : ℕ} (ht : 0 < t) (hnt : t < nt) :
    cut comp src s1 s2 nt t =
      searchPivot comp src (firstOfPart src s1 nt t) s2.len s2.i0 s2.i1 := by
  rw [cut, if_neg ht.ne', if_pos hnt, firstOfPart, SegmentS.part]
  simp only [Nat.sub_add_cancel ht]

theorem cut_zero : cut comp src s1 s2 nt 0 = s2.i0 :=
  if_pos rfl

theorem cut_last (hnt : 0 < nt) : cut comp src s1 s2 nt nt = s2.i1 := by
  rw [cut, if_neg hnt.ne', if_neg (lt_irrefl nt)]

theorem cut_of_empty (h : s2.i0 = s2.i1) (t : ℕ) : cut comp src s1 s2 nt t = s2.i0 := by
  rw [cut]
  split
  · rfl
  · split
    · rw [searchPivot_of_le h.ge, h]
    · exact h.symm

section
variable (comp : ℕ → ℕ → Bool) (src : ℕ → ℕ)

theorem found_cut (s1 : SegmentS) (h : s2.i0 < s2.i1) {t : ℕ} (ht : 0 < t) (hnt : t < nt) :
    Found comp src (firstOfPart src s1 nt t) s2.i0 s2.i1 (cut comp src s1 s2 nt t) := by
  rw [cut_eq ht hnt]
  exact searchPivot_spec h le_rfl

theorem cut_mem (s1 : SegmentS) (h : s2.Ok) (nt t : ℕ) :
    s2.i0 ≤ cut comp src s1 s2 nt t ∧ cut comp src s1 s2 nt t ≤ s2.i1 := by
  obtain heq | hlt := Nat.eq_or_lt_of_le h
  · rw [cut_of_empty heq]
    exact ⟨le_rfl, h⟩
  · by_cases ht : t = 0
    · rw [ht, cut_zero]
      exact ⟨le_rfl, h⟩
    · by_cases hnt : t < nt
      · have hf := found_cut comp src s1 hlt (Nat.pos_of_ne_zero ht) hnt
        exact ⟨hf.lt.le, hf.le⟩
      · rw [cut, if_neg ht, if_neg hnt]
        exact ⟨h, le_rfl⟩

theorem cuts_part (hnt : 0 < nt) (s1 : SegmentS) : Cuts nt (fun t ↦ s1.len * t / nt) s1.len where
  zero := by rw [Nat.mul_zero, Nat.zero_div]
  last := Nat.mul_div_cancel _ hnt
  rises t _ := Nat.div_le_div_right (Nat.mul_le_mul_left _ (Nat.le_succ t))

def CutsRise (s1 s2 : SegmentS) (nt : ℕ) : Prop :=
  ∀ t < nt, cut comp src s1 s2 nt t ≤ cut comp src s1 s2 nt (t + 1)

end

theorem CutsRise.cuts (h : CutsRise comp src s1 s2 nt) (hnt : 0 < nt) :
    Cuts nt (fun t ↦ cut comp src s1 s2 nt t - s2.i0) s2.len where
  zero := by rw [cut_zero, Nat.sub_self]
  last := by rw [cut_last hnt, SegmentS.len]
  rises t ht := Nat.sub_le_sub_right (h t ht) _

def mergedRun (comp : ℕ → ℕ → Bool) (src : ℕ → ℕ) (s1 s2 : SegmentS) (nt : ℕ) : List ℕ :=
  splitMerge comp nt (fun t ↦ s1.len * t / nt) (fun t ↦ cut comp src s1 s2 nt t - s2.i0)
    (s1.run src) (s2.run src)

theorem length_run (src : ℕ → ℕ) (s : SegmentS) : (s.run src).length = s.len :=
  Lib.length_read _ _ _

theorem run_eq_slice (src : ℕ → ℕ) {s : SegmentS} {i j : ℕ} (hj : s.i0 + j ≤ s.i1) :
    (⟨s.i0 + i, s.i0 + j⟩ : SegmentS).run src = slice (s.run src) i j := by
  have hlen : (⟨s.i0 + i, s.i0 + j⟩ : SegmentS).len = j - i := Nat.add_sub_add_left _ _ _
  by_cases hij : i ≤ j
  · have hle : i + (j - i) ≤ s.len := by
      rw [Nat.add_sub_cancel' hij]
      exact Nat.le_sub_of_add_le' hj
    rw [SegmentS.run, hlen, slice, SegmentS.run, Lib.drop_take_read _ hle]
  · rw [SegmentS.run, hlen, slice, Nat.sub_eq_zero_of_le (Nat.le_of_not_le hij), List.take_zero]
    rfl

theorem mergeThread_eq (h1 : s1.Ok) (h2 : s2.Ok) {t : ℕ} (ht : t < nt) :
    mergeThread comp src s1 s2 nt t =
      if cut comp src s1 s2 nt (t + 1) < cut comp src s1 s2 nt t then none
      else some ((slice (s1.run src) (s1.len * t / nt) (s1.len * (t + 1) / nt)).merge
        (slice (s2.run src) (cut comp src s1 s2 nt t - s2.i0)
          (cut comp src s1 s2 nt (t + 1) - s2.i0)) comp) := by
  have hpart : s1.len * (t + 1) / nt ≤ s1.len :=
    Nat.div_le_of_le_mul ((Nat.mul_le_mul_left _ (Nat.succ_le_of_lt ht)).trans_eq (Nat.mul_comm _ _))
  have hlen : s1.len = s1.i1 - s1.i0 := rfl
  have hok1 : s1.i0 ≤ s1.i1 := h1
  have hc := cut_mem comp src s1 h2 nt t
  have hc' := cut_mem comp src s1 h2 nt (t + 1)
  have hrun2 := run_eq_slice src (s := s2) (i := cut comp src s1 s2 nt t - s2.i0)
    (j := cut comp src s1 s2 nt (t + 1) - s2.i0) (by omega)
  rw [Nat.add_sub_cancel' hc.1, Nat.add_sub_cancel' hc'.1] at hrun2
  rw [← hrun2, ← run_eq_slice src (by omega)]
  rfl

theorem writeRuns_eq (dst : ℕ → ℕ) (o : ℕ) (xss : List (List ℕ)) :
    writeRuns dst o xss = Lib.write dst o xss.flatten := by
  induction xss generalizing dst o with
  | nil =>
      funext a
      rw [writeRuns, List.flatten_nil, Lib.write_of_outside (Nat.lt_or_ge a o)]
  | cons xs xss ih => rw [writeRuns, ih, List.flatten_cons, Lib.write_append]

/-- All threads return if no part ends before it starts. -/
theorem mapM_mergeThread (h1 : s1.Ok) (h2 : s2.Ok) {outs : List (List ℕ)} :
    (List.range nt).mapM (mergeThread comp src s1 s2 nt) = some outs ↔
      CutsRise comp src s1 s2 nt ∧ outs = (List.range nt).map fun t ↦
        (slice (s1.run src) (s1.len * t / nt) (s1.len * (t + 1) / nt)).merge
          (slice (s2.run src) (cut comp src s1 s2 nt t - s2.i0)
            (cut comp src s1 s2 nt (t + 1) - s2.i0)) comp := by
  rw [Lib.mapM_eq_some_iff]
  constructor
  · intro h
    have hrise : CutsRise comp src s1 s2 nt := by
      intro t ht
      by_contra hlt
      have hnone : none ∈ outs.map some := by
        rw [← h]
        refine List.mem_map.2 ⟨t, List.mem_range.2 ht, ?_⟩
        rw [mergeThread_eq h1 h2 ht, if_pos (Nat.lt_of_not_le hlt)]
      obtain ⟨_, -, ⟨⟩⟩ := List.mem_map.1 hnone
    refine ⟨hrise, List.map_injective_iff.2 (Option.some_injective _) (h.symm.trans ?_)⟩
    rw [List.map_map]
    refine List.map_congr_left fun t ht ↦ ?_
    rw [mergeThread_eq h1 h2 (List.mem_range.1 ht),
      if_neg (hrise t (List.mem_range.1 ht)).not_gt]
    rfl
  · rintro ⟨hrise, rfl⟩
    rw [List.map_map]
    refine List.map_congr_left fun t ht ↦ ?_
    rw [mergeThread_eq h1 h2 (List.mem_range.1 ht),
      if_neg (hrise t (List.mem_range.1 ht)).not_gt]
    rfl

theorem threadLen_eq (h2 : s2.Ok) {t : ℕ} (ht : t < nt) :
    threadLen comp src s1 s2 nt t =
      ((slice (s1.run src) (s1.len * t / nt) (s1.len * (t + 1) / nt)).merge
        (slice (s2.run src) (cut comp src s1 s2 nt t - s2.i0)
          (cut comp src s1 s2 nt (t + 1) - s2.i0)) comp).length := by
  have hpart : s1.len * (t + 1) / nt ≤ s1.len :=
    Nat.div_le_of_le_mul ((Nat.mul_le_mul_left _ (Nat.succ_le_of_lt ht)).trans_eq (Nat.mul_comm _ _))
  have hc := cut_mem comp src s1 h2 nt t
  have hc' := cut_mem comp src s1 h2 nt (t + 1)
  have hlen2 : s2.len = s2.i1 - s2.i0 := rfl
  rw [List.length_merge, Lib.length_slice (.inr (by rwa [length_run])),
    Lib.length_slice (.inr (by rw [length_run]; omega)), threadLen, SegmentS.part, SegmentS.len,
    Nat.add_sub_add_left]
  omega

/-- `parallel_merge` returns if no part ends before it starts. -/
theorem mergeOrdered_eq_some (h1 : s1.Ok) (h2 : s2.Ok) (hnt : 0 < nt)
    (hunion : min s1.i0 s2.i0 + (s1.len + s2.len) = max s1.i1 s2.i1) {dst dst' : ℕ → ℕ}
    {s : SegmentS} :
    mergeOrdered comp src dst s1 s2 nt = some (dst', s) ↔ CutsRise comp src s1 s2 nt ∧
      dst' = Lib.write dst (min s1.i0 s2.i0) (mergedRun comp src s1 s2 nt) ∧
      s = ⟨min s1.i0 s2.i0, max s1.i1 s2.i1⟩ := by
  have hsum : CutsRise comp src s1 s2 nt →
      ((List.range nt).map (threadLen comp src s1 s2 nt)).sum = s1.len + s2.len := by
    intro hrise
    have hp : Cuts nt (fun t ↦ s1.len * t / nt) (s1.run src).length := by
      rw [length_run]
      exact cuts_part hnt s1
    have hq : Cuts nt (fun t ↦ cut comp src s1 s2 nt t - s2.i0) (s2.run src).length := by
      rw [length_run]
      exact hrise.cuts hnt
    have hperm := (hp.perm comp hq).length_eq
    rw [List.length_append, length_run, length_run, splitMerge, List.length_flatMap] at hperm
    rw [← hperm]
    refine congrArg List.sum (List.map_congr_left fun t ht ↦ ?_)
    rw [threadLen_eq h2 (List.mem_range.1 ht)]
  rw [mergeOrdered]
  simp only [Option.bind_eq_bind, Option.bind_eq_some_iff, mapM_mergeThread h1 h2]
  constructor
  · rintro ⟨outs, ⟨hrise, rfl⟩, -, -, hret⟩
    cases hret
    rw [writeRuns_eq]
    exact ⟨hrise, rfl, rfl⟩
  · rintro ⟨hrise, rfl, rfl⟩
    refine ⟨_, ⟨hrise, rfl⟩, (), ?_, ?_⟩
    · rw [hsum hrise, hunion]
      exact if_pos rfl
    · rw [writeRuns_eq]
      rfl

end Cut

/-! ## Sorted runs -/

section Sorted

variable {β : Type} [LinearOrder β] {w : ℕ → β} {comp : ℕ → ℕ → Bool} {src : ℕ → ℕ}
  {s1 s2 : SegmentS} {nt : ℕ}

def SortedRun (w : ℕ → β) (src : ℕ → ℕ) (s : SegmentS) : Prop :=
  (s.run src).Pairwise fun a b ↦ w a ≤ w b

def PivotOk (w : ℕ → β) (src : ℕ → ℕ) (s1 s2 : SegmentS) (nt : ℕ) : Prop :=
  1 < nt → 0 < s2.len → w (src s2.i0) ≤ w (firstOfPart src s1 nt 1)

theorem getElem_run {s : SegmentS} {i : ℕ} (hi : i < (s.run src).length) :
    (s.run src).get ⟨i, hi⟩ = src (s.i0 + i) := by
  simp only [SegmentS.run, Lib.read, List.get_eq_getElem, List.getElem_map, List.getElem_range]

theorem SortedRun.le {s : SegmentS} (h : SortedRun w src s) {i j : ℕ} (hi : s.i0 ≤ i)
    (hij : i ≤ j) (hj : j < s.i1) : w (src i) ≤ w (src j) := by
  obtain rfl | hlt := hij.eq_or_lt
  · exact le_rfl
  · obtain ⟨k, rfl⟩ := Nat.exists_eq_add_of_le hi
    obtain ⟨l, rfl⟩ := Nat.exists_eq_add_of_le (hi.trans hij)
    have hlen : (s.run src).length = s.i1 - s.i0 := length_run src s
    have hk : k < (s.run src).length := by omega
    have hl : l < (s.run src).length := by omega
    have hrel := List.pairwise_iff_get.1 h ⟨k, hk⟩ ⟨l, hl⟩ (Nat.lt_of_add_lt_add_left hlt)
    rwa [getElem_run, getElem_run] at hrel

theorem part_lt (hpos : 0 < s1.len) {t : ℕ} (ht : t < nt) : s1.len * t / nt < s1.len :=
  Nat.div_lt_of_lt_mul ((Nat.mul_lt_mul_of_pos_left ht hpos).trans_eq (Nat.mul_comm _ _))

theorem SortedRun.firstOfPart_le (h : SortedRun w src s1) (hpos : 0 < s1.len) {t u : ℕ}
    (htu : t ≤ u) (hu : u < nt) :
    w (firstOfPart src s1 nt t) ≤ w (firstOfPart src s1 nt u) := by
  have hlt := part_lt hpos hu
  have hlen : s1.len = s1.i1 - s1.i0 := rfl
  have hle : s1.len * t / nt ≤ s1.len * u / nt := Nat.div_le_div_right (Nat.mul_le_mul_left _ htu)
  exact h.le (Nat.le_add_right _ _) (Nat.add_le_add_left hle _) (by omega)

variable (hcomp : ∀ a b, comp a b = true ↔ w a < w b)
include hcomp

theorem le_of_comp_eq_false {a b : ℕ} (h : comp a b = false) : w b ≤ w a :=
  not_lt.1 fun hlt ↦ by
    rw [(hcomp a b).2 hlt] at h
    cases h

variable (hs1 : SortedRun w src s1) (hs2 : SortedRun w src s2) (h2 : s2.Ok)
include hs1 hs2 h2

/-- In sorted runs no part ends before it starts. -/
theorem SortedRun.cutsRise (hle : s2.len ≤ s1.len) (nt : ℕ) : CutsRise comp src s1 s2 nt := by
  intro t ht
  obtain heq | hlt := Nat.eq_or_lt_of_le h2
  · rw [cut_of_empty heq, cut_of_empty heq]
  · by_cases ht0 : t = 0
    · rw [ht0, cut_zero]
      exact (cut_mem comp src s1 h2 nt _).1
    · by_cases hlast : t + 1 = nt
      · rw [hlast, cut_last (Nat.zero_lt_of_lt ht)]
        exact (cut_mem comp src s1 h2 nt _).2
      · have hpos : 0 < s1.len := (Nat.sub_pos_of_lt hlt).trans_le hle
        have ht' : t + 1 < nt := lt_of_le_of_ne ht hlast
        have hf := found_cut comp src s1 hlt (Nat.pos_of_ne_zero ht0) ht
        have hf' := found_cut comp src s1 hlt (Nat.succ_pos t) ht'
        by_contra hfall
        have hfall := Nat.lt_of_not_le hfall
        -- the later cut is at an element above the later pivot, and before the earlier cut
        have habove := (hcomp _ _).1 (hf'.above (hfall.trans_le hf.le))
        have hbelow := le_of_comp_eq_false hcomp
          (hf.before ((Nat.succ_le_of_lt hf'.lt).trans_lt hfall))
        have hbetween := hs2.le hf'.lt.le (Nat.le_sub_one_of_lt hfall)
          (by have := hf.le; have := hf.lt; omega)
        have hpivots := hs1.firstOfPart_le hpos (Nat.le_succ t) ht'
        exact absurd habove ((hbetween.trans (hbelow.trans hpivots)).not_gt)

/-- Each cut separates both runs at its pivot, if the first pivot is not below the smaller run. -/
theorem SortedRun.separatedAt
    (hle : s2.len ≤ s1.len) (hpivot : PivotOk w src s1 s2 nt) {t : ℕ} (ht : t + 1 < nt) :
    SeparatedAt w (w (firstOfPart src s1 nt (t + 1))) (s1.run src) (s1.len * (t + 1) / nt) ∧
      SeparatedAt w (w (firstOfPart src s1 nt (t + 1))) (s2.run src)
        (cut comp src s1 s2 nt (t + 1) - s2.i0) := by
  have hlen1 := length_run src s1
  have hlen2 := length_run src s2
  have hlen2' : s2.len = s2.i1 - s2.i0 := rfl
  have hcut := cut_mem comp src s1 h2 nt (t + 1)
  have hpart : s1.len * (t + 1) / nt ≤ s1.len :=
    Nat.div_le_of_le_mul ((Nat.mul_le_mul_left _ ht.le).trans_eq (Nat.mul_comm _ _))
  constructor
  · refine Lib.separatedAt_of_pairwise (hpart.trans_eq hlen1.symm) hs1 (fun i hi hik ↦ ?_)
      fun hk ↦ (congrArg w (getElem_run hk)).ge
    have hlt := part_lt (by omega : 0 < s1.len) ht
    have hend : s1.len = s1.i1 - s1.i0 := rfl
    rw [getElem_run]
    exact hs1.le (Nat.le_add_right _ _) (by omega) (by omega)
  · refine Lib.separatedAt_of_pairwise (by omega) hs2 (fun i hi hik ↦ ?_) fun hk ↦ ?_
    · have hf := found_cut comp src s1 (t := t + 1) (by omega : s2.i0 < s2.i1)
        (Nat.succ_pos t) ht
      rw [getElem_run]
      obtain hfirst | hlater := Nat.eq_or_lt_of_le (Nat.succ_le_of_lt hf.lt)
      · -- the search has not looked at the first element
        obtain rfl : i = 0 := by omega
        exact (hpivot (by omega) (by omega)).trans
          (hs1.firstOfPart_le (by omega) (Nat.le_add_left 1 t) ht)
      · have hprev : s2.i0 + i = cut comp src s1 s2 nt (t + 1) - 1 := by omega
        rw [hprev]
        exact le_of_comp_eq_false hcomp (hf.before hlater)
    · have hf := found_cut comp src s1 (t := t + 1) (by omega : s2.i0 < s2.i1)
        (Nat.succ_pos t) ht
      rw [getElem_run, Nat.add_sub_cancel' hcut.1]
      exact ((hcomp _ _).1 (hf.above (by omega))).le

/-- Sorted runs are merged to a sorted one exactly if the first pivot is not below the smaller
run. -/
theorem SortedRun.mergedRun_iff (hnt : 0 < nt) (hle : s2.len ≤ s1.len) :
    (mergedRun comp src s1 s2 nt).Pairwise (fun a b ↦ w a ≤ w b) ↔ PivotOk w src s1 s2 nt := by
  have hrise := hs1.cutsRise hcomp hs2 h2 hle nt
  have hp : Cuts nt (fun t ↦ s1.len * t / nt) (s1.run src).length := by
    rw [length_run]
    exact cuts_part hnt s1
  have hq : Cuts nt (fun t ↦ cut comp src s1 s2 nt t - s2.i0) (s2.run src).length := by
    rw [length_run]
    exact hrise.cuts hnt
  constructor
  · intro h hone hpos
    have hf := found_cut comp src s1 (Nat.lt_of_sub_pos hpos : s2.i0 < s2.i1) Nat.one_pos hone
    have hfirst : s1.len * 1 / nt < s1.len := part_lt (hpos.trans_le hle) hone
    have hlen1 := length_run src s1
    have hlen2 := length_run src s2
    refine hp.le_of_pairwise hnt h (x := firstOfPart src s1 nt 1) (y := src s2.i0) ?_ ?_
    · refine List.mem_drop_iff_getElem.2 ⟨0, by omega, ?_⟩
      exact getElem_run (by omega)
    · rw [cut_zero, Nat.sub_self, slice, List.drop_zero, Nat.sub_zero]
      refine List.mem_take_iff_getElem.2 ⟨0, lt_min (Nat.sub_pos_of_lt hf.lt) (by omega), ?_⟩
      exact getElem_run (by omega)
  · intro hpivot
    exact hp.pairwise hcomp hq hs1 hs2 fun t ht ↦ ⟨w (firstOfPart src s1 nt (t + 1)),
      hs1.separatedAt hcomp hs2 h2 hle hpivot ht⟩

end Sorted

end FaissNavix
