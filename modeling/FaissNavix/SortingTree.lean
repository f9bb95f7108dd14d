import FaissNavix.SortingMerge

/-!
# The tree of merges

The segments of each level are the whole array, one after the other, and each holds its own indices.
A level keeps the order within each segment, so a result that is sorted comes from sorted segments
on all levels.
-/

namespace FaissNavix

open Lib

def SegmentS.indices (s : SegmentS) : List ℕ :=
  List.range' s.i0 s.len

def HoldsIndices (m : ℕ → ℕ) (s : SegmentS) : Prop :=
  (s.run m).Perm s.indices

variable {β : Type} [LinearOrder β] {w : ℕ → β} {comp : ℕ → ℕ → Bool}

/-- At most the first part of `s1` is below all values of `s2`. -/
def FewBelow (w : ℕ → β) (s1 s2 : SegmentS) (nt : ℕ) : Prop :=
  1 < nt → 0 < s2.len →
    s1.indices.countP (fun i ↦ decide (∀ j ∈ s2.indices, w i < w j)) ≤ s1.len / nt

def PairOk (w : ℕ → β) (a b : SegmentS) (nt : ℕ) : Prop :=
  if a.len < b.len then FewBelow w b a nt else FewBelow w a b nt

theorem SegmentS.indices_append {a b : SegmentS} (ha : a.Ok) (hab : a.i1 = b.i0) (hb : b.Ok) :
    a.indices ++ b.indices = SegmentS.indices ⟨a.i0, b.i1⟩ := by
  have hstart : b.i0 = a.i0 + 1 * a.len := by
    rw [Nat.one_mul, SegmentS.len, Nat.add_sub_cancel' ha, hab]
  have hlen : (⟨a.i0, b.i1⟩ : SegmentS).len = a.len + b.len := by
    have ha' : a.i0 ≤ a.i1 := ha
    have hb' : b.i0 ≤ b.i1 := hb
    simp only [SegmentS.len]
    omega
  rw [SegmentS.indices, SegmentS.indices, SegmentS.indices, hlen, hstart]
  exact List.range'_append

/-- For sorted segments the condition on the indices is that of the pivot. -/
theorem SortedRun.pivotOk_iff {m : ℕ → ℕ} {s1 s2 : SegmentS} {nt : ℕ} (hs1 : SortedRun w m s1)
    (hs2 : SortedRun w m s2) (h1 : HoldsIndices m s1) (h2 : HoldsIndices m s2)
    (hle : s2.len ≤ s1.len) : PivotOk w m s1 s2 nt ↔ FewBelow w s1 s2 nt := by
  refine forall_congr' fun hone ↦ forall_congr' fun hpos ↦ ?_
  have hfirst : s1.len * 1 / nt < (s1.run m).length := by
    rw [length_run]
    exact part_lt (hpos.trans_le hle) hone
  have hbelow : ∀ i, (∀ j ∈ s2.indices, w i < w j) ↔ w i < w (m s2.i0) := by
    intro i
    constructor
    · intro h
      refine h _ (h2.subset ?_)
      have hzero : 0 < (s2.run m).length := by rwa [length_run]
      have hmem := List.get_mem (s2.run m) ⟨0, hzero⟩
      rwa [getElem_run] at hmem
    · intro h j hj
      obtain ⟨k, hk, rfl⟩ := List.mem_iff_getElem.1 (h2.symm.subset hj)
      have hget := getElem_run hk
      rw [List.get_eq_getElem] at hget
      rw [hget]
      rw [length_run, SegmentS.len] at hk
      exact h.trans_le (hs2.le le_rfl (Nat.le_add_right _ _) (by omega))
  simp only [hbelow]
  rw [← h1.countP_eq]
  have hiff := countP_lt_le_iff (b := w (m s2.i0)) hfirst hs1
  rw [getElem_run, Nat.mul_one] at hiff
  rw [firstOfPart, Nat.mul_one]
  exact hiff.symm

/-! ## One merge -/

/-- What a merge of two neighbours leaves: the elements of both, each in its order. -/
structure MergedInto (src dst dst' : ℕ → ℕ) (a b : SegmentS) (out : List ℕ) : Prop where
  eq : dst' = Lib.write dst a.i0 out
  length_eq : out.length = a.len + b.len
  perm : out.Perm (a.run src ++ b.run src)
  left : (a.run src).Sublist out
  right : (b.run src).Sublist out

variable {src dst dst' : ℕ → ℕ} {a b s : SegmentS} {nt : ℕ}

theorem CutsRise.mergedRun_sublist {s1 s2 : SegmentS} (h : CutsRise comp src s1 s2 nt)
    (hnt : 0 < nt) :
    (mergedRun comp src s1 s2 nt).Perm (s1.run src ++ s2.run src) ∧
      (s1.run src).Sublist (mergedRun comp src s1 s2 nt) ∧
        (s2.run src).Sublist (mergedRun comp src s1 s2 nt) := by
  have hp : Cuts nt (fun t ↦ s1.len * t / nt) (s1.run src).length := by
    rw [length_run]
    exact cuts_part hnt s1
  have hq : Cuts nt (fun t ↦ cut comp src s1 s2 nt t - s2.i0) (s2.run src).length := by
    rw [length_run]
    exact h.cuts hnt
  exact ⟨hp.perm comp hq, hp.sublist_left _ _, hq.sublist_right _ _⟩

theorem parallelMerge_eq_some (ha : a.Ok) (hab : a.i1 = b.i0) (hb : b.Ok) (hnt : 0 < nt)
    (h : parallelMerge comp src dst a b nt = some (dst', s)) :
    s = ⟨a.i0, b.i1⟩ ∧ ∃ out, MergedInto src dst dst' a b out := by
  have ha' : a.i0 ≤ a.i1 := ha
  have hb' : b.i0 ≤ b.i1 := hb
  have hlena : a.len = a.i1 - a.i0 := rfl
  have hlenb : b.len = b.i1 - b.i0 := rfl
  rw [parallelMerge] at h
  split at h
  · rw [mergeOrdered_eq_some hb ha hnt (by omega), min_eq_right (by omega),
      max_eq_left (by omega)] at h
    obtain ⟨hrise, hdst, rfl⟩ := h
    obtain ⟨hperm, hsub, hsub'⟩ := hrise.mergedRun_sublist hnt
    refine ⟨rfl, _, hdst, ?_, hperm.trans List.perm_append_comm, hsub', hsub⟩
    rw [hperm.length_eq, List.length_append, length_run, length_run, Nat.add_comm]
  · rw [mergeOrdered_eq_some ha hb hnt (by omega), min_eq_left (by omega),
      max_eq_right (by omega)] at h
    obtain ⟨hrise, hdst, rfl⟩ := h
    obtain ⟨hperm, hsub, hsub'⟩ := hrise.mergedRun_sublist hnt
    refine ⟨rfl, _, hdst, ?_, hperm, hsub, hsub'⟩
    rw [hperm.length_eq, List.length_append, length_run, length_run]

theorem run_write (m : ℕ → ℕ) {s : SegmentS} {out : List ℕ} (hlen : out.length = s.len) :
    s.run (Lib.write m s.i0 out) = out := by
  have hle : 0 + s.len ≤ out.length := by omega
  have h := read_write_of_within (m := m) (o := s.i0) hle
  rw [Nat.add_zero, List.drop_zero, ← hlen, List.take_length] at h
  rw [SegmentS.run, ← hlen]
  exact h

theorem MergedInto.run_eq {out : List ℕ} (h : MergedInto src dst dst' a b out) (ha : a.Ok)
    (hab : a.i1 = b.i0) (hb : b.Ok) : SegmentS.run dst' ⟨a.i0, b.i1⟩ = out := by
  have ha' : a.i0 ≤ a.i1 := ha
  have hb' : b.i0 ≤ b.i1 := hb
  rw [h.eq]
  refine run_write dst (s := ⟨a.i0, b.i1⟩) (h.length_eq.trans ?_)
  simp only [SegmentS.len]
  omega

section Sorted

variable (hcomp : ∀ a b, comp a b = true ↔ w a < w b)
include hcomp

/-- A merge leaves a sorted segment exactly if both segments are sorted and the first part of the
larger one reaches the smaller one. -/
theorem mergeOrdered_sorted_iff {s1 s2 : SegmentS} (h1 : s1.Ok) (h2 : s2.Ok) (hnt : 0 < nt)
    (hunion : min s1.i0 s2.i0 + (s1.len + s2.len) = max s1.i1 s2.i1) (hle : s2.len ≤ s1.len)
    (hi1 : HoldsIndices src s1) (hi2 : HoldsIndices src s2) :
    (SortedRun w src s1 ∧ SortedRun w src s2 ∧ FewBelow w s1 s2 nt) ↔
      ∃ dst' s, mergeOrdered comp src dst s1 s2 nt = some (dst', s) ∧ SortedRun w dst' s := by
  -- the segment that is written holds the merged run
  have hrun : CutsRise comp src s1 s2 nt → SegmentS.run (Lib.write dst (min s1.i0 s2.i0)
      (mergedRun comp src s1 s2 nt)) ⟨min s1.i0 s2.i0, max s1.i1 s2.i1⟩ =
        mergedRun comp src s1 s2 nt := by
    intro hrise
    refine run_write dst (s := ⟨min s1.i0 s2.i0, max s1.i1 s2.i1⟩) ?_
    rw [(hrise.mergedRun_sublist hnt).1.length_eq, List.length_append, length_run, length_run]
    exact (Nat.sub_eq_of_eq_add' hunion.symm).symm
  constructor
  · rintro ⟨hs1, hs2, hfew⟩
    have hrise := hs1.cutsRise hcomp hs2 h2 hle nt
    refine ⟨_, _, (mergeOrdered_eq_some h1 h2 hnt hunion).2 ⟨hrise, rfl, rfl⟩, ?_⟩
    rw [SortedRun, hrun hrise, hs1.mergedRun_iff hcomp hs2 h2 hnt hle]
    exact (hs1.pivotOk_iff hs2 hi1 hi2 hle).2 hfew
  · rintro ⟨dst', s, hmerge, hsorted⟩
    obtain ⟨hrise, rfl, rfl⟩ := (mergeOrdered_eq_some h1 h2 hnt hunion).1 hmerge
    obtain ⟨-, hsub1, hsub2⟩ := hrise.mergedRun_sublist hnt
    rw [SortedRun, hrun hrise] at hsorted
    have hs1 : SortedRun w src s1 := hsorted.sublist hsub1
    have hs2 : SortedRun w src s2 := hsorted.sublist hsub2
    refine ⟨hs1, hs2, (hs1.pivotOk_iff hs2 hi1 hi2 hle).1 ?_⟩
    exact (hs1.mergedRun_iff hcomp hs2 h2 hnt hle).1 hsorted

theorem parallelMerge_sorted_iff (dst : ℕ → ℕ) (ha : a.Ok) (hab : a.i1 = b.i0) (hb : b.Ok) (hnt : 0 < nt)
    (hia : HoldsIndices src a) (hib : HoldsIndices src b) :
    (SortedRun w src a ∧ SortedRun w src b ∧ PairOk w a b nt) ↔
      ∃ dst' s, parallelMerge comp src dst a b nt = some (dst', s) ∧ SortedRun w dst' s := by
  have ha' : a.i0 ≤ a.i1 := ha
  have hb' : b.i0 ≤ b.i1 := hb
  have hlena : a.len = a.i1 - a.i0 := rfl
  have hlenb : b.len = b.i1 - b.i0 := rfl
  rw [PairOk, parallelMerge]
  split
  · next hlt =>
      rw [← mergeOrdered_sorted_iff hcomp hb ha hnt (by omega) hlt.le hib hia, and_left_comm]
  · next hge =>
      exact mergeOrdered_sorted_iff hcomp ha hb hnt (by omega) (Nat.le_of_not_lt hge) hia hib

end Sorted

/-! ## One level -/

/-- The segments follow one another from `lo` to `hi`. -/
def Tiles : ℕ → List SegmentS → ℕ → Prop
  | lo, [], hi => lo = hi
  | lo, s :: segs, hi => s.i0 = lo ∧ s.Ok ∧ Tiles s.i1 segs hi

/-- The segments of the next level. -/
def pairUp : List SegmentS → List SegmentS
  | a :: b :: segs => ⟨a.i0, b.i1⟩ :: pairUp segs
  | [a] => [a]
  | [] => []

/-- The condition on all pairs of a level, from number `k` on. -/
def LevelOk (w : ℕ → β) (nt nseg : ℕ) : ℕ → List SegmentS → Prop
  | k, a :: b :: segs => PairOk w a b (mergeThreads nt nseg k) ∧ LevelOk w nt nseg (k + 2) segs
  | _, [_] => True
  | _, [] => True

theorem Tiles.le {lo hi : ℕ} {segs : List SegmentS} (h : Tiles lo segs hi) : lo ≤ hi := by
  induction segs generalizing lo with
  | nil => exact Nat.le_of_eq h
  | cons s segs ih =>
      obtain ⟨rfl, hs, h⟩ := h
      exact (show s.i0 ≤ s.i1 from hs).trans (ih h)

theorem Tiles.pairUp {lo hi : ℕ} {segs : List SegmentS} (h : Tiles lo segs hi) :
    Tiles lo (pairUp segs) hi := by
  induction segs using List.twoStepInduction generalizing lo with
  | nil => exact h
  | singleton a => exact h
  | cons_cons a b segs ih _ =>
      obtain ⟨rfl, ha, hab, hb, h⟩ := h
      refine ⟨rfl, ?_, ih h⟩
      exact (show a.i0 ≤ a.i1 from ha).trans (hab.ge.trans hb)

theorem length_pairUp (segs : List SegmentS) : (pairUp segs).length = (segs.length + 1) / 2 := by
  induction segs using List.twoStepInduction with
  | nil => rfl
  | singleton a => simp only [pairUp, List.length_singleton, Nat.reduceAdd, Nat.reduceDiv]
  | cons_cons a b segs ih _ =>
      rw [pairUp, List.length_cons, ih, List.length_cons, List.length_cons]
      omega

theorem mergeThreads_pos {nt nseg : ℕ} (h2 : 2 ≤ nseg) (hle : nseg ≤ nt) (k : ℕ) :
    0 < mergeThreads nt nseg k := by
  have hhalf : 0 < nseg / 2 := by omega
  have hsub : nseg / 2 ≤ if nseg % 2 = 0 then nt else nt - 1 := by
    split
    · omega
    · omega
  rw [mergeThreads]
  refine Nat.sub_pos_of_lt ?_
  rw [Nat.succ_mul]
  calc k * (if nseg % 2 = 0 then nt else nt - 1) / (nseg / 2)
      < k * (if nseg % 2 = 0 then nt else nt - 1) / (nseg / 2) + 1 := Nat.lt_succ_self _
    _ = (k * (if nseg % 2 = 0 then nt else nt - 1) + nseg / 2) / (nseg / 2) :=
        (Nat.add_div_right _ hhalf).symm
    _ ≤ _ := Nat.div_le_div_right (Nat.add_le_add_left hsub _)

def AllHold (m : ℕ → ℕ) (segs : List SegmentS) : Prop :=
  ∀ s ∈ segs, HoldsIndices m s

def AllSorted (w : ℕ → β) (m : ℕ → ℕ) (segs : List SegmentS) : Prop :=
  ∀ s ∈ segs, SortedRun w m s

theorem run_congr {m m' : ℕ → ℕ} {s : SegmentS} (h : ∀ x, s.i0 ≤ x → x < s.i1 → m x = m' x) :
    s.run m = s.run m' := by
  refine read_congr fun i hi ↦ h _ (Nat.le_add_right _ _) ?_
  rw [SegmentS.len] at hi
  omega

theorem run_eq_of_outside {lo hi : ℕ} {m m' : ℕ → ℕ}
    (hm : ∀ x, x < lo ∨ hi ≤ x → m' x = m x) {s : SegmentS} (hs : s.i1 ≤ lo) :
    s.run m' = s.run m :=
  run_congr fun x _ hx ↦ hm x (.inl (hx.trans_le hs))

/-- What a level leaves: the segments of the next level, the rest of the array as it was, and the
elements of each segment in their order. -/
structure Leveled (w : ℕ → β) (permA permB permB' : ℕ → ℕ) (segs segs' : List SegmentS)
    (lo hi : ℕ) : Prop where
  segs_eq : segs' = pairUp segs
  outside : ∀ x, x < lo ∨ hi ≤ x → permB' x = permB x
  hold : AllHold permA segs → AllHold permB' segs'
  sorted : AllSorted w permB' segs' → AllSorted w permA segs

variable {nseg : ℕ} {permA permB permB' : ℕ → ℕ}

theorem leveled_nil (w : ℕ → β) (permA permB : ℕ → ℕ) {lo hi : ℕ} :
    Leveled w permA permB permB [] [] lo hi :=
  ⟨rfl, fun _ _ ↦ rfl, fun _ _ hs ↦ absurd hs List.not_mem_nil,
    fun _ _ hs ↦ absurd hs List.not_mem_nil⟩

theorem leveled_singleton (w : ℕ → β) (permA permB : ℕ → ℕ) (ha : a.Ok) :
    Leveled w permA permB (Lib.write permB a.i0 (a.run permA)) [a] [a] a.i0 a.i1 := by
  have hrun : a.run (Lib.write permB a.i0 (a.run permA)) = a.run permA :=
    run_write permB (length_run permA a)
  refine ⟨by rw [pairUp], fun x hx ↦ write_of_outside ?_, fun h s hs ↦ ?_, fun h s hs ↦ ?_⟩
  · rwa [length_run, SegmentS.len, Nat.add_sub_cancel' ha]
  · obtain rfl := List.eq_of_mem_singleton hs
    rw [HoldsIndices, hrun]
    exact h s hs
  · obtain rfl := List.eq_of_mem_singleton hs
    have hsorted := h s hs
    rwa [SortedRun, hrun] at hsorted

theorem Leveled.cons_cons {permB₁ : ℕ → ℕ} {segs segs' : List SegmentS} {lo hi : ℕ}
    {out : List ℕ} (ha : a.Ok) (hab : a.i1 = b.i0) (hb : b.Ok)
    (hmerged : MergedInto permA permB permB₁ a b out) (htiles : Tiles b.i1 segs hi)
    (h : Leveled w permA permB₁ permB' segs segs' b.i1 hi) (hlo : lo = a.i0) :
    Leveled w permA permB permB' (a :: b :: segs) (⟨a.i0, b.i1⟩ :: segs') lo hi := by
  have ha' : a.i0 ≤ a.i1 := ha
  have hb' : b.i0 ≤ b.i1 := hb
  have hrun : SegmentS.run permB' ⟨a.i0, b.i1⟩ = out :=
    (run_eq_of_outside h.outside (s := ⟨a.i0, b.i1⟩) le_rfl).trans (hmerged.run_eq ha hab hb)
  refine ⟨by rw [pairUp, h.segs_eq], fun x hx ↦ ?_, fun hold s hs ↦ ?_, fun hsorted s hs ↦ ?_⟩
  · have hle := htiles.le
    have hlen := hmerged.length_eq
    have hlena : a.len = a.i1 - a.i0 := rfl
    have hlenb : b.len = b.i1 - b.i0 := rfl
    rw [h.outside x (by omega), hmerged.eq, write_of_outside (by omega)]
  · obtain rfl | hs := List.mem_cons.1 hs
    · rw [HoldsIndices, hrun, ← SegmentS.indices_append ha hab hb]
      refine hmerged.perm.trans ((hold a List.mem_cons_self).append (hold b ?_))
      exact List.mem_cons_of_mem _ List.mem_cons_self
    · refine h.hold (fun t ht ↦ hold t ?_) s hs
      exact List.mem_cons_of_mem _ (List.mem_cons_of_mem _ ht)
  · have hout := hsorted _ List.mem_cons_self
    rw [SortedRun, hrun] at hout
    obtain rfl | hs := List.mem_cons.1 hs
    · exact hout.sublist hmerged.left
    · obtain rfl | hs := List.mem_cons.1 hs
      · exact hout.sublist hmerged.right
      · exact h.sorted (fun t ht ↦ hsorted t (List.mem_cons_of_mem _ ht)) s hs

theorem mergeLevel_eq_some (w : ℕ → β) (hnt : ∀ k, 0 < mergeThreads nt nseg k)
    {segs segs' : List SegmentS} {lo hi k : ℕ} (htiles : Tiles lo segs hi)
    (h : mergeLevel comp nt nseg permA k segs permB = some (permB', segs')) :
    Leveled w permA permB permB' segs segs' lo hi := by
  induction segs using List.twoStepInduction generalizing lo k permB permB' segs' with
  | nil =>
      cases h
      exact leveled_nil w permA _
  | singleton a =>
      cases h
      obtain ⟨rfl, ha, rfl⟩ := htiles
      exact leveled_singleton w permA permB ha
  | cons_cons a b segs ih _ =>
      obtain ⟨rfl, ha, hab, hb, htiles⟩ := htiles
      rw [mergeLevel] at h
      simp only [Option.bind_eq_bind, Option.bind_eq_some_iff] at h
      obtain ⟨⟨permB₁, s⟩, hmerge, ⟨permB₂, segs₂⟩, hrest, hret⟩ := h
      cases hret
      obtain ⟨rfl, out, hmerged⟩ := parallelMerge_eq_some ha hab.symm hb (hnt k) hmerge
      exact Leveled.cons_cons ha hab.symm hb hmerged htiles (ih htiles hrest) rfl

section Sorted

variable (hcomp : ∀ a b, comp a b = true ↔ w a < w b)
include hcomp

/-- A level leaves sorted segments exactly if they are sorted before and the condition holds of all
pairs. -/
theorem mergeLevel_sorted_iff (permB : ℕ → ℕ) (hnt : ∀ k, 0 < mergeThreads nt nseg k) {segs : List SegmentS}
    {lo hi k : ℕ} (htiles : Tiles lo segs hi) (hhold : AllHold permA segs) :
    (AllSorted w permA segs ∧ LevelOk w nt nseg k segs) ↔
      ∃ permB' segs', mergeLevel comp nt nseg permA k segs permB = some (permB', segs') ∧
        AllSorted w permB' segs' := by
  induction segs using List.twoStepInduction generalizing lo k permB with
  | nil =>
      refine iff_of_true ⟨fun s hs ↦ absurd hs List.not_mem_nil, trivial⟩ ⟨_, _, rfl, ?_⟩
      exact fun s hs ↦ absurd hs List.not_mem_nil
  | singleton a =>
      obtain ⟨rfl, ha, rfl⟩ := htiles
      have hrun : a.run (Lib.write permB a.i0 (a.run permA)) = a.run permA :=
        run_write permB (length_run permA a)
      constructor
      · rintro ⟨hsorted, -⟩
        refine ⟨_, _, rfl, fun s hs ↦ ?_⟩
        obtain rfl := List.eq_of_mem_singleton hs
        rw [SortedRun, hrun]
        exact hsorted s hs
      · rintro ⟨permB', segs', h, hsorted⟩
        cases h
        exact ⟨(leveled_singleton w permA permB ha).sorted hsorted, trivial⟩
  | cons_cons a b segs ih _ =>
      obtain ⟨rfl, ha, hab, hb, htiles⟩ := htiles
      have hia := hhold a List.mem_cons_self
      have hib := hhold b (List.mem_cons_of_mem _ List.mem_cons_self)
      have hrest : AllHold permA segs := fun s hs ↦
        hhold s (List.mem_cons_of_mem _ (List.mem_cons_of_mem _ hs))
      have hpair := parallelMerge_sorted_iff hcomp permB ha hab.symm hb (hnt k) hia hib
      constructor
      · rintro ⟨hsorted, hok, hlevel⟩
        obtain ⟨permB₁, s, hmerge, hs⟩ := hpair.1 ⟨hsorted a List.mem_cons_self,
          hsorted b (List.mem_cons_of_mem _ List.mem_cons_self), hok⟩
        obtain ⟨permB₂, segs₂, hmerges, hsorted₂⟩ := (ih permB₁ htiles hrest).1
          ⟨fun t ht ↦ hsorted t (List.mem_cons_of_mem _ (List.mem_cons_of_mem _ ht)), hlevel⟩
        have hl := mergeLevel_eq_some w hnt htiles hmerges
        obtain ⟨rfl, -⟩ := parallelMerge_eq_some ha hab.symm hb (hnt k) hmerge
        refine ⟨permB₂, ⟨a.i0, b.i1⟩ :: segs₂, ?_, fun t ht ↦ ?_⟩
        · rw [mergeLevel, hmerge]
          simp only [Option.bind_eq_bind, Option.bind_some, hmerges]
          rfl
        · obtain rfl | ht := List.mem_cons.1 ht
          · rw [SortedRun, run_eq_of_outside hl.outside (s := ⟨a.i0, b.i1⟩) le_rfl]
            exact hs
          · exact hsorted₂ t ht
      · rintro ⟨permB₂, segs₂, h, hsorted⟩
        have htiles' : Tiles a.i0 (a :: b :: segs) hi := ⟨rfl, ha, hab, hb, htiles⟩
        have hall := (mergeLevel_eq_some w hnt htiles' h).sorted hsorted
        rw [mergeLevel] at h
        simp only [Option.bind_eq_bind, Option.bind_eq_some_iff] at h
        obtain ⟨⟨permB₁, s⟩, hmerge, ⟨permB₃, segs₃⟩, hmerges, hret⟩ := h
        cases hret
        have hl := mergeLevel_eq_some w hnt htiles hmerges
        obtain ⟨rfl, -⟩ := parallelMerge_eq_some ha hab.symm hb (hnt k) hmerge
        have hfirst := hsorted _ List.mem_cons_self
        rw [SortedRun, run_eq_of_outside hl.outside (s := ⟨a.i0, b.i1⟩) le_rfl] at hfirst
        refine ⟨hall, (hpair.2 ⟨permB₁, _, hmerge, hfirst⟩).2.2, ?_⟩
        exact ((ih _ htiles hrest).2 ⟨_, _, hmerges, fun t ht ↦
          hsorted t (List.mem_cons_of_mem _ ht)⟩).2

end Sorted

/-! ## All levels -/

/-- The condition on all levels. -/
def TreeOk (w : ℕ → β) (nt : ℕ) : ℕ → List SegmentS → Prop
  | 0, _ => True
  | fuel + 1, segs =>
      1 < segs.length → LevelOk w nt segs.length 0 segs ∧ TreeOk w nt fuel (pairUp segs)

theorem startsInPerm_not (fuel nseg : ℕ) (b : Bool) :
    startsInPerm fuel nseg (!b) = !startsInPerm fuel nseg b := by
  induction fuel generalizing nseg b with
  | zero => rfl
  | succ fuel ih =>
      rw [startsInPerm, startsInPerm]
      split
      · exact ih _ (!b)
      · rfl

theorem startsInPerm_startsInPerm (fuel nseg : ℕ) :
    startsInPerm fuel nseg (startsInPerm fuel nseg true) = true := by
  cases h : startsInPerm fuel nseg true with
  | true => exact h
  | false => rw [← Bool.not_true, startsInPerm_not, h, Bool.not_false]

theorem run_eq_read {n : ℕ} {s : SegmentS} (h : Tiles 0 [s] n) (m : ℕ → ℕ) :
    s.run m = Lib.read m 0 n ∧ s.indices = List.range n := by
  obtain ⟨h0, -, rfl⟩ := h
  rw [SegmentS.run, SegmentS.indices, SegmentS.len, h0, Nat.sub_zero, List.range_eq_range']
  exact ⟨rfl, rfl⟩

/-- The merges leave a sorted permutation exactly if the segments are sorted and the condition holds
on all levels. -/
theorem mergeLevels_sorted_iff (hcomp : ∀ a b, comp a b = true ↔ w a < w b) {n fuel : ℕ}
    {segs : List SegmentS} {isPerm : Bool} (hpos : 0 < segs.length) (hfuel : segs.length ≤ fuel)
    (hle : segs.length ≤ nt) (htiles : Tiles 0 segs n) (hhold : AllHold permA segs)
    (hperm : startsInPerm fuel segs.length isPerm = true) (permB : ℕ → ℕ) :
    (AllSorted w permA segs ∧ TreeOk w nt fuel segs) ↔
      ∃ m, mergeLevels comp nt fuel segs permA permB isPerm = some m ∧
        (Lib.read m 0 n).Perm (List.range n) ∧
          (Lib.read m 0 n).Pairwise fun a b ↦ w a ≤ w b := by
  induction fuel generalizing segs permA permB isPerm with
  | zero => omega
  | succ fuel ih =>
      rw [startsInPerm] at hperm
      rw [mergeLevels, TreeOk]
      by_cases hlen : 1 < segs.length
      · have hnt := mergeThreads_pos hlen hle
        rw [if_pos hlen] at hperm
        have hlevel := mergeLevel_sorted_iff hcomp permB (k := 0) hnt htiles hhold
        -- the induction hypothesis, for the arrays after this level
        have hnext : ∀ {permB' segs'},
            mergeLevel comp nt segs.length permA 0 segs permB = some (permB', segs') →
              ((AllSorted w permB' segs' ∧ TreeOk w nt fuel (pairUp segs)) ↔
                ∃ m, mergeLevels comp nt fuel segs' permB' permA (!isPerm) = some m ∧
                  (Lib.read m 0 n).Perm (List.range n) ∧
                    (Lib.read m 0 n).Pairwise fun a b ↦ w a ≤ w b) := by
          intro permB' segs' h
          have hl := mergeLevel_eq_some w hnt htiles h
          obtain rfl := hl.segs_eq
          have hhalf := length_pairUp segs
          exact ih (by omega) (by omega) (by omega) htiles.pairUp (hl.hold hhold) (hhalf ▸ hperm)
            permA
        simp only [if_pos hlen, forall_prop_of_true hlen, Option.bind_eq_bind,
          Option.bind_eq_some_iff]
        constructor
        · rintro ⟨hsorted, hok, htree⟩
          obtain ⟨permB', segs', h, hsorted'⟩ := hlevel.1 ⟨hsorted, hok⟩
          obtain ⟨m, hm, hres⟩ := (hnext h).1 ⟨hsorted', htree⟩
          exact ⟨m, ⟨(permB', segs'), h, hm⟩, hres⟩
        · rintro ⟨m, ⟨⟨permB', segs'⟩, h, hm⟩, hres⟩
          obtain ⟨hsorted', htree⟩ := (hnext h).2 ⟨m, hm, hres⟩
          obtain ⟨hsorted, hok⟩ := hlevel.2 ⟨permB', segs', h, hsorted'⟩
          exact ⟨hsorted, hok, htree⟩
      · rw [if_neg hlen] at hperm
        obtain ⟨s, rfl⟩ := List.length_eq_one_iff.1 (by omega : segs.length = 1)
        obtain ⟨hrun, hindices⟩ := run_eq_read htiles permA
        have hhold' := hhold s List.mem_cons_self
        rw [HoldsIndices, hrun, hindices] at hhold'
        rw [if_neg hlen, if_pos hperm]
        constructor
        · rintro ⟨hsorted, -⟩
          have hs := hsorted s List.mem_cons_self
          rw [SortedRun, hrun] at hs
          exact ⟨permA, rfl, hhold', hs⟩
        · rintro ⟨m, hm, -, hsorted⟩
          cases hm
          refine ⟨fun t ht ↦ ?_, fun h ↦ absurd h hlen⟩
          obtain rfl := List.eq_of_mem_singleton ht
          rwa [SortedRun, hrun]

end FaissNavix
