import FaissNavix.Invlists.SubsetRuns
import Mathlib.Algebra.BigOperators.ModEq

/-!
# Splitting an inverted file

The modes of `copy_subset_to` come with ways of cutting the whole file: consecutive intervals of
elements, of ids or of lists, all residues of the ids, all fractions of the lists.  The pieces are
meant to be a partition of the entries.  Cuts by id and by list always are one.  The other two give
each piece an interval of each list, between two quotas that are rounded down separately, and are a
partition exactly if the quotas of each list rise from cut point to cut point up to its size.
-/

namespace FaissNavix

open Lib (slice intervals)

/-! ## Cuts -/

/-- A way of cutting inverted lists, by its cut points or by the number of pieces. -/
inductive Cut where
  | elementRange (cuts : List Idx)
  | idRange (cuts : List Idx)
  | idMod (n : Idx)
  | invlistFraction (n : Idx)
  | invlist (cuts : List Idx)

namespace Cut

/-- The mode of the calls. -/
def type : Cut → SubsetType
  | elementRange _ => .elementRange
  | idRange _ => .idRange
  | idMod _ => .idMod
  | invlistFraction _ => .invlistFraction
  | invlist _ => .invlist

/-- The arguments `a1` and `a2` of the calls, one call for each piece. -/
def calls : Cut → List (Idx × Idx)
  | elementRange cuts | idRange cuts | invlist cuts => intervals cuts
  | idMod n | invlistFraction n => (List.range n.toInt.toNat).map fun k ↦ (n, Int64.ofNat k)

/-- The cut points rise from `a` to `b`. -/
def Spans (cuts : List Idx) (a b : Idx) : Prop :=
  cuts.Pairwise (· ≤ ·) ∧ cuts.head? = some a ∧ cuts.getLast? = some b

/-- The cut is one of the whole file. -/
def Covers (il : InvertedLists) : Cut → Prop
  | elementRange cuts => ∃ b, Spans cuts 0 b ∧ b.toInt = il.computeNtotal
  | idRange cuts => ∃ a b, Spans cuts a b ∧ ∀ j < il.nlist, ∀ e ∈ il.list j, a ≤ e.id ∧ e.id < b
  | idMod n | invlistFraction n => 0 < n
  | invlist cuts => ∃ b, Spans cuts 0 b ∧ b.toInt = il.nlist

end Cut

namespace InvertedLists

variable (il : InvertedLists)

def NonNegative : Prop :=
  ∀ j < il.nlist, ∀ e ∈ il.list j, 0 ≤ e.id

/-- The calls return, each with the number of entries that its piece got, and the pieces together
have the entries of every list, each as often as the list. -/
def Partitions (ty : SubsetType) (calls : List (Idx × Idx)) : Prop :=
  ∃ pieces : List (UInt64 × ArrayInvertedLists),
    List.Forall₂
      (fun c p ↦ il.copySubsetTo (.empty il.nlist il.codeSize) ty c.1 c.2 = .ok p) calls pieces ∧
    (∀ p ∈ pieces, p.1.toNat = ∑ j ∈ Finset.range il.nlist, (p.2.lists j).length) ∧
    ∀ j < il.nlist, (pieces.flatMap fun p ↦ p.2.lists j).Perm (il.list j)

/-- What the pieces have, in terms of what the calls take. -/
theorem partitions_iff (ty : SubsetType) (calls : List (Idx × Idx)) :
    il.Partitions ty calls ↔
      (∀ c ∈ calls, ∀ j < il.nlist, (il.part ty c.1 c.2).Fits j) ∧
      (∀ c ∈ calls,
        (UInt64.ofNat (∑ j ∈ Finset.range il.nlist, (il.part ty c.1 c.2).counted j)).toNat =
          ∑ j ∈ Finset.range il.nlist, ((il.part ty c.1 c.2).taken j).length) ∧
      ∀ j < il.nlist, (calls.flatMap fun c ↦ (il.part ty c.1 c.2).taken j).Perm (il.list j) := by
  -- the object of a call, given that it returns
  let result (c : Idx × Idx) : UInt64 × ArrayInvertedLists :=
    ((il.stateAt (il.part ty c.1 c.2) il.nlist).nAdded,
      (il.stateAt (il.part ty c.1 c.2) il.nlist).oivf)
  have hlists : ∀ c, ∀ j < il.nlist, (result c).2.lists j = (il.part ty c.1 c.2).taken j :=
    fun c j hj ↦ if_pos hj
  have hadded : ∀ c, ∑ j ∈ Finset.range il.nlist, ((result c).2.lists j).length =
      ∑ j ∈ Finset.range il.nlist, ((il.part ty c.1 c.2).taken j).length := by
    intro c
    refine Finset.sum_congr rfl fun j hj ↦ ?_
    rw [hlists c j (Finset.mem_range.1 hj)]
  have hpieces : ∀ j < il.nlist, ((calls.map result).flatMap fun p ↦ p.2.lists j) =
      calls.flatMap fun c ↦ (il.part ty c.1 c.2).taken j := by
    intro j hj
    rw [List.flatMap_map]
    simp only [hlists _ j hj]
  have hcalls : ∀ pieces, List.Forall₂
      (fun c p ↦ il.copySubsetTo (.empty il.nlist il.codeSize) ty c.1 c.2 = .ok p) calls pieces ↔
        (∀ c ∈ calls, ∀ j < il.nlist, (il.part ty c.1 c.2).Fits j) ∧
          pieces = calls.map result := by
    intro pieces
    simp only [copySubsetTo_eq_ok, List.forall₂_and_left]
    refine and_congr_right fun _ ↦ ?_
    rw [eq_comm, ← List.forall₂_eq_eq_eq, List.forall₂_map_left_iff]
    simp only [eq_comm, result]
  constructor
  · rintro ⟨pieces, hp, hcount, hperm⟩
    obtain ⟨hfits, rfl⟩ := (hcalls pieces).1 hp
    refine ⟨hfits, fun c hc ↦ ?_, fun j hj ↦ ?_⟩
    · rw [← hadded]
      exact hcount _ (List.mem_map_of_mem hc)
    · rw [← hpieces j hj]
      exact hperm j hj
  · rintro ⟨hfits, hcount, hperm⟩
    refine ⟨calls.map result, (hcalls _).2 ⟨hfits, rfl⟩, fun p hp ↦ ?_, fun j hj ↦ ?_⟩
    · obtain ⟨c, hc, rfl⟩ := List.mem_map.1 hp
      rw [hadded]
      exact hcount c hc
    · rw [hpieces j hj]
      exact hperm j hj

/-! ## Selections -/

theorem sum_lt {f : ℕ → ℕ} (h : ∀ j < il.nlist, f j ≤ il.listSize j) :
    ∑ j ∈ Finset.range il.nlist, f j < 2 ^ 64 :=
  (Finset.sum_le_sum fun j hj ↦ h j (Finset.mem_range.1 hj)).trans_lt il.total_lt

/-- Predicates of which every entry satisfies one make a partition. -/
theorem partitions_of_selects {ty : SubsetType} {calls : List (Idx × Idx)}
    (hpart : ∀ c ∈ calls, ∃ fits, il.part ty c.1 c.2 = il.filterPart (selects ty c.1 c.2) fits ∧
      ∀ j < il.nlist, fits j)
    (hone : ∀ j < il.nlist, ∀ e ∈ il.list j,
      calls.countP (fun c ↦ selects ty c.1 c.2 j e) = 1) :
    il.Partitions ty calls := by
  have htaken : ∀ c ∈ calls, ∀ j,
      (il.part ty c.1 c.2).taken j = (il.list j).filter (selects ty c.1 c.2 j) := by
    intro c hc j
    obtain ⟨fits, hp, -⟩ := hpart c hc
    rw [hp]
    rfl
  refine (il.partitions_iff ty calls).2 ⟨fun c hc j hj ↦ ?_, fun c hc ↦ ?_, fun j hj ↦ ?_⟩
  · obtain ⟨fits, hp, hfits⟩ := hpart c hc
    rw [hp]
    exact hfits j hj
  · obtain ⟨fits, hp, -⟩ := hpart c hc
    have hlt : ∑ j ∈ Finset.range il.nlist,
        ((il.list j).filter (selects ty c.1 c.2 j)).length < 2 ^ 64 :=
      il.sum_lt fun j _ ↦ List.length_filter_le _ _
    rw [hp]
    simp only [filterPart]
    rw [UInt64.toNat_ofNat', Nat.mod_eq_of_lt hlt]
  · have hflat : (calls.flatMap fun c ↦ (il.part ty c.1 c.2).taken j) =
        calls.flatMap fun c ↦ (il.list j).filter (selects ty c.1 c.2 j) :=
      List.flatMap_congr fun c hc ↦ htaken c hc j
    rw [hflat]
    exact Lib.flatMap_filter_perm (P := fun c : Idx × Idx ↦ selects ty c.1 c.2 j) (hone j hj)

/-! ## Intervals -/

theorem toNat_sub_modEq (lo hi : UInt64) :
    (hi - lo).toNat + (lo.toNat - hi.toNat) ≡ hi.toNat - lo.toNat [MOD 2 ^ 64] := by
  have hlo := lo.toNat_lt
  have hhi := hi.toNat_lt
  rw [UInt64.toNat_sub, Nat.ModEq]
  omega

theorem sum_falls_eq_zero {s : Finset ℕ} {lo hi : ℕ → UInt64}
    (hcount : (UInt64.ofNat (∑ j ∈ s, (hi j - lo j).toNat)).toNat =
      ∑ j ∈ s, ((hi j).toNat - (lo j).toNat))
    (hlt : ∑ j ∈ s, ((lo j).toNat - (hi j).toNat) < 2 ^ 64) :
    ∑ j ∈ s, ((lo j).toNat - (hi j).toNat) = 0 := by
  have hmod : ∑ j ∈ s, (hi j - lo j).toNat + ∑ j ∈ s, ((lo j).toNat - (hi j).toNat) ≡
      ∑ j ∈ s, ((hi j).toNat - (lo j).toNat) [MOD 2 ^ 64] := by
    rw [← Finset.sum_add_distrib]
    exact Nat.ModEq.sum fun j _ ↦ toNat_sub_modEq (lo j) (hi j)
  rw [UInt64.toNat_ofNat'] at hcount
  rw [Nat.ModEq] at hmod
  omega

def Rises (m : ℕ) (q : ℕ → UInt64) (size : ℕ) : Prop :=
  (∀ k < m, q k ≤ q (k + 1)) ∧ (q m).toNat = size

theorem elementQuota_zero (j : ℕ) : il.elementQuota 0 j = 0 := by
  simp only [elementQuota, share, UInt64.mul_zero, UInt64.zero_div, UInt64.sub_self]

theorem fractionQuota_zero (a1 : UInt64) (j : ℕ) : il.fractionQuota a1 0 j = 0 := by
  rw [fractionQuota, UInt64.mul_zero, UInt64.zero_div]

/-- Intervals between quotas make a partition exactly if the quotas rise. -/
theorem partitions_range {ty : SubsetType} {m : ℕ} {c : ℕ → Idx × Idx} {q : ℕ → ℕ → UInt64}
    {accuA1 accuA2 : ℕ → ℕ → UInt64} {fits : Prop}
    (hpart : ∀ k < m, il.part ty (c k).1 (c k).2 =
      il.rangePart (accuA1 k) (accuA2 k) (fun j ↦ q j k) (fun j ↦ q j (k + 1)) fits)
    (hzero : ∀ j < il.nlist, q j 0 = 0) :
    il.Partitions ty ((List.range m).map c) ↔
      (m = 0 ∨ il.nlist = 0 ∨ fits) ∧ ∀ j < il.nlist, Rises m (q j) (il.listSize j) := by
  rw [partitions_iff]
  simp only [List.forall_mem_map, List.mem_range, List.flatMap_map]
  have htaken : ∀ j, ((List.range m).flatMap fun k ↦ (il.part ty (c k).1 (c k).2).taken j) =
      (List.range m).flatMap fun k ↦
        slice (il.list j) (q j k).toNat (q j (k + 1)).toNat := by
    intro j
    refine List.flatMap_congr fun k hk ↦ ?_
    rw [hpart k (List.mem_range.1 hk)]
    rfl
  have hzero' : ∀ j < il.nlist, (q j 0).toNat = 0 := fun j hj ↦ by rw [hzero j hj]; rfl
  constructor
  · rintro ⟨hfits, hcount, hperm⟩
    have hread : ∀ j < il.nlist, ∀ k < m, il.Readable j (q j k) (q j (k + 1)) := by
      intro j hj k hk
      have := hfits k hk j hj
      rw [hpart k hk] at this
      exact this.2
    -- what the quotas of a list fall by is missing from its last quota
    have hsize : ∀ j < il.nlist, il.listSize j = (q j m).toNat +
        ∑ k ∈ Finset.range m, ((q j k).toNat - (q j (k + 1)).toNat) := by
      intro j hj
      have hlen := (hperm j hj).length_eq
      rw [htaken, Lib.length_flatMap_slice (q := fun k ↦ (q j k).toNat) (hread j hj),
        Lib.sum_rises (fun k ↦ (q j k).toNat) (hzero' j hj)] at hlen
      exact hlen.symm
    have hfalls : ∀ j < il.nlist, ∀ k < m, (q j k).toNat - (q j (k + 1)).toNat = 0 := by
      intro j hj k hk
      have hlt : ∑ j ∈ Finset.range il.nlist, ((q j k).toNat - (q j (k + 1)).toNat) < 2 ^ 64 := by
        refine il.sum_lt fun j hj ↦ ?_
        rw [hsize j hj]
        exact (Finset.single_le_sum (f := fun k ↦ (q j k).toNat - (q j (k + 1)).toNat)
          (fun _ _ ↦ Nat.zero_le _) (Finset.mem_range.2 hk)).trans (Nat.le_add_left _ _)
      have hsum := hcount k hk
      rw [hpart k hk] at hsum
      simp only [rangePart] at hsum
      rw [Finset.sum_congr rfl fun j hj ↦
        Lib.length_slice (hread j (Finset.mem_range.1 hj) k hk)] at hsum
      exact Finset.sum_eq_zero_iff.1 (sum_falls_eq_zero hsum hlt) j (Finset.mem_range.2 hj)
    refine ⟨?_, fun j hj ↦ ⟨fun k hk ↦ ?_, ?_⟩⟩
    · by_contra! hno
      have := hfits 0 (Nat.pos_of_ne_zero hno.1) 0 (Nat.pos_of_ne_zero hno.2.1)
      rw [hpart 0 (Nat.pos_of_ne_zero hno.1)] at this
      exact hno.2.2 this.1
    · exact UInt64.le_iff_toNat_le.2 (Nat.sub_eq_zero_iff_le.1 (hfalls j hj k hk))
    · rw [hsize j hj, Finset.sum_eq_zero fun k hk ↦ hfalls j hj k (Finset.mem_range.1 hk),
        Nat.add_zero]
  · rintro ⟨hfits, hrises⟩
    have hmono : ∀ j < il.nlist, ∀ k < m, (q j k).toNat ≤ (q j (k + 1)).toNat :=
      fun j hj k hk ↦ UInt64.le_iff_toNat_le.1 ((hrises j hj).1 k hk)
    have hle : ∀ j < il.nlist, ∀ k < m, (q j (k + 1)).toNat ≤ il.listSize j := by
      intro j hj k hk
      rw [← (hrises j hj).2]
      exact Lib.le_of_rises (hmono j hj) hk le_rfl
    refine ⟨fun k hk j hj ↦ ?_, fun k hk ↦ ?_, fun j hj ↦ ?_⟩
    · rw [hpart k hk]
      refine ⟨?_, .inr (hle j hj k hk)⟩
      obtain hm | hn | hfits := hfits
      · omega
      · omega
      · exact hfits
    · rw [hpart k hk]
      simp only [rangePart]
      have hcount : ∀ j ∈ Finset.range il.nlist, (q j (k + 1) - q j k).toNat =
          (slice (il.list j) (q j k).toNat (q j (k + 1)).toNat).length := by
        intro j hj
        rw [Lib.length_slice (.inr (hle j (Finset.mem_range.1 hj) k hk))]
        exact UInt64.toNat_sub_of_le _ _ ((hrises j (Finset.mem_range.1 hj)).1 k hk)
      have hlt : ∑ j ∈ Finset.range il.nlist,
          (slice (il.list j) (q j k).toNat (q j (k + 1)).toNat).length < 2 ^ 64 := by
        refine il.sum_lt fun j hj ↦ ?_
        rw [Lib.length_slice (.inr (hle j hj k hk))]
        exact (Nat.sub_le _ _).trans (hle j hj k hk)
      rw [Finset.sum_congr rfl hcount, UInt64.toNat_ofNat', Nat.mod_eq_of_lt hlt]
    · rw [htaken, Lib.flatMap_slice (q := fun k ↦ (q j k).toNat) _ (hzero' j hj) (hmono j hj),
        (hrises j hj).2]
      exact .of_eq (List.take_length)

end InvertedLists

/-! ## All ways of cutting -/

namespace Cut

variable {il : InvertedLists}

/-- The cut is a partition: always for the modes that select by id or by list, and for the others
if the quotas of every list rise from cut point to cut point up to the size of the list. -/
def Exact (il : InvertedLists) : Cut → Prop
  | elementRange cuts =>
      (cuts.length ≤ 1 ∨ il.nlist = 0 ∨ il.computeNtotal ≠ 0) ∧
        ∀ j < il.nlist, InvertedLists.Rises (cuts.length - 1)
          (fun k ↦ il.elementQuota (cuts.getD k 0).toUInt64 j) (il.listSize j)
  | invlistFraction n =>
      ∀ j < il.nlist, InvertedLists.Rises n.toInt.toNat
        (fun k ↦ il.fractionQuota n.toUInt64 (UInt64.ofNat k) j) (il.listSize j)
  | idRange _ | idMod _ | invlist _ => True

theorem Spans.pairwise {cuts : List Idx} {a b : Idx} (h : Spans cuts a b) :
    cuts.Pairwise fun c d ↦ c.toInt ≤ d.toInt :=
  h.1.imp Int64.le_iff_toInt_le.1

theorem partitions_idRange {cuts : List Idx} (h : (idRange cuts).Covers il) :
    il.Partitions .idRange (intervals cuts) := by
  obtain ⟨a, b, hspan, hids⟩ := h
  refine il.partitions_of_selects (fun c _ ↦ ⟨_, rfl, fun j hj ↦ trivial⟩) fun j hj e he ↦ ?_
  obtain ⟨ha, hb⟩ := hids j hj e he
  rw [← Lib.countP_intervals Int64.toInt hspan.pairwise hspan.2.1 hspan.2.2
    (Int64.le_iff_toInt_le.1 ha) (Int64.lt_iff_toInt_lt.1 hb)]
  simp only [InvertedLists.selects, Int64.le_iff_toInt_le, Int64.lt_iff_toInt_lt]

theorem partitions_invlist {cuts : List Idx} (h : (invlist cuts).Covers il) :
    il.Partitions .invlist (intervals cuts) := by
  obtain ⟨b, hspan, hb⟩ := h
  refine il.partitions_of_selects (fun c _ ↦ ⟨_, rfl, fun j hj ↦ trivial⟩) fun j hj e he ↦ ?_
  have hjb : (j : ℤ) < b.toInt := by
    rw [hb]
    exact Int.ofNat_lt.2 hj
  exact Lib.countP_intervals Int64.toInt hspan.pairwise hspan.2.1 hspan.2.2
    (Int.natCast_nonneg j) hjb

theorem partitions_idMod {n : Idx} (hn : 0 < n) (hids : il.NonNegative) :
    il.Partitions .idMod (idMod n).calls := by
  have hn' : 0 < n.toInt := Int64.lt_iff_toInt_lt.1 hn
  refine il.partitions_of_selects (fun c hc ↦ ⟨_, rfl, fun j hj ↦ .inr ?_⟩) fun j hj e he ↦ ?_
  · obtain ⟨k, -, rfl⟩ := List.mem_map.1 hc
    rintro rfl
    exact absurd hn' (lt_irrefl _)
  · have hid : 0 ≤ e.id.toInt := Int64.le_iff_toInt_le.1 (hids j hj e he)
    have hmod : (e.id % n).toInt = e.id.toInt % n.toInt := by
      rw [Int64.toInt_mod, Int.tmod_eq_emod_of_nonneg hid]
    have hlt : (e.id % n).toInt < n.toInt := hmod ▸ Int.emod_lt_of_pos _ hn'
    have hnonneg : 0 ≤ (e.id % n).toInt := hmod ▸ Int.emod_nonneg _ hn'.ne'
    -- the residue of the id is one of those of the calls
    have hsel : ∀ k ∈ List.range n.toInt.toNat,
        InvertedLists.selects .idMod n (Int64.ofNat k) j e = (k == (e.id % n).toInt.toNat) := by
      intro k hk
      have hk' := List.mem_range.1 hk
      have hn63 := n.toInt_lt
      have hofNat : (Int64.ofNat k).toInt = k := Int64.toInt_ofNat_of_lt (by omega)
      rw [Bool.eq_iff_iff, beq_iff_eq, InvertedLists.selects, decide_eq_true_eq,
        ← Int64.toInt_inj, hofNat]
      omega
    rw [calls, List.countP_map]
    refine (List.countP_congr fun k hk ↦ Bool.eq_iff_iff.1 (hsel k hk)).trans ?_
    exact List.count_eq_one_of_mem List.nodup_range (List.mem_range.2 (by omega))

theorem partitions_elementRange {cuts : List Idx} (h : (elementRange cuts).Covers il) :
    il.Partitions .elementRange (intervals cuts) ↔ (elementRange cuts).Exact il := by
  obtain ⟨b, hspan, hb⟩ := h
  have hlt : il.computeNtotal < UInt64.size := il.computeNtotal_lt
  have htotal : UInt64.ofNat il.computeNtotal ≠ 0 ↔ il.computeNtotal ≠ 0 := by
    rw [Ne, ← UInt64.toNat_inj, UInt64.toNat_ofNat_of_lt' hlt]
    rfl
  have hzero : ∀ j < il.nlist, il.elementQuota (cuts.getD 0 0).toUInt64 j = 0 := by
    intro j _
    have hfirst : cuts.getD 0 0 = 0 := by
      rw [List.getD_eq_getElem?_getD, ← List.head?_eq_getElem?, hspan.2.1]
      rfl
    rw [hfirst]
    exact il.elementQuota_zero j
  rw [Lib.intervals_eq_map cuts 0]
  refine (il.partitions_range (fun k _ ↦ rfl) hzero).trans ?_
  rw [htotal, Nat.sub_eq_zero_iff_le]
  rfl

theorem partitions_invlistFraction {n : Idx} (hn : 0 < n) :
    il.Partitions .invlistFraction (invlistFraction n).calls ↔ (invlistFraction n).Exact il := by
  have hne : n.toUInt64 ≠ 0 := by
    intro h
    have hn0 : n = 0 := congrArg UInt64.toInt64 h
    rw [hn0] at hn
    exact Int64.lt_irrefl hn
  have hpart : ∀ k, il.part .invlistFraction n (Int64.ofNat k) =
      il.rangePart (fun _ ↦ 0) (fun _ ↦ 0)
        (fun j ↦ il.fractionQuota n.toUInt64 (UInt64.ofNat k) j)
        (fun j ↦ il.fractionQuota n.toUInt64 (UInt64.ofNat (k + 1)) j) (n.toUInt64 ≠ 0) := by
    intro k
    rw [InvertedLists.part, Int64.toUInt64_add, Int64.toUInt64_ofNat', UInt64.ofNat_add]
    rfl
  have hzero : ∀ j < il.nlist, il.fractionQuota n.toUInt64 (UInt64.ofNat 0) j = 0 :=
    fun j _ ↦ il.fractionQuota_zero n.toUInt64 j
  refine (il.partitions_range (fun k _ ↦ hpart k) hzero).trans ?_
  rw [Exact, and_iff_right (.inr (.inr hne))]

/-- Fractions are exact where the products that are divided fit in 64 bits. -/
theorem exact_invlistFraction {n : Idx} (hn : 0 < n)
    (hlt : ∀ j < il.nlist, il.listSize j * n.toInt.toNat < 2 ^ 64) :
    (invlistFraction n).Exact il := by
  have hn' : 0 < n.toInt := Int64.lt_iff_toInt_lt.1 hn
  have hn64 : n.toUInt64.toNat = n.toInt.toNat :=
    Int64.toNat_toUInt64_of_le (Int64.le_iff_toInt_le.2 hn'.le)
  have hquota : ∀ j < il.nlist, ∀ k ≤ n.toInt.toNat,
      (il.fractionQuota n.toUInt64 (UInt64.ofNat k) j).toNat =
        il.listSize j * k / n.toInt.toNat := by
    intro j hj k hk
    have hprod : il.listSize j * k < 2 ^ 64 := (Nat.mul_le_mul_left _ hk).trans_lt (hlt j hj)
    rw [InvertedLists.fractionQuota, UInt64.toNat_div, hn64, ← UInt64.ofNat_mul,
      UInt64.toNat_ofNat', Nat.mod_eq_of_lt hprod]
  refine fun j hj ↦ ⟨fun k hk ↦ ?_, ?_⟩
  · rw [UInt64.le_iff_toNat_le, hquota j hj k hk.le, hquota j hj (k + 1) hk]
    exact Nat.div_le_div_right (Nat.mul_le_mul_left _ (Nat.le_succ k))
  · rw [hquota j hj _ le_rfl, Nat.mul_div_cancel _ (by omega)]

/-- Then every entry is in one of the fractions, and no entry in two of them. -/
theorem partitions_of_fraction {n : Idx} (hn : 0 < n)
    (hlt : ∀ j < il.nlist, il.listSize j * n.toInt.toNat < 2 ^ 64) :
    il.Partitions .invlistFraction (invlistFraction n).calls :=
  (partitions_invlistFraction hn).mpr (exact_invlistFraction hn hlt)

/-- Cutting the whole file gives a partition exactly for the cuts that are exact. -/
theorem partitions_iff_exact (il : InvertedLists) (hids : il.NonNegative) (cut : Cut)
    (hcut : cut.Covers il) : il.Partitions cut.type cut.calls ↔ cut.Exact il := by
  cases cut with
  | elementRange cuts => exact partitions_elementRange hcut
  | idRange cuts => exact iff_of_true (partitions_idRange hcut) trivial
  | idMod n => exact iff_of_true (partitions_idMod hcut hids) trivial
  | invlistFraction n => exact partitions_invlistFraction hcut
  | invlist cuts => exact iff_of_true (partitions_invlist hcut) trivial

/-- Five lists with an entry each. -/
def fiveLists : InvertedLists where
  nlist := 5
  codeSize := 1
  list j := [⟨Int64.ofNat j, [0]⟩]
  code_length := by simp
  total_lt := by decide

theorem fiveLists_nonNegative : fiveLists.NonNegative := by
  intro j hj e he
  rw [List.eq_of_mem_singleton he]
  have hj' : (Int64.ofNat j).toInt = j := Int64.toInt_ofNat_of_lt (hj.trans (by decide))
  rw [Int64.le_iff_toInt_le, hj']
  exact Int.natCast_nonneg j

theorem covers_fiveLists : (elementRange [0, 2, 3, 5]).Covers fiveLists :=
  ⟨5, ⟨by decide, rfl, rfl⟩, by decide⟩

theorem partitions_of_fraction_fiveLists :
    fiveLists.Partitions .invlistFraction (invlistFraction 3).calls :=
  partitions_of_fraction (by decide) (by decide)

theorem partitions_iff_exact_fiveLists :
    fiveLists.NonNegative ∧ (elementRange [0, 2, 3, 5]).Covers fiveLists ∧
      (fiveLists.Partitions .elementRange (elementRange [0, 2, 3, 5]).calls ↔
        (elementRange [0, 2, 3, 5]).Exact fiveLists) :=
  ⟨fiveLists_nonNegative, covers_fiveLists,
    partitions_iff_exact fiveLists fiveLists_nonNegative _ covers_fiveLists⟩

/-- The quota of the third list falls from 1, at the cut point 2, to 0, at the cut point 3: its
entry is in the first piece and again in the third. -/
theorem not_forall_partitions :
    ¬ ∀ (il : InvertedLists) (cut : Cut), il.NonNegative → cut.Covers il →
      il.Partitions cut.type cut.calls := by
  intro h
  have hexact := (partitions_elementRange covers_fiveLists).1
    (h fiveLists _ fiveLists_nonNegative covers_fiveLists)
  exact absurd ((hexact.2 2 (by decide)).1 1 (by decide)) (by decide)

end Cut

end FaissNavix
