import FaissNavix.Invlists.Resize
import FaissNavix.Lib.Loop

/-!
# The bytes of the file

Free slots and extents are always apart from each other.  They make up the whole file only as long
as no list with an extent moves: a move frees as many bytes as the list has room for entries, and
the other bytes of the extent belong to nobody from then on.
-/

namespace FaissNavix

open Lib

/-- A call that changes the size of a list. -/
inductive SizeCall (nlist codeSize : ℕ) where
  | addEntries (j : Fin nlist) (es : List Entry) (codes : ∀ e ∈ es, e.code.length = codeSize)
  | resize (j : Fin nlist) (newSize : ℕ)

namespace SizeCall

variable {nlist codeSize : ℕ}

def list : SizeCall nlist codeSize → ℕ
  | addEntries j _ _ => j
  | resize j _ => j

def newSize (s : OnDiskInvertedLists) : SizeCall nlist codeSize → ℕ
  | addEntries j es _ => es.length + s.listSize j
  | resize _ newSize => newSize

def run (s : OnDiskInvertedLists) : SizeCall nlist codeSize → Except Fault OnDiskInvertedLists
  | addEntries j es _ => (s.addEntries j es).map Prod.fst
  | resize j newSize => s.resize j newSize

def entries : SizeCall nlist codeSize → List Entry
  | addEntries _ es _ => es
  | resize _ _ => []

/-- The list has an extent, and the call moves it. -/
def Releases (s : OnDiskInvertedLists) (c : SizeCall nlist codeSize) : Prop :=
  0 < (s.lists c.list).capacity ∧
    ¬ OnDiskInvertedLists.Stays (s.lists c.list) (c.newSize s)

theorem list_lt (c : SizeCall nlist codeSize) : c.list < nlist := by
  cases c with
  | addEntries j es codes => exact j.isLt
  | resize j newSize => exact j.isLt

end SizeCall

namespace OnDiskInvertedLists

def usedBytes (s : OnDiskInvertedLists) : ℕ :=
  total s.slots + ∑ j ∈ Finset.range s.nlist, s.extentSize (s.lists j).capacity

/-- Free slots are in order, with gaps; extents are apart from the slots and from each other; and
together they are the whole file. -/
structure Conserves (s : OnDiskInvertedLists) : Prop where
  gap : s.slots.Pairwise fun t u ↦ t.stop < u.offset
  apart : ∀ j < s.nlist, ∀ a, (s.lists j).InExtent s.codeSize a → ¬ Lib.Holds s.slots a
  disjoint : ∀ i < s.nlist, ∀ j < s.nlist, i ≠ j →
    ∀ a, (s.lists i).InExtent s.codeSize a → ¬ (s.lists j).InExtent s.codeSize a
  bytes : s.usedBytes = s.totsize

variable {s s' : OnDiskInvertedLists}

theorem WellFormed.conserves_iff (h : s.WellFormed) : s.Conserves ↔ s.usedBytes = s.totsize :=
  ⟨fun hc ↦ hc.bytes, fun hb ↦ ⟨h.slots.separated.gap, fun j _ ↦ h.apart j,
    fun i _ j _ hij a hi hj ↦ hij (h.disjoint i j a hi hj), hb⟩⟩

theorem sum_add_of_ne {f g : ℕ → ℕ} {n j : ℕ} (hj : j < n) (h : ∀ i ≠ j, g i = f i) :
    ∑ i ∈ Finset.range n, g i + f j = ∑ i ∈ Finset.range n, f i + g j := by
  have hmem : j ∈ Finset.range n := Finset.mem_range.2 hj
  have hg := Finset.add_sum_erase _ g hmem
  have hf := Finset.add_sum_erase _ f hmem
  have hothers : ∑ i ∈ (Finset.range n).erase j, g i = ∑ i ∈ (Finset.range n).erase j, f i :=
    Finset.sum_congr rfl fun i hi ↦ h i (Finset.ne_of_mem_erase hi)
  omega

/-! ## One call -/

/-- From `s` to `s'` the bytes that belong to nobody become more exactly if `release` holds. -/
structure Accounts (s s' : OnDiskInvertedLists) (release : Prop) : Prop where
  wellFormed : s'.WellFormed
  nlist_eq : s'.nlist = s.nlist
  codeSize_eq : s'.codeSize = s.codeSize
  used_le : s'.usedBytes ≤ s'.totsize
  used_eq : s'.usedBytes = s'.totsize ↔ s.usedBytes = s.totsize ∧ ¬ release

section
variable (h : s.WellFormed) (hle : s.usedBytes ≤ s.totsize) {j : ℕ}
include h hle

/-- A list that moves loses the bytes of its extent that are not freed. -/
theorem WellFormed.accounts_of_moved {n : ℕ}
    (hj : j < s.nlist) (hm : Moved s s' j n) :
    Accounts s s' (0 < (s.lists j).capacity) := by
  have hext : ∀ c, s'.extentSize c = s.extentSize c := fun c ↦ by
    rw [extentSize, hm.codeSize_eq, extentSize]
  have hsum := sum_add_of_ne (f := fun i ↦ s.extentSize (s.lists i).capacity)
    (g := fun i ↦ s.extentSize (s'.lists i).capacity) hj fun i hi ↦ by rw [hm.lists_of_ne i hi]
  have hlost : s.extentSize (s.lists j).capacity =
      (s.lists j).capacity + (s.lists j).capacity * (7 + s.codeSize) := by
    rw [extentSize, sizeofIdx, Nat.add_assoc 1 7 s.codeSize, Nat.mul_add, Nat.mul_one]
  have hzero : (s.lists j).capacity * (7 + s.codeSize) = 0 ↔ (s.lists j).capacity = 0 :=
    Nat.mul_eq_zero.trans (or_iff_left (by omega))
  have htotal := hm.total_eq
  have htot := hm.totsize_le
  have hused' : s'.usedBytes = total s'.slots +
      ∑ i ∈ Finset.range s.nlist, s.extentSize (s'.lists i).capacity := by
    rw [usedBytes, hm.nlist_eq]
    simp only [hext]
  rw [usedBytes] at hle
  refine ⟨h.moved hm, hm.nlist_eq, hm.codeSize_eq, ?_, ?_⟩
  · rw [hused']
    omega
  · rw [hused', usedBytes]
    omega

theorem WellFormed.accounts_of_stays {n : ℕ}
    (hn : Stays (s.lists j) n) {release : Prop} (hr : ¬ release) :
    Accounts s (s.setList j { s.lists j with size := n }) release := by
  have hcap : ∀ i, ((s.setList j { s.lists j with size := n }).lists i).capacity =
      (s.lists i).capacity := by
    intro i
    by_cases hij : i = j
    · rw [hij, setList_lists_self]
    · rw [setList_lists_of_ne _ hij]
  have hused : (s.setList j { s.lists j with size := n }).usedBytes = s.usedBytes := by
    rw [usedBytes, usedBytes]
    simp only [hcap]
    rfl
  refine ⟨(h.resizeLocked_of_stays hn).2, rfl, rfl, hused ▸ hle, ?_⟩
  rw [hused]
  exact (and_iff_left hr).symm

theorem WellFormed.resizeLocked_accounts (hj : j < s.nlist) (n : ℕ) :
    ∃ s', s.resizeLocked j n = .ok s' ∧ s'.listSize j = n ∧
      Accounts s s' (0 < (s.lists j).capacity ∧ ¬ Stays (s.lists j) n) := by
  by_cases hn : Stays (s.lists j) n
  · refine ⟨_, (h.resizeLocked_of_stays hn).1, ?_, h.accounts_of_stays hle hn fun hr ↦ hr.2 hn⟩
    rw [listSize, setList_lists_self]
  · obtain ⟨s', hs', hm⟩ := h.resizeLocked_of_not hn
    refine ⟨s', hs', hm.size_eq, ?_⟩
    rw [and_iff_left hn]
    exact h.accounts_of_moved hle hj hm

end

theorem Accounts.setPtr {release : Prop} (h : Accounts s s' release) (m : ℕ → UInt8) :
    Accounts s (s'.setPtr m) release where
  wellFormed := h.wellFormed.setPtr m
  nlist_eq := h.nlist_eq
  codeSize_eq := h.codeSize_eq
  used_le := h.used_le
  used_eq := h.used_eq

end OnDiskInvertedLists

/-! ## Runs -/

section Runs

open OnDiskInvertedLists

variable {nlist codeSize : ℕ} {s s' : OnDiskInvertedLists}

/-- A call is a change of the size, and entries are put behind those of the list. -/
theorem SizeCall.run_eq {c : SizeCall nlist codeSize} (h : s.WellFormed)
    (hs' : s.resizeLocked c.list (c.newSize s) = .ok s') (h' : s'.WellFormed)
    (hsize : s'.listSize c.list = c.newSize s) :
    c.run s = .ok (s'.setPtr (writeEntries s'.codeSize s'.ptr
      ((s'.lists c.list).offset.getD 0) (s'.lists c.list).capacity (s.listSize c.list)
      c.entries)) := by
  have hw : Fault.throwIfNot (!s.readOnly) "!read_only" = .ok () := by
    rw [h.writable]
    rfl
  cases c with
  | addEntries j es codes =>
      have hfits : es.length + s.listSize j ≤ s'.listSize j := hsize.ge
      have hadd : s.addEntries j es = .ok (s'.setPtr (writeEntries s'.codeSize s'.ptr
          ((s'.lists j).offset.getD 0) (s'.lists j).capacity (s.listSize j) es),
          s.listSize j) := by
        rw [OnDiskInvertedLists.addEntries, hw]
        simp only [Fault.bind_eq_ok]
        exact ⟨(), trivial, s', hs', _, h'.updateEntries hfits, rfl⟩
      rw [run, hadd]
      rfl
  | resize j newSize =>
      rw [entries, writeEntries_nil, run, OnDiskInvertedLists.resize, hw]
      exact hs'

theorem SizeCall.run_accounts (h : s.WellFormed) (hle : s.usedBytes ≤ s.totsize)
    (hnlist : s.nlist = nlist) (c : SizeCall nlist codeSize) :
    ∃ s', c.run s = .ok s' ∧ Accounts s s' (c.Releases s) := by
  have hj : c.list < s.nlist := c.list_lt.trans_eq hnlist.symm
  obtain ⟨s', hs', hsize, hacc⟩ := h.resizeLocked_accounts hle hj (c.newSize s)
  exact ⟨_, SizeCall.run_eq h hs' hacc.wellFormed hsize, hacc.setPtr _⟩

def runCalls (calls : List (SizeCall nlist codeSize)) : Except Fault OnDiskInvertedLists :=
  calls.foldlM SizeCall.run (empty nlist codeSize)

def NeverReleases (calls : List (SizeCall nlist codeSize)) : Prop :=
  EachStep (fun before c ↦ ∀ s, runCalls before = .ok s → ¬ c.Releases s) calls

theorem neverReleases_concat {calls : List (SizeCall nlist codeSize)}
    {c : SizeCall nlist codeSize} (hs : runCalls calls = .ok s) :
    NeverReleases (calls ++ [c]) ↔ NeverReleases calls ∧ ¬ c.Releases s := by
  refine eachStep_concat.trans (and_congr_right fun _ ↦ ⟨fun h ↦ h s hs, ?_⟩)
  rintro h s' hs'
  rw [hs] at hs'
  cases hs'
  exact h

/-- In every run the layout stays well formed, and all bytes are in use as long as no list with an
extent has moved. -/
theorem runCalls_spec (calls : List (SizeCall nlist codeSize)) :
    ∃ s, runCalls calls = .ok s ∧ s.WellFormed ∧ s.nlist = nlist ∧ s.usedBytes ≤ s.totsize ∧
      (s.usedBytes = s.totsize ↔ NeverReleases calls) := by
  induction calls using List.reverseRecOn with
  | nil =>
      have hused : (empty nlist codeSize).usedBytes = (empty nlist codeSize).totsize :=
        (Nat.zero_add _).trans (Finset.sum_eq_zero fun j _ ↦ Nat.zero_mul _)
      exact ⟨_, rfl, wellFormed_empty _ _, rfl, hused.le, iff_of_true hused eachStep_nil⟩
  | append_singleton calls c ih =>
      obtain ⟨s, hs, hwf, hnlist, hle, hiff⟩ := ih
      obtain ⟨s', hs', hacc⟩ := c.run_accounts hwf hle hnlist
      refine ⟨s', ?_, hacc.wellFormed, hacc.nlist_eq.trans hnlist, hacc.used_le, ?_⟩
      · rw [runCalls, foldlM_concat, ← runCalls, hs]
        exact hs'
      · rw [hacc.used_eq, hiff, neverReleases_concat hs]

/-- Every run returns, and the slots and extents of its last state are the file, in order and apart
from each other, exactly if no call moved a list that had an extent. -/
theorem conserves_iff_neverReleases (nlist codeSize : ℕ)
    (calls : List (SizeCall nlist codeSize)) :
    ∃ s, runCalls calls = .ok s ∧ (s.Conserves ↔ NeverReleases calls) := by
  obtain ⟨s, hs, hwf, -, -, hiff⟩ := runCalls_spec calls
  exact ⟨s, hs, hwf.conserves_iff.trans hiff⟩

/-- An entry is added to a list of one: the room for one entry is nine bytes, and the move frees the
first of them. -/
theorem not_forall_conserves :
    ¬ ∀ (nlist codeSize : ℕ) (calls : List (SizeCall nlist codeSize)) (s : OnDiskInvertedLists),
      runCalls calls = .ok s → s.Conserves := by
  intro h
  have hcodes : ∀ e ∈ [(⟨0, [0]⟩ : Entry)], e.code.length = 1 := by decide
  let add : SizeCall 1 1 := .addEntries 0 [⟨0, [0]⟩] hcodes
  obtain ⟨s, hs, -, -, -, hiff⟩ := runCalls_spec [add, add]
  have hnever : NeverReleases [add, add] := hiff.1 (h 1 1 _ s hs).bytes
  obtain ⟨s₁, hs₁, -⟩ := runCalls_spec [add]
  have hlist : (runCalls [add]).map (fun s ↦ s.lists 0) = .ok ⟨1, 1, some 0⟩ := rfl
  rw [hs₁] at hlist
  have hlist : s₁.lists 0 = ⟨1, 1, some 0⟩ := Except.ok.inj hlist
  refine hnever [add] add [] rfl s₁ hs₁ ?_
  rw [SizeCall.Releases, SizeCall.newSize, listSize]
  change 0 < (s₁.lists 0).capacity ∧ ¬ Stays (s₁.lists 0) (1 + (s₁.lists 0).size)
  rw [hlist]
  decide

end Runs

end FaissNavix
