import FaissNavix.Invlists.DirectMap
import FaissNavix.Invlists.PQ4
import FaissNavix.Lib.Loop

/-!
# Removing entries without a direct map

`DirectMap::remove_ids` goes through all lists when there is no map, and so does
`BlockInvertedLists::remove_ids`.  Both keep, in each list, the entries that are not selected.  The
first one counts what it removes; the second one subtracts the size that is left from the size of
the list after it has shrunk it to this size.
-/

namespace FaissNavix

open Function
open Lib

namespace ArrayInvertedLists

variable (il : ArrayInvertedLists) (sel : IDSelector)

def slots (codeSize : ℕ) : Slots (List Entry) Entry where
  get es j := es.getD j (blank codeSize)
  move es l j := es.set j (es.getD l (blank codeSize))

theorem slots_lawful (codeSize n : ℕ) :
    (slots codeSize).Lawful (fun es ↦ es.length = n) n where
  ok_move hs _ _ := List.length_set.trans hs
  get_move {es l j k} hs _ hj _ := by
    change (es.set j (es.getD l (blank codeSize))).getD k (blank codeSize) = _
    rw [getD_set]
    by_cases hk : k = j
    · rw [if_pos hk, if_pos ⟨hk.symm, hs ▸ hj⟩]
      rfl
    · rw [if_neg hk, if_neg fun h ↦ hk h.1.symm]
      rfl

theorem contents_slots (codeSize : ℕ) (es : List Entry) {l : ℕ} (hl : l ≤ es.length) :
    (slots codeSize).contents es l = es.take l := by
  refine List.ext_getElem ?_ fun j h1 h2 ↦ ?_
  · rw [Slots.contents, List.length_map, List.length_range, List.length_take, min_eq_left hl]
  · rw [List.length_take] at h2
    simp only [Slots.contents, List.getElem_map, List.getElem_range, List.getElem_take]
    exact List.getD_eq_getElem _ _ (by omega)

variable {il sel} in
theorem getSingle_eq {i o : ℕ} (ho : o < (il.lists i).length) :
    il.getSingle i o = .ok ((il.lists i).getD o (blank il.codeSize)) := by
  rw [getSingle, List.getElem?_eq_getElem ho, List.getD_eq_getElem _ _ ho]

variable {il sel} in
theorem updateEntries_eq {i o : ℕ} (ho : o < (il.lists i).length) (e : Entry) :
    il.updateEntries i o [e] = .ok (il.setList i ((il.lists i).set o e)) := by
  have hle : decide ([e].length + o ≤ il.listSize i) = true :=
    decide_eq_true (by rw [List.length_singleton, listSize]; omega)
  rw [updateEntries, hle, Fault.assert_true, List.set_eq_take_append_cons_drop, if_pos ho,
    List.append_assoc]
  rfl

variable {il sel} in
/-- The loop over a list returns, and does what the loop on its slots does. -/
theorem removeLoop_eq {i j l : ℕ} (hl : l ≤ (il.lists i).length) :
    il.removeLoop sel i j l = .ok
      (il.setList i (swapRemove (slots il.codeSize) (fun e ↦ sel.isMember e.id)
        (il.lists i) j l).1,
      (swapRemove (slots il.codeSize) (fun e ↦ sel.isMember e.id) (il.lists i) j l).2) := by
  fun_induction removeLoop il sel i j l with
  | case1 il j l hlt hp e he il' hil' ih =>
      rw [getSingle_eq (by omega)] at he
      rw [updateEntries_eq (by omega)] at hil'
      obtain rfl := Except.ok.inj he
      obtain rfl := Except.ok.inj hil'
      rw [ih (by rw [setList_lists, if_pos rfl, List.length_set]; omega),
        swapRemove_of_pos (S := slots il.codeSize) hlt hp]
      simp only [setList_lists, if_true, setList_codeSize, setList_setList]
      rfl
  | case2 il j l hlt hp e he err herr =>
      rw [updateEntries_eq (by omega)] at herr
      cases herr
  | case3 il j l hlt hp err herr =>
      rw [getSingle_eq (by omega)] at herr
      cases herr
  | case4 il j l hlt hp ih =>
      rw [ih hl, swapRemove_of_neg (S := slots il.codeSize) hlt hp]
  | case5 il j l hlt =>
      rw [swapRemove_of_le hlt, setList_self]

theorem removeLoop_spec (i : ℕ) :
    ∃ es l, il.removeLoop sel i 0 (il.listSize i) = .ok (il.setList i es, l) ∧
      es.length = (il.lists i).length ∧ l ≤ (il.lists i).length ∧
      (es.take l).Perm ((il.lists i).filter fun e ↦ !sel.isMember e.id) ∧
      il.listSize i - l = (il.lists i).countP fun e ↦ sel.isMember e.id := by
  obtain ⟨hlen, hle, hperm⟩ := (slots_lawful il.codeSize (il.lists i).length).swapRemove
    (p := fun e ↦ sel.isMember e.id) (s := il.lists i) rfl (Nat.zero_le _) le_rfl
    fun k hk ↦ absurd hk (Nat.not_lt_zero k)
  rw [contents_slots _ _ le_rfl, List.take_length, contents_slots _ _ (hle.trans hlen.ge)] at hperm
  refine ⟨_, _, removeLoop_eq le_rfl, hlen, hle, hperm, ?_⟩
  have hcount := hperm.length_eq
  rw [List.length_take, hlen, min_eq_left hle] at hcount
  have hsplit := List.length_eq_countP_add_countP (fun e : Entry ↦ sel.isMember e.id)
    (l := il.lists i)
  rw [listSize, hcount, ← List.countP_eq_length_filter]
  have hnot : (il.lists i).countP (fun e ↦ !sel.isMember e.id) =
      (il.lists i).countP fun e ↦ ¬ sel.isMember e.id = true :=
    List.countP_congr fun e _ ↦ by simp
  omega

/-- The first loop, after its first `n` turns: what is left of each list is in front, and what
falls away is counted. -/
structure Removing (sel : IDSelector) (il : ArrayInvertedLists) (n : ℕ)
    (s : ArrayInvertedLists × (ℕ → ℕ)) : Prop where
  nlist : s.1.nlist = il.nlist
  length : ∀ i, (s.1.lists i).length = (il.lists i).length
  count : ∀ i < n, s.2 i = (il.lists i).countP fun e ↦ sel.isMember e.id
  perm : ∀ i < n, ((s.1.lists i).take ((il.lists i).length - s.2 i)).Perm
    ((il.lists i).filter fun e ↦ !sel.isMember e.id)
  later : ∀ i, n ≤ i → s.1.lists i = il.lists i

theorem removeAll_spec : ∃ s, il.removeAll sel = .ok s ∧ Removing sel il il.nlist s := by
  rw [removeAll]
  generalize il.nlist = n
  induction n with
  | zero =>
      exact ⟨_, rfl, rfl, fun _ ↦ rfl, fun i hi ↦ absurd hi (Nat.not_lt_zero i),
        fun i hi ↦ absurd hi (Nat.not_lt_zero i), fun _ _ ↦ rfl⟩
  | succ n ih =>
      obtain ⟨⟨il', toremove⟩, hs, h⟩ := ih
      obtain ⟨es, l, hloop, hlen, hle, hperm, hcount⟩ := il'.removeLoop_spec sel n
      have hsame : il'.lists n = il.lists n := h.later n le_rfl
      rw [hsame] at hlen hle hperm hcount
      rw [List.range_succ, foldlM_concat, hs]
      refine ⟨(il'.setList n es, update toremove n (il'.listSize n - l)), ?_, h.nlist,
        fun i ↦ ?_, fun i hi ↦ ?_, fun i hi ↦ ?_, fun i hi ↦ ?_⟩
      · change removeStep sel (il', toremove) n = _
        rw [removeStep]
        dsimp only
        rw [hloop]
        rfl
      · rw [setList_lists]
        split
        · rename_i hi
          rw [hi, hlen]
        · exact h.length i
      · rcases Nat.lt_succ_iff_lt_or_eq.mp hi with hi | rfl
        · exact (update_of_ne hi.ne _ _).trans (h.count i hi)
        · exact (update_self _ _ _).trans hcount
      · rcases Nat.lt_succ_iff_lt_or_eq.mp hi with hi | rfl
        · rw [setList_lists, if_neg hi.ne]
          dsimp only
          rw [update_of_ne hi.ne]
          exact h.perm i hi
        · rw [setList_lists, if_pos rfl]
          dsimp only
          rw [update_self, listSize, hsame, Nat.sub_sub_self hle]
          exact hperm
      · rw [setList_lists, if_neg (by omega)]
        exact h.later i (by omega)

/-- The second loop cuts the lists and adds up what falls away. -/
theorem foldl_shrinkStep (toremove : ℕ → ℕ) (n : ℕ) :
    ((List.range n).foldl (shrinkStep toremove) (il, 0)).1.nlist = il.nlist ∧
      (∀ i, ((List.range n).foldl (shrinkStep toremove) (il, 0)).1.lists i =
        if i < n then (il.lists i).take ((il.lists i).length - toremove i) else il.lists i) ∧
      ((List.range n).foldl (shrinkStep toremove) (il, 0)).2 =
        ∑ i ∈ Finset.range n, toremove i := by
  induction n with
  | zero => exact ⟨rfl, fun i ↦ (if_neg (Nat.not_lt_zero i)).symm, rfl⟩
  | succ n ih =>
      obtain ⟨hnlist, hlists, hcount⟩ := ih
      rw [List.range_succ, List.foldl_append, List.foldl_cons, List.foldl_nil,
        Finset.sum_range_succ, shrinkStep]
      have hn := hlists n
      rw [if_neg (lt_irrefl n)] at hn
      by_cases hpos : 0 < toremove n
      · rw [if_pos hpos]
        refine ⟨hnlist, fun i ↦ ?_, congrArg (· + _) hcount⟩
        dsimp only
        rw [resize, setList_lists, listSize, hn]
        by_cases hi : i = n
        · rw [if_pos hi, if_pos (by omega), hi, Nat.sub_eq_zero_of_le (Nat.sub_le _ _),
            List.replicate_zero, List.append_nil]
        · rw [if_neg hi, hlists]
          simp only [Nat.lt_succ_iff_lt_or_eq, hi, or_false]
      · rw [if_neg hpos, Nat.eq_zero_of_not_pos hpos]
        refine ⟨hnlist, fun i ↦ ?_, hcount⟩
        rw [hlists]
        by_cases hi : i = n
        · rw [if_neg (by omega), if_pos (by omega), hi, Nat.eq_zero_of_not_pos hpos, Nat.sub_zero,
            List.take_length]
        · simp only [Nat.lt_succ_iff_lt_or_eq, hi, or_false]

end ArrayInvertedLists

/-! ## What is removed -/

/-- The selected entries are removed from the lists, and `n` is their number. -/
structure RemovesExactly (sel : IDSelector) (nlist : ℕ) (before after : ℕ → List Entry) (n : ℕ) :
    Prop where
  perm : ∀ i < nlist, (after i).Perm ((before i).filter fun e ↦ !sel.isMember e.id)
  count : n = ∑ i ∈ Finset.range nlist, (before i).countP fun e ↦ sel.isMember e.id

theorem DirectMap.removeIds_noMap {dm : DirectMap} (h : dm.type = .noMap) (sel : IDSelector)
    (il : ArrayInvertedLists) :
    ∃ n il', dm.removeIds sel il = .ok (n, dm, il') ∧
      RemovesExactly sel il.nlist il.lists il'.lists n := by
  obtain ⟨⟨il₁, toremove⟩, hall, hr⟩ := il.removeAll_spec sel
  obtain ⟨-, hlists, hcount⟩ := il₁.foldl_shrinkStep toremove il₁.nlist
  have hresult : dm.removeIds sel il =
      .ok (((List.range il₁.nlist).foldl (ArrayInvertedLists.shrinkStep toremove) (il₁, 0)).2, dm,
        ((List.range il₁.nlist).foldl (ArrayInvertedLists.shrinkStep toremove) (il₁, 0)).1) := by
    rw [DirectMap.removeIds.eq_def, h]
    dsimp only
    rw [hall]
    rfl
  refine ⟨_, _, hresult, fun i hi ↦ ?_, ?_⟩
  · have hi' : i < il₁.nlist := hr.nlist ▸ hi
    rw [hlists, if_pos hi', hr.length]
    exact hr.perm i hi
  · rw [hcount]
    refine Finset.sum_congr (congrArg _ hr.nlist) fun i hi ↦ ?_
    exact hr.count i (Finset.mem_range.mp hi)

namespace IndexIVF

/-- `remove_ids` removes the selected entries, and its result is their number, which `ntotal` goes
down by. -/
def RemovalIsExact {L : Type} (nlist : L → ℕ) (entries : L → ℕ → List Entry) (sel : IDSelector)
    (ivf : IndexIVF L) (result : Except Fault (ℕ × IndexIVF L)) : Prop :=
  ∃ n ivf', result = .ok (n, ivf') ∧
    RemovesExactly sel (nlist ivf.invlists) (entries ivf.invlists) (entries ivf'.invlists) n ∧
    ivf'.ntotal = ivf.ntotal - n

theorem removeIdsBlock_eq {ivf : IndexIVF BlockInvertedLists} (h : ivf.directMap.type = .noMap)
    (hP : ivf.invlists.packer.Lawful) (sel : IDSelector) :
    ivf.removeIdsBlock sel = .ok (0, { ivf with
      invlists := (ivf.invlists.removeIds sel).1, ntotal := ivf.ntotal - (0 : ℕ) }) := by
  rw [removeIdsBlock, DirectMap.removeIdsBlock, h]
  dsimp only
  rw [(BlockInvertedLists.removeIds_spec sel hP).2]
  rfl

/-- On lists in memory, and on block lists exactly when nothing is selected. -/
theorem removalIsExact_iff (sel : IDSelector) :
    (∀ ivf : IndexIVF ArrayInvertedLists, ivf.directMap.type = .noMap →
      RemovalIsExact (·.nlist) (·.lists) sel ivf (ivf.removeIds sel)) ∧
    ∀ ivf : IndexIVF BlockInvertedLists, ivf.directMap.type = .noMap →
      ivf.invlists.packer.Lawful →
      (RemovalIsExact (·.nlist) (·.entries) sel ivf (ivf.removeIdsBlock sel) ↔
        ∀ i < ivf.invlists.nlist, ∀ e ∈ ivf.invlists.entries i, sel.isMember e.id = false) := by
  constructor
  · intro ivf h
    obtain ⟨n, il', hremove, hexact⟩ := DirectMap.removeIds_noMap h sel ivf.invlists
    refine ⟨n, { ivf with invlists := il', ntotal := ivf.ntotal - n }, ?_, hexact, rfl⟩
    rw [removeIds, hremove]
    rfl
  · intro ivf h hP
    obtain ⟨hperm, hzero⟩ := BlockInvertedLists.removeIds_spec sel hP
    have hresult := removeIdsBlock_eq h hP sel
    have hnone : (∑ i ∈ Finset.range ivf.invlists.nlist,
        (ivf.invlists.entries i).countP fun e ↦ sel.isMember e.id) = 0 ↔
          ∀ i < ivf.invlists.nlist, ∀ e ∈ ivf.invlists.entries i, sel.isMember e.id = false := by
      rw [Finset.sum_eq_zero_iff]
      refine forall_congr' fun i ↦ ?_
      rw [Finset.mem_range, List.countP_eq_zero]
      simp only [Bool.not_eq_true]
    rw [← hnone]
    constructor
    · rintro ⟨n, ivf', hok, hexact, -⟩
      rw [hresult] at hok
      cases hok
      exact hexact.count.symm
    · intro hsum
      exact ⟨0, _, hresult, ⟨hperm, hsum.symm⟩, rfl⟩

/-- One list in memory, with one entry. -/
def oneEntryArray (id : Idx) : IndexIVF ArrayInvertedLists where
  isTrained := true
  ntotal := 1
  directMap := .new
  invlists := ⟨1, 1, fun _ ↦ [⟨id, [0]⟩]⟩

/-- One list in a block of 32 codes with two elements, with one entry. -/
def oneEntryBlock (id : Idx) : IndexIVF BlockInvertedLists where
  isTrained := true
  ntotal := 1
  directMap := .new
  invlists := {
    nlist := 1
    packer := CodePackerPQ4.packer 2 32
    ids := fun _ ↦ [id]
    codes := fun _ ↦ ⟨fun _ ↦ 0, 32⟩
    numel_eq := fun _ ↦ by
      change 32 = (1 + 32 - 1) / 32 * ((2 + 1) / 2 * 32)
      decide }

/-- The entry with the id 4 is removed from a list in memory, and is left in a block list when 5 is
selected. -/
theorem removalIsExact_iff_four :
    RemovalIsExact (·.nlist) (·.lists) (.array [4]) (oneEntryArray 4)
      ((oneEntryArray 4).removeIds (.array [4])) ∧
    RemovalIsExact (·.nlist) (·.entries) (.array [5]) (oneEntryBlock 4)
      ((oneEntryBlock 4).removeIdsBlock (.array [5])) :=
  ⟨(removalIsExact_iff (.array [4])).1 _ rfl,
    ((removalIsExact_iff (.array [5])).2 _ rfl (CodePackerPQ4.packer_lawful 2)).mpr fun i _ e he ↦ by
      obtain ⟨o, ho, rfl⟩ := List.mem_map.mp he
      obtain rfl : o = 0 := Nat.lt_one_iff.mp (List.mem_range.mp ho)
      exact (rfl : IDSelector.isMember (.array [5]) 4 = false)⟩

/-- The entry with the id 4 is removed from a block list, and is not counted. -/
theorem removalIsExact_fails :
    (oneEntryBlock 4).invlists.packer.Lawful ∧
    ¬ RemovalIsExact (·.nlist) (·.entries) (.array [4]) (oneEntryBlock 4)
      ((oneEntryBlock 4).removeIdsBlock (.array [4])) := by
  have hP : (oneEntryBlock 4).invlists.packer.Lawful := CodePackerPQ4.packer_lawful 2
  refine ⟨hP, ?_⟩
  rintro ⟨n, ivf', hok, hexact, -⟩
  rw [removeIdsBlock_eq rfl hP] at hok
  cases hok
  have hcount : 0 = ((oneEntryBlock 4).invlists.entries 0).countP
      fun e ↦ IDSelector.isMember (.array [4]) e.id :=
    hexact.count.trans (Finset.sum_range_one _)
  exact absurd hcount (by decide)

end IndexIVF

end FaissNavix
