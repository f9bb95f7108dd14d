import FaissNavix.Invlists.OnDisk

/-!
# Resizing a list

A list that is resized beyond its room, or to less than half of it, moves: its slot is freed, a new
one is allocated, and the entries that stay are copied.  `free_slot` is called with the capacity of
the list, a number of entries, so only the first `capacity` bytes of the extent are freed.  The
layout of the file stays well formed: extents and free slots are apart from each other.
-/

namespace FaissNavix

open Lib (Holds Separated total)

/-- The byte at `a` is in the extent of the list. -/
def OnDiskOneList.InExtent (codeSize : ℕ) (l : OnDiskOneList) (a : ℕ) : Prop :=
  ∃ o, l.offset = some o ∧ o ≤ a ∧ a < o + l.capacity * (sizeofIdx + codeSize)

/-- The byte at `a` is one of those that `free_slot` frees for the list. -/
def OnDiskOneList.InFreed (l : OnDiskOneList) (a : ℕ) : Prop :=
  ∃ o, l.offset = some o ∧ o ≤ a ∧ a < o + l.capacity

/-- A list with an extent has room in it for its entries, and a list without one is empty. -/
structure OnDiskOneList.Ok (l : OnDiskOneList) : Prop where
  size_le : l.size ≤ l.capacity
  offset_eq_none : l.offset = none ↔ l.capacity = 0

theorem OnDiskOneList.InFreed.inExtent {l : OnDiskOneList} {a : ℕ} (h : l.InFreed a)
    (codeSize : ℕ) : l.InExtent codeSize a := by
  obtain ⟨o, ho, hle, hlt⟩ := h
  refine ⟨o, ho, hle, hlt.trans_le (Nat.add_le_add_left ?_ o)⟩
  exact Nat.le_mul_of_pos_right _ (Nat.add_pos_left (by decide) _)

namespace OnDiskInvertedLists

/-- The layout of the file: slots and extents are in the file and apart from each other. -/
structure WellFormed (s : OnDiskInvertedLists) : Prop where
  writable : s.readOnly = false
  slots : SlotsOk s.slots s.totsize
  lists : ∀ j, (s.lists j).Ok
  inside : ∀ j a, (s.lists j).InExtent s.codeSize a → a < s.totsize
  apart : ∀ j a, (s.lists j).InExtent s.codeSize a → ¬ Holds s.slots a
  disjoint : ∀ i j a, (s.lists i).InExtent s.codeSize a → (s.lists j).InExtent s.codeSize a → i = j

theorem wellFormed_empty (nlist codeSize : ℕ) : (empty nlist codeSize).WellFormed where
  writable := rfl
  slots := ⟨Lib.separated_nil, fun a h ↦ absurd h (Lib.not_holds_nil a)⟩
  lists _ := ⟨le_rfl, Iff.rfl.trans (iff_of_true rfl rfl)⟩
  inside := by
    rintro j a ⟨o, ⟨⟩, -⟩
  apart := by
    rintro j a ⟨o, ⟨⟩, -⟩
  disjoint := by
    rintro i j a ⟨o, ⟨⟩, -⟩

variable {s : OnDiskInvertedLists}

/-! ## The steps of a move -/

/-- The bytes that a move frees. -/
structure FreedList (slots slots' : List Slot) (l : OnDiskOneList) : Prop where
  separated : Separated slots'
  total_eq : total slots' = total slots + l.capacity
  holds_iff : ∀ a, Holds slots' a ↔ Holds slots a ∨ l.InFreed a

theorem WellFormed.freeSlot (h : s.WellFormed) (j : ℕ) :
    ∃ slots', freeSlot s.slots (s.lists j).offset (s.lists j).capacity = .ok slots' ∧
      FreedList s.slots slots' (s.lists j) := by
  cases ho : (s.lists j).offset with
  | none =>
      have hc : (s.lists j).capacity = 0 := (h.lists j).offset_eq_none.1 ho
      refine ⟨s.slots, by rw [hc, freeSlot_zero], h.slots.separated, by rw [hc]; rfl, fun a ↦ ?_⟩
      refine (or_iff_left ?_).symm
      rintro ⟨o, ho', -⟩
      rw [ho] at ho'
      cases ho'
  | some o =>
      have hc : 0 < (s.lists j).capacity := Nat.pos_of_ne_zero fun hc ↦ by
        rw [(h.lists j).offset_eq_none.2 hc] at ho
        cases ho
      obtain ⟨slots', hs, hfreed⟩ := freeSlot_spec h.slots.separated hc fun a ha ha' ↦
        h.apart j a (OnDiskOneList.InFreed.inExtent ⟨o, ho, ha, ha'⟩ s.codeSize)
      refine ⟨slots', hs, hfreed.separated, hfreed.total_eq, fun a ↦ (hfreed.holds_iff a).trans ?_⟩
      refine or_congr_right ⟨fun ha ↦ ⟨o, ho, ha⟩, ?_⟩
      rintro ⟨o', ho', ha⟩
      rw [ho] at ho'
      cases ho'
      exact ha

/-- A place for `n` entries is found. -/
structure Placed (s s' : OnDiskInvertedLists) (l : OnDiskOneList) (n : ℕ) : Prop where
  eq : s' = { s with slots := s'.slots, totsize := s'.totsize }
  ok : SlotsOk s'.slots s'.totsize
  totsize_le : s.totsize ≤ s'.totsize
  total_eq : total s.slots + (s'.totsize - s.totsize) = s.extentSize l.capacity + total s'.slots
  holds_iff : ∀ a, (Holds s.slots a ∨ (s.totsize ≤ a ∧ a < s'.totsize)) ↔
    l.InExtent s.codeSize a ∨ Holds s'.slots a
  not_holds : ∀ a, l.InExtent s.codeSize a → ¬ Holds s'.slots a
  first : ∀ o, l.offset = some o → o < s.totsize →
    ∀ t ∈ s.slots, t.stop < o → t.capacity < s.extentSize l.capacity
  start : ∀ o, l.offset = some o → ∀ a, a + 1 = o → ¬ Holds s.slots a
  list : l.Ok
  size_eq : l.size = n
  capacity_eq : l.capacity = if n = 0 then 0 else doubleTo n n 1

theorem newList_spec (hok : SlotsOk s.slots s.totsize) (n : ℕ) :
    ∃ s' l, s.newList n = .ok (s', l) ∧ Placed s s' l n := by
  by_cases hn : n = 0
  · refine ⟨s, ⟨0, 0, none⟩, by rw [newList, if_pos hn], rfl, hok, le_rfl, ?_, fun a ↦ ?_, ?_, ?_,
      ?_, ⟨le_rfl, iff_of_true rfl rfl⟩, hn.symm, (if_pos hn).symm⟩
    · simp only [Nat.sub_self, extentSize, Nat.zero_mul, Nat.zero_add, Nat.add_zero]
    · have hnot : ¬ (⟨0, 0, none⟩ : OnDiskOneList).InExtent s.codeSize a := by
        rintro ⟨o, ⟨⟩, -⟩
      rw [or_iff_left fun h : s.totsize ≤ a ∧ a < s.totsize ↦ absurd h.2 h.1.not_gt,
        or_iff_right hnot]
    · rintro a ⟨o, ⟨⟩, -⟩
    · rintro o ⟨⟩
    · rintro o ⟨⟩
  · have hcap : n ≤ doubleTo n n 1 := le_doubleTo_self Nat.one_pos
    have hcap0 : 0 < doubleTo n n 1 := (Nat.pos_of_ne_zero hn).trans_le hcap
    have hbytes : 0 < s.extentSize (doubleTo n n 1) :=
      Nat.mul_pos hcap0 (Nat.add_pos_left (by decide) _)
    obtain ⟨s', o, hs, halloc⟩ := allocateSlot_spec hok hbytes
    have hext : ∀ a, (⟨n, doubleTo n n 1, some o⟩ : OnDiskOneList).InExtent s.codeSize a ↔
        o ≤ a ∧ a < o + s.extentSize (doubleTo n n 1) := by
      intro a
      constructor
      · rintro ⟨o', ⟨⟩, ha⟩
        exact ha
      · exact fun ha ↦ ⟨o, rfl, ha⟩
    refine ⟨s', ⟨n, doubleTo n n 1, some o⟩, ?_, halloc.eq, halloc.ok, halloc.totsize_le,
      halloc.total_eq, fun a ↦ by rw [hext, halloc.holds_iff], fun a ha ↦ ?_, ?_, ?_,
      ⟨hcap, iff_of_false (by simp) hcap0.ne'⟩, rfl, (if_neg hn).symm⟩
    · rw [newList, if_neg hn]
      simp only [hs]
      rfl
    · obtain ⟨ha, ha'⟩ := (hext a).1 ha
      exact halloc.not_holds a ha ha'
    · rintro o' ⟨⟩ ho
      exact halloc.first ho
    · rintro o' ⟨⟩
      exact halloc.start

/-- The bytes of the file when `n` entries are copied from the extent at `o` to that at `o'`: their
codes, and then their ids. -/
def moveEntries (codeSize : ℕ) (m : ℕ → UInt8) (o capacity o' capacity' n : ℕ) : ℕ → UInt8 :=
  let m := Lib.write m o' (Lib.read m o (codeSize * n))
  Lib.write m (o' + codeSize * capacity') (Lib.read m (o + codeSize * capacity) (sizeofIdx * n))

theorem moveEntries_zero (codeSize : ℕ) (m : ℕ → UInt8) (o capacity o' capacity' : ℕ) :
    moveEntries codeSize m o capacity o' capacity' 0 = m := by
  funext a
  rw [moveEntries, Lib.write_of_outside (Nat.lt_or_ge a _),
    Lib.write_of_outside (Nat.lt_or_ge a _)]

/-- The bytes of the file after a move: a list that lands where it was is not copied. -/
def copiedPtr (codeSize : ℕ) (m : ℕ → UInt8) (l newL : OnDiskOneList) (n : ℕ) : ℕ → UInt8 :=
  match l.offset, newL.offset with
  | some o, some o' =>
      if o = o' then m else moveEntries codeSize m o l.capacity o' newL.capacity n
  | _, _ => m

theorem copyEntries_eq {l newL : OnDiskOneList} {n : ℕ} (hl : l.offset = none → n = 0)
    (hnewL : newL.offset = none → n = 0) :
    s.copyEntries l newL n = .ok (s.setPtr (copiedPtr s.codeSize s.ptr l newL n)) := by
  by_cases hcopy : l.offset ≠ newL.offset ∧ 0 < n
  · rw [copyEntries, if_pos hcopy, copiedPtr]
    cases ho : l.offset with
    | none => exact absurd (hl ho) hcopy.2.ne'
    | some o =>
        cases ho' : newL.offset with
        | none => exact absurd (hnewL ho') hcopy.2.ne'
        | some o' =>
            have hne : o ≠ o' := fun h ↦ hcopy.1 (by rw [ho, ho', h])
            simp only [if_neg hne]
            rfl
  · have hptr : copiedPtr s.codeSize s.ptr l newL n = s.ptr := by
      rw [copiedPtr]
      split
      · next o o' ho ho' =>
          split
          · rfl
          · next hne =>
              have hn : n = 0 := Nat.eq_zero_of_not_pos fun hn ↦
                hcopy ⟨fun h ↦ hne (Option.some.inj (ho.symm.trans (h.trans ho'))), hn⟩
              rw [hn, moveEntries_zero]
      · rfl
    rw [copyEntries, if_neg hcopy, hptr]
    rfl

/-- The place that list `j` gets for `n` entries is at the offset that it has: the bytes that it
frees are enough, they are not put at the end of a free slot, and the free slots before them are too
small. -/
def LandsOnItself (s : OnDiskInvertedLists) (j n : ℕ) : Prop :=
  ∃ o, (s.lists j).offset = some o ∧ 0 < n ∧ ¬ Stays (s.lists j) n ∧
    s.extentSize (doubleTo n n 1) ≤ (s.lists j).capacity ∧
    ∀ t ∈ s.slots, t.offset < o → t.stop ≠ o ∧ t.capacity < s.extentSize (doubleTo n n 1)

/-- A list that is given its own offset. -/
theorem WellFormed.landsOnItself (h : s.WellFormed) {j n o : ℕ} {slots : List Slot}
    (hfreed : FreedList s.slots slots (s.lists j)) {s' : OnDiskInvertedLists} {l : OnDiskOneList}
    (hplaced : Placed { s with slots := slots } s' l n) (hn : ¬ Stays (s.lists j) n)
    (ho : (s.lists j).offset = some o) (hl : l.offset = some o) : s.LandsOnItself j n := by
  have hn0 : n ≠ 0 := fun hn0 ↦ by
    have hcap : l.capacity = 0 := by rw [hplaced.capacity_eq, if_pos hn0]
    rw [hplaced.list.offset_eq_none.2 hcap] at hl
    cases hl
  have hlcap : l.capacity = doubleTo n n 1 := by rw [hplaced.capacity_eq, if_neg hn0]
  have hcap0 : 0 < (s.lists j).capacity := Nat.pos_of_ne_zero fun hc ↦ by
    rw [(h.lists j).offset_eq_none.2 hc] at ho
    cases ho
  have hext : (s.lists j).capacity < s.extentSize (s.lists j).capacity :=
    (Nat.lt_mul_iff_one_lt_right hcap0).2 (Nat.lt_add_right _ (by decide))
  have hown : ∀ a, o ≤ a → a < o + s.extentSize (s.lists j).capacity →
      a < s.totsize ∧ ¬ Holds s.slots a := fun a ha ha' ↦
    ⟨h.inside j a ⟨o, ho, ha, ha'⟩, h.apart j a ⟨o, ho, ha, ha'⟩⟩
  have hnot : ∀ a, a < o → ¬ (s.lists j).InFreed a := by
    rintro a ha ⟨o', ho', hle, -⟩
    rw [ho] at ho'
    cases ho'
    exact absurd ha hle.not_gt
  rw [LandsOnItself, ← hlcap]
  refine ⟨o, ho, Nat.pos_of_ne_zero hn0, hn, ?_, fun t ht hto ↦ ?_⟩
  · -- the byte after those that are freed is in no slot
    by_contra hgt
    obtain hslot | ⟨hgrown, -⟩ := (hplaced.holds_iff (o + (s.lists j).capacity)).2
      (.inl ⟨o, hl, Nat.le_add_right _ _, Nat.add_lt_add_left (Nat.lt_of_not_le hgt) o⟩)
    · obtain hslot | ⟨o', ho', -, hlt⟩ := (hfreed.holds_iff _).1 hslot
      · exact (hown _ (Nat.le_add_right _ _) (Nat.add_lt_add_left hext o)).2 hslot
      · rw [ho] at ho'
        cases ho'
        exact lt_irrefl _ hlt
    · exact absurd (hown _ (Nat.le_add_right _ _) (Nat.add_lt_add_left hext o)).1 hgrown.not_gt
  · have htstop : t.stop = t.offset + t.capacity := rfl
    have htpos := h.slots.separated.pos t ht
    obtain ⟨hotot, honot⟩ := hown o le_rfl (Nat.lt_add_of_pos_right (hcap0.trans hext))
    have hle : t.stop ≤ o := Nat.le_of_not_lt fun hlt ↦ honot ⟨t, ht, hto.le, hlt⟩
    have hne : t.stop ≠ o := fun heq ↦ by
      refine hplaced.start o hl (t.stop - 1) (by omega) ((hfreed.holds_iff _).2 (.inl ?_))
      exact ⟨t, ht, by omega, by omega⟩
    refine ⟨hne, hplaced.first o hl hotot t ?_ (lt_of_le_of_ne hle hne)⟩
    refine h.slots.separated.mem_of_holds_iff hfreed.separated ht fun a ha ↦ ?_
    rw [hfreed.holds_iff, or_iff_left (hnot a (ha.trans_lt (lt_of_le_of_ne hle hne)))]

/-- From `s` to `s'`, list `j` moves, with room for `n` entries. -/
structure Moved (s s' : OnDiskInvertedLists) (j n : ℕ) : Prop where
  codeSize_eq : s'.codeSize = s.codeSize
  readOnly_eq : s'.readOnly = s.readOnly
  nlist_eq : s'.nlist = s.nlist
  slots : SlotsOk s'.slots s'.totsize
  totsize_le : s.totsize ≤ s'.totsize
  total_eq : total s.slots + (s.lists j).capacity + (s'.totsize - s.totsize) =
    s.extentSize (s'.lists j).capacity + total s'.slots
  holds_iff : ∀ a, (Holds s.slots a ∨ (s.lists j).InFreed a ∨ (s.totsize ≤ a ∧ a < s'.totsize)) ↔
    (s'.lists j).InExtent s.codeSize a ∨ Holds s'.slots a
  not_holds : ∀ a, (s'.lists j).InExtent s.codeSize a → ¬ Holds s'.slots a
  list : (s'.lists j).Ok
  size_eq : (s'.lists j).size = n
  capacity_eq : (s'.lists j).capacity = if n = 0 then 0 else doubleTo n n 1
  lists_of_ne : ∀ i ≠ j, s'.lists i = s.lists i
  ptr_eq : s'.ptr =
    copiedPtr s.codeSize s.ptr (s.lists j) (s'.lists j) (min n (s.lists j).size)
  lands : ∀ o, (s.lists j).offset = some o → (s'.lists j).offset = some o → s.LandsOnItself j n

/-- A list that does not stay moves. -/
theorem WellFormed.resizeLocked_of_not (h : s.WellFormed) {j n : ℕ} (hn : ¬ Stays (s.lists j) n) :
    ∃ s', s.resizeLocked j n = .ok s' ∧ Moved s s' j n := by
  obtain ⟨slots, hslots, hfreed⟩ := h.freeSlot j
  have hok : SlotsOk slots s.totsize := by
    refine ⟨hfreed.separated, fun a ha ↦ ?_⟩
    obtain ha | ha := (hfreed.holds_iff a).1 ha
    · exact h.slots.inside a ha
    · exact h.inside j a (ha.inExtent s.codeSize)
  obtain ⟨s₁, newL, hs₁, hplaced⟩ := newList_spec (s := { s with slots := slots }) hok n
  have hl : (s.lists j).offset = none → min n (s.lists j).size = 0 := by
    intro ho
    have hsize := (h.lists j).size_le
    rw [(h.lists j).offset_eq_none.1 ho] at hsize
    omega
  have hnewL : newL.offset = none → min n (s.lists j).size = 0 := by
    intro ho
    have hsize := hplaced.list.size_le
    rw [hplaced.list.offset_eq_none.1 ho, hplaced.size_eq] at hsize
    omega
  have hs₁' : s₁.codeSize = s.codeSize ∧ s₁.ptr = s.ptr ∧ s₁.lists = s.lists ∧
      s₁.readOnly = s.readOnly ∧ s₁.nlist = s.nlist := by
    rw [hplaced.eq]
    exact ⟨rfl, rfl, rfl, rfl, rfl⟩
  obtain ⟨hcs, hptr, hlists, hro, hnl⟩ := hs₁'
  refine ⟨(s₁.setPtr (copiedPtr s.codeSize s.ptr (s.lists j) newL
    (min n (s.lists j).size))).setList j newL, ?_, ?_⟩
  · rw [resizeLocked]
    simp only [if_neg hn, hslots, Fault.bind_eq_ok]
    refine ⟨slots, rfl, (s₁, newL), hs₁, _, copyEntries_eq hl hnewL, ?_⟩
    rw [hcs, hptr]
    rfl
  · have hself : ((s₁.setPtr (copiedPtr s.codeSize s.ptr (s.lists j) newL
        (min n (s.lists j).size))).setList j newL).lists j = newL := setList_lists_self _ _ _
    have htotal := hplaced.total_eq
    rw [hfreed.total_eq] at htotal
    exact
      { codeSize_eq := hcs
        readOnly_eq := hro
        nlist_eq := hnl
        slots := hplaced.ok
        totsize_le := hplaced.totsize_le
        total_eq := by rw [hself]; exact htotal
        holds_iff := fun a ↦ by
          rw [hself, ← or_assoc, ← hfreed.holds_iff]
          exact hplaced.holds_iff a
        not_holds := fun a ha ↦ hplaced.not_holds a (hself ▸ ha)
        list := by rw [hself]; exact hplaced.list
        size_eq := by rw [hself]; exact hplaced.size_eq
        capacity_eq := by rw [hself]; exact hplaced.capacity_eq
        lists_of_ne := fun i hi ↦ (setList_lists_of_ne _ hi _).trans (congrFun hlists i)
        ptr_eq := by rw [hself]; rfl
        lands := fun o ho ho' ↦ h.landsOnItself hfreed hplaced hn ho (hself ▸ ho') }

/-- The layout stays well formed when a list moves. -/
theorem WellFormed.moved {s' : OnDiskInvertedLists} {j n : ℕ} (h : s.WellFormed)
    (hm : Moved s s' j n) : s'.WellFormed := by
  -- the new extent is apart from the extents of the other lists
  have hother : ∀ i ≠ j, ∀ a, (s.lists i).InExtent s.codeSize a →
      ¬ (s'.lists j).InExtent s.codeSize a ∧ ¬ Holds s'.slots a := by
    intro i hij a ha
    rw [← not_or, ← hm.holds_iff]
    rintro (hslot | hfreed | hnew)
    · exact h.apart i a ha hslot
    · exact hij (h.disjoint i j a ha (hfreed.inExtent s.codeSize))
    · exact absurd (h.inside i a ha) hnew.1.not_gt
  have hnew : ∀ a, (s'.lists j).InExtent s.codeSize a → a < s'.totsize := by
    intro a ha
    obtain hslot | hfreed | hgrown := (hm.holds_iff a).2 (.inl ha)
    · exact (h.slots.inside a hslot).trans_le hm.totsize_le
    · exact (h.inside j a (hfreed.inExtent s.codeSize)).trans_le hm.totsize_le
    · exact hgrown.2
  refine ⟨hm.readOnly_eq.trans h.writable, hm.slots, fun i ↦ ?_, ?_, ?_, ?_⟩
  · by_cases hij : i = j
    · rw [hij]
      exact hm.list
    · rw [hm.lists_of_ne i hij]
      exact h.lists i
  · rw [hm.codeSize_eq]
    intro i a ha
    by_cases hij : i = j
    · exact hnew a (hij ▸ ha)
    · rw [hm.lists_of_ne i hij] at ha
      exact (h.inside i a ha).trans_le hm.totsize_le
  · rw [hm.codeSize_eq]
    intro i a ha
    by_cases hij : i = j
    · exact hm.not_holds a (hij ▸ ha)
    · rw [hm.lists_of_ne i hij] at ha
      exact (hother i hij a ha).2
  · rw [hm.codeSize_eq]
    intro i k a hi hk
    by_cases hij : i = j
    · by_cases hkj : k = j
      · rw [hij, hkj]
      · rw [hm.lists_of_ne k hkj] at hk
        exact absurd (hij ▸ hi) (hother k hkj a hk).1
    · rw [hm.lists_of_ne i hij] at hi
      by_cases hkj : k = j
      · exact absurd (hkj ▸ hk) (hother i hij a hi).1
      · rw [hm.lists_of_ne k hkj] at hk
        exact h.disjoint i k a hi hk

/-- The layout stays well formed when a list stays. -/
theorem WellFormed.resizeLocked_of_stays (h : s.WellFormed) {j n : ℕ}
    (hn : Stays (s.lists j) n) :
    s.resizeLocked j n = .ok (s.setList j { s.lists j with size := n }) ∧
      (s.setList j { s.lists j with size := n }).WellFormed := by
  refine ⟨by rw [resizeLocked]; exact if_pos hn, ?_⟩
  -- the extents are the same
  have hext : ∀ i a, ((s.setList j { s.lists j with size := n }).lists i).InExtent s.codeSize a ↔
      (s.lists i).InExtent s.codeSize a := by
    intro i a
    by_cases hij : i = j
    · rw [hij, setList_lists_self]
      rfl
    · rw [setList_lists_of_ne _ hij]
  refine ⟨h.writable, h.slots, fun i ↦ ?_, fun i a ha ↦ h.inside i a ((hext i a).1 ha),
    fun i a ha ↦ h.apart i a ((hext i a).1 ha),
    fun i k a hi hk ↦ h.disjoint i k a ((hext i a).1 hi) ((hext k a).1 hk)⟩
  by_cases hij : i = j
  · rw [hij, setList_lists_self]
    exact ⟨hn.1, (h.lists j).offset_eq_none⟩
  · rw [setList_lists_of_ne _ hij]
    exact h.lists i

theorem WellFormed.setPtr (h : s.WellFormed) (m : ℕ → UInt8) : (s.setPtr m).WellFormed :=
  ⟨h.writable, h.slots, h.lists, h.inside, h.apart, h.disjoint⟩

/-- `update_entries` within the size of the list writes into its extent. -/
theorem WellFormed.updateEntries (h : s.WellFormed) {j offset : ℕ} {es : List Entry}
    (hle : es.length + offset ≤ s.listSize j) :
    s.updateEntries j offset es = .ok (s.setPtr (writeEntries s.codeSize s.ptr
      ((s.lists j).offset.getD 0) (s.lists j).capacity offset es)) := by
  by_cases hes : es = []
  · rw [hes, writeEntries_nil]
    exact updateEntries_nil h.writable j offset
  · cases ho : (s.lists j).offset with
    | none =>
        have hsize := (h.lists j).size_le
        have hlen := List.length_pos_of_ne_nil hes
        rw [(h.lists j).offset_eq_none.1 ho] at hsize
        rw [listSize] at hle
        omega
    | some o => exact updateEntries_eq h.writable ho hle hes

end OnDiskInvertedLists

end FaissNavix

/-!
# Entries that a move keeps

A list that moves to another offset keeps its entries: the new extent may start in the bytes that
were freed, but the ids of the old one are behind these bytes and are read before they are lost.  All
other lists keep their entries as well.
-/

namespace FaissNavix

open Lib (Holds)

namespace OnDiskInvertedLists

section Move

variable {codeSize o capacity o' capacity' n : ℕ} {m : ℕ → UInt8}

theorem moveEntries_of_outside (hn : n ≤ capacity') {a : ℕ}
    (ha : a < o' ∨ o' + capacity' * (sizeofIdx + codeSize) ≤ a) :
    moveEntries codeSize m o capacity o' capacity' n a = m a := by
  have hcodes := Nat.mul_le_mul_left codeSize hn
  have hids := Nat.mul_le_mul_left sizeofIdx hn
  rw [extent_eq] at ha
  rw [moveEntries, Lib.write_of_outside (by rw [Lib.length_read]; omega),
    Lib.write_of_outside (by rw [Lib.length_read]; omega)]

/-- Entries that are copied are read back, unless the codes are put over ids that are still to be
copied. -/
theorem extentEntry_moveEntries (hn : n ≤ capacity')
    (hids : o + codeSize * capacity + sizeofIdx * n ≤ o' ∨
      o' + codeSize * n ≤ o + codeSize * capacity) {i : ℕ} (hi : i < n) :
    extentEntry codeSize (moveEntries codeSize m o capacity o' capacity' n) o' capacity' i =
      extentEntry codeSize m o capacity i := by
  have hcodes := Nat.mul_le_mul_left codeSize hn
  have hid : Lib.record (moveEntries codeSize m o capacity o' capacity' n)
      (o' + codeSize * capacity') sizeofIdx i =
      Lib.record m (o + codeSize * capacity) sizeofIdx i := by
    rw [moveEntries, Lib.record_copy hi,
      Lib.record_write_of_disjoint hi (by rwa [Lib.length_read])]
  have hcode : Lib.record (moveEntries codeSize m o capacity o' capacity' n) o' codeSize i =
      Lib.record m o codeSize i := by
    rw [moveEntries, Lib.record_write_of_disjoint hi (.inl (by omega)), Lib.record_copy hi]
  rw [extentEntry, hid, hcode, extentEntry]

end Move

variable {s s' : OnDiskInvertedLists}

theorem WellFormed.entry_congr (h : s.WellFormed) {j i : ℕ} (hcs : s'.codeSize = s.codeSize)
    (hl : s'.lists j = s.lists j) (hi : i < (s.lists j).capacity)
    (hptr : ∀ a, (s.lists j).InExtent s.codeSize a → s'.ptr a = s.ptr a) :
    s'.entry j i = s.entry j i := by
  cases ho : (s.lists j).offset with
  | none =>
      rw [(h.lists j).offset_eq_none.1 ho] at hi
      exact absurd hi (Nat.not_lt_zero i)
  | some o =>
      rw [entry_eq hl ho, entry_eq rfl ho, hcs]
      exact extentEntry_congr hi fun a ha ha' ↦ hptr a ⟨o, ho, ha, ha'⟩

/-- From `s` to `s'`, list `j` gets the size `n`, and all entries that can be kept are. -/
structure Resized (s s' : OnDiskInvertedLists) (j n : ℕ) : Prop where
  wellFormed : s'.WellFormed
  codeSize_eq : s'.codeSize = s.codeSize
  size_eq : s'.listSize j = n
  entry_eq : ∀ i < min n (s.listSize j), s'.entry j i = s.entry j i
  size_of_ne : ∀ k ≠ j, s'.listSize k = s.listSize k
  entry_of_ne : ∀ k ≠ j, ∀ i < s.listSize k, s'.entry k i = s.entry k i

theorem WellFormed.resized_of_stays (h : s.WellFormed) {j n : ℕ} (hn : Stays (s.lists j) n) :
    Resized s (s.setList j { s.lists j with size := n }) j n where
  wellFormed := (h.resizeLocked_of_stays hn).2
  codeSize_eq := rfl
  size_eq := by rw [listSize, setList_lists_self]
  entry_eq i _ := by
    rw [entry, entry, setList_lists_self]
    rfl
  size_of_ne k hk := by rw [listSize, setList_lists_of_ne _ hk, listSize]
  entry_of_ne k hk i _ := by
    rw [entry, entry, setList_lists_of_ne _ hk]
    rfl

theorem Moved.ptr_of_not {j n : ℕ} (hm : Moved s s' j n) {a : ℕ}
    (ha : ¬ (s'.lists j).InExtent s.codeSize a) : s'.ptr a = s.ptr a := by
  rw [hm.ptr_eq, copiedPtr]
  cases (s.lists j).offset with
  | none => rfl
  | some o =>
      cases ho' : (s'.lists j).offset with
      | none => rfl
      | some o' =>
          simp only
          split
          · rfl
          · refine moveEntries_of_outside ?_ ?_
            · exact (Nat.min_le_left _ _).trans (hm.size_eq.symm.trans_le hm.list.size_le)
            · by_contra hin
              exact ha ⟨o', ho', by omega, by omega⟩

/-- A list that moves, and does not land on itself, keeps its entries. -/
theorem WellFormed.entry_of_moved (h : s.WellFormed) (hcs : 0 < s.codeSize) {j n : ℕ}
    (hm : Moved s s' j n) (hland : ¬ s.LandsOnItself j n) {i : ℕ}
    (hi : i < min n (s.listSize j)) : s'.entry j i = s.entry j i := by
  have hn : min n (s.lists j).size ≤ (s'.lists j).capacity :=
    (Nat.min_le_left _ _).trans (hm.size_eq.symm.trans_le hm.list.size_le)
  have hn' : min n (s.lists j).size ≤ (s.lists j).capacity :=
    (Nat.min_le_right _ _).trans (h.lists j).size_le
  rw [listSize] at hi
  have hcap : (s.lists j).capacity ≠ 0 := by omega
  have hcap' : (s'.lists j).capacity ≠ 0 := by omega
  obtain ⟨o, ho⟩ := Option.ne_none_iff_exists'.1 fun hnone ↦
    hcap ((h.lists j).offset_eq_none.1 hnone)
  obtain ⟨o', ho'⟩ := Option.ne_none_iff_exists'.1 fun hnone ↦
    hcap' (hm.list.offset_eq_none.1 hnone)
  have hne : o ≠ o' := by
    rintro rfl
    exact hland (hm.lands o ho ho')
  have hptr : s'.ptr = moveEntries s.codeSize s.ptr o (s.lists j).capacity o'
      (s'.lists j).capacity (min n (s.lists j).size) := by
    rw [hm.ptr_eq, copiedPtr, ho, ho']
    exact if_neg hne
  -- the bytes of the old extent that are not freed are not in the new one
  have hapart : ∀ a, o + (s.lists j).capacity ≤ a →
      a < o + (s.lists j).capacity * (sizeofIdx + s.codeSize) →
      ¬ (o' ≤ a ∧ a < o' + (s'.lists j).capacity * (sizeofIdx + s.codeSize)) := by
    intro a ha ha' hnew
    have hold : (s.lists j).InExtent s.codeSize a := ⟨o, ho, (Nat.le_add_right _ _).trans ha, ha'⟩
    obtain hslot | ⟨o₁, ho₁, -, hlt⟩ | hgrown := (hm.holds_iff a).2 (.inl ⟨o', ho', hnew⟩)
    · exact h.apart j a hold hslot
    · rw [ho] at ho₁
      cases ho₁
      exact absurd hlt ha.not_gt
    · exact absurd (h.inside j a hold) hgrown.1.not_gt
  have hids : o + s.codeSize * (s.lists j).capacity + sizeofIdx * min n (s.lists j).size ≤ o' ∨
      o' + s.codeSize * min n (s.lists j).size ≤ o + s.codeSize * (s.lists j).capacity := by
    have hfreed := Nat.le_mul_of_pos_left (s.lists j).capacity hcs
    have hcodes := Nat.mul_le_mul_left s.codeSize hn
    have hlast := Nat.mul_le_mul_left sizeofIdx hn'
    have hnew := Nat.mul_le_mul_left sizeofIdx hn
    have hpos : sizeofIdx ≤ sizeofIdx * min n (s.lists j).size :=
      Nat.le_mul_of_pos_right _ (Nat.zero_lt_of_lt hi)
    have hsz : 0 < sizeofIdx := by decide
    rw [extent_eq, extent_eq] at hapart
    have hstart := hapart o'
    have hfirst := hapart (o + s.codeSize * (s.lists j).capacity)
    omega
  rw [OnDiskInvertedLists.entry_eq rfl ho', OnDiskInvertedLists.entry_eq rfl ho, hm.codeSize_eq,
    hptr, extentEntry_moveEntries hn hids hi]

/-- `resize_locked` keeps all entries, unless the list lands on itself. -/
theorem WellFormed.resizeLocked (h : s.WellFormed) (hcs : 0 < s.codeSize) {j n : ℕ}
    (hland : ¬ s.LandsOnItself j n) :
    ∃ s', s.resizeLocked j n = .ok s' ∧ Resized s s' j n := by
  by_cases hn : Stays (s.lists j) n
  · exact ⟨_, (h.resizeLocked_of_stays hn).1, h.resized_of_stays hn⟩
  · obtain ⟨s', hs', hm⟩ := h.resizeLocked_of_not hn
    have hwf := h.moved hm
    refine ⟨s', hs', hwf, hm.codeSize_eq, hm.size_eq, fun i ↦ h.entry_of_moved hcs hm hland,
      fun k hk ↦ by rw [listSize, hm.lists_of_ne k hk, listSize], fun k hk i hi ↦ ?_⟩
    refine h.entry_congr hm.codeSize_eq (hm.lists_of_ne k hk) (hi.trans_le (h.lists k).size_le)
      fun a ha ↦ hm.ptr_of_not fun hnew ↦ hk ?_
    rw [← hm.codeSize_eq] at ha hnew
    rw [← hm.lists_of_ne k hk] at ha
    exact hwf.disjoint k j a ha hnew

end OnDiskInvertedLists

end FaissNavix
