import FaissNavix.Invlists.MergeRuns

/-!
# Ids after a merge

A merge with shifted ids is meant to give the sources consecutive ranges of ids.  The offsets that
it uses are those ranges' starts only if every source that has entries has as many as the first:
the running sum is one source ahead, by the size of the source less that of the first.
-/

namespace FaissNavix

namespace OnDiskInvertedLists

/-! ## Consecutive ranges -/

/-- For each source, the number of entries of the sources before it, and `n` more. -/
def entriesBefore : ℕ → List InvertedLists → List ℕ
  | _, [] => []
  | n, il :: ils => n :: entriesBefore (n + il.computeNtotal) ils

/-- List `j` of the sources, one after the other, with the ids moved by the given offsets. -/
def shiftedEntries (offsets : List ℕ) (ils : List InvertedLists) (j : ℕ) : List Entry :=
  (ils.zip offsets).flatMap (sourceEntries true j)

/-- The ids of the first `nlist` lists. -/
def allIds (nlist : ℕ) (es : ℕ → List Entry) : List Idx :=
  (List.range nlist).flatMap fun j ↦ (es j).map Entry.id

/-- The ids `a, …, a + n - 1`. -/
def idRange (a n : ℕ) : List Idx :=
  (List.range' a n).map Int64.ofNat

def totalEntries (ils : List InvertedLists) : ℕ :=
  (ils.map InvertedLists.computeNtotal).sum

/-- Every list is the concatenation of the lists of the sources, with the ids of each source moved
by the number of entries of the sources before it.  So the merged ids are `0, …, total - 1` if each
source uses its numbers `0, …, size - 1`. -/
def MergesConsecutively (ils : List InvertedLists) (nlist codeSize : ℕ) (order : List ℕ) : Prop :=
  ∃ s n, (empty nlist codeSize).mergeFromMultiple ils true order = .ok (s, n) ∧
    (∀ j < nlist, s.entries j = shiftedEntries (entriesBefore 0 ils) ils j) ∧
    ((∀ il ∈ ils, (allIds nlist il.list).Perm (idRange 0 il.computeNtotal)) →
      (allIds nlist s.entries).Perm (idRange 0 (totalEntries ils)))

/-- The first source has entries, and every other one has none or as many as the first. -/
def EvenTotals : List InvertedLists → Prop
  | [] => False
  | first :: ils => 0 < first.computeNtotal ∧
      ∀ il ∈ ils, il.computeNtotal = 0 ∨ il.computeNtotal = first.computeNtotal

/-! ## Where the offsets are right -/

theorem shiftedEntries_cons (d : ℕ) (offsets : List ℕ) (il : InvertedLists)
    (ils : List InvertedLists) (j : ℕ) :
    shiftedEntries (d :: offsets) (il :: ils) j =
      (il.list j).map (shiftEntry d) ++ shiftedEntries offsets ils j := by
  rw [shiftedEntries, List.zip_cons_cons, List.flatMap_cons]
  rfl

/-- Only offsets that differ by a multiple of the number of ids give the same entries. -/
theorem map_shiftEntry_inj {a b : ℕ} {es : List Entry} :
    es.map (shiftEntry a) = es.map (shiftEntry b) ↔ es = [] ∨ Int64.ofNat a = Int64.ofNat b := by
  cases es with
  | nil => exact iff_of_true rfl (.inl rfl)
  | cons e es =>
      constructor
      · intro h
        have hid : e.id + Int64.ofNat a = e.id + Int64.ofNat b :=
          congrArg Entry.id (List.cons.inj h).1
        exact .inr ((Int64.add_right_inj e.id).1 hid)
      · rintro (h | h)
        · cases h
        · have heq : shiftEntry a = shiftEntry b := by
            funext e
            rw [shiftEntry, h, shiftEntry]
          rw [heq]

theorem ofNat_add_inj {p x y : ℕ} (hx : x < 2 ^ 64) (hy : y < 2 ^ 64) :
    Int64.ofNat (p + x) = Int64.ofNat (p + y) ↔ x = y := by
  rw [Int64.ofNat_add, Int64.ofNat_add, Int64.add_right_inj]
  constructor
  · intro h
    have h64 : UInt64.ofNat x = UInt64.ofNat y := congrArg Int64.toUInt64 h
    have hnat := congrArg UInt64.toNat h64
    rwa [UInt64.toNat_ofNat', UInt64.toNat_ofNat', Nat.mod_eq_of_lt hx, Nat.mod_eq_of_lt hy] at hnat
  · rintro rfl
    rfl

theorem computeNtotal_eq_zero (il : InvertedLists) :
    il.computeNtotal = 0 ↔ ∀ j < il.nlist, il.list j = [] := by
  rw [InvertedLists.computeNtotal, InvertedLists.sizeBefore, Finset.sum_eq_zero_iff]
  simp only [Finset.mem_range, InvertedLists.listSize, List.length_eq_zero_iff]

/-- The sources after the first, where the offset so far is `p`: the offsets are right for those
without entries and for those that have as many as the first. -/
theorem shiftedEntries_eq_iff {ils : List InvertedLists} {nlist codeSize : ℕ}
    (hfits : Fits ils nlist codeSize) {first : ℕ} (hfirst : first < 2 ^ 64) (p : ℕ) :
    (∀ j < nlist, shiftedEntries (shiftIdOffsets true (some p) ils) ils j =
        shiftedEntries (entriesBefore (p + first) ils) ils j) ↔
      ∀ il ∈ ils, il.computeNtotal = 0 ∨ il.computeNtotal = first := by
  induction ils generalizing p with
  | nil => exact iff_of_true (fun j _ ↦ rfl) fun il hil ↦ absurd hil List.not_mem_nil
  | cons il ils ih =>
      have hoffsets : shiftIdOffsets true (some p) (il :: ils) = (p + il.computeNtotal) ::
          shiftIdOffsets true (some (p + il.computeNtotal)) ils := rfl
      have hbefore : entriesBefore (p + first) (il :: ils) = (p + first) ::
          entriesBefore (p + il.computeNtotal + first) ils := by
        rw [entriesBefore, Nat.add_right_comm]
      have hn : il.nlist = nlist := (hfits il List.mem_cons_self).1
      -- the entries of this source, and those of the sources after it
      have hsplit : ∀ j, shiftedEntries (shiftIdOffsets true (some p) (il :: ils)) (il :: ils) j =
          shiftedEntries (entriesBefore (p + first) (il :: ils)) (il :: ils) j ↔
          (il.list j = [] ∨ il.computeNtotal = first) ∧
            shiftedEntries (shiftIdOffsets true (some (p + il.computeNtotal)) ils) ils j =
              shiftedEntries (entriesBefore (p + il.computeNtotal + first) ils) ils j := by
        intro j
        rw [hoffsets, hbefore, shiftedEntries_cons, shiftedEntries_cons,
          ← ofNat_add_inj (p := p) il.computeNtotal_lt hfirst, ← map_shiftEntry_inj]
        constructor
        · intro h
          exact List.append_inj h (by rw [List.length_map, List.length_map])
        · rintro ⟨h, h'⟩
          rw [h, h']
      have hhead : (∀ j < nlist, il.list j = [] ∨ il.computeNtotal = first) ↔
          il.computeNtotal = 0 ∨ il.computeNtotal = first := by
        rw [computeNtotal_eq_zero, hn]
        constructor
        · intro h
          by_cases heq : il.computeNtotal = first
          · exact .inr heq
          · exact .inl fun j hj ↦ (h j hj).resolve_right heq
        · rintro (h | h) j hj
          · exact .inl (h j hj)
          · exact .inr h
      have htail := ih (fun x hx ↦ hfits x (List.mem_cons_of_mem _ hx)) (p + il.computeNtotal)
      simp only [hsplit, forall_and]
      rw [hhead, htail, List.forall_mem_cons]

/-! ## The merged ids -/

theorem perm_allIds_append (nlist : ℕ) (f g : ℕ → List Entry) :
    (allIds nlist fun j ↦ f j ++ g j).Perm (allIds nlist f ++ allIds nlist g) := by
  simp only [allIds, List.map_append]
  exact (List.flatMap_append_perm _ _ _).symm

theorem allIds_map_shiftEntry (nlist d : ℕ) (f : ℕ → List Entry) :
    allIds nlist (fun j ↦ (f j).map (shiftEntry d)) =
      (allIds nlist f).map (· + Int64.ofNat d) := by
  simp only [allIds, List.map_flatMap, List.map_map]
  rfl

theorem map_add_idRange (a n : ℕ) : (idRange 0 n).map (· + Int64.ofNat a) = idRange a n := by
  rw [idRange, idRange, List.map_map, List.range'_eq_map_range (s := a), List.map_map,
    ← List.range_eq_range']
  refine List.map_congr_left fun i _ ↦ ?_
  rw [Function.comp_apply, Function.comp_apply, Int64.ofNat_add, Int64.add_comm]

/-- Sources that use the numbers `0, …, size - 1` get consecutive ranges, from `a` on. -/
theorem perm_allIds_shiftedEntries {ils : List InvertedLists} {nlist : ℕ}
    (hids : ∀ il ∈ ils, (allIds nlist il.list).Perm (idRange 0 il.computeNtotal)) (a : ℕ) :
    (allIds nlist (shiftedEntries (entriesBefore a ils) ils)).Perm
      (idRange a (totalEntries ils)) := by
  induction ils generalizing a with
  | nil =>
      refine .of_eq (List.flatMap_eq_nil_iff.2 fun j _ ↦ rfl)
  | cons il ils ih =>
      have hcons : shiftedEntries (entriesBefore a (il :: ils)) (il :: ils) = fun j ↦
          (il.list j).map (shiftEntry a) ++
            shiftedEntries (entriesBefore (a + il.computeNtotal) ils) ils j := by
        funext j
        rw [entriesBefore, shiftedEntries_cons]
      have hhead := (hids il List.mem_cons_self).map (· + Int64.ofNat a)
      rw [← allIds_map_shiftEntry, map_add_idRange] at hhead
      have htail := ih (fun x hx ↦ hids x (List.mem_cons_of_mem _ hx)) (a + il.computeNtotal)
      rw [hcons]
      refine (perm_allIds_append nlist _ _).trans ((hhead.append htail).trans (.of_eq ?_))
      rw [idRange, idRange, ← List.map_append, List.range'_append_1]
      rfl

/-! ## All sources -/

theorem exists_listSize_pos {ils : List InvertedLists} {nlist codeSize : ℕ}
    (hfits : Fits ils nlist codeSize) :
    (∃ j < nlist, ∃ il ∈ ils, 0 < il.listSize j) ↔ ∃ il ∈ ils, il.computeNtotal ≠ 0 := by
  constructor
  · rintro ⟨j, hj, il, hil, hpos⟩
    have hn : il.nlist = nlist := (hfits il hil).1
    exact ⟨il, hil, (hpos.trans_le (il.listSize_le (hn ▸ hj))).ne'⟩
  · rintro ⟨il, hil, hne⟩
    rw [Ne, computeNtotal_eq_zero, (hfits il hil).1] at hne
    push Not at hne
    obtain ⟨j, hj, hlist⟩ := hne
    exact ⟨j, hj, il, hil, List.length_pos_iff.2 hlist⟩

theorem shiftedEntries_none_eq_iff {first : InvertedLists} {ils : List InvertedLists}
    {nlist codeSize : ℕ} (hfits : Fits (first :: ils) nlist codeSize) :
    (∀ j < nlist, shiftedEntries (shiftIdOffsets true none (first :: ils)) (first :: ils) j =
        shiftedEntries (entriesBefore 0 (first :: ils)) (first :: ils) j) ↔
      ∀ il ∈ ils, il.computeNtotal = 0 ∨ il.computeNtotal = first.computeNtotal := by
  have hoffsets : shiftIdOffsets true none (first :: ils) = 0 :: shiftIdOffsets true (some 0) ils :=
    rfl
  rw [← shiftedEntries_eq_iff (fun x hx ↦ hfits x (List.mem_cons_of_mem _ hx))
    first.computeNtotal_lt 0]
  simp only [hoffsets, entriesBefore, shiftedEntries_cons, List.append_cancel_left_eq]

/-- Consecutive ranges need sources of one size. -/
theorem MergesConsecutively.evenTotals {ils : List InvertedLists} {nlist codeSize : ℕ}
    (hfits : Fits ils nlist codeSize) {order : List ℕ} (horder : order.Perm (List.range nlist))
    (h : MergesConsecutively ils nlist codeSize order) : EvenTotals ils := by
  obtain ⟨s, n, hmerge, hentries, -⟩ := h
  by_cases hsome : ∃ j < nlist, ∃ il ∈ ils, 0 < il.listSize j
  · obtain ⟨s', hs', hentries'⟩ := mergeFromMultiple_of_exists hfits true horder hsome
    rw [hs'] at hmerge
    cases hmerge
    obtain ⟨il, hil, hne⟩ := (exists_listSize_pos hfits).1 hsome
    cases ils with
    | nil => exact absurd hil List.not_mem_nil
    | cons first ils =>
        have hrest := (shiftedEntries_none_eq_iff hfits).1 fun j hj ↦
          (hentries' j hj).symm.trans (hentries j hj)
        refine ⟨Nat.pos_of_ne_zero ?_, hrest⟩
        obtain rfl | hil := List.mem_cons.1 hil
        · exact hne
        · rw [← (hrest il hil).resolve_left hne]
          exact hne
  · rw [mergeFromMultiple_of_not hfits true order hsome] at hmerge
    cases hmerge

/-- A merge with shifted ids gives consecutive ranges exactly if the sources that have entries have
equally many, and the first has some. -/
theorem mergesConsecutively_iff {ils : List InvertedLists} {nlist codeSize : ℕ}
    (hfits : Fits ils nlist codeSize) {order : List ℕ} (horder : order.Perm (List.range nlist)) :
    MergesConsecutively ils nlist codeSize order ↔ EvenTotals ils := by
  refine ⟨fun h ↦ h.evenTotals hfits horder, fun h ↦ ?_⟩
  cases ils with
  | nil => exact h.elim
  | cons first ils =>
      have hsome := (exists_listSize_pos hfits).2 ⟨first, List.mem_cons_self, h.1.ne'⟩
      obtain ⟨s, hs, hentries⟩ := mergeFromMultiple_of_exists hfits true horder hsome
      have heq : ∀ j < nlist,
          s.entries j = shiftedEntries (entriesBefore 0 (first :: ils)) (first :: ils) j :=
        fun j hj ↦ (hentries j hj).trans ((shiftedEntries_none_eq_iff hfits).2 h.2 j hj)
      refine ⟨s, _, hs, heq, fun hids ↦ ?_⟩
      have hall : allIds nlist s.entries =
          allIds nlist (shiftedEntries (entriesBefore 0 (first :: ils)) (first :: ils)) :=
        List.flatMap_congr fun j hj ↦ congrArg (List.map Entry.id) (heq j (List.mem_range.1 hj))
      rw [hall]
      exact perm_allIds_shiftedEntries hids 0

/-- One list with the ids `0, …, n - 1`. -/
def oneList (n : ℕ) (hn : n < 2 ^ 64) : InvertedLists where
  nlist := 1
  codeSize := 1
  list _ := (idRange 0 n).map fun id ↦ ⟨id, [0]⟩
  code_length := by
    intro j e he
    obtain ⟨id, -, rfl⟩ := List.mem_map.1 he
    rfl
  total_lt := by simpa [idRange] using hn

theorem fits_oneList {m n : ℕ} (hm : m < 2 ^ 64) (hn : n < 2 ^ 64) :
    Fits [oneList m hm, oneList n hn] 1 1 := by
  intro il hil
  obtain rfl | hil := List.mem_cons.1 hil
  · exact ⟨rfl, rfl⟩
  · rw [List.eq_of_mem_singleton hil]
    exact ⟨rfl, rfl⟩

theorem mergesConsecutively_iff_oneList :
    MergesConsecutively [oneList 2 (by decide), oneList 2 (by decide)] 1 1 [0] ↔
      EvenTotals [oneList 2 (by decide), oneList 2 (by decide)] :=
  mergesConsecutively_iff (fits_oneList _ _) (List.Perm.refl _)

/-- The second of two sources, with one entry, is moved by its own size: the merged ids are 0, 1
and 1. -/
theorem not_forall_mergesConsecutively :
    ¬ ∀ (ils : List InvertedLists) (nlist codeSize : ℕ) (order : List ℕ),
      Fits ils nlist codeSize → order.Perm (List.range nlist) →
        MergesConsecutively ils nlist codeSize order := by
  intro h
  have hfits : Fits [oneList 2 (by decide), oneList 1 (by decide)] 1 1 := fits_oneList _ _
  have heven := (h _ 1 1 [0] hfits (List.Perm.refl _)).evenTotals hfits (List.Perm.refl _)
  have hone : (oneList 1 (by decide)).computeNtotal = 0 ∨
      (oneList 1 (by decide)).computeNtotal = (oneList 2 (by decide)).computeNtotal :=
    heven.2 _ List.mem_cons_self
  revert hone
  decide

end OnDiskInvertedLists

end FaissNavix
