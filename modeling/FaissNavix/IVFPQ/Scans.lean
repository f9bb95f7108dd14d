import FaissNavix.Hamming
import FaissNavix.IVFPQ.QueryTables
import FaissNavix.Lib.Buffer

/-!
# Scanning the codes of a list

The scanning functions of `IVFPQScannerT` in `faiss/IndexIVFPQ.cpp`, as the lists of what they add to
the results: the position of an entry and its distance.  The scan with tables and the polysemous scan
take four codes at a time, which changes nothing (`scanListWithTable_eq`, `scanListPolysemous_eq`).
-/

namespace FaissNavix

open Lib

variable {F : Type}

/-- What `skip_entry` of the results says, and the codes of the list. -/
structure ListCodes where
  ncode : ℕ
  code : ℕ → ℕ → UInt8
  skip : ℕ → Bool

namespace ListCodes

variable (list : ListCodes)

def selected : List ℕ := (List.range list.ncode).filter fun j ↦ !list.skip j

def inBlocks : ℕ := list.ncode / 4 * 4

end ListCodes

namespace IndexIVFPQ

variable (fl : Floats F) (ivfpq : IndexIVFPQ F) (tables : QueryTables F) (list : ListCodes)

/-- `dis0 + distance_single_code` -/
def tableDistance (j : ℕ) : F :=
  fl.add tables.dis0 (ivfpq.pq.distanceSingleCode fl tables.simTable (list.code j))

/-- The four results that are added at once. -/
def addFour (adds : List (ℕ × F)) (saved : List ℕ) : List (ℕ × F) :=
  let j0 := saved.getD 0 0
  let j1 := saved.getD 1 0
  let j2 := saved.getD 2 0
  let j3 := saved.getD 3 0
  let r := ivfpq.pq.distanceFourCodes fl tables.simTable (list.code j0) (list.code j1) (list.code j2)
    (list.code j3)
  adds ++ [(j0, fl.add tables.dis0 r.1), (j1, fl.add tables.dis0 r.2.1),
    (j2, fl.add tables.dis0 r.2.2.1), (j3, fl.add tables.dis0 r.2.2.2)]

def addOne (adds : List (ℕ × F)) (j : ℕ) : List (ℕ × F) :=
  adds ++ [(j, ivfpq.tableDistance fl tables list j)]

/-- `scan_list_with_table`, where `saved_j` is a list of up to four positions. -/
def scanListWithTable : List (ℕ × F) :=
  (buffered 4 (fun _ j ↦ (!list.skip j, ())) (ivfpq.addFour fl tables list) (ivfpq.addOne fl tables list)
    (List.range list.ncode) [] () []).2

/-- The distance that `scan_list_with_pointer` computes. -/
def pointerDistance (j : ℕ) : F :=
  (List.range ivfpq.pq.M).foldl (fun dis m ↦
    let ci := pqDecode ivfpq.pq.nbits (list.code j) m
    fl.add dis (fl.sub (tables.simTablePtrs m ci)
      (fl.mul fl.two (tables.simTable2 (m * ivfpq.pq.ksub + ci))))) tables.dis0

/-- `scan_list_with_pointer` -/
def scanListWithPointer : List (ℕ × F) :=
  list.selected.map fun j ↦ (j, ivfpq.pointerDistance fl tables list j)

variable (qi : ℕ → F) (key : ℤ)

section
variable (ht : Int32) (j mode : ℕ) (coarseDis : F)

/-- The distance that `scan_on_the_fly_dist` computes. -/
def onTheFlyDistance : F :=
  let decoded := ivfpq.pq.decode (list.code j)
  if ivfpq.metricType = .innerProduct then
    let dis0 := if ivfpq.byResidual then
      fl.innerProduct (ivfpq.quantizer.reconstruct key) qi ivfpq.pq.d else fl.zero
    fl.add dis0 (fl.innerProduct decoded qi ivfpq.pq.d)
  else
    let dvec := if ivfpq.byResidual then ivfpq.quantizer.computeResidual fl qi key else qi
    fl.l2sqr decoded dvec ivfpq.pq.d

/-- `scan_on_the_fly_dist` -/
def scanOnTheFlyDist : List (ℕ × F) :=
  list.selected.map fun j ↦ (j, ivfpq.onTheFlyDistance fl list qi key j)

/-! ## Polysemous filtering -/

/-- `hc.hamming` of a code and `q_code`. -/
def hammingTo : ℕ :=
  hamming ivfpq.pq.codeSize (fun i ↦ tables.qCode.getD i 0) (list.code j)

def keepsInBlock : Bool :=
  decide ((if list.skip j then 99999999 else (ivfpq.hammingTo tables list j : ℤ)) < ht.toInt)

/-- A turn of the loop over blocks of four: the results added, and the positions that are saved. -/
def polysemousBlock (s : List (ℕ × F) × List ℕ) (b : ℕ) : List (ℕ × F) × List ℕ :=
  let saved := s.2 ++ ((List.range' (4 * b) 4).filter (ivfpq.keepsInBlock tables list ht))
  if 4 ≤ saved.length then (ivfpq.addFour fl tables list s.1 saved, saved.drop 4) else (s.1, saved)

def keepsLeftover : Bool :=
  !list.skip j && decide ((ivfpq.hammingTo tables list j : ℤ) < ht.toInt)

/-- `scan_list_polysemous_hc`, with the threshold of the index. -/
def scanListPolysemous : List (ℕ × F) :=
  let ht := ivfpq.polysemousHt
  let s := (List.range (list.ncode / 4)).foldl (ivfpq.polysemousBlock fl tables list ht) ([], [])
  let adds := s.2.foldl (ivfpq.addOne fl tables list) s.1
  ((List.range' list.inBlocks (list.ncode - list.inBlocks)).filter
    (ivfpq.keepsLeftover tables list ht)).foldl (ivfpq.addOne fl tables list) adds

/-! ## The scanner -/

/-- `set_query` and `set_list` of an `IVFPQScanner`, which gives no parameters to its tables. -/
def setList : Option (QueryTables F) :=
  let ht := ivfpq.tablesHt (none : Option (IVFPQSearchParameters Unit))
  let tables := ivfpq.initQuery fl ht qi
  if mode = 2 then ivfpq.precomputeListTables fl ht qi key coarseDis tables
  else if mode = 1 then ivfpq.precomputeListTablePointers fl ht key coarseDis tables
  else some tables

/-- The scan that `scan_codes` and `scan_codes_range` of an `IVFPQScanner` choose. -/
def scanList : Option (List (ℕ × F)) :=
  if 0 < ivfpq.tablesHt (none : Option (IVFPQSearchParameters Unit)) then
    some (ivfpq.scanListPolysemous fl tables list)
  else if mode = 2 then some (ivfpq.scanListWithTable fl tables list)
  else if mode = 1 then some (ivfpq.scanListWithPointer fl tables list)
  else if mode = 0 then some (ivfpq.scanOnTheFlyDist fl list qi key)
  else none

/-- Setting a list, and scanning it. -/
def setAndScanList : Option (List (ℕ × F)) := do
  let tables ← ivfpq.setList fl qi key mode coarseDis
  ivfpq.scanList fl tables list qi key mode

end

/-! ## Four codes at a time -/

variable {fl ivfpq tables list} {qi key}

theorem foldl_addOne (js : List ℕ) (adds : List (ℕ × F)) :
    js.foldl (ivfpq.addOne fl tables list) adds =
      adds ++ js.map fun j ↦ (j, ivfpq.tableDistance fl tables list j) := by
  induction js generalizing adds with
  | nil => exact (List.append_nil adds).symm
  | cons j js ih => rw [List.foldl_cons, ih, addOne, List.append_assoc, List.map_cons,
      List.singleton_append]

theorem addFour_eq (adds : List (ℕ × F)) {saved : List ℕ} (h : 4 ≤ saved.length) :
    ivfpq.addFour fl tables list adds saved =
      (saved.take 4).foldl (ivfpq.addOne fl tables list) adds := by
  match saved, h with
  | j0 :: j1 :: j2 :: j3 :: saved, _ =>
      unfold addFour
      dsimp only
      rw [ivfpq.pq.distanceFourCodes_eq fl, foldl_addOne]
      rfl

theorem entered_filter (keep : ℕ → Bool) (js : List ℕ) :
    (entered (fun _ j ↦ (keep j, ())) js ()).2 = js.filter keep := by
  induction js with
  | nil => rfl
  | cons j js ih =>
      rw [entered, List.filter_cons]
      dsimp only
      rw [ih]

theorem scanListWithTable_eq :
    ivfpq.scanListWithTable fl tables list =
      list.selected.map fun j ↦ (j, ivfpq.tableDistance fl tables list j) := by
  unfold scanListWithTable
  rw [buffered_eq fun s buf hbuf ↦ ?_]
  · dsimp only
    rw [entered_filter, List.nil_append, foldl_addOne, List.nil_append]
    rfl
  · rw [addFour_eq s (Nat.le_of_eq hbuf.symm), List.take_of_length_le (Nat.le_of_eq hbuf)]

/-- The positions that the loop over blocks keeps, in its first `n` turns. -/
def keptInBlocks (ivfpq : IndexIVFPQ F) (tables : QueryTables F) (list : ListCodes) (ht : Int32) (n : ℕ) :
    List ℕ :=
  (List.range (4 * n)).filter (ivfpq.keepsInBlock tables list ht)

/-- The invariant of the loop over blocks is that what is added, followed by what is saved, is what the
blocks keep, and that less than four positions are saved. -/
theorem foldl_polysemousBlock (ht : Int32) (n : ℕ) :
    ∃ done saved, ivfpq.keptInBlocks tables list ht n = done ++ saved ∧ saved.length < 4 ∧
      (List.range n).foldl (ivfpq.polysemousBlock fl tables list ht) ([], []) =
        (done.map fun j ↦ (j, ivfpq.tableDistance fl tables list j), saved) := by
  induction n with
  | zero => exact ⟨[], [], rfl, Nat.succ_pos 3, rfl⟩
  | succ n ih =>
      obtain ⟨done, saved, hkept, hlen, hfold⟩ := ih
      have hblock : ivfpq.keptInBlocks tables list ht (n + 1) = done ++ (saved ++
          (List.range' (4 * n) 4).filter (ivfpq.keepsInBlock tables list ht)) := by
        rw [← List.append_assoc, ← hkept, keptInBlocks, keptInBlocks, ← List.filter_append,
          List.range_eq_range', List.range_eq_range', Nat.mul_succ, ← List.range'_append_1,
          Nat.zero_add]
      have hmore : ((List.range' (4 * n) 4).filter (ivfpq.keepsInBlock tables list ht)).length ≤ 4 :=
        (List.length_filter_le _ _).trans (Nat.le_of_eq List.length_range')
      rw [List.range_succ, List.foldl_append, hfold, List.foldl_cons, List.foldl_nil, polysemousBlock,
        hblock]
      dsimp only
      generalize (List.range' (4 * n) 4).filter (ivfpq.keepsInBlock tables list ht) = more at hmore ⊢
      by_cases hfour : 4 ≤ (saved ++ more).length
      · refine ⟨done ++ (saved ++ more).take 4, (saved ++ more).drop 4, ?_, ?_, ?_⟩
        · rw [List.append_assoc, List.take_append_drop]
        · rw [List.length_drop, List.length_append]
          omega
        · rw [if_pos hfour, addFour_eq _ hfour, foldl_addOne, List.map_append]
      · exact ⟨done, saved ++ more, rfl, not_le.mp hfour, if_neg hfour⟩

/-- The positions that a polysemous scan keeps. -/
def kept (ivfpq : IndexIVFPQ F) (tables : QueryTables F) (list : ListCodes) : List ℕ :=
  ((List.range list.inBlocks).filter (ivfpq.keepsInBlock tables list ivfpq.polysemousHt)) ++
    (List.range' list.inBlocks (list.ncode - list.inBlocks)).filter
      (ivfpq.keepsLeftover tables list ivfpq.polysemousHt)

theorem scanListPolysemous_eq :
    ivfpq.scanListPolysemous fl tables list =
      (ivfpq.kept tables list).map fun j ↦ (j, ivfpq.tableDistance fl tables list j) := by
  obtain ⟨done, saved, hkept, -, hfold⟩ :=
    @foldl_polysemousBlock F fl ivfpq tables list ivfpq.polysemousHt (list.ncode / 4)
  have hblocks : (List.range list.inBlocks).filter (ivfpq.keepsInBlock tables list ivfpq.polysemousHt) =
      done ++ saved := by
    rw [← hkept, keptInBlocks, ListCodes.inBlocks, Nat.mul_comm]
  unfold scanListPolysemous
  dsimp only
  rw [hfold, foldl_addOne, foldl_addOne, kept, hblocks, List.map_append, List.map_append]

/-! ## What a polysemous scan keeps -/

theorem positive_iff {ht : Int32} : 0 < ht ↔ 0 < ht.toInt := Int32.lt_iff_toInt_lt

theorem hammingTo_le (j : ℕ) : ivfpq.hammingTo tables list j ≤ 8 * ivfpq.pq.codeSize := by
  unfold hammingTo
  rw [hamming_eq]
  exact differing_le _ _ _

/-- The scans keep what passes the threshold and is not skipped, unless the threshold is above what
stands for the distance of an entry that is skipped. -/
theorem keepsInBlock_eq {ht : Int32} {j : ℕ} (h : ht.toInt ≤ 99999999 ∨ list.skip j = false) :
    ivfpq.keepsInBlock tables list ht j = ivfpq.keepsLeftover tables list ht j := by
  unfold keepsInBlock keepsLeftover
  cases hskip : list.skip j with
  | false => simp
  | true =>
      rw [hskip] at h
      have hle := h.resolve_right (Bool.noConfusion ·)
      simp [hle]

theorem range_split (list : ListCodes) : List.range list.ncode =
    List.range list.inBlocks ++ List.range' list.inBlocks (list.ncode - list.inBlocks) := by
  have hle : list.inBlocks ≤ list.ncode := Nat.div_mul_le_self _ _
  have happend := @List.range'_append_1 0 list.inBlocks (list.ncode - list.inBlocks)
  rw [Nat.zero_add, Nat.add_sub_cancel' hle] at happend
  rw [List.range_eq_range', List.range_eq_range', happend]

theorem kept_eq_filter (h : ivfpq.polysemousHt.toInt ≤ 99999999 ∨
    ∀ j < list.inBlocks, list.skip j = false) : ivfpq.kept tables list =
      (List.range list.ncode).filter (ivfpq.keepsLeftover tables list ivfpq.polysemousHt) := by
  rw [range_split, List.filter_append, kept]
  refine congrArg (· ++ _) (List.filter_congr fun j hj ↦ keepsInBlock_eq ?_)
  exact h.imp_right fun hall ↦ hall j (List.mem_range.mp hj)

/-- With a threshold that all codes pass, it keeps the selected entries, or also one that is skipped. -/
theorem kept_eq_selected_iff (hht : 8 * ivfpq.pq.codeSize < ivfpq.polysemousHt.toInt) :
    (ivfpq.kept tables list).Perm list.selected ↔
      ivfpq.polysemousHt.toInt ≤ 99999999 ∨ ∀ j < list.inBlocks, list.skip j = false := by
  constructor
  · intro hperm
    by_contra hnot
    obtain ⟨hlarge, hsome⟩ := not_or.mp hnot
    push Not at hsome
    obtain ⟨j, hj, hskip⟩ := hsome
    have hkeeps : ivfpq.keepsInBlock tables list ivfpq.polysemousHt j = true := by
      unfold keepsInBlock
      simp only [ne_eq, Bool.not_eq_false] at hskip
      rw [hskip, if_pos rfl]
      exact decide_eq_true (not_le.mp hlarge)
    have hmem : j ∈ ivfpq.kept tables list :=
      List.mem_append_left _ (List.mem_filter.mpr ⟨List.mem_range.mpr hj, hkeeps⟩)
    have hsel := (List.mem_filter.mp (hperm.mem_iff.mp hmem)).2
    simp only [Bool.not_eq_true'] at hsel
    exact hskip hsel
  · intro h
    rw [kept_eq_filter h, ListCodes.selected]
    refine List.Perm.of_eq (List.filter_congr fun j _ ↦ ?_)
    have hle : ivfpq.hammingTo tables list j ≤ 8 * ivfpq.pq.codeSize := hammingTo_le j
    unfold keepsLeftover
    rw [decide_eq_true (by omega), Bool.and_true]

end IndexIVFPQ

end FaissNavix
