import FaissNavix.BinaryIVF.CountSearch
import FaissNavix.Invlists.UpdateCodes

/-!
# Reconstructing binary vectors

`IndexBinaryIVF::reconstruct_n` and `IndexBinaryIVF::search_and_reconstruct` place the vectors of their
output `d` bytes apart, though a vector of `d` bits takes `code_size = d / 8` bytes, as in the functions of
`IndexBinary` that they override.  The output is a part of a memory of bytes, from address 0 on.
-/

namespace FaissNavix

open Function
open Lib (read write)

/-- An `IndexBinaryIVF` with its direct map. -/
structure MappedBinaryIVF extends IndexBinaryIVF where
  directMap : DirectMap
  ntotal : ℤ
  code_length : ∀ l, ∀ e ∈ list l, e.code.length = codeSize

namespace MappedBinaryIVF

variable {QP : Type} (ivf : MappedBinaryIVF)

/-- The dimension, in bits. -/
def d : ℕ := 8 * ivf.codeSize

/-- The lists, as the inverted lists that they are. -/
def invlists : ArrayInvertedLists := ⟨ivf.nlist, ivf.codeSize, ivf.list⟩

/-- `get_single_id` and `get_single_code` -/
def getSingle (listNo offset : ℕ) : Except Fault Entry := do
  Fault.assert (decide (listNo < ivf.nlist)) "list_no < nlist"
  ivf.invlists.getSingle listNo offset

/-- `reconstruct_from_offset` -/
def reconstructFromOffset (listNo offset : ℕ) (recons : ℕ) (m : ℕ → UInt8) : Except Fault (ℕ → UInt8) := do
  let e ← ivf.getSingle listNo offset
  return write m recons e.code

/-- `reconstruct` -/
def reconstruct (key : Idx) (recons : ℕ) (m : ℕ → UInt8) : Except Fault (ℕ → UInt8) := do
  let lo ← ivf.directMap.get key
  ivf.reconstructFromOffset (loListno lo.toUInt64).toNat (loOffset lo.toUInt64).toNat recons m

/-- `IndexBinary::reconstruct_n` -/
def baseReconstructN (i0 : ℤ) (ni : ℕ) (m : ℕ → UInt8) : Except Fault (ℕ → UInt8) :=
  (List.range ni).foldlM (fun m (i : ℕ) ↦ ivf.reconstruct (.ofInt (i0 + i)) (i * ivf.codeSize) m) m

/-- A turn of the loop of `reconstruct_n` over the entries of a list. -/
def reconstructEntry (i0 : ℤ) (ni listNo : ℕ) (m : ℕ → UInt8) (e : Entry × ℕ) :
    Except Fault (ℕ → UInt8) :=
  let id := e.1.id.toInt
  if ¬ (i0 ≤ id ∧ id < i0 + ni) then .ok m
  else ivf.reconstructFromOffset listNo e.2 ((id - i0).toNat * ivf.d) m

/-- `reconstruct_n` -/
def reconstructN (i0 : ℤ) (ni : ℕ) (m : ℕ → UInt8) : Except Fault (ℕ → UInt8) := do
  Fault.throwIfNot (decide (ni = 0 ∨ 0 ≤ i0 ∧ i0 + ni ≤ ivf.ntotal))
    "ni == 0 || (i0 >= 0 && i0 + ni <= ntotal)"
  (List.range ivf.nlist).foldlM (fun m listNo ↦
    (ivf.list listNo).zipIdx.foldlM (ivf.reconstructEntry i0 ni listNo) m) m

/-- A turn of the loops of `search_and_reconstruct` over the results, on the results and the memory. -/
def reconstructResult (s : List (ℤ × ℤ) × (ℕ → UInt8)) (ij : ℕ) :
    Option (List (ℤ × ℤ) × (ℕ → UInt8)) := do
  let (dis, key) ← s.1[ij]?
  let reconstructed := ij * ivf.d
  if key < 0 then some (s.1, write s.2 reconstructed (List.replicate ivf.d 0xff))
  else
    let listNo := IVFIndex.asInt (loListno (.ofInt key))
    let offset := IVFIndex.asInt (loOffset (.ofInt key))
    let e ← (ivf.getSingle listNo offset).toOption
    let m ← (ivf.reconstructFromOffset listNo offset reconstructed s.2).toOption
    some (s.1.set ij (dis, e.id.toInt), m)

/-- `search_and_reconstruct`, for the keys that the quantizer returns.  The results of the queries stand one
behind the other. -/
def searchAndReconstruct (params : Option (IVFSearchParameters QP)) (assertions : Bool) (turns n : ℕ)
    (x : ℕ → UInt8) (k : ℕ) (keys : ℕ → ℤ) (tab : ℕ → ℤ × ℤ) (allIdsPerDis : ℕ → ℤ) (m : ℕ → UInt8) :
    Option (List (ℤ × ℤ) × (ℕ → UInt8)) :=
  if params.isSome then none
  else if k = 0 then none
  else if ivf.nprobeOf params = 0 then none
  else do
    let rows ← ivf.searchPreassigned params assertions turns n x k keys tab allIdsPerDis true
    -- `ij = i * k + j`, for the rows `i` and their results `j`
    (List.range (n * k)).foldlM ivf.reconstructResult (rows.flatten, m)

/-- The vectors with these ids, of which those that are missing are `none`, have been reconstructed one behind
the other, and nothing else has been written. -/
structure Reconstructed (ids : List (Option Idx)) (m m' : ℕ → UInt8) : Prop where
  row : ∀ j id, ids[j]? = some (some id) → ∃ r, ivf.reconstruct id 0 m = .ok r ∧
    read m' (j * ivf.codeSize) ivf.codeSize = read r 0 ivf.codeSize
  outside : ∀ a, ids.length * ivf.codeSize ≤ a → m' a = m a

/-- The array map gives the place of every entry, in words that have room for it. -/
structure ArrayMapped : Prop where
  type : ivf.directMap.type = .array
  ntotal_eq : ivf.ntotal = ivf.directMap.array.length
  length_lt : ivf.directMap.array.length < 2 ^ 63
  nlist_le : ivf.nlist ≤ 2 ^ 31
  list_le : ∀ l < ivf.nlist, (ivf.list l).length ≤ 2 ^ 31
  entry : ∀ {l o : ℕ} {e : Entry}, ivf.invlists.At l o e → ∃ id < ivf.directMap.array.length,
    e.id = Int64.ofNat id ∧ ivf.directMap.array[id]? = some (loOf l o)

def Stores (id : ℤ) : Prop :=
  ∃ l o e, ivf.invlists.At l o e ∧ e.id.toInt = id

variable {ivf} {l o : ℕ} {e : Entry}

theorem ArrayMapped.lt_of_at (h : ivf.ArrayMapped) (hat : ivf.invlists.At l o e) :
    l < 2 ^ 31 ∧ o < 2 ^ 31 := by
  obtain ⟨hlt, -⟩ := List.getElem?_eq_some_iff.mp hat.2
  have hnlist := h.nlist_le
  have hl : l < ivf.nlist := hat.1
  have hlen := h.list_le l hl
  have hlt : o < (ivf.list l).length := hlt
  omega

theorem ArrayMapped.unique (h : ivf.ArrayMapped) {l' o' : ℕ} {e' : Entry} (hat : ivf.invlists.At l o e)
    (hat' : ivf.invlists.At l' o' e') (heq : e.id = e'.id) : l = l' ∧ o = o' := by
  obtain ⟨id, hid, hofNat, hlo⟩ := h.entry hat
  obtain ⟨id', hid', hofNat', hlo'⟩ := h.entry hat'
  have hlen := h.length_lt
  obtain rfl : id = id' :=
    ofNat_inj_of_lt (by omega) (by omega) (hofNat.symm.trans (heq.trans hofNat'))
  have := h.lt_of_at hat
  have := h.lt_of_at hat'
  refine loOf_inj (by omega) (by omega) (by omega) (by omega) ?_
  exact Option.some.inj (hlo.symm.trans hlo')

theorem getSingle_of_at (hat : ivf.invlists.At l o e) : ivf.getSingle l o = .ok e := by
  have hassert : decide (l < ivf.nlist) = true := decide_eq_true hat.1
  rw [getSingle, hassert, ArrayInvertedLists.getSingle, hat.2]
  rfl

theorem reconstructFromOffset_of_at (hat : ivf.invlists.At l o e) (recons : ℕ) (m : ℕ → UInt8) :
    ivf.reconstructFromOffset l o recons m = .ok (write m recons e.code) := by
  rw [reconstructFromOffset, getSingle_of_at hat]
  rfl

theorem code_length_of_at (hat : ivf.invlists.At l o e) : e.code.length = ivf.codeSize :=
  ivf.code_length l e (List.mem_of_getElem? hat.2)

theorem ArrayMapped.reconstruct (h : ivf.ArrayMapped) (hat : ivf.invlists.At l o e) (recons : ℕ)
    (m : ℕ → UInt8) : ivf.reconstruct e.id recons m = .ok (write m recons e.code) := by
  obtain ⟨id, -, heq, hlo⟩ := h.entry hat
  obtain ⟨hl, ho⟩ := h.lt_of_at hat
  have hlookup : ivf.directMap.get e.id = .ok (loOf l o) := by
    rw [heq]
    exact DirectMap.get_of_array h.type h.length_lt hlo (loOf_nonneg hl (by omega))
  rw [MappedBinaryIVF.reconstruct, hlookup]
  change ivf.reconstructFromOffset _ _ _ _ = _
  rw [loListno_loOf (by omega) (by omega), loOffset_loOf (by omega) (by omega),
    reconstructFromOffset_of_at hat]

/-! ## Ranges of ids -/

def entries (ivf : MappedBinaryIVF) : List Entry :=
  (List.range ivf.nlist).flatMap ivf.list

def inRange (i0 : ℤ) (ni : ℕ) (e : Entry) : Bool :=
  decide (i0 ≤ e.id.toInt ∧ e.id.toInt < i0 + ni)

/-- What `reconstruct_n` writes for an entry. -/
def put (ivf : MappedBinaryIVF) (i0 : ℤ) (m : ℕ → UInt8) (e : Entry) : ℕ → UInt8 :=
  write m ((e.id.toInt - i0).toNat * ivf.d) e.code

theorem mem_entries_iff : e ∈ ivf.entries ↔ ∃ l o, ivf.invlists.At l o e := by
  constructor
  · intro he
    obtain ⟨l, hl, he⟩ := List.mem_flatMap.mp he
    obtain ⟨o, ho, rfl⟩ := List.mem_iff_getElem.mp he
    exact ⟨l, o, List.mem_range.mp hl, List.getElem?_eq_getElem ho⟩
  · rintro ⟨l, o, hl, he⟩
    exact List.mem_flatMap.mpr ⟨l, List.mem_range.mpr hl, List.mem_of_getElem? he⟩

theorem ArrayMapped.pairwise_entries (h : ivf.ArrayMapped) :
    ivf.entries.Pairwise fun e e' ↦ e.id ≠ e'.id := by
  refine List.pairwise_flatMap.mpr ⟨fun l hl ↦ ?_, ?_⟩
  · have hl := List.mem_range.mp hl
    refine List.pairwise_iff_getElem.mpr fun o o' ho ho' hlt heq ↦ ?_
    have := (h.unique ⟨hl, List.getElem?_eq_getElem ho⟩ ⟨hl, List.getElem?_eq_getElem ho'⟩ heq).2
    omega
  · refine List.Pairwise.imp_of_mem ?_ (List.pairwise_lt_range (n := ivf.nlist))
    intro l l' hl hl' hlt e he e' he' heq
    obtain ⟨o, ho, rfl⟩ := List.mem_iff_getElem.mp he
    obtain ⟨o', ho', rfl⟩ := List.mem_iff_getElem.mp he'
    have := (h.unique ⟨List.mem_range.mp hl, List.getElem?_eq_getElem ho⟩
      ⟨List.mem_range.mp hl', List.getElem?_eq_getElem ho'⟩ heq).1
    omega

/-- The loops of `reconstruct_n` write the entries in the range. -/
theorem reconstructN_eq {i0 : ℤ} {ni : ℕ} (hcheck : ni = 0 ∨ 0 ≤ i0 ∧ i0 + ni ≤ ivf.ntotal)
    (m : ℕ → UInt8) :
    ivf.reconstructN i0 ni m = .ok ((ivf.entries.filter (inRange i0 ni)).foldl (ivf.put i0) m) := by
  have hlist : ∀ l ∈ List.range ivf.nlist, ∀ m,
      (ivf.list l).zipIdx.foldlM (ivf.reconstructEntry i0 ni l) m =
        .ok (((ivf.list l).filter (inRange i0 ni)).foldl (ivf.put i0) m) := by
    intro l hl m
    have hrun := (Lib.foldlM_of_ok (l := (ivf.list l).zipIdx) (f := ivf.reconstructEntry i0 ni l)
      (g := fun m e ↦ if inRange i0 ni e.1 then ivf.put i0 m e.1 else m) (fun _ ↦ True)
      (fun e he m _ ↦ ⟨?_, trivial⟩) (s := m) trivial).1
    · rw [hrun, List.foldl_filter]
      have hfst : (ivf.list l) = (ivf.list l).zipIdx.map Prod.fst := (List.zipIdx_map_fst _ _).symm
      conv_rhs => rw [hfst, List.foldl_map]
    · have hat : ivf.invlists.At l e.2 e.1 :=
        ⟨List.mem_range.mp hl, List.mk_mem_zipIdx_iff_getElem?.mp he⟩
      unfold reconstructEntry inRange put
      by_cases hin : i0 ≤ e.1.id.toInt ∧ e.1.id.toInt < i0 + ni
      · rw [if_neg (not_not.mpr hin), if_pos (decide_eq_true hin), reconstructFromOffset_of_at hat]
      · rw [if_pos hin, if_neg (by rw [decide_eq_true_iff]; exact hin)]
  have hcheck : decide (ni = 0 ∨ 0 ≤ i0 ∧ i0 + ni ≤ ivf.ntotal) = true := decide_eq_true hcheck
  rw [reconstructN, hcheck]
  have hrun := (Lib.foldlM_of_ok (l := List.range ivf.nlist)
    (f := fun m l ↦ (ivf.list l).zipIdx.foldlM (ivf.reconstructEntry i0 ni l) m)
    (g := fun m l ↦ ((ivf.list l).filter (inRange i0 ni)).foldl (ivf.put i0) m) (fun _ ↦ True)
    (fun l hl m _ ↦ ⟨hlist l hl m, trivial⟩) (s := m) trivial).1
  refine hrun.trans ?_
  rw [entries, List.filter_flatMap, List.foldl_flatMap]

theorem mem_filter_inRange {i0 : ℤ} {ni : ℕ} : e ∈ ivf.entries.filter (inRange i0 ni) ↔
    e ∈ ivf.entries ∧ i0 ≤ e.id.toInt ∧ e.id.toInt < i0 + ni := by
  rw [List.mem_filter, inRange, decide_eq_true_iff]

/-- The vectors of a range are written to different places, whatever the order of the lists. -/
theorem ArrayMapped.pairwise_places (h : ivf.ArrayMapped) (i0 : ℤ) (ni : ℕ) :
    (ivf.entries.filter (inRange i0 ni)).Pairwise fun e e' ↦
      (e.id.toInt - i0).toNat * ivf.d + ivf.codeSize ≤ (e'.id.toInt - i0).toNat * ivf.d ∨
      (e'.id.toInt - i0).toNat * ivf.d + ivf.codeSize ≤ (e.id.toInt - i0).toNat * ivf.d := by
  have hstride : ∀ a b : ℕ, a < b → a * ivf.d + ivf.codeSize ≤ b * ivf.d := by
    intro a b hlt
    calc a * ivf.d + ivf.codeSize ≤ a * ivf.d + ivf.d := by rw [d]; omega
      _ = (a + 1) * ivf.d := by rw [Nat.add_mul, Nat.one_mul]
      _ ≤ b * ivf.d := Nat.mul_le_mul_right _ hlt
  refine List.Pairwise.imp_of_mem ?_ (h.pairwise_entries.filter (inRange i0 ni))
  intro e e' he he' hne
  obtain ⟨-, hlo, -⟩ := mem_filter_inRange.mp he
  obtain ⟨-, hlo', -⟩ := mem_filter_inRange.mp he'
  have hne : e.id.toInt ≠ e'.id.toInt := fun heq ↦ hne (Int64.toInt_inj.mp heq)
  rcases Nat.lt_or_gt_of_ne (show (e.id.toInt - i0).toNat ≠ (e'.id.toInt - i0).toNat by omega) with hlt | hlt
  · exact Or.inl (hstride _ _ hlt)
  · exact Or.inr (hstride _ _ hlt)

theorem ArrayMapped.read_put (h : ivf.ArrayMapped) (i0 : ℤ) (ni : ℕ) (hat : ivf.invlists.At l o e)
    (hlo : i0 ≤ e.id.toInt) (hhi : e.id.toInt < i0 + ni) (m : ℕ → UInt8) :
    read ((ivf.entries.filter (inRange i0 ni)).foldl (ivf.put i0) m) ((e.id.toInt - i0).toNat * ivf.d)
      ivf.codeSize = e.code := by
  have hlen : ∀ e ∈ ivf.entries.filter (inRange i0 ni), e.code.length = ivf.codeSize := by
    intro e he
    obtain ⟨l, o, hat⟩ := mem_entries_iff.mp (mem_filter_inRange.mp he).1
    exact code_length_of_at hat
  have hmem : e ∈ ivf.entries.filter (inRange i0 ni) :=
    mem_filter_inRange.mpr ⟨mem_entries_iff.mpr ⟨l, o, hat⟩, hlo, hhi⟩
  exact Lib.read_foldl_write_of_mem (h.pairwise_places i0 ni) hlen hmem m

theorem getD_read {m : ℕ → UInt8} {a n : ℕ} (hn : n ≠ 0) : (read m a n).getD 0 0 = m a := by
  obtain ⟨n, rfl⟩ := Nat.exists_eq_succ_of_ne_zero hn
  rw [Lib.read.eq_1, List.range_succ_eq_map]
  rfl

theorem foldl_put_of_outside {i0 : ℤ} {es : List Entry} {a : ℕ}
    (hes : ∀ e ∈ es, a < (e.id.toInt - i0).toNat * ivf.d ∨
      (e.id.toInt - i0).toNat * ivf.d + e.code.length ≤ a) (m : ℕ → UInt8) :
    es.foldl (ivf.put i0) m a = m a := by
  induction es generalizing m with
  | nil => rfl
  | cons e es ih =>
      rw [List.foldl_cons, ih fun e' he' ↦ hes e' (List.mem_cons_of_mem e he')]
      exact Lib.write_of_outside (hes e List.mem_cons_self)

def idsFrom (i0 : ℤ) (ni : ℕ) : List (Option Idx) :=
  (List.range ni).map fun (i : ℕ) ↦ some (.ofInt (i0 + i))

theorem idsFrom_getElem? {i0 : ℤ} {ni j : ℕ} {id : Idx} (h : (idsFrom i0 ni)[j]? = some (some id)) :
    j < ni ∧ id = .ofInt (i0 + j) := by
  rw [idsFrom, List.getElem?_map, Option.map_eq_some_iff] at h
  obtain ⟨i, hi, hid⟩ := h
  obtain ⟨hj, rfl⟩ := List.getElem?_eq_some_iff.mp hi
  rw [List.getElem_range] at hid
  exact ⟨List.length_range (n := ni) ▸ hj, (Option.some.inj hid).symm⟩

section
variable (h : ivf.ArrayMapped) {i0 : ℤ} {ni : ℕ}
include h

theorem ArrayMapped.id_bounds (hat : ivf.invlists.At l o e) :
    0 ≤ e.id.toInt ∧ e.id.toInt < ivf.ntotal := by
  obtain ⟨id, hid, heq, -⟩ := h.entry hat
  have hlen := h.length_lt
  rw [heq, toInt_ofNat_of_lt (by omega), h.ntotal_eq]
  omega

theorem ArrayMapped.check
    (hstores : ∀ j < ni, ivf.Stores (i0 + j)) : ni = 0 ∨ 0 ≤ i0 ∧ i0 + ni ≤ ivf.ntotal := by
  rcases Nat.eq_zero_or_pos ni with rfl | hpos
  · exact Or.inl rfl
  · obtain ⟨l, o, e, hat, hid⟩ := hstores 0 hpos
    obtain ⟨l', o', e', hat', hid'⟩ := hstores (ni - 1) (by omega)
    have := h.id_bounds hat
    have := h.id_bounds hat'
    omega

/-- Copying the codes of the ids one behind the other reconstructs them. -/
theorem ArrayMapped.reconstructed {m m' : ℕ → UInt8}
    (hstores : ∀ j < ni, ivf.Stores (i0 + j))
    (hrow : ∀ l o e, ivf.invlists.At l o e → ∀ j < ni, e.id.toInt = i0 + j →
      read m' (j * ivf.codeSize) ivf.codeSize = e.code)
    (hout : ∀ a, ni * ivf.codeSize ≤ a → m' a = m a) : ivf.Reconstructed (idsFrom i0 ni) m m' where
  row j id hid := by
    obtain ⟨hj, rfl⟩ := idsFrom_getElem? hid
    obtain ⟨l, o, e, hat, heq⟩ := hstores j hj
    refine ⟨write m 0 e.code, ?_, ?_⟩
    · rw [← heq, Int64.ofInt_toInt]
      exact h.reconstruct hat 0 m
    · rw [hrow l o e hat j hj heq, Lib.read_write_self (code_length_of_at hat)]
  outside a ha := by
    rw [idsFrom, List.length_map, List.length_range] at ha
    exact hout a ha

/-- The function of the base class puts the vectors one behind the other. -/
theorem ArrayMapped.baseReconstructN_reconstructed
    (hstores : ∀ j < ni, ivf.Stores (i0 + j)) (m : ℕ → UInt8) :
    ∃ m', ivf.baseReconstructN i0 ni m = .ok m' ∧ ivf.Reconstructed (idsFrom i0 ni) m m' := by
  have : Nonempty Entry := ⟨⟨0, []⟩⟩
  choose! l o e hat hid using hstores
  have hrun := (Lib.foldlM_of_ok (l := List.range ni)
    (f := fun m (i : ℕ) ↦ ivf.reconstruct (.ofInt (i0 + i)) (i * ivf.codeSize) m)
    (g := fun m i ↦ write m (0 + i * ivf.codeSize) (e i).code) (fun _ ↦ True)
    (fun i hi m _ ↦ ⟨by
      have hi := List.mem_range.mp hi
      rw [← hid i hi, Int64.ofInt_toInt, Nat.zero_add]
      exact h.reconstruct (hat i hi) _ m, trivial⟩) (s := m) trivial).1
  have hwritten := Lib.rowsWritten_foldl (fun i hi ↦ code_length_of_at (hat i hi)) m 0
  refine ⟨_, hrun, h.reconstructed (fun j hj ↦ ⟨_, _, _, hat j hj, hid j hj⟩) ?_ fun a ha ↦ ?_⟩
  · intro l' o' e' hat' j hj hid'
    have hentry : e' = e j := by
      have hplace := h.unique hat' (hat j hj) (Int64.toInt_inj.mp (hid'.trans (hid j hj).symm))
      have hfound := hat'.2
      rw [hplace.1, hplace.2] at hfound
      exact Option.some.inj (hfound.symm.trans (hat j hj).2)
    have hrow := hwritten.rows j hj
    rwa [Nat.zero_add, ← hentry] at hrow
  · exact hwritten.outside a (Or.inr (by rwa [Nat.zero_add]))

end

theorem exists_byte_ne (b : UInt8) : ∃ c, c ≠ b := by
  by_cases hzero : b = 0
  · exact ⟨1, by rw [hzero]; decide⟩
  · exact ⟨0, Ne.symm hzero⟩

/-- Whatever is written to the place of the last of several vectors is not where it belongs. -/
theorem not_reconstructed {ids : List (Option Idx)} {m m' : ℕ → UInt8} (hids : 2 ≤ ids.length)
    (hne : m' ((ids.length - 1) * ivf.d) ≠ m ((ids.length - 1) * ivf.d)) : ¬ ivf.Reconstructed ids m m' := by
  intro hrec
  refine hne (hrec.outside _ ?_)
  calc ids.length * ivf.codeSize ≤ ((ids.length - 1) * 8) * ivf.codeSize :=
        Nat.mul_le_mul_right _ (by omega)
    _ = (ids.length - 1) * ivf.d := by rw [d, Nat.mul_assoc]

/-- `reconstruct_n` puts the vectors where they belong for one vector only, or for vectors without bytes. -/
theorem ArrayMapped.reconstructN_reconstructed_iff (h : ivf.ArrayMapped) {i0 : ℤ} {ni : ℕ}
    (hstores : ∀ j < ni, ivf.Stores (i0 + j)) :
    (∀ m, ∃ m', ivf.reconstructN i0 ni m = .ok m' ∧ ivf.Reconstructed (idsFrom i0 ni) m m') ↔
      ni ≤ 1 ∨ ivf.codeSize = 0 := by
  have hcheck := h.check hstores
  constructor
  · intro hall
    by_contra! hboth
    obtain ⟨hni, hsize⟩ := hboth
    have hlength : (idsFrom i0 ni).length = ni := by rw [idsFrom, List.length_map, List.length_range]
    obtain ⟨l, o, e, hat, hid⟩ := hstores (ni - 1) (by omega)
    -- the memory differs from the first byte of the last vector
    obtain ⟨c, hc⟩ := exists_byte_ne (e.code.getD 0 0)
    obtain ⟨m', hm', hrec⟩ := hall fun _ ↦ c
    rw [reconstructN_eq hcheck] at hm'
    obtain rfl := Except.ok.inj hm'
    refine not_reconstructed (by rw [hlength]; exact hni) ?_ hrec
    have hplace : (e.id.toInt - i0).toNat = ni - 1 := by omega
    have hread := h.read_put i0 ni hat (by omega) (by omega) fun _ ↦ c
    rw [hplace] at hread
    have hbyte := congrArg (fun bytes ↦ bytes.getD 0 0) hread
    rw [hlength]
    rw [getD_read hsize] at hbyte
    rw [hbyte]
    exact Ne.symm hc
  · intro hcases m
    refine ⟨_, reconstructN_eq hcheck m, h.reconstructed hstores ?_ fun a ha ↦ ?_⟩
    · intro l o e hat j hj hid
      have hread := h.read_put i0 ni hat (by omega) (by omega) m
      have hplace : (e.id.toInt - i0).toNat * ivf.d = j * ivf.codeSize := by
        rw [show (e.id.toInt - i0).toNat = j by omega, d]
        rcases hcases with hone | hnone
        · rw [show j = 0 by omega, Nat.zero_mul, Nat.zero_mul]
        · rw [hnone]
      rwa [hplace] at hread
    · refine foldl_put_of_outside (fun e he ↦ Or.inr ?_) m
      obtain ⟨hmem, hlo, hhi⟩ := mem_filter_inRange.mp he
      obtain ⟨l, o, hat⟩ := mem_entries_iff.mp hmem
      rw [code_length_of_at hat]
      rcases hcases with hone | hnone
      · rw [show (e.id.toInt - i0).toNat = 0 by omega, Nat.zero_mul, Nat.zero_add]
        rwa [show ni = 1 by omega, Nat.one_mul] at ha
      · rw [d, hnone]
        exact Nat.zero_le a

end MappedBinaryIVF

end FaissNavix
