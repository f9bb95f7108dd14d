import FaissNavix.IVF.Search
import FaissNavix.Invlists.AddCore

/-!
# The standalone codec of an inverted file

`sa_encode` and `add_sa_codes` of `faiss/IndexIVF.cpp` with `encode_vectors` of
`faiss/IndexIVFFlat.cpp`: a vector becomes the bytes of the number of its list, and of its components.
Adding these codes is compared with `IndexIVFFlat::add_core` on the vectors themselves.
-/

namespace FaissNavix

open Function
open Lib

/-- `IndexIVFFlat` -/
structure IndexIVFFlat extends IndexIVF ArrayInvertedLists where
  byResidual : Bool

/-- `decode_listno` -/
def decodeListnoChecked (nlist : ℕ) (code : List UInt8) : Except Fault ℕ := do
  let listNo := decodeListno (nlist - 1) fun i ↦ code.getD i 0
  Fault.throwIfNot (decide (listNo < nlist)) "list_no >= 0 && list_no < nlist"
  return listNo

namespace IndexIVF

/-- The code of a vector in `encode_vectors`, with the number of its list. -/
def encodeVector (nlist codeSize : ℕ) (v : Assigned) : List UInt8 :=
  if 0 ≤ v.listNo then encodeListno (nlist - 1) v.listNo.toNat ++ v.code
  else List.replicate (coarseCodeSize (nlist - 1) + codeSize) 0

/-- A turn of the loop of `add_sa_codes`, on the lists and on the map. -/
def addSaCode (codes : List UInt8) (id : ℕ → Idx) (s : ArrayInvertedLists × DirectMapAdd) (i : ℕ) :
    Except Fault (ArrayInvertedLists × DirectMapAdd) := do
  let coarseSize := coarseCodeSize (s.1.nlist - 1)
  let code := codes.drop ((s.1.codeSize + coarseSize) * i)
  let listNo ← decodeListnoChecked s.1.nlist code
  let (il, ofs) := s.1.addEntries listNo [⟨id i, (code.drop coarseSize).take s.1.codeSize⟩]
  return (il, s.2.add i listNo ofs)

/-- `add_sa_codes` -/
def addSaCodes (ivf : IndexIVF ArrayInvertedLists) (n : ℕ) (codes : List UInt8)
    (xids : Option (List Idx)) (junk : ℕ) : Except Fault (IndexIVF ArrayInvertedLists) := do
  let adder ← DirectMapAdd.new ivf.directMap n xids junk
  let (invlists, adder) ←
    (List.range n).foldlM (addSaCode codes (newId ivf.ntotal xids)) (ivf.invlists, adder)
  return { ivf with invlists, directMap := adder.finish, ntotal := ivf.ntotal + n }

end IndexIVF

namespace IndexIVFFlat

open IndexIVF

variable (ivf : IndexIVFFlat) (vectors : List Assigned) (xids : Option (List Idx))

/-- `sa_encode`, where the quantizer has assigned the vectors. -/
def saEncode : Except Fault (List UInt8) := do
  Fault.throwIfNot ivf.isTrained "is_trained"
  Fault.throwIfNot (!ivf.byResidual) "!by_residual"
  return vectors.flatMap (encodeVector ivf.invlists.nlist ivf.invlists.codeSize)

/-- `add_with_ids`, where the quantizer has assigned the vectors: `add_core`, which has no blocks. -/
def addWithIds (order : List ℕ) (junk : ℕ) : Except Fault (IndexIVF ArrayInvertedLists) := do
  Fault.throwIfNot ivf.isTrained "is_trained"
  Fault.throwIfNot (!ivf.byResidual) "!by_residual"
  ivf.addBlock vectors xids order junk

/-- `add_sa_codes` of what `sa_encode` makes of the vectors. -/
def addEncoded (junk : ℕ) :
    Except Fault (IndexIVF ArrayInvertedLists) := do
  let codes ← ivf.saEncode vectors
  ivf.addSaCodes vectors.length codes xids junk

end IndexIVFFlat

namespace IndexIVF

/-! ## What is read back -/

/-- What a code stands for: without an assignment, a vector of zeros in the first list. -/
def encodedAs (codeSize : ℕ) (v : Assigned) : Assigned :=
  if 0 ≤ v.listNo then v else ⟨0, List.replicate codeSize 0⟩

variable {nlist codeSize : ℕ} {vectors : List Assigned} {v : Assigned}

theorem length_encodeVector (h : v.code.length = codeSize) :
    (encodeVector nlist codeSize v).length = codeSize + coarseCodeSize (nlist - 1) := by
  unfold encodeVector
  split
  · rw [List.length_append, length_encodeListno, h, Nat.add_comm]
  · rw [List.length_replicate, Nat.add_comm]

theorem encodeListno_zero (nl : ℕ) : encodeListno nl 0 = List.replicate (coarseCodeSize nl) 0 := by
  induction nl using Nat.strong_induction_on with
  | _ nl ih =>
      rw [encodeListno, coarseCodeSize]
      split
      · rfl
      · rw [Nat.zero_div, ih _ (Nat.div_lt_self (by omega) (by omega)), List.replicate_succ]
        rfl

theorem encodeVector_eq (v : Assigned) :
    encodeVector nlist codeSize v =
      encodeListno (nlist - 1) (encodedAs codeSize v).listNo.toNat ++ (encodedAs codeSize v).code := by
  unfold encodeVector encodedAs
  split
  · rfl
  · rw [List.replicate_add]
    exact congrArg (· ++ _) (encodeListno_zero _).symm

theorem drop_flatMap_encodeVector (hcodes : ∀ v ∈ vectors, v.code.length = codeSize) {i : ℕ}
    (hi : i < vectors.length) (nlist : ℕ) :
    ∃ rest, (vectors.flatMap (encodeVector nlist codeSize)).drop
        ((codeSize + coarseCodeSize (nlist - 1)) * i) =
      encodeVector nlist codeSize vectors[i] ++ rest := by
  induction vectors generalizing i with
  | nil => exact absurd hi (Nat.not_lt_zero i)
  | cons v vectors ih =>
      have hlen : (encodeVector nlist codeSize v).length = codeSize + coarseCodeSize (nlist - 1) :=
        length_encodeVector (hcodes v List.mem_cons_self)
      rw [List.flatMap_cons]
      cases i with
      | zero => exact ⟨_, rfl⟩
      | succ i =>
          obtain ⟨rest, hrest⟩ := ih (fun w hw ↦ hcodes w (List.mem_cons_of_mem v hw))
            (Nat.lt_of_succ_lt_succ hi)
          refine ⟨rest, ?_⟩
          rw [Nat.mul_succ, Nat.add_comm _ (codeSize + _), ← List.drop_drop, List.drop_left' hlen]
          exact hrest

theorem decodeListnoChecked_encode {l : ℕ} (h : l < nlist) (rest : List UInt8) :
    decodeListnoChecked nlist (encodeListno (nlist - 1) l ++ rest) = .ok l := by
  rw [decodeListnoChecked, decodeListno_encodeListno (by omega), decide_eq_true h]
  rfl

theorem encodedAs_nonneg (codeSize : ℕ) (v : Assigned) : 0 ≤ (encodedAs codeSize v).listNo := by
  unfold encodedAs
  split
  · assumption
  · exact le_rfl

theorem length_code_encodedAs (h : v.code.length = codeSize) :
    (encodedAs codeSize v).code.length = codeSize := by
  unfold encodedAs
  split
  · exact h
  · exact List.length_replicate

/-- A turn of the loop adds what the code stands for. -/
theorem addSaCode_eq {s : ArrayInvertedLists × DirectMapAdd} (id : ℕ → Idx) {i : ℕ}
    (hnlist : 0 < s.1.nlist) (hcodes : ∀ v ∈ vectors, v.code.length = s.1.codeSize)
    (hlists : ∀ v ∈ vectors, v.listNo < s.1.nlist) (hi : i < vectors.length) :
    addSaCode (vectors.flatMap (encodeVector s.1.nlist s.1.codeSize)) id s i =
      .ok (addVector id (vectors.map (encodedAs s.1.codeSize)) s i) := by
  have hdrop := drop_flatMap_encodeVector hcodes hi
  obtain ⟨rest, hrest⟩ := hdrop s.1.nlist
  have hv : vectors[i] ∈ vectors := List.getElem_mem hi
  have hget : (vectors.map (encodedAs s.1.codeSize))[i]? = some (encodedAs s.1.codeSize vectors[i]) := by
    rw [List.getElem?_map, List.getElem?_eq_getElem hi]
    rfl
  have hnonneg := encodedAs_nonneg s.1.codeSize vectors[i]
  have hlt : (encodedAs s.1.codeSize vectors[i]).listNo.toNat < s.1.nlist := by
    have := hlists _ hv
    unfold encodedAs
    split
    · omega
    · exact hnlist
  have hlen := length_code_encodedAs (hcodes _ hv)
  rw [encodeVector_eq] at hrest
  unfold addSaCode addVector
  rw [hget]
  dsimp only
  generalize encodedAs s.1.codeSize vectors[i] = w at hrest hnonneg hlt hlen ⊢
  have hcode : ((encodeListno (s.1.nlist - 1) w.listNo.toNat ++ w.code ++ rest).drop
      (coarseCodeSize (s.1.nlist - 1))).take s.1.codeSize = w.code := by
    rw [List.append_assoc, List.drop_left' (length_encodeListno _ _), List.take_left' hlen]
  rw [if_pos hnonneg, hrest, hcode, List.append_assoc, decodeListnoChecked_encode hlt]
  change Except.ok _ = Except.ok _
  rw [Int.toNat_of_nonneg hnonneg]

/-- Adding the codes adds what they stand for. -/
theorem addSaCodes_encode {ivf : IndexIVF ArrayInvertedLists} {xids : Option (List Idx)}
    (hnlist : 0 < ivf.invlists.nlist) (hids : ivf.directMap.type = .array → xids = none)
    (hcodes : ∀ v ∈ vectors, v.code.length = ivf.invlists.codeSize)
    (hlists : ∀ v ∈ vectors, v.listNo < ivf.invlists.nlist) (junk : ℕ) :
    let encoded := vectors.map (encodedAs ivf.invlists.codeSize)
    ivf.addSaCodes vectors.length
        (vectors.flatMap (encodeVector ivf.invlists.nlist ivf.invlists.codeSize)) xids junk =
      .ok { ivf with
        invlists := extend ivf.invlists (newId ivf.ntotal xids) encoded (List.range encoded.length)
        directMap := addedMap ivf.directMap ivf.invlists encoded xids junk
        ntotal := ivf.ntotal + vectors.length } := by
  intro encoded
  have hlength : encoded.length = vectors.length := List.length_map _
  have hnonneg : ∀ v ∈ encoded, -1 ≤ v.listNo := List.forall_mem_map.mpr fun v _ ↦ by
    have := encodedAs_nonneg ivf.invlists.codeSize v
    omega
  obtain ⟨a, ha⟩ := exists_directMapAdd encoded.length hids junk
  have hstep : ∀ i ∈ List.range encoded.length, ∀ s : ArrayInvertedLists × DirectMapAdd,
      s.1.nlist = ivf.invlists.nlist ∧ s.1.codeSize = ivf.invlists.codeSize →
      addSaCode (vectors.flatMap (encodeVector ivf.invlists.nlist ivf.invlists.codeSize))
          (newId ivf.ntotal xids) s i = .ok (addVector (newId ivf.ntotal xids) encoded s i) ∧
        (addVector (newId ivf.ntotal xids) encoded s i).1.nlist = ivf.invlists.nlist ∧
        (addVector (newId ivf.ntotal xids) encoded s i).1.codeSize = ivf.invlists.codeSize := by
    rintro i hi s ⟨hs, hsize⟩
    rw [List.mem_range, hlength] at hi
    obtain ⟨hs', hsize'⟩ := addVector_fst (newId ivf.ntotal xids) encoded s i
    refine ⟨?_, hs'.trans hs, hsize'.trans hsize⟩
    have hturn := addSaCode_eq (newId ivf.ntotal xids) (hs ▸ hnlist) (hsize ▸ hcodes)
      (hs ▸ hlists) hi
    rwa [hs, hsize] at hturn
  obtain ⟨hrun, -⟩ := foldlM_of_ok _ hstep (s := (ivf.invlists, a)) ⟨rfl, rfl⟩
  have hcall : ivf.addSaCodes encoded.length
      (vectors.flatMap (encodeVector ivf.invlists.nlist ivf.invlists.codeSize)) xids junk =
    (do
      let (invlists, adder) ← (List.range encoded.length).foldlM (addSaCode (vectors.flatMap
        (encodeVector ivf.invlists.nlist ivf.invlists.codeSize)) (newId ivf.ntotal xids))
        (ivf.invlists, a)
      return { ivf with invlists, directMap := adder.finish, ntotal := ivf.ntotal + encoded.length }) := by
    rw [addSaCodes, ha]
    rfl
  rw [← hlength, hcall, hrun, foldl_addVector hnonneg (threadOrder_range encoded), ← finish_foldl_addPlace ha]
  rfl

theorem listNoOf_encoded {i : ℕ} (hi : i < vectors.length) :
    listNoOf (vectors.map (encodedAs codeSize)) i =
      if 0 ≤ listNoOf vectors i then listNoOf vectors i else 0 := by
  rw [listNoOf, listNoOf, List.getElem?_map, List.getElem?_eq_getElem hi]
  change (encodedAs codeSize vectors[i]).listNo = if 0 ≤ vectors[i].listNo then vectors[i].listNo else 0
  unfold encodedAs
  split <;> rfl

theorem listNoOf_eq {i : ℕ} (hi : i < vectors.length) : listNoOf vectors i = vectors[i].listNo := by
  rw [listNoOf, List.getElem?_eq_getElem hi]
  rfl

theorem map_encodedAs (h : ∀ v ∈ vectors, 0 ≤ v.listNo) :
    vectors.map (encodedAs codeSize) = vectors :=
  (List.map_congr_left fun v hv ↦ if_pos (h v hv)).trans (List.map_id _)

/-- A vector that is not assigned gets into the first list. -/
theorem extend_encoded_ne {il : ArrayInvertedLists} {id : ℕ → Idx} (hv : v ∈ vectors)
    (hneg : v.listNo < 0) :
    extend il id (vectors.map (encodedAs codeSize)) (List.range vectors.length) ≠
      extend il id vectors (List.range vectors.length) := by
  intro h
  obtain ⟨i, hi, rfl⟩ := List.mem_iff_getElem.mp hv
  have hlists := congrArg (fun il : ArrayInvertedLists ↦ (il.lists 0).length) h
  simp only [extend, List.length_append, List.length_map, Nat.cast_zero] at hlists
  have hsub : ((List.range vectors.length).filter fun i ↦ listNoOf vectors i = 0).Sublist
      ((List.range vectors.length).filter fun i ↦
        listNoOf (vectors.map (encodedAs codeSize)) i = 0) := by
    have hfilter : (List.range vectors.length).filter (fun i ↦ listNoOf vectors i = 0) =
        ((List.range vectors.length).filter fun i ↦
          listNoOf (vectors.map (encodedAs codeSize)) i = 0).filter
            fun i ↦ listNoOf vectors i = 0 := by
      rw [List.filter_filter]
      refine List.filter_congr fun j hj ↦ ?_
      rw [listNoOf_encoded (List.mem_range.mp hj)]
      by_cases hzero : listNoOf vectors j = 0
      · rw [hzero]
        rfl
      · rw [decide_eq_false hzero, Bool.false_and]
    rw [hfilter]
    exact List.filter_sublist
  have hmem : i ∈ (List.range vectors.length).filter fun i ↦
      listNoOf (vectors.map (encodedAs codeSize)) i = 0 := by
    refine List.mem_filter.mpr ⟨List.mem_range.mpr hi, decide_eq_true ?_⟩
    rw [listNoOf_encoded hi, listNoOf_eq hi]
    exact if_neg (not_le.mpr hneg)
  rw [← hsub.eq_of_length (by omega)] at hmem
  have := listNoOf_of_mem_filter hmem
  rw [listNoOf_eq hi] at this
  omega

theorem addedMap_junk {dm : DirectMap} {il : ArrayInvertedLists} {xids : Option (List Idx)}
    (h : dm.type = .hashtable → xids.isSome ∨ vectors = []) (junk junk' : ℕ) :
    addedMap dm il vectors xids junk = addedMap dm il vectors xids junk' := by
  unfold addedMap
  cases htype : dm.type with
  | noMap => rfl
  | array => rfl
  | hashtable =>
      rcases h htype with hsome | rfl
      · obtain ⟨ids, rfl⟩ := Option.isSome_iff_exists.mp hsome
        rfl
      · rfl

theorem foldl_update_eq_none {is : List ℕ} {table : Idx → Option Idx} {key value : ℕ → Idx} {id : Idx} :
    is.foldl (fun table i ↦ update table (key i) (some (value i))) table id = none ↔
      table id = none ∧ ∀ i ∈ is, key i ≠ id := by
  induction is generalizing table with
  | nil => exact (and_iff_left fun i hi ↦ absurd hi List.not_mem_nil).symm
  | cons i is ih =>
      rw [List.foldl_cons, ih, List.forall_mem_cons, update_apply]
      by_cases h : id = key i
      · rw [if_pos h]
        exact ⟨fun hs ↦ absurd hs.1 (Option.some_ne_none _), fun hs ↦ absurd h.symm hs.2.1⟩
      · rw [if_neg h, and_congr_right_iff]
        exact fun _ ↦ (and_iff_right (Ne.symm h)).symm

/-- Ids that start where memory happens to say. -/
theorem addedMap_ne {dm : DirectMap} {il : ArrayInvertedLists} (htype : dm.type = .hashtable)
    (hne : vectors ≠ []) {id : Idx} (hfree : dm.hashtable id = none)
    (hid : vectors.length ≤ id.toUInt64.toNat) :
    addedMap dm il vectors none 0 ≠ addedMap dm il vectors none id.toUInt64.toNat := by
  intro h
  have hid' : id.toUInt64.toNat < 2 ^ 64 := id.toUInt64.toNat_lt
  have htable := congrArg (fun dm ↦ DirectMap.hashtable dm id) h
  unfold addedMap at htable
  simp only [htype] at htable
  have hsame := Iff.of_eq (congrArg (· = none) htable)
  simp only [foldl_update_eq_none, List.mem_range] at hsame
  have hpos : 0 < vectors.length := List.length_pos_iff.mpr hne
  refine (hsame.mp ⟨hfree, fun i hi heq ↦ ?_⟩).2 0 hpos ?_
  · have hword : (Int64.ofNat (0 + i)).toUInt64.toNat = i := by
      rw [Nat.zero_add, Int64.toUInt64_ofNat', UInt64.toNat_ofNat']
      exact Nat.mod_eq_of_lt (by omega)
    rw [heq] at hword
    omega
  · rw [Nat.add_zero]
    have hword : (Int64.ofNat id.toUInt64.toNat).toUInt64 = id.toUInt64 := by
      rw [Int64.toUInt64_ofNat', UInt64.ofNat_toNat]
    have hback := congrArg UInt64.toInt64 hword
    rwa [Int64.toInt64_toUInt64, Int64.toInt64_toUInt64] at hback

end IndexIVF

/-! ## When the two agree -/

namespace IndexIVFFlat

open IndexIVF

variable {ivf : IndexIVFFlat} {vectors : List Assigned} {xids : Option (List Idx)}

/-- Vectors of the index with their assignments, which may be `-1`.  A hash table does not have all
numbers as its keys. -/
structure Batch (ivf : IndexIVFFlat) (vectors : List Assigned) : Prop where
  codes : ∀ v ∈ vectors, v.code.length = ivf.invlists.codeSize
  lists : ∀ v ∈ vectors, -1 ≤ v.listNo ∧ v.listNo < ivf.invlists.nlist
  free : ivf.directMap.type = .hashtable →
    ∃ id : Idx, ivf.directMap.hashtable id = none ∧ vectors.length ≤ id.toUInt64.toNat

def Refused (ivf : IndexIVFFlat) (xids : Option (List Idx)) : Prop :=
  ivf.isTrained = false ∨ ivf.byResidual = true ∨
    ivf.directMap.type = .array ∧ xids.isSome = true

theorem Refused.throws (h : Refused ivf xids) (vectors : List Assigned) (order : List ℕ)
    (junk junk' : ℕ) : (ivf.addEncoded vectors xids junk).toOption = none ∧
      (ivf.addWithIds vectors xids order junk').toOption = none := by
  unfold addEncoded saEncode addWithIds
  rcases h with htrained | hresidual | ⟨htype, hsome⟩
  · rw [htrained]
    exact ⟨rfl, rfl⟩
  · rw [hresidual]
    cases ivf.isTrained <;> exact ⟨rfl, rfl⟩
  · obtain ⟨ids, rfl⟩ := Option.isSome_iff_exists.mp hsome
    have hnew : ∀ n junk, ∃ e, DirectMapAdd.new ivf.directMap n (some ids) junk = .error e :=
      fun n junk ↦ by
        unfold DirectMapAdd.new
        rw [htype]
        exact ⟨_, rfl⟩
    have hcheck : ∃ e, ivf.directMap.checkCanAdd (some ids) = .error e := ⟨_, if_pos ⟨htype, rfl⟩⟩
    obtain ⟨e, he⟩ := hnew vectors.length junk
    obtain ⟨e', he'⟩ := hcheck
    unfold addSaCodes addBlock
    cases htrained : ivf.isTrained
    · exact ⟨rfl, rfl⟩
    · cases ivf.byResidual
      · rw [he, he']
        exact ⟨rfl, rfl⟩
      · exact ⟨rfl, rfl⟩

/-- What the two additions leave when they do not throw. -/
theorem adds_eq (hnlist : 0 < ivf.invlists.nlist) (h : ivf.Batch vectors) (hadd : ¬Refused ivf xids)
    {order : List ℕ} (horder : ThreadOrder vectors order) (junk junk' : ℕ) :
    let encoded := vectors.map (encodedAs ivf.invlists.codeSize)
    let after := fun vectors' junk ↦ ({ ivf.toIndexIVF with
      invlists := extend ivf.invlists (newId ivf.ntotal xids) vectors' (List.range vectors.length)
      directMap := addedMap ivf.directMap ivf.invlists vectors' xids junk
      ntotal := ivf.ntotal + vectors.length } : IndexIVF ArrayInvertedLists)
    ivf.addEncoded vectors xids junk = .ok (after encoded junk) ∧
      ivf.addWithIds vectors xids order junk' = .ok (after vectors junk') := by
  intro encoded after
  obtain ⟨htrained, hadd⟩ := not_or.mp hadd
  obtain ⟨hresidual, hids⟩ := not_or.mp hadd
  rw [Bool.not_eq_false] at htrained
  rw [Bool.not_eq_true] at hresidual
  have hnone : ivf.directMap.type = .array → xids = none := fun htype ↦
    Option.not_isSome_iff_eq_none.mp fun hsome ↦ hids ⟨htype, hsome⟩
  have hencode : ivf.saEncode vectors =
      .ok (vectors.flatMap (encodeVector ivf.invlists.nlist ivf.invlists.codeSize)) := by
    rw [saEncode, htrained, hresidual]
    rfl
  constructor
  · have hadded := addSaCodes_encode hnlist hnone h.codes (fun v hv ↦ (h.lists v hv).2) junk
    dsimp only at hadded
    rw [List.length_map] at hadded
    rw [addEncoded, hencode]
    exact hadded
  · rw [addWithIds, htrained, hresidual]
    exact addBlock_eq htrained hnone (fun v hv ↦ (h.lists v hv).1) horder junk'

/-- Adding what the vectors are encoded to leaves the same index as adding the vectors, whatever the
order of the threads and the contents of memory that is not initialised, if and only if both throw, or
all vectors are assigned to lists and a hash table gets ids. -/
theorem addEncoded_agrees_iff (h : ivf.Batch vectors) (hnlist : 0 < ivf.invlists.nlist)
    (xids : Option (List Idx)) :
    ((∀ (order : List ℕ) (junk junk' : ℕ), ThreadOrder vectors order →
        (ivf.addEncoded vectors xids junk).toOption =
          (ivf.addWithIds vectors xids order junk').toOption) ↔
      Refused ivf xids ∨ (∀ v ∈ vectors, 0 ≤ v.listNo) ∧
        (ivf.directMap.type = .hashtable → xids.isSome = true ∨ vectors = [])) ∧
    ∀ l < ivf.invlists.nlist, ∀ rest : List UInt8, decodeListnoChecked ivf.invlists.nlist
      (encodeListno (ivf.invlists.nlist - 1) l ++ rest) = .ok l := by
  refine ⟨⟨fun hall ↦ ?_, fun hcond order junk junk' horder ↦ ?_⟩,
    fun l hl rest ↦ decodeListnoChecked_encode hl rest⟩
  · by_contra hcond
    obtain ⟨hadd, hcond⟩ := not_or.mp hcond
    have hsame : ∀ junk junk', _ := fun junk junk' ↦ by
      have hboth := hall _ junk junk' (threadOrder_range vectors)
      obtain ⟨hencoded, hadded⟩ := adds_eq hnlist h hadd (threadOrder_range vectors) junk junk'
      rw [hencoded, hadded] at hboth
      exact Option.some_inj.mp hboth
    have hassigned : ∀ v ∈ vectors, 0 ≤ v.listNo := fun v hv ↦ by
      by_contra hneg
      exact extend_encoded_ne hv (not_le.mp hneg) (congrArg IndexIVF.invlists (hsame 0 0))
    obtain ⟨htype, hempty⟩ := Classical.not_imp.mp fun himp ↦ hcond ⟨hassigned, himp⟩
    obtain ⟨hids, hne⟩ := not_or.mp hempty
    obtain ⟨id, hfree, hid⟩ := h.free htype
    have hmaps := congrArg IndexIVF.directMap (hsame 0 id.toUInt64.toNat)
    dsimp only at hmaps
    rw [map_encodedAs hassigned, Option.not_isSome_iff_eq_none.mp hids] at hmaps
    exact addedMap_ne htype hne hfree hid hmaps
  · rcases hcond with hadd | ⟨hassigned, hjunk⟩
    · obtain ⟨hencoded, hadded⟩ := hadd.throws vectors order junk junk'
      rw [hencoded, hadded]
    · by_cases hadd : Refused ivf xids
      · obtain ⟨hencoded, hadded⟩ := hadd.throws vectors order junk junk'
        rw [hencoded, hadded]
      · obtain ⟨hencoded, hadded⟩ := adds_eq hnlist h hadd horder junk junk'
        rw [hencoded, hadded, map_encodedAs hassigned]
        dsimp only
        rw [addedMap_junk hjunk junk junk']

/-- An empty index of two lists, for vectors of one component. -/
def twoEmptyLists (type : DirectMapType) : IndexIVFFlat where
  isTrained := true
  ntotal := 0
  directMap := { DirectMap.new with type }
  invlists := .empty 2 4
  byResidual := false

/-- Two vectors and their ids, the second one for list 1. -/
theorem addEncoded_agrees_iff_two :
    (∀ (order : List ℕ) (junk junk' : ℕ),
      ThreadOrder [⟨0, [0, 0, 128, 63]⟩, ⟨1, [0, 0, 0, 64]⟩] order →
      ((twoEmptyLists .hashtable).addEncoded [⟨0, [0, 0, 128, 63]⟩, ⟨1, [0, 0, 0, 64]⟩]
        (some [7, 9]) junk).toOption =
      ((twoEmptyLists .hashtable).addWithIds [⟨0, [0, 0, 128, 63]⟩, ⟨1, [0, 0, 0, 64]⟩]
        (some [7, 9]) order junk').toOption) ∧
    decodeListnoChecked 2 (encodeListno 1 1 ++ [0, 0, 0, 64]) = .ok 1 := by
  have h : (twoEmptyLists .hashtable).Batch [⟨0, [0, 0, 128, 63]⟩, ⟨1, [0, 0, 0, 64]⟩] :=
    ⟨by decide, by decide, fun _ ↦ ⟨2, rfl, by decide⟩⟩
  have hboth := addEncoded_agrees_iff h (by decide) (some [7, 9])
  exact ⟨hboth.1.mpr (Or.inr ⟨by decide, fun _ ↦ Or.inl rfl⟩), hboth.2 1 (by decide) _⟩

/-- A vector that the quantizer assigns to no list is skipped by the one and gets into the first list,
as a vector of zeros, with the other; and a hash table that gets no ids learns those that memory
happens to hold. -/
theorem addEncoded_agrees_iff_fails :
    let unassigned : List Assigned := [⟨-1, [0, 0, 128, 63]⟩]
    let assigned : List Assigned := [⟨0, [0, 0, 128, 63]⟩]
    let entries := fun ivf : IndexIVF ArrayInvertedLists ↦ ivf.invlists.lists 0
    let keys := fun ivf : IndexIVF ArrayInvertedLists ↦
      (ivf.directMap.hashtable 0, ivf.directMap.hashtable 5)
    ((twoEmptyLists .noMap).addEncoded unassigned none 0).map entries = .ok [⟨0, [0, 0, 0, 0]⟩] ∧
    ((twoEmptyLists .noMap).addWithIds unassigned none [0] 0).map entries = .ok [] ∧
    ((twoEmptyLists .hashtable).addEncoded assigned none 5).map keys = .ok (none, some 0) ∧
    ((twoEmptyLists .hashtable).addWithIds assigned none [0] 0).map keys = .ok (some 0, none) :=
  ⟨by decide +kernel, by decide, by decide +kernel, by decide⟩

end IndexIVFFlat

end FaissNavix
